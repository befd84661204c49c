import FormulaNet.Proofs.Healing

/-!
# Numbers as they are stored

An input that is accepted as a number, or that is blank, is stored as the written number that it stands for.
This text is accepted again, as the same number, so that each double is stored in one way
(`Net.run_literal_fixed`).
-/

namespace FormulaNet.Net

/-- A literal is stored as the number that it stands for. -/
theorem exists_number_of_meaning {net : Net} {host : NodeId} {text : String} {m : Meaning}
    (h : net.meaning host text = .ok m) (hm : m.content.isFormula = false) : ∃ x, m = ⟨.number x, x⟩ := by
  obtain hx | ⟨-, e, -, rfl⟩ := meaning_cases h
  · exact hx
  · cases hm

/-- What begins like a formula is not accepted as a literal. -/
theorem isFormula_of_meaning {net : Net} {host : NodeId} {text : String} {m : Meaning}
    (h : net.meaning host text = .ok m) (htext : IsFormulaText text.toList) : m.content.isFormula = true := by
  rw [meaning_eq_evaluation net host htext] at h
  cases hevaluation : net.evaluation net.valueOf host text with
  | ok evaluation =>
    rw [hevaluation] at h
    cases h
    rfl
  | error fault =>
    rw [hevaluation] at h
    cases h

/-- A node that has the input and is not stale has all that a literal stands for. -/
theorem stored_of_same_input {net : Net} (h : net.Intact) (hcurrent : Current (fun _ _ => False) net)
    {id : NodeId} {n : Node} (hn : net.node? id = some n) {m : Meaning} (hm : net.meaning id n.input = .ok m)
    (hliteral : m.content.isFormula = false) (hstale : n.isStale = false) :
    n.content = m.content ∧ n.result = some m.value := by
  cases hcontent : n.content with
  | formula t =>
    have hformula := isFormula_of_meaning hm (isFormulaText_of_formula h.sound hn hcontent)
    rw [hliteral] at hformula
    cases hformula
  | number x =>
    rw [Node.input, hcontent, Content.input, meaning_format] at hm
    cases hm
    obtain ⟨v, hv⟩ : ∃ v, n.result = some v :=
      Option.ne_none_iff_exists'.1 fun hnone => by simp [Node.isStale, hnone] at hstale
    rw [hcurrent.number id n x v hn hcontent hv] at hv
    exact ⟨rfl, hv⟩

/-- A number keeps its value while the formulas that read it are evaluated again. -/
theorem result_walkBelow_of_number {net : Net} {id : NodeId} {n : Node} (hn : net.node? id = some n)
    {x : Float} (hcontent : n.content = .number x) (hfault : (net.walkBelow id).fault = none) :
    ∃ n', (net.walkBelow id).net.node? id = some n' ∧ n'.content = n.content ∧ n'.result = n.result := by
  refine walkBelow_of_fault_eq_none (I := fun net' =>
    ∃ n', net'.node? id = some n' ∧ n'.content = n.content ∧ n'.result = n.result) ?_ ⟨n, hn, rfl, rfl⟩ hfault
  rintro net₁ y net₂ hr ⟨n₁, hn₁, hcontent₁, hresult₁⟩
  by_cases hy : id = y
  · subst hy
    obtain ⟨k, hk, ⟨-, -, rfl⟩ | ⟨t, m, ht, -, -⟩⟩ := refresh_eq_ok hr
    · exact ⟨n₁, hn₁, hcontent₁, hresult₁⟩
    · obtain rfl : n₁ = k := Option.some.inj (hn₁.symm.trans hk)
      cases hcontent.symm.trans (hcontent₁.symm.trans ht)
  · obtain ⟨n₂, hn₂, hcontent₂, hresult₂⟩ := node?_refresh_other hr hy hn₁
    exact ⟨n₂, hn₂, hcontent₂.trans hcontent₁, hresult₂.trans hresult₁⟩

/-- An accepted literal is stored, and it is the value of the node unless the walk over the formulas that read
the node has a fault. -/
theorem stored_submit {net : Net} (h : net.Intact) (hcurrent : Current (fun _ _ => False) net) {id : NodeId}
    {n : Node} (hn : net.node? id = some n) {text : String} {m : Meaning} (hm : net.meaning id text = .ok m)
    (hliteral : m.content.isFormula = false) :
    ∃ n', (net.submit id text false).net.node? id = some n' ∧ n'.content = m.content ∧
      ((net.submit id text false).fault = none → n'.result = some m.value) := by
  rw [submit, if_neg Bool.false_ne_true]
  have hadopted : ∃ n', (net.adopt id m).node? id = some n' ∧ n'.content = m.content ∧
      n'.result = some m.value := by
    rw [node?_adopt id hn, hn]
    exact ⟨_, rfl, by simp, by simp⟩
  obtain ⟨n', hn', hcontent, hresult⟩ := hadopted
  rcases setContent_cases hn text with
    ⟨hsame, heq⟩ | ⟨-, ⟨m', hm', -, heq⟩ | ⟨m', hm', -, heq⟩ | ⟨fault, hm', -⟩⟩
  · obtain ⟨rfl, hstale⟩ : n.input = text ∧ n.isStale = false := by simpa using hsame
    obtain ⟨hcontent, hresult⟩ := stored_of_same_input h hcurrent hn hm hliteral hstale
    rw [heq]
    exact ⟨n, hn, hcontent, fun _ => hresult⟩
  · obtain rfl : m' = m := Except.ok.inj (hm'.symm.trans hm)
    rw [heq]
    cases hfault : ((net.adopt id m').walkBelow id).fault with
    | none =>
      obtain ⟨x, hx⟩ := exists_number_of_meaning hm hliteral
      obtain ⟨k, hk, hkcontent, hkresult⟩ :=
        result_walkBelow_of_number hn' (hcontent.trans (congrArg Meaning.content hx)) hfault
      exact ⟨k, hk, hkcontent.trans hcontent, fun _ => hkresult.trans hresult⟩
    | some fault =>
      obtain ⟨-, k, hk, hkcontent⟩ := (keptByWalks_content hm).walkBelow id
        ⟨net.directory_adopt id m', n', hn', hcontent⟩
      exact ⟨k, hk, hkcontent, fun hnone => by cases hnone⟩
  · obtain rfl : m' = m := Except.ok.inj (hm'.symm.trans hm)
    rw [heq]
    exact ⟨n', hn', hcontent, fun _ => hresult⟩
  · cases hm.symm.trans hm'

/-- What holds of an accepted literal `m` after the outcome of its submission for a node. -/
structure LiteralFixed (m : Meaning) (id : NodeId) (outcome : Outcome) : Prop where
  /-- It is stored in the node, whose value it is unless the walk behind the node has a fault. -/
  stored : ∃ n, outcome.net.node? id = some n ∧ n.input = m.content.input ∧
    (outcome.fault = none → n.isStale = false ∧ n.value = m.value)
  /-- The text in which it is stored means the same, in every net and for every node. -/
  again : ∀ (net : Net) (host : NodeId), net.meaning host m.content.input = .ok m
  /-- Another literal is stored in the same text if it is the same double. -/
  input_eq_iff : ∀ (net : Net) (host : NodeId) (text : String) (m' : Meaning),
    net.meaning host text = .ok m' → m'.content.isFormula = false →
      (m'.content.input = m.content.input ↔ m'.value = m.value)

/-- The text in which a literal is stored stands for this literal, and for no other one. -/
theorem run_literal_fixed (settings : Settings) (ops : List Operation) {id : NodeId} {n : Node}
    (hn : (run settings ops).node? id = some n) {text : String} {m : Meaning}
    (hm : (run settings ops).meaning id text = .ok m) (hliteral : m.content.isFormula = false) :
    LiteralFixed m id ((run settings ops).submit id text false) := by
  obtain ⟨x, rfl⟩ := exists_number_of_meaning hm hliteral
  constructor
  case stored =>
    obtain ⟨n', hn', hcontent, hresult⟩ :=
      stored_submit (intact_run settings ops) (current_run settings ops) hn hm hliteral
    refine ⟨n', hn', congrArg Content.input hcontent, fun hfault => ?_⟩
    have hvalue := hresult hfault
    exact ⟨by simp [Node.isStale, hvalue], by simp [Node.value, hvalue]⟩
  case again => exact fun net host => net.meaning_format host x
  case input_eq_iff =>
    intro net host text' m' hm' hliteral'
    obtain ⟨y, rfl⟩ := exists_number_of_meaning hm' hliteral'
    exact ⟨fun heq => Decimal.format_injective heq, congrArg Decimal.format⟩

/-- A number and a formula that reads it. -/
def doubling : List Operation :=
  [.create "A" 0 0, .create "B" 0 0, .submit 1 "=@A*2" false]

theorem run_literal_fixed_minus_zero :
    ∃ n m, (run .default doubling).node? 0 = some n ∧
      (run .default doubling).meaning 0 " - 0e 7" = .ok m ∧ m.content.isFormula = false ∧
      m.content.input = "-0.0" ∧
      LiteralFixed m 0 ((run .default doubling).submit 0 " - 0e 7" false) := by
  obtain ⟨n, hn⟩ : ∃ n, (run .default doubling).node? 0 = some n :=
    Option.isSome_iff_exists.1 (by decide +kernel)
  obtain ⟨m, hm⟩ := exists_of_isOk (x := (run .default doubling).meaning 0 " - 0e 7") (by decide +kernel)
  have hm' : ∀ m ∈ ((run .default doubling).meaning 0 " - 0e 7").toOption,
      m.content.isFormula = false ∧ m.content.input = "-0.0" := by decide +kernel
  obtain ⟨hliteral, hinput⟩ := hm' m (by rw [hm]; rfl)
  exact ⟨n, m, hn, hm, hliteral, hinput, run_literal_fixed .default doubling hn hm hliteral⟩

end FormulaNet.Net
