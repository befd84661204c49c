import FormulaNet.Proofs.Absorption
import FormulaNet.Proofs.EditFrame
import FormulaNet.Proofs.History

/-!
# Rejected inputs that are taken back

A rejected input costs a node its value, and the NaN is carried on from there.  As long as operations absorb
NaN, every value is then what it was or NaN (`Net.Dimmed`), so that values which compare as equal are the same
and a walk leaves nothing out.  Typing the old input again starts a walk that ends with no node due, and
this can only be the net from before: `Net.run_takenBack`.
-/

namespace FormulaNet.Net

/-- No node is stale, every value is exactly that of the input, and there are no cycles and no path that is
deeper than a walk may go. -/
structure Computed (net : Net) : Prop where
  fresh : ∀ id n, net.node? id = some n → n.isStale = false
  exact : ∀ id n, net.node? id = some n → ∃ m, net.meaning id n.input = .ok m ∧ m.value = n.value
  acyclic : net.Acyclic
  shallow : ∀ id edges, net.PathDown id edges → edges ≤ net.settings.depthLimit.toNat

/-- Every operation in a formula of the net absorbs NaN. -/
def Absorbing (net : Net) : Prop :=
  ∀ id n e, net.node? id = some n → IsFormulaText n.input.toList →
    (net.scope id).read n.input.toList = .ok e → e.AbsorbsNaN

namespace Computed

variable {net : Net} (h : net.Intact) (hc : net.Computed)

include hc

theorem passable : net.Passable where
  accepted id n hn := by
    obtain ⟨m, hm, -⟩ := hc.exact id n hn
    exact ⟨m, hm⟩
  shallow := hc.shallow

include h

theorem healing : Healing net net :=
  ⟨.refl h (h.stable_of_fresh hc.fresh), hc.passable⟩

theorem exactValues : Exact (fun _ => False) net where
  fresh := hc.fresh
  number id n x hn hx := by
    obtain ⟨m, hm, hvalue⟩ := hc.exact id n hn
    rw [← hvalue]
    exact value_of_meaning_number hm (((hc.healing h).stable id n m hn hm).trans hx)
  formula id n t hn ht := by
    obtain ⟨m, hm, hvalue⟩ := hc.exact id n hn
    rw [← hvalue]
    exact .inr (yields_of_meaning hm (((hc.healing h).stable id n m hn hm).trans ht))

theorem absorbsNaN (ha : net.Absorbing) {id : NodeId} {n : Node} {t : LinkedText}
    (hn : net.node? id = some n) (ht : n.content = .formula t) : t.AbsorbsNaN := by
  intro k hk
  obtain ⟨m, hm, -⟩ := hc.exact id n hn
  rw [Node.input, ht, Content.input] at hm
  have hsound : t.Sound False := (h.sound id n t hn ht).mono (by simp [hc.fresh id n hn])
  obtain ⟨e, he, -⟩ := h.sound.exists_read hn ht hm
  obtain ⟨e', he', -, houtline⟩ := hsound.exists_read_eq (h.linked.scope_of_read hn ht hsound he)
  obtain rfl : k = e'.outline := Except.ok.inj (hk.symm.trans houtline)
  refine (Expr.absorbsNaN_map _ e').2 (ha id n e' hn (isFormulaText_of_formula h.sound hn ht) ?_)
  rw [toList_input ht]
  exact he'

end Computed

/-! ## Values that fade -/

/-- A net in which values have faded since it was another one.  Values are lost in some nodes, some others
are due, and the rest have the values of their contents for the values that the parents have. -/
structure Dimmed (old : Net) (lost due : NodeId → Prop) (net : Net) : Prop extends Unaltered old net where
  fades : ∀ x, Fades (old.valueOf x) (net.valueOf x)
  fresh : ∀ x n, net.node? x = some n → lost x ∨ n.isStale = false
  number : ∀ x n y, net.node? x = some n → n.content = .number y → lost x ∨ n.value = y
  formula : FormulasYield (fun x => lost x ∨ due x) net

section Fading

variable {old net : Net} {id : NodeId} (h : old.Intact) (hc : old.Computed) (ha : old.Absorbing)

include h hc ha

/-- What an input means fades if the values do. -/
theorem Unaltered.fades_meaning (hu : Unaltered old net)
    (hf : ∀ x, Fades (old.valueOf x) (net.valueOf x)) {n : Node} (hn : net.node? id = some n) {m : Meaning}
    (hm : net.meaning id n.input = .ok m) : Fades (old.valueOf id) m.value := by
  obtain ⟨k, hk, -, hcontent, -⟩ := exists_node?_of_withoutResults hu.unchanged hn
  have hm' : m.content = k.content := (hu.stable id n m hn hm).trans hcontent.symm
  rw [valueOf_of_node? hk]
  cases hcases : k.content with
  | number y =>
    rw [(hc.exactValues h).number id k y hk hcases, value_of_meaning_number hm (hm'.trans hcases)]
    exact .refl y
  | formula t =>
    have hyields := ((hc.exactValues h).formula id k t hk hcases).resolve_left not_false
    exact hyields.fades (hc.absorbsNaN h ha hk hcases) (yields_of_meaning hm (hm'.trans hcases))
      fun p _ => hf p

namespace Dimmed

variable {lost lost' D D' : NodeId → Prop}

/-- A node takes on what its own input means.  The nodes that read it are due then, unless it has the value
that it had. -/
theorem adopt (hd : Dimmed old lost D net) {n : Node} (hn : net.node? id = some n) {m : Meaning}
    (hm : net.meaning id n.input = .ok m) (hlost : ∀ c, lost c → c ≠ id → lost' c)
    (hD : ∀ c, D c → c ≠ id → D' c)
    (hchange : n.value = m.value ∨ ∀ c, (net.adopt id m).ReadBy id c → D' c) :
    Dimmed old lost' D' (net.adopt id m) where
  toUnaltered := hd.toUnaltered.adopt hn hm
  fades x := by
    by_cases hx : x = id
    · rw [hx, valueOf_adopt_self hn]
      exact hd.toUnaltered.fades_meaning h hc ha hd.fades hn hm
    · rw [valueOf_adopt_other hn m hx]
      exact hd.fades x
  fresh x n' hn' := by
    rcases node?_adopt_cases hn hn' with ⟨-, -, hresult⟩ | ⟨hx, k, hk, -, hresult⟩
    · rw [Node.isStale, hresult]
      exact .inr rfl
    · rw [Node.isStale, hresult]
      exact (hd.fresh x k hk).imp_left fun hl => hlost x hl hx
  number x n' y hn' hy := by
    rcases node?_adopt_cases hn hn' with ⟨-, hcontent, hresult⟩ | ⟨hx, k, hk, hcontent, hresult⟩
    · rw [Node.value, hresult]
      exact .inr (value_of_meaning_number hm (hcontent ▸ hy))
    · rw [Node.value, hresult]
      exact (hd.number x k y hk (hcontent ▸ hy)).imp_left fun hl => hlost x hl hx
  formula := by
    refine FormulasYield.adopt hd.formula hd.intact.wired hn hm (fun c hdue hne => ?_)
      (hchange.imp_right fun hall c hread => .inr (hall c hread))
    exact hdue.imp (fun hl => hlost c hl hne) fun hd => hD c hd hne

omit h hc ha in
theorem mono (hd : Dimmed old lost D net) (hD : ∀ c, D c → D' c) : Dimmed old lost D' net where
  toUnaltered := hd.toUnaltered
  fades := hd.fades
  fresh := hd.fresh
  number := hd.number
  formula x n t hn ht := (hd.formula x n t hn ht).imp_left (Or.imp_right (hD x))

/-- Values that compare as equal have not changed, so that nothing is left out. -/
theorem settling (lost : NodeId → Prop) : Settling (Dimmed old lost) fun _ => True where
  mono _ _ _ hD hd := hd.mono hD
  refresh D child net net' _ hr hd := by
    obtain ⟨n, hn, ⟨y, hy, rfl⟩ | ⟨t, m, ht, hm, rfl⟩⟩ := refresh_eq_ok hr
    · have hD : Dimmed old lost D net' := by
        refine { hd with formula := fun x k t hk ht => (hd.formula x k t hk ht).imp_left (Or.imp_right ?_) }
        rintro (hdue | rfl)
        · exact hdue
        · obtain rfl : n = k := Option.some.inj (hn.symm.trans hk)
          cases hy.symm.trans ht
      exact ⟨hD.mono fun _ => .inl, fun _ => hD⟩
    · have hinput : net.meaning child n.input = .ok m := by
        rw [Node.input, ht]
        exact hm
      have hnew : Dimmed old lost (fun c => D c ∨ (net.adopt child m).ReadBy child c) (net.adopt child m) :=
        hd.adopt h hc ha hn hinput (fun _ hl _ => hl) (fun c hdue hne => .inl (hdue.resolve_right hne))
          (.inr fun _ => .inr)
      refine ⟨hnew, fun hsame => hd.adopt h hc ha hn hinput (fun _ hl _ => hl)
        (fun c hdue hne => hdue.resolve_right hne) (.inl ?_)⟩
      have heq := (hd.fades child).eq_of_not_bne (hnew.fades child) hsame
      rwa [valueOf_adopt_self hn, valueOf_of_node? hn] at heq

omit ha in
/-- A node loses its value, and the nodes that read it are due. -/
theorem of_markStale (id : NodeId) :
    Dimmed old (· = id) (fun c => False ∨ (old.markStale id).ReadBy id c) (old.markStale id) where
  toUnaltered := (hc.healing h).toUnaltered.markStale id
  fades x := by
    by_cases hx : x = id
    · refine .inl ?_
      rw [hx, valueOf, node?_markStale, if_pos rfl]
      cases old.node? id with
      | none => exact isNaN_nan
      | some n => exact isNaN_nan
    · rw [valueOf, valueOf, node?_markStale, if_neg hx]
      exact .refl _
  fresh x n hn := by
    by_cases hx : x = id
    · exact .inl hx
    · rw [node?_markStale, if_neg hx] at hn
      exact .inr (hc.fresh x n hn)
  number x n y hn hy := by
    by_cases hx : x = id
    · exact .inl hx
    · rw [node?_markStale, if_neg hx] at hn
      exact .inr ((hc.exactValues h).number x n y hn hy)
  formula x n t hn ht := by
    by_cases hx : x = id
    · exact .inl (.inl hx)
    rw [node?_markStale, if_neg hx] at hn
    by_cases hread : id ∈ t.targets
    · have hparent := (h.wired.mem_parents_iff hn ht).2 hread
      exact .inl (.inr (.inr (readBy_markStale.2 ((h.wired.readBy_iff hn).2 hparent))))
    · refine .inr ((((hc.exactValues h).formula x n t hn ht).resolve_left not_false).congr fun p hp => ?_)
      have hne : p ≠ id := by
        rintro rfl
        exact hread hp
      rw [valueOf, valueOf, node?_markStale, if_neg hne]

/-- After the walk of a rejected input no node is due. -/
theorem of_walkBelow {n : Node} (hn : old.node? id = some n) :
    Dimmed old (· = id) (fun _ => False) ((old.markStale id).walkBelow id).net := by
  refine (settling h hc ha _).walkBelow id (of_markStale h hc id) ?_ fun _ _ => trivial
  exact ((hc.healing h).markStale id).fault_walkBelow ⟨_, node?_markStale_self hn⟩

end Dimmed

end Fading

/-! ## The net from before -/

theorem nodes_eq_map_withoutResults (net : Net) :
    net.nodes = net.withoutResults.nodes.map fun id n => { n with result := (net.node? id).bind Node.result } := by
  rw [withoutResults, Roster.map_map]
  refine net.nodes.map_id.symm.trans (Roster.map_congr fun id n hmem => ?_)
  have hn : net.node? id = some n := Roster.get?_eq_some_iff_mem.2 hmem
  rw [hn]
  rfl

/-- Nets that differ in results at most and have the same results are the same. -/
theorem eq_of_withoutResults {net net' : Net} (h : net'.withoutResults = net.withoutResults)
    (hr : ∀ id, (net'.node? id).bind Node.result = (net.node? id).bind Node.result) : net' = net := by
  have hnodes : net'.nodes = net.nodes := by
    rw [nodes_eq_map_withoutResults net', nodes_eq_map_withoutResults net, h]
    simp only [hr]
  exact congrArg₂ Net.mk (settings_eq_of_withoutResults h) hnodes

section Restoring

variable {old net : Net} {id : NodeId} (h : old.Intact) (hc : old.Computed)

include h hc

/-- Where no value is lost and no node is due, no value has faded. -/
theorem Dimmed.eq_old (hd : Dimmed old (fun _ => False) (fun _ => False) net) : net = old := by
  have hexact : Exact (fun _ => False) net :=
    ⟨fun x n hn => (hd.fresh x n hn).resolve_left not_false,
      fun x n y hn hy => (hd.number x n y hn hy).resolve_left not_false,
      fun x n t hn ht => (hd.formula x n t hn ht).imp_left fun hlost => hlost.elim not_false not_false⟩
  have hdir := directory_eq_of_withoutResults hd.unchanged
  have hvalues : ∀ x, old.valueOf x = net.valueOf x := by
    refine (hc.exactValues h).valueOf_eq hexact h.wired hc.acyclic hdir fun x n n' hn hn' => ?_
    obtain ⟨k, hk, -, hcontent, -⟩ := exists_node?_of_withoutResults hd.unchanged hn'
    rwa [Option.some.inj (hn.symm.trans hk)]
  refine eq_of_withoutResults hd.unchanged fun x => ?_
  cases hn : old.node? x with
  | none =>
    cases hn' : net.node? x with
    | none => rfl
    | some n' =>
      obtain ⟨n, hlive⟩ := (exists_node?_congr hdir).1 ⟨n', hn'⟩
      cases hn.symm.trans hlive
  | some n =>
    obtain ⟨n', hn'⟩ := (exists_node?_congr hdir).2 ⟨n, hn⟩
    have hvalue := hvalues x
    rw [valueOf_of_node? hn, valueOf_of_node? hn'] at hvalue
    rw [hn', Option.bind_some, Option.bind_some, exists_result_of_isStale (hc.fresh x n hn),
      exists_result_of_isStale (hexact.fresh x n' hn'), hvalue]

/-- The input of the one node that has lost its value restores the net from before. -/
theorem Dimmed.submit (ha : old.Absorbing) (hd : Dimmed old (· = id) (fun _ => False) net)
    (hstale : ∀ k, net.node? id = some k → k.isStale = true) {n : Node} (hn : old.node? id = some n) :
    net.submit id n.input false = ⟨old, none⟩ := by
  obtain ⟨k, hk, hsame⟩ := exists_markStale_eq_of_withoutResults hd.unchanged.symm hn
  have hinput : k.input = n.input := congrArg Content.input (congrArg Node.content hsame :)
  obtain ⟨m', hm'⟩ := (hc.passable.congr hd.unchanged).accepted id k hk
  rw [Net.submit, if_neg Bool.false_ne_true, ← hinput]
  rcases setContent_cases hk k.input with
    ⟨hskip, -⟩ | ⟨-, ⟨m, hm, -, heq⟩ | ⟨m, hm, hunchanged, -⟩ | ⟨fault, hfault, -⟩⟩
  · simp [hstale k hk] at hskip
  · have hadopt : Dimmed old (fun _ => False) (fun c => False ∨ (net.adopt id m).ReadBy id c)
        (net.adopt id m) :=
      hd.adopt h hc ha hk hm (fun _ hl hne => absurd hl hne) (fun _ hf _ => hf.elim) (.inr fun _ => .inr)
    have hlive : ∃ n', (net.adopt id m).node? id = some n' :=
      (exists_node?_congr (net.directory_adopt id m)).2 ⟨k, hk⟩
    have hf := ((hc.healing h).of_unaltered hadopt.toUnaltered).fault_walkBelow hlive
    have hdone := (Dimmed.settling h hc ha _).walkBelow id hadopt hf fun _ _ => trivial
    rw [heq]
    exact congrArg₂ Outcome.mk (hdone.eq_old h hc) hf
  · -- the lost value is NaN, which never compares as equal
    have hnumber := (same_of_not_bne (Bool.eq_false_iff.1 hunchanged)).1
    rw [isNaN_of_isStale (hstale k hk)] at hnumber
    cases hnumber
  · cases hm'.symm.trans hfault

end Restoring

/-- A net after a node has rejected an input: the node is the only stale one, values have faded, and the input
that the node had before restores the net. -/
structure TakenBack (old : Net) (id : NodeId) (net : Net) : Prop where
  stale : ∀ x n, net.node? x = some n → (n.isStale = true ↔ x = id)
  faded : ∀ x n n', x ≠ id → old.node? x = some n → net.node? x = some n' →
    n'.value.isNaN = true ∨ n'.value = n.value
  restored : ∀ n, old.node? id = some n → net.submit id n.input false = ⟨old, none⟩

/-- An input that is rejected can be taken back by typing the old one, if every value was that of its input,
there are no cycles and no paths that are too deep, and operations absorb NaN. -/
theorem run_takenBack (settings : Settings) (ops : List Operation) (hc : (run settings ops).Computed)
    (ha : (run settings ops).Absorbing) {id : NodeId} {text : String}
    (hr : (run settings ops).Rejects id text) :
    TakenBack (run settings ops) id ((run settings ops).submit id text false).net := by
  have h := intact_run settings ops
  have hstale : ∀ k, ((run settings ops).submit id text false).net.node? id = some k → k.isStale = true :=
    fun k hk => (hr.stale h (hc.acyclic id) hk).1
  have hdimmed : Dimmed (run settings ops) (· = id) (fun _ => False)
      ((run settings ops).submit id text false).net := by
    obtain ⟨fault, hm, hs⟩ := hr
    obtain ⟨n, hn, hnet⟩ := submit_of_rejected hm hs
    rw [hnet]
    exact .of_walkBelow h hc ha hn
  constructor
  case stale =>
    refine fun x n hn => ⟨fun hlost => ?_, ?_⟩
    · refine (hdimmed.fresh x n hn).resolve_right fun hfresh => ?_
      rw [hlost] at hfresh
      cases hfresh
    · rintro rfl
      exact hstale n hn
  case faded =>
    intro x n n' _ hn hn'
    have hfades := hdimmed.fades x
    rwa [valueOf_of_node? hn, valueOf_of_node? hn'] at hfades
  case restored => exact fun n hn => hdimmed.submit h hc ha hstale hn

/-- Formulas that read a node directly and by way of each other. -/
def diamond : List Operation :=
  [.create "A" 0 0, .create "B" 0 0, .create "C" 0 0, .create "D" 0 0, .submit 0 "2" false,
    .submit 1 "=@A+0.5" false, .submit 2 "=sqrt(@A*@B)" false, .submit 3 "=@B/@C-@A" false]

theorem run_diamond :
    (run .default diamond).Computed ∧ (run .default diamond).Absorbing ∧
      (run .default diamond).Rejects 0 "x" ∧
      TakenBack (run .default diamond) 0 ((run .default diamond).submit 0 "x" false).net := by
  have hnodes : ∀ e ∈ (run .default diamond).nodes.entries, e.2.isStale = false ∧
      ((run .default diamond).meaning e.1 e.2.input).toOption.map Meaning.value = some e.2.value := by
    decide +kernel
  have halgebraic : ∀ e ∈ (run .default diamond).nodes.entries,
      ∀ x ∈ (((run .default diamond).scope e.1).read e.2.input.toList).toOption, x.isAlgebraic = true := by
    decide +kernel
  have hacyclic : (run .default diamond).Acyclic := acyclic_of_edges (by decide +kernel)
  have hsize : (run .default diamond).nodes.size ≤ Settings.default.depthLimit.toNat + 1 := by decide +kernel
  have hcomputed : (run .default diamond).Computed := by
    constructor
    case fresh => exact fun id n hn => (hnodes (id, n) (Roster.get?_eq_some_iff_mem.1 hn)).1
    case exact =>
      intro id n hn
      have hvalue := (hnodes (id, n) (Roster.get?_eq_some_iff_mem.1 hn)).2
      cases hm : (run .default diamond).meaning id n.input with
      | ok m =>
        rw [hm] at hvalue
        exact ⟨m, rfl, Option.some.inj hvalue⟩
      | error fault =>
        rw [hm] at hvalue
        cases hvalue
    case acyclic => exact hacyclic
    case shallow =>
      intro id edges hpath
      rw [settings_run]
      exact hacyclic.pathDown_le (wired_run .default diamond) hsize hpath
  have habsorbing : (run .default diamond).Absorbing := fun id n e hn _ he =>
    Expr.absorbsNaN_of_isAlgebraic
      (halgebraic (id, n) (Roster.get?_eq_some_iff_mem.1 hn) e (by rw [he]; rfl))
  have hrejects : (run .default diamond).Rejects 0 "x" := ⟨.notANumber "x", rfl, by decide +kernel⟩
  exact ⟨hcomputed, habsorbing, hrejects, run_takenBack .default diamond hcomputed habsorbing hrejects⟩

end FormulaNet.Net
