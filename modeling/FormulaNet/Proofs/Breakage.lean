import FormulaNet.Proofs.Links

/-!
# What breaks a formula

A stored formula was read when it was stored, and if names always have letters only the deletion of a
node that it reads can change that.  `Net.run_breaksByDeletion` says that a formula of a node that is
not stale is read with the stored references, and that the others fail at a mention `@NA` if they fail.
-/

namespace FormulaNet.Net

/-- Formulas that nothing but a deletion breaks. -/
structure BreaksByDeletion (net : Net) : Prop where
  intact : ∀ id n, net.node? id = some n → IsFormulaText n.input.toList → n.isStale = false →
    ∃ x, net.evaluation net.valueOf id n.input = .ok ⟨x, n.content.refs⟩
  broken : ∀ id n fault, net.node? id = some n → IsFormulaText n.input.toList →
    net.evaluation net.valueOf id n.input = .error fault →
      n.isStale = true ∧ ∃ cause, fault = .reference cause ∧
        (cause.message = "Node NA does not exist" ∨ cause.message = "Node NA cannot reference itself")

theorem resolveName_eq_error {net : Net} {host : NodeId} {key : String} {fault : Fault}
    (h : net.resolveName host key = .error fault) :
    fault = .reference (.missing key) ∨ fault = .reference (.itself key) := by
  unfold resolveName at h
  dsimp only at h
  split at h
  · cases h
  split at h
  · cases h
    exact .inl rfl
  · cases h
    exact .inr rfl

/-- Without blank names, every link has a token. -/
theorem Linked.scope {net : Net} (h : net.Linked False) {id : NodeId} {n : Node} {t : LinkedText}
    (hn : net.node? id = some n) (ht : n.content = .formula t) : t.Linked (net.scope id) := by
  intro kind target token hmem
  cases h id n t hn ht kind target token hmem with
  | token htoken hresolve => exact ⟨htoken, hresolve⟩
  | blank hblanks => exact hblanks.elim

theorem squeeze_ne_empty_of_isLetter {name : String} (h : ∃ c ∈ name.toList, isLetter c = true) :
    squeeze name ≠ "" := by
  obtain ⟨c, hc, hletter⟩ := h
  intro hempty
  have hmem : c ∈ (squeeze name).toList := by
    rw [toList_squeeze]
    exact List.mem_filter.2 ⟨hc, by simp [isBlank_eq_false_of_isLetter hletter]⟩
  rw [hempty] at hmem
  cases hmem

theorem breaksByDeletion_of_linked {net : Net} (hs : net.FormulasSound) (hl : net.Linked False) :
    net.BreaksByDeletion := by
  constructor
  case intact =>
    intro id n hn hf hstale
    obtain ⟨t, ht⟩ := exists_formula hf
    have hsound : t.Sound False := (hs id n t hn ht).mono (by simp [hstale])
    obtain ⟨e, he, hrefs, -⟩ := hsound.exists_read_eq (hl.scope hn ht)
    rw [← toList_input ht] at he
    refine ⟨e.value fun r => net.valueOf r.target, ?_⟩
    rw [evaluation_eq_of_ok he, hrefs, ht]
    rfl
  case broken =>
    intro id n fault hn hf heval
    obtain ⟨t, ht⟩ := exists_formula hf
    have hread := evaluation_eq_error_iff.1 heval
    rw [toList_input ht] at hread
    obtain ⟨hstale, hna⟩ := (hs id n t hn ht).fault (hl.scope hn ht) hread
    refine ⟨hstale, ?_⟩
    rcases resolveName_eq_error hna with rfl | rfl
    · exact ⟨_, rfl, .inl rfl⟩
    · exact ⟨_, rfl, .inr rfl⟩

/-- If every new name has a letter, then only a deletion breaks a stored formula. -/
theorem run_breaksByDeletion (settings : Settings) {ops : List Operation}
    (hops : ∀ op ∈ ops, ∀ name ∈ op.newName?, ∃ c ∈ name.toList, isLetter c = true) :
    (run settings ops).BreaksByDeletion :=
  breaksByDeletion_of_linked (formulasSound_run settings ops)
    (linked_run (fun _ hname hempty => squeeze_ne_empty_of_isLetter hname hempty) settings hops)

/-- A formula reads a node that is renamed and then deleted. -/
def breaking : List Operation :=
  [.create "A" 0 0, .create "B" 0 0, .submit 1 "= 2 * @A" false, .rename 0 "Net cost", .delete 0]

theorem run_breaking :
    (∀ op ∈ breaking, ∀ name ∈ op.newName?, ∃ c ∈ name.toList, isLetter c = true) ∧
      (run .default breaking).BreaksByDeletion := by
  have hops : ∀ op ∈ breaking, ∀ name ∈ op.newName?, ∃ c ∈ name.toList, isLetter c = true := by
    intro op hop name hname
    simp only [breaking, List.mem_cons, List.not_mem_nil, or_false] at hop
    rcases hop with rfl | rfl | rfl | rfl | rfl
    case inr.inr.inr.inl =>
      obtain rfl : "Net cost" = name := Option.some.inj hname
      exact ⟨'N', by decide, by decide⟩
    all_goals cases hname
  exact ⟨hops, run_breaksByDeletion .default hops⟩

end FormulaNet.Net
