import FormulaNet.Proofs.Doubles
import FormulaNet.Proofs.Links

/-!
# Staleness covers every outdated value

A formula is current if it has the value that it has for some values of its parents, and the parents
still show the same.  In the middle of a walk some parents have changed already: `Net.Current` allows
for the pairs of a parent and a child that the walk has yet to visit.  A walk below a node deals with
all pairs of this node (`Net.Current.walk`), either by a visit or because the node ends stale, so that
no pair is left after an operation, whether it fails or not.
-/

namespace FormulaNet

/-- The value that a formula has where nodes have the values that `read` gives. -/
def LinkedText.Yields (t : LinkedText) (read : NodeId → Float) (v : Float) : Prop :=
  ∃ e : Expr NodeId, t.outline = .ok e.outline ∧ e.refs = t.targets ∧ e.value read = v

namespace Net

/-- Every value that is not lost was computed from the stored content: it is the number, or the value of
the formula for values which the parents still show, those aside that have changed and whose child is
still pending. -/
structure Current (pending : NodeId → NodeId → Prop) (net : Net) : Prop where
  number : ∀ id n x v, net.node? id = some n → n.content = .number x → n.result = some v → v = x
  formula : ∀ id n t v, net.node? id = some n → n.content = .formula t → n.result = some v →
    ∃ read, t.Yields read v ∧ ∀ p ∈ t.targets, ∀ m x, net.node? p = some m → m.result = some x →
      pending p id ∨ Same (read p) x

theorem valueOf_of_node? {net : Net} {id : NodeId} {n : Node} (hn : net.node? id = some n) :
    net.valueOf id = n.value := by
  rw [valueOf, hn]
  rfl

section Adoption

variable {net : Net} {id : NodeId} {n : Node} (hn : net.node? id = some n) (m : Meaning)

include hn

theorem valueOf_adopt_self : (net.adopt id m).valueOf id = m.value := by
  rw [valueOf, node?_adopt id hn, hn]
  simp [Node.value]

theorem valueOf_adopt_other {x : NodeId} (hx : x ≠ id) : (net.adopt id m).valueOf x = net.valueOf x := by
  rw [valueOf, valueOf, node?_adopt x hn]
  cases net.node? x with
  | none => rfl
  | some k => simp [hx, Node.value]

end Adoption

theorem valueOf_of_result {net : Net} {id : NodeId} {n : Node} (hn : net.node? id = some n) {x : Float}
    (hx : n.result = some x) : net.valueOf id = x := by
  rw [valueOf_of_node? hn, Node.value, hx]
  rfl

theorem value_of_meaning_number {net : Net} {host : NodeId} {text : String} {m : Meaning} {x : Float}
    (h : net.meaning host text = .ok m) (hx : m.content = .number x) : m.value = x := by
  obtain ⟨z, rfl⟩ | ⟨-, e, -, rfl⟩ := meaning_cases h
  · cases hx
    rfl
  · cases hx

/-- An accepted formula has its value for the values that nodes have now. -/
theorem yields_of_meaning {net : Net} {host : NodeId} {text : String} {m : Meaning} {t : LinkedText}
    (h : net.meaning host text = .ok m) (ht : m.content = .formula t) :
    t.Yields net.valueOf m.value := by
  obtain ⟨-, -, -, e, houtline, hrefs, hvalue⟩ := sound_of_meaning h ht
  refine ⟨e.map Reference.target, ?_, ?_, ?_⟩
  · rw [Expr.outline_map, houtline]
  · rw [Expr.refs_map, hrefs, t.map_target_refs]
  · rw [Expr.value_map, hvalue]
    rfl

/-- A node whose value is a number is not stale. -/
theorem exists_result_of_same {n : Node} {y : Float} (hnan : n.value.isNaN = false)
    (hsame : Same n.value y) : ∃ x, n.result = some x ∧ Same x y := by
  cases hresult : n.result with
  | none =>
    rw [Node.value, hresult] at hnan
    exact absurd isNaN_nan (by simpa using hnan)
  | some x =>
    rw [Node.value, hresult] at hsame
    exact ⟨x, rfl, hsame⟩

namespace Current

variable {P Q : NodeId → NodeId → Prop} {net net' : Net} {id : NodeId}

/-- Only the pairs of a formula and a node that it reads matter. -/
theorem mono (h : Current P net)
    (hPQ : ∀ p c n t, net.node? c = some n → n.content = .formula t → p ∈ t.targets → P p c → Q p c) :
    Current Q net where
  number := h.number
  formula id n t v hn ht hv := by
    obtain ⟨read, hyields, hsame⟩ := h.formula id n t v hn ht hv
    refine ⟨read, hyields, fun p hp m x hm hx => ?_⟩
    exact (hsame p hp m x hm hx).imp_left (hPQ p id n t hn ht hp)

/-- A change that leaves results and what formulas say alone, or loses results. -/
theorem of_nodes (h : Current P net)
    (hnodes : ∀ x n', net'.node? x = some n' → n'.result = none ∨ ∃ n, net.node? x = some n ∧
      n'.result = n.result ∧ (∀ y, n'.content = .number y → n.content = .number y) ∧
      ∀ t', n'.content = .formula t' →
        ∃ t, n.content = .formula t ∧ t'.outline = t.outline ∧ t'.targets = t.targets)
    (hPQ : ∀ p c, P p c → Q p c ∨ ∀ m, net'.node? p = some m → m.result = none) :
    Current Q net' := by
  constructor
  case number =>
    intro x n' y v hn' hy hv
    rcases hnodes x n' hn' with hnone | ⟨n, hn, hresult, hnumber, -⟩
    · rw [hnone] at hv
      cases hv
    · exact h.number x n y v hn (hnumber y hy) (hresult ▸ hv)
  case formula =>
    intro x n' t' v hn' ht' hv
    rcases hnodes x n' hn' with hnone | ⟨n, hn, hresult, -, hformula⟩
    · rw [hnone] at hv
      cases hv
    obtain ⟨t, ht, houtline, htargets⟩ := hformula t' ht'
    obtain ⟨read, ⟨e, he, hrefs, hvalue⟩, hsame⟩ := h.formula x n t v hn ht (hresult ▸ hv)
    refine ⟨read, ⟨e, houtline.trans he, hrefs.trans htargets.symm, hvalue⟩, ?_⟩
    intro p hp m' y hm' hy
    rw [htargets] at hp
    rcases hnodes p m' hm' with hnone | ⟨m, hm, hresult', -, -⟩
    · rw [hnone] at hy
      cases hy
    rcases hsame p hp m y hm (hresult' ▸ hy) with hpending | hsame
    · refine .inl ((hPQ p x hpending).resolve_right fun hnone => ?_)
      rw [hnone m' hm'] at hy
      cases hy
    · exact .inr hsame

theorem modify (h : Current P net) (id : NodeId) {f : Node → Node}
    (hcontent : ∀ n, (f n).content = n.content)
    (hresult : ∀ n, (f n).result = none ∨ (f n).result = n.result)
    (hPQ : ∀ p c, P p c → Q p c ∨ (p = id ∧ ∀ n, (f n).result = none)) :
    Current Q (net.modify id f) := by
  refine h.of_nodes (fun x n' hn' => ?_) fun p c hpc => ?_
  · rw [node?_modify] at hn'
    split at hn'
    · obtain ⟨n, hn, rfl⟩ := exists_of_map_eq_some hn'
      refine (hresult n).imp_right fun hr => ⟨n, hn, hr, ?_⟩
      rw [hcontent]
      exact ⟨fun _ hy => hy, fun t ht => ⟨t, ht, rfl, rfl⟩⟩
    · exact .inr ⟨n', hn', rfl, fun _ hy => hy, fun t ht => ⟨t, ht, rfl, rfl⟩⟩
  · refine (hPQ p c hpc).imp_right ?_
    rintro ⟨rfl, hnone⟩ m hm
    rw [node?_modify, if_pos rfl] at hm
    obtain ⟨n, -, rfl⟩ := exists_of_map_eq_some hm
    exact hnone n

/-- The pairs of a stale node do not matter. -/
theorem markStale (h : Current P net) (id : NodeId) (hPQ : ∀ p c, P p c → Q p c ∨ p = id) :
    Current Q (net.markStale id) :=
  h.modify id (fun _ => rfl) (fun _ => .inl rfl) fun p c hpc =>
    (hPQ p c hpc).imp_right fun hp => ⟨hp, fun _ => rfl⟩

theorem move (h : Current P net) (id : NodeId) (position : Float × Float) :
    Current P (net.modify id fun n => { n with position := position }) :=
  h.modify id (fun _ => rfl) (fun _ => .inr rfl) fun _ _ => .inl

theorem create (h : Current P net) (hw : net.Wired) (name : String) (a b : Float) :
    Current P (net.create name a b).2 := by
  constructor
  case number =>
    intro x n' y v hn' hy hv
    rcases node?_create_cases hn' with ⟨-, rfl⟩ | hn
    · cases hy
      cases hv
      rfl
    · exact h.number x n' y v hn hy hv
  case formula =>
    intro x n' t v hn' ht hv
    rcases node?_create_cases hn' with ⟨-, rfl⟩ | hn
    · cases ht
    obtain ⟨read, hyields, hsame⟩ := h.formula x n' t v hn ht hv
    refine ⟨read, hyields, fun p hp m' y hm' hy => ?_⟩
    rcases node?_create_cases hm' with ⟨rfl, -⟩ | hm
    · -- no formula reads the new node
      obtain ⟨⟨m, hm⟩, -⟩ := hw.parent x n' _ hn ((hw.mem_parents_iff hn ht).2 hp)
      rw [node?_next] at hm
      cases hm
    · exact hsame p hp m' y hm hy

theorem renamed (h : Current P net) (id : NodeId) (children : IdSet) (name : String) :
    Current P (net.renamed id children name) := by
  refine h.of_nodes (fun x n' hn' => ?_) fun _ _ => .inl
  rw [node?_renamed] at hn'
  obtain ⟨n, hn, rfl⟩ := exists_of_map_eq_some hn'
  refine .inr ⟨n, hn, rfl, ?_⟩
  dsimp only
  split
  · refine ⟨fun y hy => ?_, fun t' ht' => ?_⟩
    · exact Content.eq_number_of_replace hy
    · obtain ⟨t, ht, rfl⟩ := Content.exists_of_replace_eq ht'
      exact ⟨t, ht, t.outline_replace _, t.targets_replace _⟩
  · exact ⟨fun _ hy => hy, fun t ht => ⟨t, ht, rfl, rfl⟩⟩

theorem remove (h : Current P net) (id : NodeId) (index : Nat) : Current P (net.remove id index) := by
  refine h.of_nodes (fun x n' hn' => ?_) fun _ _ => .inl
  rw [node?_remove] at hn'
  split at hn'
  · cases hn'
  obtain ⟨n, hn, rfl⟩ := exists_of_map_eq_some hn'
  by_cases hparent : id ∈ n.parents
  · exact .inl (by simp [hparent])
  · refine .inr ⟨n, hn, by simp [hparent], fun y hy => ?_, fun t' ht' => ?_⟩
    · simp only [if_neg hparent] at hy
      exact Content.eq_number_of_replace hy
    · simp only [if_neg hparent] at ht'
      obtain ⟨t, ht, rfl⟩ := Content.exists_of_replace_eq ht'
      exact ⟨t, ht, t.outline_replace _, t.targets_replace _⟩

/-- A node takes on its value: its own pairs are dealt with, and if the value changed, all pairs of its
children are new. -/
theorem adopt (h : Current P net) {text : String} {m : Meaning} (hm : net.meaning id text = .ok m)
    {n : Node} (hn : net.node? id = some n) (hPQ : ∀ p c, P p c → c ≠ id → Q p c)
    (hchange : (∃ x, n.result = some x ∧ Same x m.value) ∨ ∀ c, Q id c) :
    Current Q (net.adopt id m) := by
  constructor
  case number =>
    intro x n' y v hn' hy hv
    rcases node?_adopt_cases hn hn' with ⟨-, hcontent, hresult⟩ | ⟨-, k, hk, hcontent, hresult⟩
    · rw [← Option.some.inj (hresult.symm.trans hv)]
      exact value_of_meaning_number hm (hcontent ▸ hy)
    · exact h.number x k y v hk (hcontent ▸ hy) (hresult ▸ hv)
  case formula =>
    intro x n' t v hn' ht hv
    by_cases hx : x = id
    · subst hx
      obtain ⟨hcontent, hresult⟩ := node?_adopt_self hn hn'
      rw [hcontent] at ht
      rw [← Option.some.inj (hresult.symm.trans hv)]
      refine ⟨net.valueOf, yields_of_meaning hm ht, fun p hp m' y hm' hy => .inr ?_⟩
      obtain ⟨r, hr, rfl⟩ : ∃ r ∈ m.content.refs, r.target = p := by
        rw [ht]
        rw [← t.map_target_refs] at hp
        exact List.mem_map.1 hp
      -- the node does not read itself, and the others have kept their values
      obtain ⟨k, hk, -, hresult'⟩ := node?_adopt_other hn (target_of_meaning hm hr).2 hm'
      rw [valueOf_of_result hk (hresult'.symm.trans hy)]
      exact .refl y
    · obtain ⟨k, hk, hcontent, hresult⟩ := node?_adopt_other hn hx hn'
      obtain ⟨read, hyields, hsame⟩ := h.formula x k t v hk (hcontent ▸ ht) (hresult ▸ hv)
      refine ⟨read, hyields, fun p hp m' y hm' hy => ?_⟩
      by_cases hp' : p = id
      · subst hp'
        have hvalue : m.value = y := Option.some.inj ((node?_adopt_self hn hm').2.symm.trans hy)
        rw [← hvalue]
        rcases hchange with ⟨old, hold, hunchanged⟩ | hall
        · rcases hsame p hp n old hn hold with hpending | hsame
          · exact .inl (hPQ p x hpending hx)
          · exact .inr (hsame.trans hunchanged)
        · exact .inl (hall x)
      · obtain ⟨j, hj, -, hresult'⟩ := node?_adopt_other hn hp' hm'
        exact (hsame p hp j y hj (hresult' ▸ hy)).imp_left fun hpending => hPQ p x hpending hx

/-! ## Walks -/

/-- An evaluation deals with the pairs of a child.  The pairs of its own children are new, unless it has
a value as before. -/
theorem refresh {child : NodeId} (h : Current (fun p c => Q p c ∨ c = child) net)
    (hr : net.refresh child = .ok net') :
    Current (fun p c => Q p c ∨ p = child) net' ∧
      (¬ (net.valueOf child != net'.valueOf child) = true → Current Q net') := by
  obtain ⟨n, hn, ⟨x, hx, rfl⟩ | ⟨t, m, -, hm, rfl⟩⟩ := refresh_eq_ok hr
  · -- a number reads nothing
    have hQ : Current Q net' := h.mono fun p c n' t hn' ht _ hpc => hpc.resolve_right (by
      rintro rfl
      obtain rfl : n = n' := Option.some.inj (hn.symm.trans hn')
      rw [hx] at ht
      cases ht)
    exact ⟨hQ.mono fun _ _ _ _ _ _ _ => .inl, fun _ => hQ⟩
  · refine ⟨h.adopt hm hn (fun p c hpc hc => .inl (hpc.resolve_right hc)) (.inr fun c => .inr rfl),
      fun hsame => h.adopt hm hn (fun p c hpc hc => hpc.resolve_right hc) (.inl ?_)⟩
    rw [valueOf_adopt_self hn, valueOf_of_node? hn] at hsame
    obtain ⟨hnan, hsame⟩ := same_of_not_bne hsame
    exact exists_result_of_same hnan hsame

/-- Visiting deals with the pairs of a node and the children that are visited.  After a fault the pairs
of this node are left. -/
theorem visit {descend : NodeId → Net → Outcome}
    (hwired : ∀ child net, net.Wired → (descend child net).net.Wired)
    (hdescend : ∀ Q child net, net.Wired → Current (fun p c => Q p c ∨ p = child) net →
      Current Q (descend child net).net) (ids : List NodeId) (hw : net.Wired)
    (h : Current (fun p c => P p c ∨ (p = id ∧ c ∈ ids)) net) :
    Current (fun p c => P p c ∨ (p = id ∧ (Net.visit descend ids net).fault.isSome = true))
      (Net.visit descend ids net).net := by
  induction ids generalizing net with
  | nil => exact h.mono fun _ _ _ _ _ _ _ hpc => hpc.imp_right fun hc => ⟨hc.1, by simp at hc⟩
  | cons child others ih =>
    rw [Net.visit]
    split
    · refine hdescend _ child _ (kept_wired.markStale net child hw) (h.markStale child ?_)
      exact fun p c hpc => .inl (.inl (hpc.imp_right fun hc => ⟨hc.1, rfl⟩))
    · next net' hr =>
      have hw' : net'.Wired := kept_wired.refresh hw hr
      have hsplit : Current (fun p c => (P p c ∨ (p = id ∧ c ∈ others)) ∨ c = child) net :=
        h.mono fun p c _ _ _ _ _ hpc => by
          rcases hpc with hpc | ⟨hp, hc⟩
          · exact .inl (.inl hpc)
          · exact (List.mem_cons.1 hc).elim .inr fun hc => .inl (.inr ⟨hp, hc⟩)
      obtain ⟨hnew, hsame⟩ := hsplit.refresh hr
      split
      · have hbelow := hdescend _ child net' hw' hnew
        have hwbelow := hwired child net' hw'
        split
        · next net'' fault heq =>
          rw [heq] at hbelow
          exact hbelow.mono fun _ _ _ _ _ _ _ hpc => hpc.imp_right fun hc => ⟨hc.1, rfl⟩
        · next net'' heq =>
          rw [heq] at hbelow hwbelow
          exact ih hwbelow hbelow
      · next hunchanged => exact ih hw' (hsame hunchanged)

/-- A walk below a node deals with all pairs of the node. -/
theorem walk (room : Nat) (id : NodeId) (hw : net.Wired)
    (h : Current (fun p c => P p c ∨ p = id) net) : Current P (Net.walk room id net).net := by
  induction room generalizing P id net with
  | zero => exact h.markStale id fun _ _ hpc => hpc
  | succ room ih =>
    rw [Net.walk]
    cases hid : net.node id with
    | error fault =>
      -- there is no such node, so that no formula reads it
      refine h.mono fun p c n t hn ht hp hpc => hpc.resolve_right ?_
      rintro rfl
      obtain ⟨⟨m, hm⟩, -⟩ := hw.parent c n p hn ((hw.mem_parents_iff hn ht).2 hp)
      rw [node, hm] at hid
      cases hid
    | ok n =>
      have hn := node_eq_ok hid
      have hchildren : Current (fun p c => P p c ∨ (p = id ∧ c ∈ n.children.toList)) net :=
        h.mono fun p c k t hk ht hp hpc => hpc.imp_right fun hpid => by
          subst hpid
          exact ⟨rfl, (hw.mirrored p c n k hn hk).1 ((hw.mem_parents_iff hk ht).2 hp)⟩
      have hvisit := @visit P net id (Net.walk room)
        (fun child _ hw => kept_wired.byWalks.walk room child hw)
        (fun Q child _ hw h => ih child hw h) n.children.toList hw hchildren
      dsimp only
      split
      · next net' fault heq =>
        rw [heq] at hvisit
        exact hvisit.markStale id fun _ _ hpc => hpc.imp_right fun hp => hp.1
      · next net' heq =>
        rw [heq] at hvisit
        exact hvisit.mono fun _ _ _ _ _ _ _ hpc => hpc.resolve_right (by simp)

theorem walkBelow (id : NodeId) (hw : net.Wired) (h : Current (fun p c => P p c ∨ p = id) net) :
    Current P (net.walkBelow id).net :=
  h.walk _ id hw

theorem walkBelowAll (ids : List NodeId) (hw : net.Wired) (h : Current P net) :
    Current P (Net.walkBelowAll ids net).net := by
  induction ids generalizing net with
  | nil => exact h
  | cons id ids ih =>
    exact ih (kept_wired.byWalks.walkBelow id hw) ((h.mono fun _ _ _ _ _ _ _ => .inl).walkBelow id hw)

theorem setContent (h : Current P net) (hw : net.Wired) (id : NodeId) (text : String) :
    Current P (net.setContent id text).net := by
  cases hn : net.node? id with
  | none =>
    rw [setContent_of_none hn]
    exact h
  | some n =>
    rcases setContent_cases hn text with
      ⟨-, heq⟩ | ⟨-, ⟨m, hm, -, heq⟩ | ⟨m, hm, hunchanged, heq⟩ | ⟨fault, -, heq⟩⟩
    · rw [heq]
      exact h
    · rw [heq]
      refine walkBelow id (kept_wired.adopt net id text m hm hw) (h.adopt hm hn ?_ ?_)
      · exact fun _ _ hpc _ => .inl hpc
      · exact .inr fun _ => .inr rfl
    · rw [heq]
      obtain ⟨hnan, hsame⟩ := same_of_not_bne (Bool.eq_false_iff.1 hunchanged)
      refine h.adopt hm hn (fun _ _ hpc _ => hpc) (.inl ?_)
      exact exists_result_of_same hnan hsame
    · rw [heq]
      exact walkBelow id (kept_wired.markStale net id hw)
        (h.markStale id fun _ _ hpc => .inl (.inl hpc))

theorem delete (h : Current P net) (hw : net.Wired) (id : NodeId) :
    Current P (net.delete id).net :=
  delete_net_of (I := Current P) h fun index _ hindex _ =>
    (h.remove id index).walkBelowAll _ (kept_wired.remove net id index hindex hw)

end Current

/-! ## Staleness after a run -/

theorem current_empty (settings : Settings) : Current (fun _ _ => False) (empty settings) where
  number _ _ _ _ hn := by cases hn
  formula _ _ _ _ hn := by cases hn

theorem keptByOperations_current :
    KeptByOperations (fun _ => True) fun net => net.Wired ∧ Current (fun _ _ => False) net where
  create _ name x y h := ⟨h.1.create name x y, h.2.create h.1 name x y⟩
  move net id p h := ⟨kept_wired.move net id p h.1, h.2.move id p⟩
  rename net id name net' _ h hr := by
    refine ⟨kept_wired.rename net id name net' trivial h.1 hr, ?_⟩
    obtain ⟨n, -, rfl | ⟨-, -, rfl⟩⟩ := rename_eq_ok hr
    · exact h.2
    · exact h.2.renamed id n.children name
  setContent _ id text h := ⟨kept_wired.setContent id text h.1, h.2.setContent h.1 id text⟩
  delete _ id h := ⟨kept_wired.delete id h.1, h.2.delete h.1 id⟩

theorem current_run (settings : Settings) (ops : List Operation) :
    Current (fun _ _ => False) (run settings ops) :=
  (keptByOperations_current.run ⟨wired_empty settings, current_empty settings⟩
    fun _ _ _ _ => trivial).2

/-- Stale nodes have no value.  A node that is not stale has the value of its number, or the value that
its formula has for some values of its parents which are the same as those that they show, if none of
these is stale and the formula can be evaluated. -/
structure StalenessCovers (net : Net) : Prop where
  stale : ∀ id n, net.node? id = some n → n.isStale = true → n.value.isNaN = true
  number : ∀ id n, net.node? id = some n → n.isStale = false → ¬ IsFormulaText n.input.toList →
    n.input = Decimal.format n.value
  formula : ∀ id n, net.node? id = some n → n.isStale = false → IsFormulaText n.input.toList →
    (∀ p ∈ n.parents, ∀ m, net.node? p = some m → m.isStale = false) →
    (∃ evaluation, net.evaluation net.valueOf id n.input = .ok evaluation) →
    ∃ read : NodeId → Float, (∀ p ∈ n.parents, Same (read p) (net.valueOf p)) ∧
      ∃ evaluation, net.evaluation read id n.input = .ok evaluation ∧ evaluation.value = n.value

theorem exists_result_of_isStale {n : Node} (h : n.isStale = false) : n.result = some n.value := by
  cases hresult : n.result with
  | none => simp [Node.isStale, hresult] at h
  | some x => simp [Node.value, hresult]

/-- The links of a formula that can be evaluated reach their targets. -/
theorem Linked.scope_of_read {blanks : Prop} {net : Net} (h : net.Linked blanks) {id : NodeId}
    {n : Node} {t : LinkedText} (hn : net.node? id = some n) (ht : n.content = .formula t) {d : Prop}
    (hsound : t.Sound d) {e : Expr Reference} (he : (net.scope id).read t.chars = .ok e) :
    t.Linked (net.scope id) := by
  have hreach := h id n t hn ht
  have hspells : SpellsLinks t.pieces := by
    refine hsound.spellsLinks (fun kind target token hmem => ?_) he
    cases hreach kind target token hmem with
    | token htoken => exact .inr htoken
    | blank => exact .inl rfl
  intro kind target token hmem
  have htoken := hspells kind target token hmem
  cases hreach kind target token hmem with
  | token _ hresolve => exact ⟨htoken, hresolve⟩
  | blank => exact absurd rfl htoken.ne_nil

theorem stalenessCovers_of_current {blanks : Prop} {net : Net} (hw : net.Wired)
    (hs : net.FormulasSound) (hl : net.Linked blanks) (hc : Current (fun _ _ => False) net) :
    net.StalenessCovers := by
  constructor
  case stale =>
    intro id n _ hstale
    rw [Node.isStale, Option.isNone_iff_eq_none] at hstale
    rw [Node.value, hstale]
    exact isNaN_nan
  case number =>
    intro id n hn hstale hplain
    cases hcontent : n.content with
    | formula t => exact absurd (isFormulaText_of_formula hs hn hcontent) hplain
    | number x =>
      rw [hc.number id n x n.value hn hcontent (exists_result_of_isStale hstale), Node.input, hcontent]
      rfl
  case formula =>
    intro id n hn hstale hf hparents heval
    obtain ⟨t, ht⟩ := exists_formula hf
    have hsound : t.Sound False := (hs id n t hn ht).mono (by simp [hstale])
    obtain ⟨e, he⟩ : ∃ e, (net.scope id).read t.chars = .ok e := by
      obtain ⟨evaluation, heval⟩ := heval
      obtain ⟨e, he, -⟩ := exists_of_bind_eq_ok heval
      refine ⟨e, ?_⟩
      rw [← toList_input ht]
      exact he
    obtain ⟨e', he', hrefs, houtline⟩ :=
      hsound.exists_read_eq (hl.scope_of_read hn ht hsound he)
    obtain ⟨read, ⟨z, hz, hztargets, hzvalue⟩, hsame⟩ :=
      hc.formula id n t n.value hn ht (exists_result_of_isStale hstale)
    -- the formula that is stored and the one that was computed are the same expression
    have hez : e'.map Reference.target = z := by
      refine Expr.eq_of_outline_of_refs ?_ ?_
      · rw [Expr.outline_map]
        exact Except.ok.inj (houtline.symm.trans hz)
      · rw [Expr.refs_map, hrefs, t.map_target_refs, hztargets]
    refine ⟨read, fun p hp => ?_, ⟨e'.value fun r => read r.target, e'.refs⟩, ?_, ?_⟩
    · obtain ⟨⟨m, hm⟩, -⟩ := hw.parent id n p hn hp
      have hpt : p ∈ t.targets := (hw.mem_parents_iff hn ht).1 hp
      have hvalue := exists_result_of_isStale (hparents p hp m hm)
      rw [valueOf_of_result hm hvalue]
      exact (hsame p hpt m m.value hm hvalue).resolve_left not_false
    · rw [← toList_input ht] at he'
      exact evaluation_eq_of_ok he' read
    · rw [← hzvalue, ← hez, Expr.value_map]
      rfl

/-- Staleness covers every outdated value in every run. -/
theorem run_stalenessCovers (settings : Settings) (ops : List Operation) :
    (run settings ops).StalenessCovers :=
  stalenessCovers_of_current (wired_run settings ops) (formulasSound_run settings ops)
    (@linked_run True (fun _ => True) (fun _ _ _ => trivial) settings ops fun _ _ _ _ => trivial)
    (current_run settings ops)

end Net

end FormulaNet
