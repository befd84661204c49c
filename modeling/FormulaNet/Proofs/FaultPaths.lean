import FormulaNet.Proofs.Faults
import FormulaNet.Proofs.Persistence
import Mathlib.Data.List.Chain
import Mathlib.Data.List.Perm.Subperm

/-!
# The trace of a fault

A walk that ends in a fault stops at a child of the node where it began (`Net.walk_stops`), and leaves a
path of stale nodes from there by way of the child down to the cause of the fault, which is a formula that
cannot be evaluated, or the depth of the path itself (`Net.walksWitnessed`).  Nothing is evaluated once a
walk has met a fault, and what came before only added edges, so the path is there when the walk has
returned.  Hence a net without cycles and with few nodes never gives a cycle as the fault:
`Net.run_faultsWitnessed`.
-/

namespace FormulaNet.Net

/-! ## Where a walk stops -/

section Stops

variable (descend : NodeId → Net → Outcome) (below : NodeId → Net → List (NodeId × Net))

theorem visit_append (ids others : List NodeId) (net : Net) :
    visit descend (ids ++ others) net =
      match (visit descend ids net).fault with
      | some _ => visit descend ids net
      | none => visit descend others (visit descend ids net).net := by
  induction ids generalizing net with
  | nil => rfl
  | cons child ids ih =>
    rw [List.cons_append, visit, visit]
    cases net.refresh child with
    | error fault => rfl
    | ok net' =>
      dsimp only
      split
      · cases descend child net' with
        | mk net'' fault =>
          cases fault with
          | some fault => rfl
          | none => exact ih net''
      · exact ih net'

theorem visited_append (ids others : List NodeId) (net : Net) :
    visited descend below (ids ++ others) net =
      visited descend below ids net ++
        match (visit descend ids net).fault with
        | some _ => []
        | none => visited descend below others (visit descend ids net).net := by
  induction ids generalizing net with
  | nil => rfl
  | cons child ids ih =>
    rw [List.cons_append, visit, visited, visited, List.cons_append]
    congr 1
    cases net.refresh child with
    | error fault => exact (List.append_nil _).symm
    | ok net' =>
      dsimp only
      split
      · rw [List.append_assoc]
        cases descend child net' with
        | mk net'' fault =>
          cases fault with
          | some fault => rfl
          | none => exact congrArg _ (ih net'')
      · exact ih net'

variable {descend} {net : Net} {fault : Fault} {ids : List NodeId}

theorem visit_append_of_fault_eq_none (h : (visit descend ids net).fault = none) (others : List NodeId) :
    visit descend (ids ++ others) net = visit descend others (visit descend ids net).net := by
  rw [visit_append, h]

theorem visit_append_of_fault (h : (visit descend ids net).fault = some fault) (others : List NodeId) :
    visit descend (ids ++ others) net = visit descend ids net := by
  rw [visit_append, h]

theorem visited_append_of_fault_eq_none (h : (visit descend ids net).fault = none)
    (others : List NodeId) : visited descend below (ids ++ others) net =
      visited descend below ids net ++ visited descend below others (visit descend ids net).net := by
  rw [visited_append, h]

theorem visited_append_of_fault (h : (visit descend ids net).fault = some fault) (others : List NodeId) :
    visited descend below (ids ++ others) net = visited descend below ids net := by
  rw [visited_append, h, List.append_nil]

theorem mem_visited (h : (visit descend ids net).fault = none) (child : NodeId) (others : List NodeId) :
    (child, (visit descend ids net).net) ∈ visited descend below (ids ++ child :: others) net := by
  rw [visited_append_of_fault_eq_none below h]
  exact List.mem_append_right _ List.mem_cons_self

/-- A visit gets through some nodes and fails at the next one. -/
structure StopsAt (descend : NodeId → Net → Outcome) (net : Net) (earlier : List NodeId)
    (child : NodeId) (fault : Fault) : Prop where
  through : (visit descend earlier net).fault = none
  stop : (visit descend [child] (visit descend earlier net).net).fault = some fault

namespace StopsAt

variable {earlier : List NodeId} {child : NodeId} (h : StopsAt descend net earlier child fault)
  (later : List NodeId)

include h

/-- The nodes behind the one where a visit stops make no difference to it. -/
theorem visit_eq : visit descend (earlier ++ child :: later) net =
    visit descend [child] (visit descend earlier net).net :=
  (visit_append_of_fault_eq_none h.through _).trans (visit_append_of_fault h.stop later)

/-- They are evaluated only where they are below the others. -/
theorem visited_eq : visited descend below (earlier ++ child :: later) net =
    visited descend below (earlier ++ [child]) net := by
  have happend := visited_append_of_fault below h.stop later
  rw [visited_append_of_fault_eq_none below h.through, visited_append_of_fault_eq_none below h.through]
  exact congrArg _ happend

/-- The nodes up to the one where a visit stops are evaluated. -/
theorem exists_mem_visited {c : NodeId} (hc : c ∈ earlier ++ [child]) :
    ∃ k, (c, k) ∈ visited descend below (earlier ++ child :: later) net := by
  rcases List.mem_append.1 hc with hc | hc
  · obtain ⟨before, after, rfl⟩ := List.append_of_mem hc
    have hbefore : (visit descend before net).fault = none := by
      rw [Option.eq_none_iff_forall_ne_some]
      intro cause hcause
      have hthrough := h.through
      rw [visit_append_of_fault hcause, hcause] at hthrough
      cases hthrough
    rw [List.append_assoc]
    exact ⟨_, mem_visited below hbefore c (after ++ child :: later)⟩
  · obtain rfl := List.mem_singleton.1 hc
    exact ⟨_, mem_visited below h.through c later⟩

end StopsAt

/-- A visit that fails stops at one of the nodes. -/
theorem exists_stopsAt (hf : (visit descend ids net).fault = some fault) :
    ∃ earlier child later, ids = earlier ++ child :: later ∧ StopsAt descend net earlier child fault := by
  induction ids using List.reverseRecOn with
  | nil => cases hf
  | append_singleton ids child ih =>
    cases hids : (visit descend ids net).fault with
    | none =>
      rw [visit_append_of_fault_eq_none hids] at hf
      exact ⟨ids, child, [], rfl, hids, hf⟩
    | some cause =>
      rw [visit_append_of_fault hids] at hf
      obtain ⟨earlier, stop, later, rfl, hstops⟩ := ih hf
      exact ⟨earlier, stop, later ++ [child], by simp, hstops⟩

/-- A walk that fails stops at a child of the node where it began. -/
theorem walk_stops {room : Nat} {id : NodeId} {n : Node} (hn : net.node? id = some n)
    (hf : (walk (room + 1) id net).fault = some fault) :
    ∃ earlier child later, n.children.toList = earlier ++ child :: later ∧
      StopsAt (walk room) net earlier child fault ∧
      (walk (room + 1) id net).net = (visit (walk room) n.children.toList net).net.markStale id := by
  have hnode : net.node id = .ok n := by rw [node, hn]
  rw [walk, hnode] at hf ⊢
  dsimp only at hf ⊢
  cases hv : visit (walk room) n.children.toList net with
  | mk net' cause =>
    rw [hv] at hf
    cases cause with
    | none => cases hf
    | some cause =>
      cases hf
      obtain ⟨earlier, child, later, hsplit, hstops⟩ := exists_stopsAt (congrArg Outcome.fault hv)
      exact ⟨earlier, child, later, hsplit, hstops, rfl⟩

end Stops

/-! ## Paths of stale nodes -/

/-- A path from a node along the edges down, all of whose nodes are stale. -/
structure LostPath (net : Net) (id : NodeId) (path : List NodeId) : Prop where
  head : path.head? = some id
  chain : path.IsChain net.ReadBy
  lost : ∀ p ∈ path, ∃ n, net.node? p = some n ∧ n.isStale = true ∧ n.value.isNaN = true

/-- A lost path from a node has the cause of a fault at its end, or it has so many edges that the fault
is a cycle. -/
def Witnessed (net : Net) (limit : Nat) (id : NodeId) (edges : Nat) (fault : Fault) : Prop :=
  ∃ path, net.LostPath id path ∧
    ((fault = .cycle limit ∧ path.length = edges + 1) ∨
      ∃ p n, path.getLast? = some p ∧ net.node? p = some n ∧ net.meaning p n.input = .error fault)

theorem isNaN_of_isStale {n : Node} (h : n.isStale = true) : n.value.isNaN = true := by
  rw [Node.isStale, Option.isNone_iff_eq_none] at h
  rw [Node.value, h]
  exact isNaN_nan

section Walks

variable {net : Net} {id : NodeId} {limit : Nat} {fault : Fault}

theorem lostPath_singleton {n : Node} (hn : net.node? id = some n) (hstale : n.isStale = true) :
    net.LostPath id [id] where
  head := rfl
  chain := .singleton id
  lost p hp := by
    obtain rfl := List.mem_singleton.1 hp
    exact ⟨n, hn, hstale, isNaN_of_isStale hstale⟩

theorem LostPath.markStale {path : List NodeId} (h : net.LostPath id path) (x : NodeId) :
    (net.markStale x).LostPath id path where
  head := h.head
  chain := h.chain.imp fun _ _ => readBy_markStale.2
  lost p hp := by
    obtain ⟨n, hn, hstale, -⟩ := h.lost p hp
    obtain ⟨n', hn', -, hstale'⟩ := exists_node?_markStale hn x
    exact ⟨n', hn', hstale' hstale, isNaN_of_isStale (hstale' hstale)⟩

/-- A node that is made stale comes before a path that begins at one of its children. -/
theorem LostPath.cons {c : NodeId} {path : List NodeId} (h : net.LostPath c path)
    (hid : net.ReadBy id c) : (net.markStale id).LostPath id (id :: path) where
  head := rfl
  chain := by
    refine List.isChain_cons.2 ⟨fun p hp => ?_, (h.markStale id).chain⟩
    obtain rfl : c = p := Option.some.inj (h.head.symm.trans hp)
    exact readBy_markStale.2 hid
  lost p hp := by
    rcases List.mem_cons.1 hp with rfl | hp
    · obtain ⟨n, hn, -⟩ := hid
      exact ⟨n.markStale, node?_markStale_self hn, rfl, isNaN_nan⟩
    · exact (h.markStale id).lost p hp

theorem Failing.witnessed (h : net.Failing id fault) (edges : Nat) :
    net.Witnessed limit id edges fault := by
  obtain ⟨n, t, hn, hstale, ht, hm⟩ := h
  refine ⟨[id], lostPath_singleton hn hstale, .inr ⟨id, n, rfl, hn, ?_⟩⟩
  rw [Node.input, ht]
  exact hm

theorem Witnessed.cons {c : NodeId} {edges : Nat} (h : net.Witnessed limit c edges fault)
    (hid : net.ReadBy id c) : (net.markStale id).Witnessed limit id (edges + 1) fault := by
  obtain ⟨path, hpath, hcause⟩ := h
  refine ⟨id :: path, hpath.cons hid, ?_⟩
  rcases hcause with ⟨rfl, hlength⟩ | ⟨p, n, hp, hn, hm⟩
  · exact .inl ⟨rfl, by rw [List.length_cons, hlength]⟩
  · obtain ⟨n', hn', hcontent, -⟩ := exists_node?_markStale hn id
    refine .inr ⟨p, n', ?_, hn', ?_⟩
    · rw [List.getLast?_cons, hp, Option.getD_some]
    · rw [Node.input, hcontent]
      exact meaning_error_congr (net.directory_markStale id) hm

/-- Walks of some depth that fail leave paths to the causes. -/
def WalksWitnessed (limit room : Nat) (fault : Fault) : Prop :=
  ∀ id net, net.Intact → net.settings.depthLimit.toNat = limit → (∃ n, net.node? id = some n) →
    (walk room id net).fault = some fault → (walk room id net).net.Witnessed limit id room fault

theorem WalksWitnessed.visit {room : Nat} (hwalk : WalksWitnessed limit room fault) (h : net.Intact)
    (hlimit : net.settings.depthLimit.toNat = limit) (hid : ∃ n, net.node? id = some n)
    (hf : (Net.visit (walk room) [id] net).fault = some fault) :
    (Net.visit (walk room) [id] net).net.Witnessed limit id room fault := by
  rw [Net.visit] at hf ⊢
  cases hr : net.refresh id with
  | error cause =>
    -- The walk below the node cannot make it a value again.
    simp only [hr, Option.some.injEq] at hf ⊢
    subst hf
    obtain ⟨n, hn⟩ := hid
    obtain ⟨t, ht, hm⟩ := refresh_eq_error hn hr
    have hfailing : (net.markStale id).Failing id cause :=
      ⟨n.markStale, t, node?_markStale_self hn, rfl, ht,
        meaning_error_congr (net.directory_markStale id) hm⟩
    exact ((keptByWalks_failing id cause).walk room id hfailing).witnessed room
  | ok net' =>
    have hbelow := hwalk id net' (kept_intact.refresh h hr) (by rwa [settings_refresh hr])
      ((exists_node?_congr (directory_refresh hr)).2 hid)
    simp only [hr] at hf ⊢
    split at hf
    · next hchanged =>
      rw [if_pos hchanged]
      cases hd : walk room id net' with
      | mk net'' cause =>
        rw [hd] at hf hbelow
        cases cause with
        | some cause => exact hbelow hf
        | none => cases hf
    · cases hf

/-- The child where a visit stops is the head of a path to the cause. -/
theorem StopsAt.witnessed {room : Nat} {n : Node} {earlier later : List NodeId} {child : NodeId}
    (hstops : StopsAt (walk room) net earlier child fault) (hwalk : WalksWitnessed limit room fault)
    (h : net.Intact) (hlimit : net.settings.depthLimit.toNat = limit) (hn : net.node? id = some n)
    (hsplit : n.children.toList = earlier ++ child :: later) :
    (visit (walk room) n.children.toList net).net.ReadBy id child ∧
      (visit (walk room) n.children.toList net).net.Witnessed limit child room fault := by
  rw [hsplit, hstops.visit_eq]
  have hgrown (ids : List NodeId) {net' : Net} (h' : Grown net net') :
      Grown net (visit (walk room) ids net').net :=
    (keptByWalks_grown net).visit (fun c _ => (keptByWalks_grown net).walk room c) ids h'
  have hearlier := hgrown earlier h.grown
  have hchild : child ∈ n.children := by
    rw [← IdSet.mem_toList, hsplit]
    exact List.mem_append_right earlier List.mem_cons_self
  refine ⟨(hgrown [child] hearlier).readBy id child ⟨n, hn, hchild⟩, ?_⟩
  exact hwalk.visit hearlier.intact (by rwa [hearlier.settings])
    ((exists_node?_congr hearlier.directory).2 (h.wired.child id n child hn hchild)) hstops.stop

theorem walksWitnessed (limit room : Nat) (fault : Fault) : WalksWitnessed limit room fault := by
  induction room with
  | zero =>
    rintro id net - hlimit ⟨n, hn⟩ hf
    cases hf
    exact ⟨[id], lostPath_singleton (node?_markStale_self hn) rfl, .inl ⟨by rw [hlimit], rfl⟩⟩
  | succ room ih =>
    rintro id net h hlimit ⟨n, hn⟩ hf
    obtain ⟨earlier, child, later, hsplit, hstops, hnet⟩ := walk_stops hn hf
    obtain ⟨hread, hw⟩ := hstops.witnessed ih h hlimit hn hsplit
    rw [hnet]
    exact hw.cons hread

theorem walkBelow_witnessed (h : net.Intact) (hlimit : net.settings.depthLimit.toNat = limit)
    (hid : ∃ n, net.node? id = some n) (hf : (net.walkBelow id).fault = some fault) :
    (net.walkBelow id).net.Witnessed limit id (limit + 1) fault := by
  rw [walkBelow, hlimit] at hf ⊢
  exact walksWitnessed _ _ _ id net h hlimit hid hf

/-- A path from a node down. -/
def PathDown (net : Net) (id : NodeId) (edges : Nat) : Prop :=
  ∃ path : List NodeId, path.head? = some id ∧ path.IsChain net.ReadBy ∧ path.length = edges + 1

/-- A cycle is never the fault of a formula. -/
theorem Witnessed.pathDown {limit' edges : Nat} (h : net.Witnessed limit id edges (.cycle limit')) :
    limit' = limit ∧ net.PathDown id edges := by
  obtain ⟨path, hpath, ⟨hcycle, hlength⟩ | ⟨p, n, -, -, hm⟩⟩ := h
  · exact ⟨Fault.cycle.inj hcycle, path, hpath.head, hpath.chain, hlength⟩
  · exact absurd hm (net.meaning_ne_cycle p n.input limit')

theorem PathDown.grown {net' : Net} {edges : Nat} (h : net.PathDown id edges) (hgrown : Grown net net') :
    net'.PathDown id edges := by
  obtain ⟨path, hhead, hchain, hlength⟩ := h
  exact ⟨path, hhead, hchain.imp hgrown.readBy, hlength⟩

theorem walkBelowAll_pathDown {limit' : Nat} (ids : List NodeId) (h : net.Intact)
    (hlimit : net.settings.depthLimit.toNat = limit) (hids : ∀ c ∈ ids, ∃ n, net.node? c = some n)
    (hf : (walkBelowAll ids net).fault = some (.cycle limit')) :
    limit' = limit ∧ ∃ c ∈ ids, (walkBelowAll ids net).net.PathDown c (limit + 1) := by
  induction ids generalizing net with
  | nil => cases hf
  | cons id ids ih =>
    have hgrown := (keptByWalks_grown net).walkBelow id h.grown
    rw [walkBelowAll] at hf ⊢
    dsimp only at hf ⊢
    cases hfirst : (net.walkBelow id).fault with
    | some fault =>
      rw [hfirst, Option.some_or, Option.some.injEq] at hf
      subst hf
      obtain ⟨hcycle, hpath⟩ :=
        (walkBelow_witnessed h hlimit (hids id List.mem_cons_self) hfirst).pathDown
      refine ⟨hcycle, id, List.mem_cons_self, hpath.grown ?_⟩
      exact (keptByWalks_grown _).walkBelowAll ids hgrown.intact.grown
    | none =>
      rw [hfirst, Option.none_or] at hf
      obtain ⟨hcycle, c, hc, hpath⟩ := ih hgrown.intact (by rwa [hgrown.settings])
        (fun c hc => (exists_node?_congr hgrown.directory).2 (hids c (List.mem_cons_of_mem id hc))) hf
      exact ⟨hcycle, c, List.mem_cons_of_mem id hc, hpath⟩

end Walks

/-! ## Operations -/

section Operations

variable {net : Net} {id : NodeId} {limit : Nat}

theorem setContent_witnessed (h : net.Intact) (hlimit : net.settings.depthLimit.toNat = limit)
    {n : Node} (hn : net.node? id = some n) {text : String} {m : Meaning}
    (hm : net.meaning id text = .ok m) {fault : Fault}
    (hf : (net.setContent id text).fault = some fault) :
    (∃ n', (net.setContent id text).net.node? id = some n' ∧ n'.content = m.content) ∧
      (net.setContent id text).net.Witnessed limit id (limit + 1) fault := by
  rcases setContent_cases hn text with
    ⟨-, heq⟩ | ⟨-, ⟨m', hm', -, heq⟩ | ⟨m', -, -, heq⟩ | ⟨fault, hfault, -⟩⟩
  · rw [heq] at hf
    cases hf
  · obtain rfl : m = m' := Except.ok.inj (hm.symm.trans hm')
    rw [heq] at hf ⊢
    have hadopt : (net.adopt id m).Intact := kept_intact.adopt net id text m hm h
    obtain ⟨n', hn'⟩ := (exists_node?_congr (net.directory_adopt id m)).2 ⟨n, hn⟩
    have hcontent := (node?_adopt_self hn hn').1
    refine ⟨?_, walkBelow_witnessed hadopt (by rwa [settings_adopt]) ⟨n', hn'⟩ hf⟩
    exact ((keptByWalks_content hm).walkBelow id ⟨net.directory_adopt id m, n', hn', hcontent⟩).2
  · rw [heq] at hf
    cases hf
  · cases hm.symm.trans hfault

theorem Wired.not_mem_children_self (h : net.Wired) {n : Node} (hn : net.node? id = some n) :
    id ∉ n.children := fun hid =>
  (h.parent id n id hn ((h.mirrored id id n n hn hn).2 hid)).2 rfl

/-- The children of a removed node are still there. -/
theorem Wired.exists_node?_remove (h : net.Wired) {n : Node} (hn : net.node? id = some n) (index : Nat)
    {c : NodeId} (hc : c ∈ n.children) : ∃ k, (net.remove id index).node? c = some k := by
  obtain ⟨k, hk⟩ := h.child id n c hn hc
  have hne : c ≠ id := by
    rintro rfl
    exact h.not_mem_children_self hn hc
  rw [node?_remove, if_neg hne, hk, Option.map_some]
  exact ⟨_, rfl⟩

theorem delete_pathDown (h : net.Intact) (hlimit : net.settings.depthLimit.toNat = limit)
    {limit' : Nat} (hf : (net.delete id).fault = some (.cycle limit')) :
    limit' = limit ∧ ∃ n, net.node? id = some n ∧
      ∃ c ∈ n.children, (net.delete id).net.PathDown c (limit + 1) := by
  cases hindex : net.nodes.indexOf? id with
  | none =>
    rw [delete, hindex] at hf
    cases hf
  | some index =>
    cases hn : net.node? id with
    | none =>
      rw [delete, hindex, hn] at hf
      cases hf
    | some n =>
      rw [delete_eq hindex hn] at hf ⊢
      have hremove : (net.remove id index).Intact := kept_intact.remove net id index hindex h
      obtain ⟨hcycle, c, hc, hpath⟩ := walkBelowAll_pathDown _ hremove hlimit
        (fun c hc => h.wired.exists_node?_remove hn index hc) hf
      exact ⟨hcycle, n, rfl, c, hc, hpath⟩

theorem outcome_fault {result : Except Fault Net} {fault : Fault}
    (h : (net.outcome result).fault = some fault) : result = .error fault := by
  cases result with
  | ok net' => cases h
  | error fault' => rw [Option.some.inj h]

theorem rename_ne_cycle (net : Net) (id : NodeId) (name : String) (limit : Nat) :
    net.rename id name ≠ .error (.cycle limit) := by
  intro h
  rcases net.rename_failsOnly id name _ h with ⟨h, -⟩ | ⟨cause, h⟩
  · cases h
  · cases h

theorem setContent_pathDown (h : net.Intact) (hlimit : net.settings.depthLimit.toNat = limit)
    {text : String} {limit' : Nat} (hf : (net.setContent id text).fault = some (.cycle limit')) :
    limit' = limit ∧ (net.setContent id text).net.PathDown id (limit + 1) := by
  cases hn : net.node? id with
  | none =>
    rw [setContent_of_none hn] at hf
    cases hf
  | some n =>
    rcases setContent_cases hn text with
      ⟨-, heq⟩ | ⟨-, ⟨m, hm, -, -⟩ | ⟨m, hm, -, -⟩ | ⟨fault, hfault, heq⟩⟩
    · rw [heq] at hf
      cases hf
    · exact (setContent_witnessed h hlimit hn hm hf).2.pathDown
    · exact (setContent_witnessed h hlimit hn hm hf).2.pathDown
    · rw [heq] at hf
      cases hf
      exact absurd hfault (net.meaning_ne_cycle id text limit')

/-- An operation that ends in a cycle leaves a path that is as deep as a walk may go. -/
theorem perform_pathDown (h : net.Intact) (hlimit : net.settings.depthLimit.toNat = limit)
    {op : Operation} {limit' : Nat} (hf : (net.perform op).fault = some (.cycle limit')) :
    ∃ id, (net.perform op).net.PathDown id (limit + 1) := by
  cases op with
  | create | createUnnamed => cases hf
  | submit id text asName =>
    cases asName with
    | false => exact ⟨id, (setContent_pathDown h hlimit hf).2⟩
    | true =>
      rw [perform_submit_name] at hf
      exact absurd (outcome_fault hf) (net.rename_ne_cycle id text limit')
  | rename id name => exact absurd (outcome_fault hf) (net.rename_ne_cycle id name limit')
  | delete id =>
    obtain ⟨-, n, -, c, -, hpath⟩ := delete_pathDown h hlimit hf
    exact ⟨c, hpath⟩
  | deleteAt index =>
    rw [perform, deleteAt] at hf ⊢
    cases hat : net.nodes.at? index with
    | none =>
      rw [hat] at hf
      cases hf
    | some id =>
      rw [hat] at hf
      obtain ⟨-, n, -, c, -, hpath⟩ := delete_pathDown h hlimit hf
      exact ⟨c, hpath⟩
  | moveTo id x y => cases (net.moveTo_failsOnly id x y _ (outcome_fault hf)).1

/-! ## Nets without cycles -/

/-- No node is read by itself, directly or by way of others. -/
def Acyclic (net : Net) : Prop :=
  ∀ id, ¬ Relation.TransGen net.ReadBy id id

/-- In a net without cycles no node is on a path twice. -/
theorem Acyclic.nodup (h : net.Acyclic) {path : List NodeId} (hpath : path.IsChain net.ReadBy) :
    path.Nodup := by
  have hchain : path.IsChain (Relation.TransGen net.ReadBy) := hpath.imp fun _ _ => .single
  refine hchain.pairwise.imp ?_
  rintro a b hab rfl
  exact h a hab

/-- A net in which every node reads only nodes before it has no cycles. -/
theorem acyclic_of_edges {net : Net} (h : ∀ e ∈ net.edges, e.1 < e.2) : net.Acyclic := by
  have hlt : ∀ {a b}, Relation.TransGen net.ReadBy a b → a < b := by
    intro a b hab
    induction hab with
    | single hread => exact h _ (mem_edges.2 hread)
    | tail _ hread ih => exact Nat.lt_trans ih (h _ (mem_edges.2 hread))
  exact fun id hid => Nat.lt_irrefl id (hlt hid)

theorem Acyclic.lt_size (h : net.Acyclic) (hw : net.Wired) {edges : Nat}
    (hpath : net.PathDown id (edges + 1)) : edges + 1 < net.nodes.size := by
  obtain ⟨path, -, hchain, hlength⟩ := hpath
  match path, hlength with
  | a :: b :: rest, hlength =>
    have hlive : ∀ p ∈ a :: b :: rest, ∃ n, net.node? p = some n := by
      refine hchain.induction (fun p => ∃ n, net.node? p = some n) _ ?_ fun _ => ?_
      · exact fun x y hxy _ => (hw.exists_of_readBy hxy).2
      · exact (hw.exists_of_readBy (List.isChain_cons_cons.1 hchain).1).1
    have hsub : a :: b :: rest ⊆ net.nodes.ids := fun p hp => mem_ids_iff.2 (hlive p hp)
    have hle := (List.subperm_of_subset (h.nodup hchain) hsub).length_le
    rw [hlength, Roster.ids, List.length_map] at hle
    exact hle

/-- In a small net without cycles no path is deep. -/
theorem Acyclic.pathDown_le (h : net.Acyclic) (hw : net.Wired) {limit edges : Nat}
    (hsize : net.nodes.size ≤ limit + 1) (hpath : net.PathDown id edges) : edges ≤ limit := by
  cases edges with
  | zero => exact Nat.zero_le limit
  | succ edges =>
    have hlt := h.lt_size hw hpath
    omega

end Operations

/-- The faults of operations have a cause in the net that they leave behind. -/
structure FaultsWitnessed (limit : Nat) (net : Net) : Prop where
  /-- An input that is accepted is kept, even if the walk below it fails. -/
  accepted : ∀ id text n m fault, net.node? id = some n → net.meaning id text = .ok m →
    (net.perform (.submit id text false)).fault = some fault →
      (∃ n', (net.perform (.submit id text false)).net.node? id = some n' ∧ n'.content = m.content) ∧
        (net.perform (.submit id text false)).net.Witnessed limit id (limit + 1) fault
  deletion : ∀ id limit', (net.perform (.delete id)).fault = some (.cycle limit') →
    limit' = limit ∧ ∃ n, net.node? id = some n ∧
      ∃ c ∈ n.children, (net.perform (.delete id)).net.PathDown c (limit + 1)
  acyclic : ∀ op limit', (net.perform op).net.Acyclic →
    (net.perform op).net.nodes.size ≤ limit + 1 → (net.perform op).fault ≠ some (.cycle limit')

/-- In every run the faults of operations have a cause in the net that they leave behind. -/
theorem run_faultsWitnessed (settings : Settings) (ops : List Operation) :
    (run settings ops).FaultsWitnessed settings.depthLimit.toNat := by
  have h := intact_run settings ops
  have hlimit : (run settings ops).settings.depthLimit.toNat = settings.depthLimit.toNat := by
    rw [settings_run]
  constructor
  case accepted =>
    intro id text n m fault hn hm hf
    exact setContent_witnessed h hlimit hn hm hf
  case deletion =>
    intro id limit' hf
    exact delete_pathDown h hlimit hf
  case acyclic =>
    intro op limit' hacyclic hsize hf
    obtain ⟨id, hpath⟩ := perform_pathDown h hlimit hf
    have hw : ((run settings ops).perform op).net.Wired :=
      kept_wired.byOperations.perform h.wired fun _ _ => trivial
    exact absurd (hacyclic.lt_size hw hpath) (Nat.not_lt.2 hsize)

end FormulaNet.Net
