import FormulaNet.Proofs.Persistence
import Mathlib.Data.List.Sort

/-!
# Edges and the order of nodes

Nodes are numbered in the order in which they are created, and they stay in this order (`Net.ids_run`).  The
edges are those of the references, by the indices of both ends, and they tell whether two nodes are
adjacent: `Net.run_edgeQueriesAgree`.
-/

namespace FormulaNet

/-! ## Numbers and indices -/

/-- Of two ascending lists the one is a part of the other, if all its members are. -/
theorem sublist_of_ascending {xs ys : List NodeId} (hxs : xs.Pairwise (· < ·)) (hys : ys.Pairwise (· < ·))
    (h : xs ⊆ ys) : xs.Sublist ys :=
  List.sublist_of_subperm_of_pairwise (List.subperm_of_subset (hxs.imp Nat.ne_of_lt) h) hxs hys

/-- Entries are in the order of their numbers. -/
theorem Roster.indexOf?_lt_iff {α : Type} {r : Roster α} {a b : NodeId} {i j : Nat}
    (hi : r.indexOf? a = some i) (hj : r.indexOf? b = some j) : i < j ↔ a < b := by
  have hlt : ∀ {a b i j}, r.indexOf? a = some i → r.indexOf? b = some j → i < j → a < b := by
    intro a b i j hi hj hij
    obtain ⟨hil, rfl⟩ := List.getElem?_eq_some_iff.1 (indexOf?_eq_some_iff.1 hi)
    obtain ⟨hjl, rfl⟩ := List.getElem?_eq_some_iff.1 (indexOf?_eq_some_iff.1 hj)
    exact List.pairwise_iff_getElem.1 r.ascending i j hil hjl hij
  refine ⟨hlt hi hj, fun hab => ?_⟩
  by_contra hnot
  rcases Nat.lt_or_eq_of_le (Nat.le_of_not_lt hnot) with hji | rfl
  · exact Nat.lt_asymm hab (hlt hj hi hji)
  · exact Nat.ne_of_lt hab (indexOf?_inj hi hj)

namespace Net

/-! ## The order of creation -/

/-- The number that an operation gives to a new node. -/
def createdBy? (net : Net) : Operation → Option NodeId
  | .create name x y => some (net.create name x y).1
  | .createUnnamed x y => some (net.createUnnamed x y).1
  | _ => none

/-- The numbers that operations give to new nodes, one after the other. -/
def givenOut : Net → List Operation → List NodeId
  | _, [] => []
  | net, op :: ops => (net.createdBy? op).toList ++ (net.perform op).net.givenOut ops

/-- A net with some of the nodes of another one, in which the next node has the same number. -/
structure Thinned (old net : Net) : Prop where
  ids : net.nodes.ids.Sublist old.nodes.ids
  next : net.nodes.next = old.nodes.next

namespace Thinned

theorem refl (net : Net) : Thinned net net :=
  ⟨.refl _, rfl⟩

theorem keptByWalks (old : Net) : KeptByWalks (Thinned old) where
  markStale net id h := ⟨(Roster.ids_map _ net.nodes).symm ▸ h.ids, h.next⟩
  refresh net id net' hr h := by
    refine ⟨(ids_congr (directory_refresh hr)).symm ▸ h.ids, ?_⟩
    obtain ⟨n, -, ⟨x, -, rfl⟩ | ⟨t, m, -, -, rfl⟩⟩ := refresh_eq_ok hr
    · exact h.next
    · exact (next_adopt net id m).trans h.next

theorem adopt (net : Net) (id : NodeId) (m : Meaning) : Thinned net (net.adopt id m) :=
  ⟨(ids_congr (net.directory_adopt id m)) ▸ .refl _, next_adopt net id m⟩

theorem remove (net : Net) (id : NodeId) (index : Nat) : Thinned net (net.remove id index) where
  ids := by
    rw [Reaches.ids_remove, Roster.ids_erase]
    exact List.erase_sublist
  next := rfl

theorem rename {net net' : Net} {id : NodeId} {name : String} (h : net.rename id name = .ok net') :
    Thinned net net' := by
  obtain ⟨n, -, rfl | ⟨-, -, rfl⟩⟩ := rename_eq_ok h
  · exact refl _
  · exact ⟨Reaches.ids_renamed net id n.children name ▸ .refl _, rfl⟩

theorem delete (net : Net) (id : NodeId) : Thinned net (net.delete id).net :=
  delete_net_of (I := Thinned net) (refl net) fun index _ _ _ =>
    (keptByWalks net).walkBelowAll _ (remove net id index)

/-- An operation that creates no node keeps the order of the others. -/
theorem perform {net : Net} {op : Operation} (h : net.createdBy? op = none) :
    Thinned net (net.perform op).net := by
  cases op with
  | create | createUnnamed => cases h
  | submit id text asName =>
    cases asName with
    | false => exact (keptByWalks net).setContent id text (fun m _ => adopt net id m) (refl net)
    | true =>
      rw [perform_submit_name]
      exact outcome_net_of (refl net) fun net' hr => rename hr
  | rename id name => exact outcome_net_of (refl net) fun net' hr => rename hr
  | delete id => exact delete net id
  | deleteAt index =>
    rw [Net.perform, deleteAt]
    split
    · exact delete net _
    · exact refl net
  | moveTo id x y =>
    refine outcome_net_of (refl net) fun net' hm => ?_
    rw [moveTo_eq_ok hm]
    exact ⟨(Roster.ids_map _ net.nodes).symm ▸ .refl _, rfl⟩

end Thinned

theorem perform_of_createdBy? {net : Net} {op : Operation} {id : NodeId} (h : net.createdBy? op = some id) :
    id = net.nodes.next ∧ (net.perform op).net.nodes.ids = net.nodes.ids ++ [id] ∧
      (net.perform op).net.nodes.next = net.nodes.next + 1 := by
  cases op with
  | create | createUnnamed =>
    cases h
    exact ⟨rfl, Roster.ids_push _ _, rfl⟩
  | submit | rename | delete | deleteAt | moveTo => cases h

/-- Numbers are given out in ascending order, from the next one on. -/
theorem givenOut_ascending (net : Net) (ops : List Operation) :
    (net.givenOut ops).Pairwise (· < ·) ∧ ∀ id ∈ net.givenOut ops, net.nodes.next ≤ id := by
  induction ops generalizing net with
  | nil => simp [givenOut]
  | cons op ops ih =>
    obtain ⟨hascending, hnext⟩ := ih (net.perform op).net
    cases h : net.createdBy? op with
    | none =>
      rw [(Thinned.perform h).next] at hnext
      simpa [givenOut, h] using ⟨hascending, hnext⟩
    | some id =>
      obtain ⟨rfl, -, heq⟩ := perform_of_createdBy? h
      rw [heq] at hnext
      simp only [givenOut, h, Option.toList_some, List.singleton_append, List.pairwise_cons,
        List.forall_mem_cons]
      exact ⟨⟨hnext, hascending⟩, Nat.le_refl _, fun id hid => Nat.le_of_succ_le (hnext id hid)⟩

theorem ids_foldl_perform (net : Net) (ops : List Operation) :
    (ops.foldl (fun net op => (net.perform op).net) net).nodes.ids.Sublist
      (net.nodes.ids ++ net.givenOut ops) := by
  induction ops generalizing net with
  | nil => simp [givenOut]
  | cons op ops ih =>
    refine (ih (net.perform op).net).trans ?_
    cases h : net.createdBy? op with
    | none =>
      simp only [givenOut, h, Option.toList_none, List.nil_append]
      exact (Thinned.perform h).ids.append_right _
    | some id =>
      obtain ⟨-, hids, -⟩ := perform_of_createdBy? h
      simp only [givenOut, h, Option.toList_some, hids, List.append_assoc]
      exact .refl _

/-- After a run the nodes are in the order in which they were created. -/
theorem ids_run (settings : Settings) (ops : List Operation) :
    (run settings ops).nodes.ids.Sublist ((empty settings).givenOut ops) :=
  ids_foldl_perform (empty settings) ops

/-! ## Edges in their order -/

/-- The edges are in the order of the numbers of both ends. -/
theorem edges_pairwise (net : Net) : net.edges.Pairwise (Prod.Lex (· < ·) (· < ·)) := by
  rw [edges, List.pairwise_flatMap]
  constructor
  · intro e _
    rw [List.pairwise_map]
    exact e.2.children.ascending.imp (.right _)
  · refine (List.pairwise_map.1 net.nodes.ascending).imp fun hlt x hx y hy => ?_
    obtain ⟨c, -, rfl⟩ := List.mem_map.1 hx
    obtain ⟨d, -, rfl⟩ := List.mem_map.1 hy
    exact .left _ _ hlt

/-- The one edge stands before the other by the indices of the nodes that are read, and then by those of the
nodes that read them. -/
def Precedes (net : Net) (e f : NodeId × NodeId) : Prop :=
  ∃ i j k l, net.nodes.indexOf? e.1 = some i ∧ net.nodes.indexOf? e.2 = some j ∧
    net.nodes.indexOf? f.1 = some k ∧ net.nodes.indexOf? f.2 = some l ∧
    Prod.Lex (· < ·) (· < ·) (i, j) (k, l)

theorem Wired.precedes {net : Net} (h : net.Wired) {e f : NodeId × NodeId} (he : e ∈ net.edges)
    (hf : f ∈ net.edges) (hlex : Prod.Lex (· < ·) (· < ·) e f) : net.Precedes e f := by
  have hindex : ∀ {id}, (∃ n, net.node? id = some n) → ∃ i, net.nodes.indexOf? id = some i := fun hn =>
    Roster.exists_indexOf? (Roster.mem_ids_iff_get?.2 hn)
  obtain ⟨⟨i, hi⟩, j, hj⟩ := (h.exists_of_readBy (mem_edges.1 he)).imp hindex hindex
  obtain ⟨⟨k, hk⟩, l, hl⟩ := (h.exists_of_readBy (mem_edges.1 hf)).imp hindex hindex
  refine ⟨i, j, k, l, hi, hj, hk, hl, ?_⟩
  rw [Prod.lex_def] at hlex ⊢
  rcases hlex with hlt | ⟨heq, hlt⟩
  · exact .inl ((Roster.indexOf?_lt_iff hi hk).2 hlt)
  · rw [heq] at hi
    exact .inr ⟨Option.some.inj (hi.symm.trans hk), (Roster.indexOf?_lt_iff hj hl).2 hlt⟩

/-- An edge ends in a node that has a reference to the other one. -/
theorem Wired.mem_edges_iff {net : Net} (h : net.Wired) {p c : NodeId} :
    (p, c) ∈ net.edges ↔ ∃ n, net.node? c = some n ∧ ∃ r ∈ n.content.refs, r.target = p := by
  have hrefs : ∀ {n}, net.node? c = some n → (net.ReadBy p c ↔ ∃ r ∈ n.content.refs, r.target = p) := by
    intro n hn
    rw [h.readBy_iff hn, h.mem_targets hn]
    exact List.mem_map
  rw [mem_edges]
  constructor
  · intro hread
    obtain ⟨-, n, hn⟩ := h.exists_of_readBy hread
    exact ⟨n, hn, (hrefs hn).1 hread⟩
  · rintro ⟨n, hn, hr⟩
    exact (hrefs hn).2 hr

/-- Two nodes are adjacent if there is an edge between them in either direction. -/
theorem Wired.adjacent_iff {net : Net} (h : net.Wired) {a b : NodeId} :
    net.adjacent a b = true ↔ (a, b) ∈ net.edges ∨ (b, a) ∈ net.edges := by
  rw [mem_edges, mem_edges, adjacent]
  cases hn : net.node? a with
  | none =>
    have hnot : ∀ {n}, net.node? a ≠ some n := fun hsome => by cases hn.symm.trans hsome
    simp only [Option.any_none, Bool.false_eq_true, false_iff, not_or]
    exact ⟨fun hab => (h.exists_of_readBy hab).1.elim fun n => hnot,
      fun hba => (h.exists_of_readBy hba).2.elim fun n => hnot⟩
  | some n =>
    have hchild : net.ReadBy a b ↔ b ∈ n.children :=
      ⟨fun ⟨k, hk, hb⟩ => Option.some.inj (hk.symm.trans hn) ▸ hb, fun hb => ⟨n, hn, hb⟩⟩
    rw [Option.any_some, Node.adjacentTo, Bool.or_eq_true, decide_eq_true_eq, decide_eq_true_eq, hchild,
      h.readBy_iff hn]

/-- What queries tell of the order of nodes and of the edges, where nodes got the numbers `created`. -/
structure EdgeQueriesAgree (created : List NodeId) (net : Net) : Prop where
  /-- Numbers ascend with indices, which are in the order of creation. -/
  ascending : net.nodes.ids.Pairwise (· < ·)
  creation : created.Pairwise (· < ·) ∧ net.nodes.ids.Sublist created
  /-- Children are visited in the order of their indices. -/
  visits : ∀ id n, net.node? id = some n → n.children.toList.Sublist net.nodes.ids
  /-- The edges are those of the references, each of them once and in order. -/
  mem_edges : ∀ p c, (p, c) ∈ net.edges ↔
    ∃ n, net.node? c = some n ∧ ∃ r ∈ n.content.refs, r.target = p
  nodup_edges : net.edges.Nodup
  edges_in_order : net.edges.Pairwise net.Precedes
  /-- The numbers need not be those of nodes. -/
  adjacent_comm : ∀ a b, net.adjacent a b = net.adjacent b a
  adjacent_iff : ∀ a b, net.adjacent a b = true ↔ (a, b) ∈ net.edges ∨ (b, a) ∈ net.edges

/-- After every run the nodes are in the order of their creation, the edges are those of the references in the
order of the indices, and two nodes are adjacent if there is an edge between them. -/
theorem run_edgeQueriesAgree (settings : Settings) (ops : List Operation) :
    EdgeQueriesAgree ((empty settings).givenOut ops) (run settings ops) := by
  have h := wired_run settings ops
  constructor
  case ascending => exact (run settings ops).nodes.ascending
  case creation => exact ⟨(givenOut_ascending _ ops).1, ids_run settings ops⟩
  case visits =>
    intro id n hn
    refine sublist_of_ascending n.children.ascending (run settings ops).nodes.ascending fun c hc => ?_
    exact Roster.mem_ids_iff_get?.2 (h.child id n c hn hc)
  case mem_edges => exact fun p c => h.mem_edges_iff
  case nodup_edges =>
    refine (edges_pairwise _).imp fun hlex heq => ?_
    subst heq
    rcases Prod.lex_def.1 hlex with hlt | ⟨-, hlt⟩
    · exact Nat.lt_irrefl _ hlt
    · exact Nat.lt_irrefl _ hlt
  case edges_in_order => exact (edges_pairwise _).imp_of_mem h.precedes
  case adjacent_comm =>
    intro a b
    rw [Bool.eq_iff_iff, h.adjacent_iff, h.adjacent_iff]
    exact or_comm
  case adjacent_iff => exact fun a b => h.adjacent_iff

end Net

end FormulaNet
