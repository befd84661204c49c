import FormulaNet.Net.Edit
import FormulaNet.Proofs.Rosters

/-!
# Finding nodes

What a mention means depends on the directory of the net alone, which lists the names of its nodes by
index.  Values, contents and edges do not matter (`Net.resolve_congr`), and what a name reaches stays
the same as long as no other node comes before the target (`Net.resolveName_of_candidates`).
-/

namespace FormulaNet.Net

/-! ## Nodes after a change -/

theorem node_eq_ok {net : Net} {id : NodeId} {n : Node} (h : net.node id = .ok n) :
    net.node? id = some n := by
  unfold node at h
  split at h
  · next hn =>
    cases h
    exact hn
  · cases h

/-- What is known of the nodes that are there before and after a change. -/
theorem exists_of_map_eq_some {net : Net} {x : NodeId} {f : Node → Node} {n' : Node}
    (h : (net.node? x).map f = some n') : ∃ n, net.node? x = some n ∧ n' = f n := by
  obtain ⟨n, hn, hf⟩ := Option.map_eq_some_iff.1 h
  exact ⟨n, hn, hf.symm⟩

section Changes

variable (net : Net) (id x : NodeId)

theorem node?_modify (f : Node → Node) :
    (net.modify id f).node? x = if x = id then (net.node? x).map f else net.node? x :=
  net.nodes.get?_modify id f x

theorem node?_markStale :
    (net.markStale id).node? x =
      if x = id then (net.node? x).map Node.markStale else net.node? x :=
  net.node?_modify id x _

theorem node?_create (name : String) (a b : Float) :
    (net.create name a b).2.node? x =
      if x = net.nodes.next then some (.create name a b) else net.node? x :=
  net.nodes.get?_push _ x

theorem node?_next : net.node? net.nodes.next = none :=
  net.nodes.get?_next

variable {net x} in
/-- After the creation of a node there are the new one and those that were there before. -/
theorem node?_create_cases {name : String} {a b : Float} {n : Node}
    (h : (net.create name a b).2.node? x = some n) :
    (x = net.nodes.next ∧ n = .create name a b) ∨ net.node? x = some n := by
  rw [node?_create] at h
  split at h
  · next hx => exact .inl ⟨hx, (Option.some.inj h).symm⟩
  · exact .inr h

/-- The children of a node after a node was linked to new parents. -/
def relinked (id : NodeId) (old new : IdSet) (parent : NodeId) (n : Node) : IdSet :=
  if parent ∈ new then n.children.insert id
  else if parent ∈ old then n.children.erase id
  else n.children

theorem node?_relink (old new : IdSet) :
    (net.relink id old new).node? x =
      (net.node? x).map fun n => { n with children := relinked id old new x n } := by
  refine (net.nodes.get?_map _ x).trans (congrArg (Option.map · _) (funext fun n => ?_))
  unfold relinked
  split
  · rfl
  split
  · rfl
  · rfl

theorem mem_relinked {old new : IdSet} {parent c : NodeId} {n : Node} :
    c ∈ relinked id old new parent n ↔
      (c = id ∧ parent ∈ new) ∨ (c ∈ n.children ∧ (c = id → parent ∈ old → parent ∈ new)) := by
  unfold relinked
  by_cases hnew : parent ∈ new
  · simp [hnew]
  by_cases hold : parent ∈ old
  · simp [hnew, hold]
  · simp [hnew, hold]

variable {net id}

/-- The nodes after a node took on an accepted input. -/
theorem node?_adopt {n : Node} (h : net.node? id = some n) (m : Meaning) :
    (net.adopt id m).node? x = (net.node? x).map fun k =>
      let parents := IdSet.ofList (m.content.refs.map Reference.target)
      let k := { k with children := relinked id n.parents parents x k }
      if x = id then { k with content := m.content, result := some m.value, parents := parents }
      else k := by
  rw [adopt, h]
  simp only []
  rw [node?_modify, node?_relink]
  by_cases hx : x = id
  · simp [hx, Function.comp_def]
  · simp [hx]

variable {x} in
/-- A node that took on an accepted input. -/
theorem node?_adopt_self {n n' : Node} (h : net.node? id = some n) {m : Meaning}
    (h' : (net.adopt id m).node? id = some n') :
    n'.content = m.content ∧ n'.result = some m.value := by
  rw [node?_adopt id h] at h'
  obtain ⟨k, -, rfl⟩ := exists_of_map_eq_some h'
  dsimp only
  rw [if_pos rfl]
  exact ⟨rfl, rfl⟩

variable {x} in
/-- Another node than the one that took on an accepted input. -/
theorem node?_adopt_other {n n' : Node} (h : net.node? id = some n) {m : Meaning} (hx : x ≠ id)
    (h' : (net.adopt id m).node? x = some n') :
    ∃ k, net.node? x = some k ∧ n'.content = k.content ∧ n'.result = k.result := by
  rw [node?_adopt x h] at h'
  obtain ⟨k, hk, rfl⟩ := exists_of_map_eq_some h'
  dsimp only
  rw [if_neg hx]
  exact ⟨k, hk, rfl, rfl⟩

variable {x} in
/-- A node after a node took on an accepted input is this one or was there before. -/
theorem node?_adopt_cases {n n' : Node} (h : net.node? id = some n) {m : Meaning}
    (h' : (net.adopt id m).node? x = some n') :
    (x = id ∧ n'.content = m.content ∧ n'.result = some m.value) ∨
      (x ≠ id ∧ ∃ k, net.node? x = some k ∧ n'.content = k.content ∧ n'.result = k.result) := by
  by_cases hx : x = id
  · subst hx
    exact .inl ⟨rfl, node?_adopt_self h h'⟩
  · exact .inr ⟨hx, node?_adopt_other h hx h'⟩

theorem adopt_of_none (h : net.node? id = none) (m : Meaning) : net.adopt id m = net := by
  rw [adopt, h]

end Changes

theorem next_adopt (net : Net) (id : NodeId) (m : Meaning) :
    (net.adopt id m).nodes.next = net.nodes.next := by
  unfold adopt
  split
  · rfl
  · rfl

/-! ## The directory -/

/-- The nodes by index, each with the name that a mention of it spells. -/
def directory (net : Net) : List (NodeId × String) :=
  net.nodes.entries.map fun e => (e.1, e.2.key)

theorem map_fst_directory (net : Net) : net.directory.map Prod.fst = net.nodes.ids := by
  simp [directory, Roster.ids]

theorem ids_congr {net net' : Net} (h : net'.directory = net.directory) : net'.nodes.ids = net.nodes.ids := by
  rw [← map_fst_directory, ← map_fst_directory, h]

theorem mem_directory {net : Net} {id : NodeId} {key : String} :
    (id, key) ∈ net.directory ↔ ∃ n, net.node? id = some n ∧ n.key = key := by
  rw [directory, List.mem_map]
  constructor
  · rintro ⟨e, he, h⟩
    obtain ⟨rfl, rfl⟩ := Prod.mk.inj h
    exact ⟨e.2, Roster.get?_eq_some_iff_mem.2 he, rfl⟩
  · rintro ⟨n, hn, rfl⟩
    exact ⟨(id, n), Roster.get?_eq_some_iff_mem.1 hn, rfl⟩

theorem mem_ids_iff {net : Net} {id : NodeId} : id ∈ net.nodes.ids ↔ ∃ n, net.node? id = some n :=
  Roster.mem_ids_iff_get?

theorem exists_node?_of_indexOf? {net : Net} {id : NodeId} {index : Nat}
    (h : net.nodes.indexOf? id = some index) : ∃ n, net.node? id = some n :=
  mem_ids_iff.1 (Roster.mem_ids_of_at? (Roster.indexOf?_eq_some_iff.1 h))

theorem directory_map {net : Net} {f : NodeId → Node → Node} (h : ∀ id n, (f id n).name = n.name) :
    directory { net with nodes := net.nodes.map f } = net.directory := by
  simp only [directory, Roster.map, List.map_map]
  refine List.map_congr_left fun e _ => ?_
  simp [Node.key, h]

theorem directory_modify (net : Net) (id : NodeId) {f : Node → Node}
    (h : ∀ n, (f n).name = n.name) : (net.modify id f).directory = net.directory := by
  refine directory_map fun x n => ?_
  split
  · exact h n
  · rfl

@[simp] theorem directory_adopt (net : Net) (id : NodeId) (m : Meaning) :
    (net.adopt id m).directory = net.directory := by
  unfold adopt
  split
  · rfl
  · rw [directory_modify _ _ (by exact fun _ => rfl)]
    refine directory_map fun x n => ?_
    split
    · rfl
    split
    · rfl
    · rfl

@[simp] theorem directory_create (net : Net) (name : String) (a b : Float) :
    (net.create name a b).2.directory = net.directory ++ [(net.nodes.next, squeeze name)] := by
  simp [directory, create, Roster.push, Node.key, Node.create]

/-! ## What mentions reach -/

theorem resolveName_eq (net : Net) (host : NodeId) (key : String) :
    net.resolveName host key =
      let named := (net.directory.filter (·.2 = key)).map Prod.fst
      match named.find? (· ≠ host) with
      | some id => .ok id
      | none =>
        if named.isEmpty then .error (.reference (.missing key))
        else .error (.reference (.itself key)) := by
  have hnamed : (net.nodes.entries.filter (·.2.key = key)).map Prod.fst =
      (net.directory.filter (·.2 = key)).map Prod.fst := by
    rw [directory, List.filter_map, List.map_map]
    rfl
  rewrite [resolveName, hnamed]
  rfl

/-- Nets with the same directory give mentions the same meaning. -/
theorem resolve_congr {net net' : Net} (h : net'.directory = net.directory) (host : NodeId) :
    (net'.scope host).resolve = (net.scope host).resolve := by
  have hids := ids_congr h
  funext kind token
  cases kind with
  | name => exact (net'.resolveName_eq host token).trans (h ▸ (net.resolveName_eq host token).symm)
  | index =>
    show net'.resolveIndex host token = net.resolveIndex host token
    rw [resolveIndex, resolveIndex, Roster.at?, Roster.at?, hids]

/-- Whether an entry of the directory is one that a name can reach from a host. -/
def candidate (host : NodeId) (key : String) (e : NodeId × String) : Bool :=
  decide (e.2 = key) && decide (e.1 ≠ host)

/-- A name reaches the first candidate. -/
theorem resolveName_eq_ok_iff {net : Net} {host : NodeId} {key : String} {target : NodeId} :
    net.resolveName host key = .ok target ↔
      net.directory.find? (candidate host key) = some (target, key) := by
  have hfind : ((net.directory.filter (·.2 = key)).map Prod.fst).find? (· ≠ host) =
      (net.directory.find? (candidate host key)).map Prod.fst := by
    rw [List.find?_map, List.find?_filter]
    refine congrArg (Option.map Prod.fst) (congrArg (List.find? · _) (funext fun e => ?_))
    simp [candidate]
  rw [resolveName_eq]
  simp only [hfind]
  cases h : net.directory.find? (candidate host key) with
  | none =>
    simp only [Option.map_none]
    split
    · simp
    · simp
  | some e =>
    have hkey : e.2 = key := by
      have hc := List.find?_some h
      simp only [candidate, Bool.and_eq_true, decide_eq_true_eq] at hc
      exact hc.1
    simp only [Option.map_some, Except.ok.injEq, Option.some.injEq, Prod.ext_iff, hkey, and_true]

theorem resolveName_target {net : Net} {host : NodeId} {key : String} {target : NodeId}
    (h : net.resolveName host key = .ok target) : (target, key) ∈ net.directory ∧ target ≠ host := by
  have hfind := resolveName_eq_ok_iff.1 h
  have hc := List.find?_some hfind
  simp only [candidate, Bool.and_eq_true, decide_eq_true_eq] at hc
  exact ⟨List.mem_of_find?_eq_some hfind, hc.2⟩

theorem resolveIndex_eq_ok_iff {net : Net} {host : NodeId} {digits : String} {target : NodeId} :
    net.resolveIndex host digits = .ok target ↔
      net.nodes.at? (Decimal.natural digits.toList) = some target ∧ target ≠ host := by
  unfold resolveIndex
  split
  · next h => simp [h]
  · next id h =>
    rw [h]
    split
    · next hid =>
      subst hid
      simp only [reduceCtorEq, Option.some.injEq, ne_eq, false_iff, not_and, not_not]
      exact Eq.symm
    · next hid =>
      simp only [Except.ok.injEq, Option.some.injEq]
      constructor
      · rintro rfl
        exact ⟨rfl, hid⟩
      · exact fun h => h.1

/-- What a mention reaches is another node of the net. -/
theorem resolve_target {net : Net} {host : NodeId} {kind : MentionKind} {token : String}
    {target : NodeId} (h : (net.scope host).resolve kind token = .ok target) :
    (∃ n, net.node? target = some n) ∧ target ≠ host := by
  cases kind with
  | name =>
    obtain ⟨hmem, hne⟩ := resolveName_target h
    obtain ⟨n, hn, -⟩ := mem_directory.1 hmem
    exact ⟨⟨n, hn⟩, hne⟩
  | index =>
    obtain ⟨hat, hne⟩ := resolveIndex_eq_ok_iff.1 h
    exact ⟨mem_ids_iff.1 (Roster.mem_ids_of_at? hat), hne⟩

/-- A name keeps its target if the directory changes and no candidate is added before the target. -/
theorem resolveName_of_candidates {net net' : Net} {host : NodeId} {key : String} {target : NodeId}
    (h : net.resolveName host key = .ok target) {f : NodeId × String → Option (NodeId × String)}
    (hdir : net'.directory = net.directory.filterMap f) (htarget : f (target, key) = some (target, key))
    (hf : ∀ e ∈ net.directory, ∀ e', f e = some e' → candidate host key e' = true →
      candidate host key e = true) :
    net'.resolveName host key = .ok target := by
  rw [resolveName_eq_ok_iff] at h ⊢
  rw [hdir]
  obtain ⟨hc, before, after, he, hbefore⟩ := List.find?_eq_some_iff_append.1 h
  refine List.find?_eq_some_iff_append.2
    ⟨hc, before.filterMap f, after.filterMap f, ?_, fun e' he' => ?_⟩
  · rw [he, List.filterMap_append, List.filterMap_cons, htarget]
  · obtain ⟨e, hmem, hfe⟩ := List.mem_filterMap.1 he'
    have hnot : candidate host key e ≠ true := by simpa using hbefore e hmem
    have hdirmem : e ∈ net.directory := by
      rw [he]
      exact List.mem_append_left _ hmem
    simpa using fun hc' => hnot (hf e hdirmem e' hfe hc')

end FormulaNet.Net
