import FormulaNet.Proofs.Consumption
import FormulaNet.Proofs.Directory

/-!
# Renamed and removed nodes

What a rename and a removal do to every node of the net, and to its directory.
-/

namespace FormulaNet.Net

/-! ## Renaming -/

/-- The tokens that a rename replaces. -/
def retoken (id : NodeId) (key : String) (r : Reference) : Option String :=
  if r.kind = .name ∧ r.target = id then some key else none

/-- The net in which a node with some children has another name. -/
def renamed (net : Net) (id : NodeId) (children : IdSet) (name : String) : Net where
  settings := net.settings
  nodes := net.nodes.map fun other m =>
    let m := if other ∈ children then
        { m with content := m.content.replace (retoken id (squeeze name)) }
      else m
    if other = id then { m with name := name } else m

/-- No other node has the name, or else it is blank. -/
def Unused (net : Net) (id : NodeId) (key : String) : Prop :=
  key = "" ∨ ∀ other, (other, key) ∈ net.directory → other = id

/-- A rename to another name gives a node a name of letters that no other node has. -/
theorem rename_eq_ok_of_ne {net net' : Net} {id : NodeId} {n : Node} {name : String}
    (hn : net.node? id = some n) (hne : n.name ≠ name) (h : net.rename id name = .ok net') :
    isProperName name = true ∧ net.Unused id (squeeze name) ∧ net' = net.renamed id n.children name := by
  unfold rename at h
  obtain ⟨n', hn', hc⟩ := exists_of_bind_eq_ok h
  obtain rfl : n' = n := Option.some.inj ((node_eq_ok hn').symm.trans hn)
  dsimp only at hc
  rw [if_neg hne] at hc
  split at hc
  · cases hc
  · next hproper =>
    split at hc
    · cases hc
    · next hunused =>
      cases hc
      refine ⟨by simpa using hproper, ?_, rfl⟩
      by_cases hkey : squeeze name = ""
      · exact .inl hkey
      · refine .inr fun other hmem => ?_
        obtain ⟨m, hm, hmkey⟩ := mem_directory.1 hmem
        by_contra hne
        refine hunused ?_
        have hempty : (squeeze name).isEmpty = false := by simpa using hkey
        simp only [hempty, Bool.not_false, Bool.true_and, List.any_eq_true]
        exact ⟨(other, m), Roster.get?_eq_some_iff_mem.1 hm, by simp [hne, hmkey]⟩

/-- A rename changes nothing, or it gives a node a name of letters that no other node has. -/
theorem rename_eq_ok {net net' : Net} {id : NodeId} {name : String}
    (h : net.rename id name = .ok net') :
    ∃ n, net.node? id = some n ∧ (net' = net ∨
      (isProperName name = true ∧ net.Unused id (squeeze name) ∧
        net' = net.renamed id n.children name)) := by
  obtain ⟨n, hn, hc⟩ := exists_of_bind_eq_ok h
  refine ⟨n, node_eq_ok hn, ?_⟩
  by_cases hname : n.name = name
  · dsimp only at hc
    rw [if_pos hname] at hc
    cases hc
    exact .inl rfl
  · exact .inr (rename_eq_ok_of_ne (node_eq_ok hn) hname h)

theorem node?_renamed (net : Net) (id : NodeId) (children : IdSet) (name : String) (x : NodeId) :
    (net.renamed id children name).node? x = (net.node? x).map fun m =>
      { m with
        content := if x ∈ children then m.content.replace (retoken id (squeeze name)) else m.content
        name := if x = id then name else m.name } := by
  refine (net.nodes.get?_map _ x).trans (congrArg (Option.map · _) (funext fun m => ?_))
  by_cases hx : x ∈ children
  · by_cases hid : x = id
    · simp only [if_pos hx, if_pos hid]
    · simp only [if_pos hx, if_neg hid]
  · by_cases hid : x = id
    · simp only [if_neg hx, if_pos hid]
    · simp only [if_neg hx, if_neg hid]

theorem directory_renamed (net : Net) (id : NodeId) (children : IdSet) (name : String) :
    (net.renamed id children name).directory =
      net.directory.map fun e => if e.1 = id then (e.1, squeeze name) else e := by
  simp only [directory, renamed, Roster.map, List.map_map]
  refine List.map_congr_left fun e _ => ?_
  by_cases hid : e.1 = id
  · simp [hid, Node.key]
  · by_cases hx : e.1 ∈ children
    · simp [hx, hid, Node.key]
    · simp [hx, hid, Node.key]

/-! ## Removing -/

/-- The net without a node, before anything is evaluated again. -/
def remove (net : Net) (id : NodeId) (index : Nat) : Net :=
  { net with nodes := renumber ((net.nodes.erase id).map fun _ => detach id) index }

/-- The tokens that dangle after a removal. -/
def dangle (id : NodeId) (r : Reference) : Option String :=
  if r.target = id then some danglingToken else none

/-- The tokens that are renumbered once the nodes have other indices. -/
def renumbering (nodes : Roster Node) (start : Nat) (r : Reference) : Option String :=
  match r.kind, nodes.indexOf? r.target with
  | .index, some index => if start ≤ index then some (toString index) else none
  | _, _ => none

/-- A node after the removal of another one, before its mentions are renumbered. -/
theorem detach_eq (id : NodeId) (n : Node) :
    detach id n =
      { n with
        content := if id ∈ n.parents then (n.content.replace (dangle id)).unlink id else n.content
        result := if id ∈ n.parents then none else n.result
        parents := n.parents.erase id
        children := n.children.erase id } := by
  unfold detach
  by_cases h : id ∈ n.parents
  · simp only [if_pos h]
    rfl
  · simp only [if_neg h, IdSet.erase_of_not_mem h]

theorem renumbering_map (nodes : Roster Node) (f : NodeId → Node → Node) (start : Nat) :
    renumbering (nodes.map f) start = renumbering nodes start := by
  funext r
  rw [renumbering, renumbering, Roster.indexOf?_congr (Roster.ids_map f nodes)]

/-- The other nodes after a removal. -/
theorem node?_remove (net : Net) (id : NodeId) (index : Nat) (x : NodeId) :
    (net.remove id index).node? x = if x = id then none else (net.node? x).map fun n =>
      { n with
        content := (if id ∈ n.parents then (n.content.replace (dangle id)).unlink id
          else n.content).replace (renumbering (net.nodes.erase id) index)
        result := if id ∈ n.parents then none else n.result
        parents := n.parents.erase id
        children := n.children.erase id } := by
  have hrenumber : (net.remove id index).nodes =
      ((net.nodes.erase id).map fun _ => detach id).map fun _ n =>
        { n with content := n.content.replace (renumbering (net.nodes.erase id) index) } := by
    rw [← renumbering_map (net.nodes.erase id) (fun _ => detach id) index]
    rfl
  rw [node?, hrenumber, Roster.get?_map, Roster.get?_map, Roster.get?_erase]
  by_cases hx : x = id
  · simp [hx]
  · simp only [if_neg hx, Option.map_map]
    refine congrArg (Option.map · _) (funext fun n => ?_)
    simp only [Function.comp_apply, detach_eq]

theorem directory_remove (net : Net) (id : NodeId) (index : Nat) :
    (net.remove id index).directory = net.directory.filter (·.1 ≠ id) := by
  simp only [directory, remove, renumber, Roster.map, Roster.erase, List.map_map, List.filter_map]
  refine congrArg₂ List.map (funext fun e => ?_) rfl
  simp [Node.key, detach_eq]

end FormulaNet.Net
