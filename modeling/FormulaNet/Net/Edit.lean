import FormulaNet.Net.Walk

/-!
# Edits

`Net.submit` is what happens when a user leaves an input field: the text becomes the name of a
node, or its number or formula.  A rename changes the mentions of the node in the formulas that
read it.  Deleting a node leaves the token `NA` where it was mentioned, and mentions by index of
the nodes behind it are renumbered.
-/

namespace FormulaNet

/-- The token that takes the place of a mention of a deleted node. -/
def danglingToken : String := "NA"

namespace Net

/-- Gives a node a number or a formula.  The input that the node already has changes nothing,
unless the node is stale.  A text that is not accepted leaves the content of the node as it was,
makes the node stale and walks over what depends on it. -/
def setContent (net : Net) (id : NodeId) (text : String) : Outcome :=
  match net.node id with
  | .error fault => ⟨net, some fault⟩
  | .ok n =>
    if n.input = text && !n.isStale then ⟨net, none⟩
    else
      match net.meaning id text with
      | .ok m =>
        let net' := net.adopt id m
        if n.value != m.value then net'.walkBelow id else ⟨net', none⟩
      | .error fault => ⟨((net.markStale id).walkBelow id).net, some fault⟩

/-- Gives a node a name.  The name must be valid and, blanks aside, no other node may have it,
unless it is blank. -/
def rename (net : Net) (id : NodeId) (name : String) : Except Fault Net := do
  let n ← net.node id
  let key := squeeze name
  if n.name = name then .ok net
  else if !isProperName name then .error (.invalidName .notLetters)
  else if !key.isEmpty && net.nodes.entries.any (fun e => e.1 ≠ id && e.2.key = key) then
    .error (.invalidName (.taken name))
  else
    let replacement (r : Reference) : Option String :=
      if r.kind = .name ∧ r.target = id then some key else none
    .ok { net with
      nodes := net.nodes.map fun other m =>
        let m := if other ∈ n.children then { m with content := m.content.replace replacement }
          else m
        if other = id then { m with name := name } else m }

/-- A user's entry for a node: its name if `asName` is set, and its content otherwise. -/
def submit (net : Net) (id : NodeId) (text : String) (asName : Bool) : Outcome :=
  if asName then
    match net.rename id text with
    | .ok net' => ⟨net', none⟩
    | .error fault => ⟨net, some fault⟩
  else net.setContent id text

/-! ## Deletion -/

/-- What the deletion of a node does to another one: mentions of it dangle, and a node that
mentioned it is stale. -/
def detach (id : NodeId) (n : Node) : Node :=
  let n := { n with children := n.children.erase id }
  if id ∈ n.parents then
    { n with
      content := (n.content.replace fun r =>
        if r.target = id then some danglingToken else none).unlink id
      parents := n.parents.erase id
      result := none }
  else n

/-- Renumbers the mentions by index of the nodes from an index on. -/
def renumber (nodes : Roster Node) (start : Nat) : Roster Node :=
  let replacement (r : Reference) : Option String :=
    match r.kind, nodes.indexOf? r.target with
    | .index, some index => if start ≤ index then some (toString index) else none
    | _, _ => none
  nodes.map fun _ n => { n with content := n.content.replace replacement }

/-- Walks over the dependents of one node after the other, and gives the first fault. -/
def walkBelowAll : List NodeId → Net → Outcome
  | [], net => ⟨net, none⟩
  | id :: ids, net =>
    let first := net.walkBelow id
    let others := walkBelowAll ids first.net
    ⟨others.net, first.fault.or others.fault⟩

/-- Removes a node, and then walks over what depends on the nodes that mentioned it. -/
def delete (net : Net) (id : NodeId) : Outcome :=
  match net.nodes.indexOf? id, net.node? id with
  | some index, some n =>
    let nodes := (net.nodes.erase id).map fun _ => detach id
    walkBelowAll n.children.toList { net with nodes := renumber nodes index }
  | _, _ => ⟨net, some (.unknownNode id)⟩

/-- Removes the node at an index. -/
def deleteAt (net : Net) (index : Nat) : Outcome :=
  match net.nodes.at? index with
  | some id => net.delete id
  | none => ⟨net, some (.reference (.missing (toString index)))⟩

end Net

end FormulaNet
