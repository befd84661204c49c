import FormulaNet.Net.Meaning

/-!
# Walks over dependents

When the value of a node changes, the nodes that read it are evaluated again in ascending order,
and the walk goes on below each of them whose value changed in turn.  A NaN always counts as
changed.  Nothing forbids a cycle of references: a walk that gets deeper than the limit ends in a
fault, as does one that meets a formula which can no longer be evaluated.  Then the nodes on the
way from the edited node to the place of the fault are stale.  Below a formula that failed, its
NaN is carried on first.
-/

namespace FormulaNet

/-- A net after an operation, and the fault if the operation failed. -/
structure Outcome where
  net : Net
  fault : Option Fault

namespace Net

/-- Evaluates the stored formula of a node again.  A number keeps its value. -/
def refresh (net : Net) (id : NodeId) : Except Fault Net := do
  let n ← net.node id
  match n.content with
  | .number _ => .ok net
  | .formula t =>
    let m ← net.meaning id t.text
    .ok (net.adopt id m)

/-- Evaluates nodes one after the other, and goes below those whose value changed.  It stops at
the first fault. -/
def visit (descend : NodeId → Net → Outcome) : List NodeId → Net → Outcome
  | [], net => ⟨net, none⟩
  | child :: others, net =>
    match net.refresh child with
    | .error fault => ⟨(descend child (net.markStale child)).net, some fault⟩
    | .ok net' =>
      if net.valueOf child != net'.valueOf child then
        match descend child net' with
        | ⟨net'', some fault⟩ => ⟨net'', some fault⟩
        | ⟨net'', none⟩ => visit descend others net''
      else visit descend others net'

/-- Walks over the dependents of a node, at most `room` levels down. -/
def walk : Nat → NodeId → Net → Outcome
  | 0, id, net => ⟨net.markStale id, some (.cycle net.settings.depthLimit.toNat)⟩
  | room + 1, id, net =>
    match net.node id with
    | .error fault => ⟨net, some fault⟩
    | .ok n =>
      match visit (walk room) n.children.toList net with
      | ⟨net', some fault⟩ => ⟨net'.markStale id, some fault⟩
      | ⟨net', none⟩ => ⟨net', none⟩

/-- Walks over the dependents of a node as deep as the settings allow. -/
def walkBelow (net : Net) (id : NodeId) : Outcome :=
  walk (net.settings.depthLimit.toNat + 1) id net

end Net

end FormulaNet
