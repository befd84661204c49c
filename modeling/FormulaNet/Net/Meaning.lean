import FormulaNet.Formula.Evaluation
import FormulaNet.Net.Basic

/-!
# What an input means

An input is blank, a formula after an `=`, or a number.  `Net.meaning` finds out which and what
it is worth for a node, without a change to the net, and `Net.adopt` stores the answer in the node
and moves the edges to match.
-/

namespace FormulaNet

namespace Net

/-- The node at an index that a mention spells.  A node cannot mention itself. -/
def resolveIndex (net : Net) (host : NodeId) (digits : String) : Except Fault NodeId :=
  match net.nodes.at? (Decimal.natural digits.toList) with
  | none => .error (.reference (.missing digits))
  | some id => if id = host then .error (.reference (.itself digits)) else .ok id

/-- The first node with a name that a mention spells, other than the one that mentions it. -/
def resolveName (net : Net) (host : NodeId) (key : String) : Except Fault NodeId :=
  let named := (net.nodes.entries.filter (·.2.key = key)).map Prod.fst
  match named.find? (· ≠ host) with
  | some id => .ok id
  | none =>
    if named.isEmpty then .error (.reference (.missing key))
    else .error (.reference (.itself key))

/-- What the formula of a node can refer to. -/
def scope (net : Net) (host : NodeId) : Scope where
  resolve
    | .name, token => net.resolveName host token
    | .index, token => net.resolveIndex host token
  value := net.valueOf

end Net

/-- An accepted input. -/
structure Meaning where
  content : Content
  value : Float

namespace Net

/-- What an input means for a node. -/
def meaning (net : Net) (host : NodeId) (text : String) : Except Fault Meaning :=
  match placed 0 text.toList with
  | [] => .ok ⟨.initial, 0⟩
  | ⟨_, '='⟩ :: body => do
    let evaluation ← evaluatePlaced (net.scope host) body
    .ok ⟨.formula (.cut text.toList evaluation.refs), evaluation.value⟩
  | ps =>
    match Decimal.read? (ps.map Placed.char) with
    | some x => .ok ⟨.number x, x⟩
    | none => .error (.notANumber text)

/-- Makes a node the child of its new parents, and no longer of its old ones. -/
def relink (net : Net) (id : NodeId) (old new : IdSet) : Net where
  settings := net.settings
  nodes := net.nodes.map fun parent n =>
    if parent ∈ new then { n with children := n.children.insert id }
    else if parent ∈ old then { n with children := n.children.erase id }
    else n

/-- Stores an accepted input in a node. -/
def adopt (net : Net) (id : NodeId) (m : Meaning) : Net :=
  match net.node? id with
  | none => net
  | some n =>
    let parents := IdSet.ofList (m.content.refs.map Reference.target)
    (net.relink id n.parents parents).modify id fun n =>
      { n with content := m.content, result := some m.value, parents := parents }

end Net

end FormulaNet
