import FormulaNet.Fault
import FormulaNet.Net.Node
import FormulaNet.Net.Roster
import FormulaNet.Settings.Basic

/-!
# Nets

A net is a roster of nodes.  This file has the operations that concern one node at a time, and the
questions that can be asked about a net.
-/

namespace FormulaNet

structure Net where
  settings : Settings
  nodes : Roster Node

namespace Net

def empty (settings : Settings) : Net where
  settings := settings
  nodes := .empty

/-- Adds a node at the end.  Any name is accepted; of several nodes with one name, mentions reach
the first. -/
def create (net : Net) (name : String) (x y : Float) : NodeId × Net :=
  (net.nodes.next, { net with nodes := net.nodes.push (.create name x y) })

/-- Adds a node with the default name. -/
def createUnnamed (net : Net) (x y : Float) : NodeId × Net :=
  net.create net.settings.defaultName x y

def modify (net : Net) (id : NodeId) (f : Node → Node) : Net :=
  { net with nodes := net.nodes.modify id f }

def markStale (net : Net) (id : NodeId) : Net :=
  net.modify id Node.markStale

/-! ## Questions -/

def node? (net : Net) (id : NodeId) : Option Node :=
  net.nodes.get? id

/-- The node with a number; the fault says that there is none. -/
def node (net : Net) (id : NodeId) : Except Fault Node :=
  match net.node? id with
  | some n => .ok n
  | none => .error (.unknownNode id)

/-- The value of a node, or NaN if there is no such node. -/
def valueOf (net : Net) (id : NodeId) : Float :=
  ((net.node? id).map Node.value).getD (0 / 0)

def indexOf (net : Net) (id : NodeId) : Except Fault Nat :=
  match net.nodes.indexOf? id with
  | some index => .ok index
  | none => .error (.unknownNode id)

/-- The caption of a node, which has its index and its name. -/
def caption (net : Net) (id : NodeId) : Except Fault String := do
  let index ← net.indexOf id
  let n ← net.node id
  .ok ("[" ++ toString index ++ "] " ++ n.name)

def moveTo (net : Net) (id : NodeId) (x y : Float) : Except Fault Net := do
  let _ ← net.node id
  .ok (net.modify id fun n => { n with position := (x, y) })

/-- Whether one of two nodes reads the other. -/
def adjacent (net : Net) (a b : NodeId) : Bool :=
  (net.node? a).any (·.adjacentTo b)

/-- All pairs of a node and a node that reads it, by index and then by number. -/
def edges (net : Net) : List (NodeId × NodeId) :=
  net.nodes.entries.flatMap fun e => e.2.children.toList.map fun child => (e.1, child)

end Net

end FormulaNet
