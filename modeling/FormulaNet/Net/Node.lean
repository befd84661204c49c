import FormulaNet.Decimal.Layout
import FormulaNet.Formula.LinkedText
import FormulaNet.Net.IdSet
import FormulaNet.Text.Blank

/-!
# Nodes

A node has a name, a content, which is a number or a formula, and a result.  A failure makes a node
stale: its result is then missing, which is worth NaN, until the content is evaluated again.
-/

namespace FormulaNet

/-- What is stored in a node. -/
inductive Content
  | number (x : Float)
  /-- The text of a formula, from the blanks before the `=` on. -/
  | formula (t : LinkedText)

namespace Content

/-- The content of a new node, and of a node whose input is cleared. -/
def initial : Content :=
  number 0

/-- The text that a user sees when editing. -/
def input : Content → String
  | number x => Decimal.format x
  | formula t => t.text

def isFormula : Content → Bool
  | number _ => false
  | formula _ => true

/-- The references of a content, whose spans are in its input. -/
def refs : Content → List Reference
  | number _ => []
  | formula t => t.refs

/-- The content with other tokens for the references that have a replacement. -/
def replace (replacement : Reference → Option String) : Content → Content
  | number x => number x
  | formula t => formula (t.replace replacement)

/-- The content with the links to a node dropped. -/
def unlink (target : NodeId) : Content → Content
  | number x => number x
  | formula t => formula (t.unlink target)

end Content

structure Node where
  name : String
  content : Content
  /-- The value computed from the content, or `none` after a failure. -/
  result : Option Float
  /-- The nodes that the formula reads. -/
  parents : IdSet
  /-- The nodes whose formulas read this one. -/
  children : IdSet
  position : Float × Float

namespace Node

/-- A new node. -/
def create (name : String) (x y : Float) : Node where
  name := name
  content := .initial
  result := some 0
  parents := .empty
  children := .empty
  position := (x, y)

/-- The name as a mention spells it. -/
def key (n : Node) : String :=
  squeeze n.name

def value (n : Node) : Float :=
  n.result.getD (0 / 0)

/-- Whether the value is missing because of a failure, and not computed from the content. -/
def isStale (n : Node) : Bool :=
  n.result.isNone

def input (n : Node) : String :=
  n.content.input

/-- The value as it is shown. -/
def display (n : Node) : String :=
  if n.value.isNaN then "N/A" else Decimal.format n.value

/-- The node after a failure: its content stays, and its value is lost. -/
def markStale (n : Node) : Node :=
  { n with result := none }

/-- Whether a node is a parent or a child of this one. -/
def adjacentTo (n : Node) (other : NodeId) : Bool :=
  other ∈ n.children || other ∈ n.parents

end Node

/-- Whether a node may be renamed to this: the name has only ASCII letters and blanks. -/
def isProperName (name : String) : Bool :=
  name.toList.all fun c => c.isAlpha || isBlank c

end FormulaNet
