/-!
# References to nodes

A formula mentions another node as `@name` or as `@index`.  A mention that was resolved is a
`Reference`: where its token stands in the text, which of the two forms it has, and the node that
it reads.
-/

namespace FormulaNet

/-- Nodes are numbered in the order in which they are created, and no number is used again. -/
abbrev NodeId := Nat

/-- The two forms of a mention: by the name of a node, or by its place among all nodes. -/
inductive MentionKind
  | name
  | index
  deriving DecidableEq, Repr

/-- The bytes from `start` to before `stop` of a text in UTF-8. -/
structure Span where
  start : Nat
  stop : Nat
  deriving DecidableEq, Repr

/-- A mention of a node, not yet resolved: the token without the `@`, blanks removed, and the span
from the first to the last of its characters. -/
structure Mention where
  kind : MentionKind
  token : String
  span : Span
  deriving DecidableEq, Repr

/-- A resolved mention. -/
structure Reference where
  span : Span
  kind : MentionKind
  target : NodeId
  deriving DecidableEq, Repr

end FormulaNet
