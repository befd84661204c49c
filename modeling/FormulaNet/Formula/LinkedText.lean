import FormulaNet.Formula.Mention
import FormulaNet.Text.Bytes

/-!
# Linked texts

The text of a formula whose mentions are linked to the nodes that they read.  It is kept in
pieces, so that a token can be replaced without a search in the text, and the spans of the
references always fit the text.
-/

namespace FormulaNet

inductive Piece
  | plain (chars : List Char)
  /-- A token that is linked to a node. -/
  | link (kind : MentionKind) (target : NodeId) (token : List Char)
  deriving DecidableEq, Repr

def Piece.chars : Piece → List Char
  | plain chars => chars
  | link _ _ token => token

structure LinkedText where
  pieces : List Piece
  deriving DecidableEq, Repr

namespace LinkedText

def chars (t : LinkedText) : List Char :=
  t.pieces.flatMap Piece.chars

def text (t : LinkedText) : String :=
  .ofList t.chars

/-- The references of pieces that begin at a byte offset. -/
def refsFrom (start : Nat) : List Piece → List Reference
  | [] => []
  | .plain cs :: ps => refsFrom (start + byteSize cs) ps
  | .link kind target token :: ps =>
    ⟨⟨start, start + byteSize token⟩, kind, target⟩ :: refsFrom (start + byteSize token) ps

/-- The references in a text, in order. -/
def refs (t : LinkedText) : List Reference :=
  refsFrom 0 t.pieces

/-- Cuts the rest of a text, which begins at a byte offset, at the spans of references. -/
def cutFrom (start : Nat) (cs : List Char) : List Reference → List Piece
  | [] => [.plain cs]
  | r :: rs =>
    let (before, rest) := splitBytes (r.span.start - start) cs
    let (token, rest) := splitBytes (r.span.stop - r.span.start) rest
    .plain before :: .link r.kind r.target token :: cutFrom r.span.stop rest rs

/-- Links the tokens of a text at the spans of references, which are in order and apart. -/
def cut (cs : List Char) (refs : List Reference) : LinkedText where
  pieces := cutFrom 0 cs refs

/-- Replaces tokens in pieces that begin at a byte offset. -/
def replaceFrom (replacement : Reference → Option String) (start : Nat) : List Piece → List Piece
  | [] => []
  | .plain cs :: ps => .plain cs :: replaceFrom replacement (start + byteSize cs) ps
  | .link kind target token :: ps =>
    let stop := start + byteSize token
    let token := ((replacement ⟨⟨start, stop⟩, kind, target⟩).map String.toList).getD token
    .link kind target token :: replaceFrom replacement stop ps

/-- The text with other tokens for the references that have a replacement; it is `none` if no
reference has one. -/
def replace? (replacement : Reference → Option String) (t : LinkedText) : Option LinkedText :=
  if t.refs.any fun r => (replacement r).isSome then some ⟨replaceFrom replacement 0 t.pieces⟩
  else none

/-- The text with other tokens for the references that have a replacement. -/
def replace (replacement : Reference → Option String) (t : LinkedText) : LinkedText :=
  (t.replace? replacement).getD t

/-- Drops the links to a node and keeps their tokens as plain text. -/
def unlink (target : NodeId) (t : LinkedText) : LinkedText where
  pieces := t.pieces.map fun
    | .link kind other token => if other = target then .plain token else .link kind other token
    | p => p

end LinkedText

end FormulaNet
