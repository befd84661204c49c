import FormulaNet.Formula.Grammar

/-!
# Evaluation

`evaluate` reads a formula in a scope, which says what mentions mean, and gives its value together
with the references in it.
-/

namespace FormulaNet

/-- What a formula can refer to. -/
structure Scope where
  /-- The node with a name or at an index, by the kind and the token of a mention. -/
  resolve : MentionKind → String → Except Fault NodeId
  value : NodeId → Float

/-- Resolves a mention in a scope. -/
def Scope.reference (scope : Scope) (m : Mention) : Except Fault Reference := do
  let target ← scope.resolve m.kind m.token
  .ok ⟨m.span, m.kind, target⟩

structure Evaluation where
  value : Float
  /-- The references in the order of the text. -/
  refs : List Reference

/-- Evaluates the formula that some characters of a text spell. -/
def evaluatePlaced (scope : Scope) (ps : List Placed) : Except Fault Evaluation := do
  let e ← Expr.ofTokens scope.reference (Token.ofPlaced ps)
  .ok ⟨e.value fun r => scope.value r.target, e.refs⟩

/-- Evaluates a formula. -/
def evaluate (scope : Scope) (text : String) : Except Fault Evaluation :=
  evaluatePlaced scope (placed 0 text.toList)

end FormulaNet
