import FormulaNet.Decimal.Numeral
import FormulaNet.Fault
import FormulaNet.Formula.Expr

/-!
# The grammar of formulas

Tokens are read into expressions from left to right:

* an expression is a chain of terms joined by `+` and `-`, and a term a chain of factors joined
  by `*` and `/`, both folded to the left;
* a factor is a factor with a sign before it, or a primary, which a `^` and a factor may follow;
* a primary is an expression in parentheses, a number, a mention of a node, or a function name
  with its argument, which is an expression in parentheses or else a factor.

A mention is resolved and a function looked up where it is read, so the first fault from the left
is the one reported.  Factors may be nested `nestingLimit` deep.
-/

namespace FormulaNet

/-- How deep factors may be nested. -/
def nestingLimit : Nat := 256

namespace Grammar

variable {ρ : Type}

/-- A rule of the grammar: it reads an expression from the first of the tokens and leaves the
others. -/
abbrev Rule (ρ : Type) := List Token → Except Fault (Expr ρ × List Token)

/-- Continues a chain whose expression so far is `e`.  A chain has no more links than tokens. -/
def chainFrom (joins : Operator → Bool) (link : Rule ρ) : Nat → Expr ρ → Rule ρ
  | links + 1, e, .operator op :: ts =>
    if joins op then do
      let (e', rest) ← link ts
      chainFrom joins link links (.binary op e e') rest
    else .ok (e, .operator op :: ts)
  | _, e, ts => .ok (e, ts)

/-- One or more links with joining operators between them, folded to the left. -/
def chain (joins : Operator → Bool) (link : Rule ρ) : Rule ρ := fun ts => do
  let (e, rest) ← link ts
  chainFrom joins link rest.length e rest

/-- A chain of factors. -/
def term (factor : Rule ρ) : Rule ρ :=
  chain (fun op => op == .mul || op == .div) factor

/-- A chain of terms. -/
def expression (factor : Rule ρ) : Rule ρ :=
  chain (fun op => op == .add || op == .sub) (term factor)

/-- An expression and the parenthesis that closes it, whose absence is the fault `missing`. -/
def closed (factor : Rule ρ) (missing : SyntaxFault) : Rule ρ := fun ts => do
  let (e, rest) ← expression factor ts
  match rest with
  | .closing :: rest => .ok (e, rest)
  | _ => .error (.syntactic missing)

/-- The argument of a function. -/
def argument (factor : Rule ρ) (name : String) : Rule ρ
  | .opening :: ts => closed factor (.unclosedArgument name) ts
  | ts => factor ts

/-- A primary, where `factor` reads the factors inside it. -/
def primary (resolve : Mention → Except Fault ρ) (factor : Rule ρ) : Rule ρ
  | [] => .error (.syntactic .unfinished)
  | .opening :: ts => closed factor .unclosed ts
  | .number run :: ts =>
    match Decimal.read? run.spell.toList with
    | some x => .ok (.number x, ts)
    | none => .error (.syntactic (.malformedNumber run.spell))
  | .word run :: ts => do
    let (e, rest) ← argument factor run.spell ts
    match Builtin.ofName? run.spell with
    | some f => .ok (.call f e, rest)
    | none => .error (.unknownFunction run.spell)
  | .mention kind run :: ts => do
    let r ← resolve ⟨kind, run.spell, run.span⟩
    .ok (.ref r, ts)
  | .stray '@' :: _ => .error (.reference .malformed)
  | t :: _ => .error (.syntactic (.unexpected t.first))

/-- A power, if a `^` follows the expression `e`. -/
def power (factor : Rule ρ) (e : Expr ρ) : Rule ρ
  | .operator .pow :: ts => do
    let (e', rest) ← factor ts
    .ok (.binary .pow e e', rest)
  | ts => .ok (e, ts)

/-- A factor in which factors may be nested `depth` deep, itself included. -/
def factor (resolve : Mention → Except Fault ρ) : Nat → Rule ρ
  | 0, _ => .error (.syntactic .nestedTooDeeply)
  | depth + 1, .operator .add :: ts => factor resolve depth ts
  | depth + 1, .operator .sub :: ts => do
    let (e, rest) ← factor resolve depth ts
    .ok (.negate e, rest)
  | depth + 1, ts => do
    let (e, rest) ← primary resolve (factor resolve depth) ts
    power (factor resolve depth) e rest

end Grammar

/-- The expression that a whole formula is. -/
def Expr.ofTokens {ρ : Type} (resolve : Mention → Except Fault ρ) (ts : List Token) :
    Except Fault (Expr ρ) := do
  let (e, rest) ← Grammar.expression (Grammar.factor resolve nestingLimit) ts
  match rest with
  | [] => .ok e
  | t :: _ => .error (.syntactic (.trailing t.first))

end FormulaNet
