import FormulaNet.Formula.Placed
import FormulaNet.Text.Letter

/-!
# Tokens of a formula

A text is cut from right to left: a character extends the token that follows it, if that is a run
of its kind, and begins a new one otherwise.  Numbers are runs of digits and points, words are
runs of letters, and an `@` takes the letters or the digits that follow it.
-/

namespace FormulaNet

inductive Operator
  | add
  | sub
  | mul
  | div
  | pow
  deriving DecidableEq, Repr

def Operator.char : Operator → Char
  | add => '+'
  | sub => '-'
  | mul => '*'
  | div => '/'
  | pow => '^'

def Operator.ofChar? : Char → Option Operator
  | '+' => some add
  | '-' => some sub
  | '*' => some mul
  | '/' => some div
  | '^' => some pow
  | _ => none

inductive Token
  | number (run : Run)
  | word (run : Run)
  /-- An `@` and the run of letters or digits after it. -/
  | mention (kind : MentionKind) (run : Run)
  | operator (op : Operator)
  | opening
  | closing
  /-- A character that no token begins with, or an `@` alone. -/
  | stray (c : Char)
  deriving DecidableEq, Repr

namespace Token

/-- The first character of a token. -/
def first : Token → Char
  | number run => run.head.char
  | word run => run.head.char
  | mention _ _ => '@'
  | operator op => op.char
  | opening => '('
  | closing => ')'
  | stray c => c

def isNumeric (c : Char) : Bool :=
  c.isDigit || c == '.'

/-- Puts a digit or a point before the tokens. -/
def pushNumeric (p : Placed) : List Token → List Token
  | number run :: ts => number (run.push p) :: ts
  | ts => number ⟨p, []⟩ :: ts

/-- Puts a letter before the tokens. -/
def pushLetter (p : Placed) : List Token → List Token
  | word run :: ts => word (run.push p) :: ts
  | ts => word ⟨p, []⟩ :: ts

/-- Puts an `@` before the tokens.  Of a number it takes the digits before the first point. -/
def pushAt : List Token → List Token
  | word run :: ts => mention .name run :: ts
  | number run :: ts =>
    if run.head.char.isDigit then
      mention .index ⟨run.head, run.tail.takeWhile (·.char.isDigit)⟩ ::
        match run.tail.dropWhile (·.char.isDigit) with
        | [] => ts
        | p :: ps => number ⟨p, ps⟩ :: ts
    else stray '@' :: number run :: ts
  | ts => stray '@' :: ts

/-- Puts a character before the tokens. -/
def push (p : Placed) (ts : List Token) : List Token :=
  if isNumeric p.char then pushNumeric p ts
  else if isLetter p.char then pushLetter p ts
  else if p.char = '@' then pushAt ts
  else if p.char = '(' then opening :: ts
  else if p.char = ')' then closing :: ts
  else match Operator.ofChar? p.char with
    | some op => operator op :: ts
    | none => stray p.char :: ts

/-- The tokens of a text. -/
def ofPlaced (ps : List Placed) : List Token :=
  ps.foldr push []

end Token

end FormulaNet
