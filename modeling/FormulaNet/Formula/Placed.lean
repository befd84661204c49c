import FormulaNet.Formula.Mention
import FormulaNet.Text.Blank

/-!
# Characters in their places

A formula is read from the characters of a text that are not blank, each with its byte offset in
the text, so that what is read can be pointed at in the text as it was typed.
-/

namespace FormulaNet

structure Placed where
  offset : Nat
  char : Char
  deriving DecidableEq, Repr

/-- The byte offset behind a character. -/
def Placed.stop (p : Placed) : Nat :=
  p.offset + p.char.utf8Size

/-- The characters of a text that are not blank, where the text begins at a byte offset. -/
def placed (start : Nat) : List Char → List Placed
  | [] => []
  | c :: cs =>
    if isBlank c then placed (start + c.utf8Size) cs
    else ⟨start, c⟩ :: placed (start + c.utf8Size) cs

/-- One or more characters in a row, blanks left out. -/
structure Run where
  head : Placed
  tail : List Placed
  deriving DecidableEq, Repr

namespace Run

def toList (run : Run) : List Placed :=
  run.head :: run.tail

def last (run : Run) : Placed :=
  run.tail.getLastD run.head

/-- A run as text. -/
def spell (run : Run) : String :=
  .ofList (run.toList.map Placed.char)

/-- The bytes from the first to the last character of a run. -/
def span (run : Run) : Span where
  start := run.head.offset
  stop := run.last.stop

/-- A run with one more character in front. -/
def push (run : Run) (p : Placed) : Run where
  head := p
  tail := run.toList

end Run

/-- The places aside, blanks are all that is left out. -/
theorem map_char_placed (start : Nat) (cs : List Char) :
    (placed start cs).map Placed.char = cs.filter (!isBlank ·) := by
  induction cs generalizing start with
  | nil => rfl
  | cons c cs ih =>
    unfold placed
    split <;> simp_all

end FormulaNet
