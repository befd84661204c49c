/-!
# Bytes of a text

Places in a text are byte offsets of its encoding in UTF-8.
-/

namespace FormulaNet

/-- The length of a text in UTF-8. -/
def byteSize (cs : List Char) : Nat :=
  cs.foldr (fun c n => c.utf8Size + n) 0

/-- The first characters of a text up to a number of bytes, and the others. -/
def splitBytes : Nat → List Char → List Char × List Char
  | _, [] => ([], [])
  | n, c :: cs =>
    if n < c.utf8Size then ([], c :: cs)
    else
      let (before, after) := splitBytes (n - c.utf8Size) cs
      (c :: before, after)

@[simp] theorem byteSize_nil : byteSize [] = 0 :=
  rfl

@[simp] theorem byteSize_cons (c : Char) (cs : List Char) :
    byteSize (c :: cs) = c.utf8Size + byteSize cs :=
  rfl

@[simp] theorem byteSize_append (as bs : List Char) :
    byteSize (as ++ bs) = byteSize as + byteSize bs := by
  induction as with
  | nil => simp
  | cons a as ih => simp [ih, Nat.add_assoc]

/-- A text is split where one of its parts ends. -/
theorem splitBytes_append (as bs : List Char) :
    splitBytes (byteSize as) (as ++ bs) = (as, bs) := by
  induction as with
  | nil =>
    cases bs with
    | nil => rfl
    | cons b bs => simp [splitBytes, Char.utf8Size_pos]
  | cons a as ih =>
    simp [splitBytes, ih]

end FormulaNet
