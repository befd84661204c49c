/-!
# Blank characters

`isBlank` is the property `White_Space` of the character database.  Blanks never count in this
library: names are compared, and numbers and formulas are read, as if they were not there.
`squeeze` removes them, and a squeezed text is left alone by a second squeeze.
-/

namespace FormulaNet

/-- The property `White_Space`, which 25 characters have. -/
def isBlank (c : Char) : Bool :=
  let n := c.toNat
  (9 ≤ n && n ≤ 13) || n == 0x20 || n == 0x85 || n == 0xa0 || n == 0x1680 ||
    (0x2000 ≤ n && n ≤ 0x200a) || n == 0x2028 || n == 0x2029 || n == 0x202f || n == 0x205f ||
    n == 0x3000

theorem isBlank_of_isWhitespace {c : Char} (h : c.isWhitespace) : isBlank c := by
  simp only [Char.isWhitespace, Bool.or_eq_true, decide_eq_true_eq] at h
  rcases h with ((h | h) | h) | h <;> subst h <;> rfl

/-- The characters of a text that are not blank, in order. -/
def squeeze (s : String) : String :=
  .ofList (s.toList.filter (!isBlank ·))

theorem toList_squeeze (s : String) : (squeeze s).toList = s.toList.filter (!isBlank ·) :=
  String.toList_ofList

theorem squeeze_squeeze (s : String) : squeeze (squeeze s) = squeeze s := by
  simp [squeeze, String.toList_ofList]

end FormulaNet
