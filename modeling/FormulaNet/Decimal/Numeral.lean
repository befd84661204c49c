import FormulaNet.Decimal.Nearest

/-!
# Reading numbers

A number is an optional sign followed by `inf`, `infinity` or `nan` in letters of either case, or
by digits with at most one point among or around them and an optional exponent.  It stands for the
double nearest to it.
-/

namespace FormulaNet.Decimal

/-- The value of a run of decimal digits. -/
def natural (digits : List Char) : Nat :=
  Nat.ofDigitChars 10 digits 0

theorem natural_toDigits (n : Nat) : natural (Nat.toDigits 10 n) = n :=
  Nat.ofDigitChars_ten_toDigits

/-- A sign, if there is one, and what follows it; the flag is set by a minus. -/
def takeSign : List Char → Bool × List Char
  | '-' :: cs => (true, cs)
  | '+' :: cs => (false, cs)
  | cs => (false, cs)

/-- The exponent of a number, from the mark to the end of the text. -/
def exponent? : List Char → Option Int
  | [] => some 0
  | mark :: cs =>
    if mark = 'e' ∨ mark = 'E' then
      let (negative, digits) := takeSign cs
      if digits.isEmpty || !digits.all Char.isDigit then none
      else some (if negative then -(natural digits : Int) else natural digits)
    else none

/-- What follows the point of a number, if there is a point: the digits of the fraction and the
rest. -/
def takeFraction : List Char → List Char × List Char
  | '.' :: cs => (cs.takeWhile Char.isDigit, cs.dropWhile Char.isDigit)
  | cs => ([], cs)

/-- The decimal `(d, e)`, for `d * 10 ^ e`, that a text without a sign spells. -/
def unsigned? (cs : List Char) : Option (Nat × Int) :=
  let whole := cs.takeWhile Char.isDigit
  let (fraction, rest) := takeFraction (cs.dropWhile Char.isDigit)
  if whole.isEmpty && fraction.isEmpty then none
  else (exponent? rest).map fun e => (natural (whole ++ fraction), e - fraction.length)

/-- The double that a text spells. -/
def read? (cs : List Char) : Option Float :=
  let (negative, rest) := takeSign cs
  let word := rest.map Char.toLower
  if word = "inf".toList ∨ word = "infinity".toList then some (signed negative infinite)
  else if word = "nan".toList then some (0 / 0)
  else (unsigned? rest).map fun (d, e) => signed negative (ofDecimal d e)

end FormulaNet.Decimal
