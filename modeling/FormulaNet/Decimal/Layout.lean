import FormulaNet.Decimal.Shortest

/-!
# Writing numbers

`format` writes a double with the fewest digits that read back, positionally when its decimal
exponent is in the range of the layout and with an exponent otherwise.
-/

namespace FormulaNet.Decimal

/-- The choices that a written number leaves open. -/
structure Layout where
  /-- The least decimal exponent of a number written positionally. -/
  least : Int
  /-- The greatest decimal exponent of a number written positionally. -/
  greatest : Int
  /-- What follows the digits of a whole number written positionally. -/
  whole : String
  /-- What stands between the digits and the exponent. -/
  mark : Char
  infinity : String
  notANumber : String

/-- Numbers from `0.0001` to below `1e16` are positional and have a fractional part, and no
exponent has a plus sign. -/
def standard : Layout where
  least := -4
  greatest := 15
  whole := ".0"
  mark := 'e'
  infinity := "inf"
  notANumber := "NaN"

/-- Digits with the point after the first `point` of them; zeros are added where digits are
missing. -/
def Layout.positional (l : Layout) (digits : List Char) (point : Int) : List Char :=
  if point ≤ 0 then '0' :: '.' :: List.replicate (-point).toNat '0' ++ digits
  else if digits.length ≤ point.toNat then
    digits ++ List.replicate (point.toNat - digits.length) '0' ++ l.whole.toList
  else digits.take point.toNat ++ '.' :: digits.drop point.toNat

/-- Digits with the point after the first, and an exponent. -/
def Layout.scientific (l : Layout) (digits : List Char) (exponent : Int) : List Char :=
  let fraction := digits.drop 1
  digits.take 1 ++ (if fraction.isEmpty then [] else '.' :: fraction) ++ l.mark ::
    ((if exponent < 0 then ['-'] else []) ++ Nat.toDigits 10 exponent.natAbs)

/-- The text of `d * 10 ^ e`. -/
def Layout.decimal (l : Layout) (d : Nat) (e : Int) : List Char :=
  let digits := Nat.toDigits 10 d
  let exponent := e + digits.length - 1
  if d = 0 ∨ (l.least ≤ exponent ∧ exponent ≤ l.greatest) then l.positional digits (exponent + 1)
  else l.scientific digits exponent

/-- The text of a double. -/
def Layout.format (l : Layout) (x : Float) : String :=
  let n := magnitude x
  if infinite < n then l.notANumber
  else
    let sign := if isNegative x then ['-'] else []
    if n = infinite then .ofList (sign ++ l.infinity.toList)
    else .ofList (sign ++ l.decimal (shortest n).1 (shortest n).2)

/-- The canonical text of a number. -/
def format (x : Float) : String :=
  standard.format x

end FormulaNet.Decimal
