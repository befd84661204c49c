/-!
# The double nearest to a decimal

A nonnegative double is the number `m * 2 ^ k / resolution`, where `m` has at most 53 bits and `k`
is zero unless `m` has all of them; its encoding is then `k * 2 ^ 52 + m`.  `nearest` rounds a
fraction to such an encoding, a half going to the even neighbour, and `ofDecimal` does so for a
decimal `d * 10 ^ e`.
-/

namespace FormulaNet.Decimal

/-- The reciprocal of the least positive double. -/
def resolution : Nat := Nat.pow 2 1074

/-- The whole number nearest to `num / den`; a half goes to the even neighbour. -/
def roundHalfEven (num den : Nat) : Nat :=
  let q := num / den
  let r := num % den
  if 2 * r < den then q else if den < 2 * r then q + 1 else q + q % 2

/-- The encoding of infinity, which follows that of the largest finite double. -/
def infinite : Nat := 2047 * Nat.pow 2 52

/-- The encoding of the double nearest to `num / den`. -/
def nearest (num den : Nat) : Nat :=
  let scaled := num * resolution
  let k := (scaled / den).log2 - 52
  min (k * Nat.pow 2 52 + roundHalfEven scaled (den * Nat.pow 2 k)) infinite

/-- The encoding of the double nearest to `d * 10 ^ e`.  Powers of ten so large or so small that
the answer is plain are not computed. -/
def ofDecimal (d : Nat) : Int → Nat
  | .ofNat e => if d = 0 then 0 else if 400 < e then infinite else nearest (d * Nat.pow 10 e) 1
  | .negSucc e => if d.log2 + 1100 < 3 * e then 0 else nearest d (Nat.pow 10 (e + 1))

/-- The double with a sign and the encoding of its magnitude. -/
def signed (negative : Bool) (magnitude : Nat) : Float :=
  .ofBits (.ofNat ((if negative then Nat.pow 2 63 else 0) + magnitude))

/-- Whether the sign of a double is set; `-0.0` has it. -/
def isNegative (x : Float) : Bool :=
  Nat.pow 2 63 ≤ x.toBits.toNat

/-- The encoding of the magnitude of a double. -/
def magnitude (x : Float) : Nat :=
  x.toBits.toNat % Nat.pow 2 63

end FormulaNet.Decimal
