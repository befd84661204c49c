import FormulaNet.Decimal.Nearest

/-!
# The shortest decimal of a double

`shortest n` is the decimal `(d, e)`, standing for `d * 10 ^ e`, with the fewest digits among
those that are read back as the double of encoding `n`; among these it is the nearest to the
double, and of two equally near ones the larger.  Fewest digits means the coarsest grid of
multiples of a power of ten on which a neighbour of the double is read back.
-/

namespace FormulaNet.Decimal

/-- The mantissa and the scale of a finite encoding: it stands for `m * 2 ^ k / resolution`. -/
def split (n : Nat) : Nat × Nat :=
  if n < Nat.pow 2 52 then (n, 0)
  else (n % Nat.pow 2 52 + Nat.pow 2 52, n / Nat.pow 2 52 - 1)

/-- The neighbours of `m * 2 ^ k / resolution` among the multiples of `10 ^ e`, the nearer first and
of two equally near ones the larger. -/
def neighbours (m k : Nat) (e : Int) : List Nat :=
  let num := match e with
    | .ofNat _ => m * Nat.pow 2 k
    | .negSucc e => m * Nat.pow 2 k * Nat.pow 10 (e + 1)
  let den := match e with
    | .ofNat e => Nat.pow 10 e * resolution
    | .negSucc _ => resolution
  let d := num / den
  if 2 * (num % den) < den then [d, d + 1] else [d + 1, d]

/-- The first decimal read back as the encoding `n` on the grids `10 ^ e`, `10 ^ (e - 1)`, … -/
def search (n : Nat) : Nat → Int → Option (Nat × Int)
  | 0, _ => none
  | grids + 1, e =>
    match (neighbours (split n).1 (split n).2 e).find? (ofDecimal · e == n) with
    | some d => some (d, e)
    | none => search n grids (e - 1)

/-- An exponent of ten above that of any double of this mantissa and scale: `0.30103` is a little
more than the logarithm of two. -/
def coarsest (m k : Nat) : Int :=
  ((m.log2 + 1 + k : Nat) - 1074 : Int) * 30103 / 100000 + 1

/-- All digits of `m * 2 ^ k / resolution`. -/
def exact (m k : Nat) : Nat × Int :=
  if 1074 ≤ k then (m * Nat.pow 2 (k - 1074), 0)
  else (m * Nat.pow 5 (1074 - k), -(1074 - k : Nat))

/-- The shortest decimal of a finite encoding.  Seventeen digits always suffice; all digits are
the answer that needs no proof of it. -/
def shortest (n : Nat) : Nat × Int :=
  let (m, k) := split n
  if m = 0 then (0, 0) else (search n 24 (coarsest m k)).getD (exact m k)

end FormulaNet.Decimal
