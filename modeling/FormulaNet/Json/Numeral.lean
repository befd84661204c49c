import FormulaNet.Decimal.Numeral
import FormulaNet.Json.Text

/-!
# Numbers in JSON

`takeNumeral` reads a number as it is spelled.  Its value matters only where a whole number is
asked for.
-/

namespace FormulaNet.Json

/-- A number as it is spelled. -/
structure Numeral where
  negative : Bool
  /-- The digits before the point. -/
  whole : List Char
  /-- The digits after the point, or none if there is no point. -/
  fraction : List Char
  exponent : Option Int

/-- A minus, if there is one. -/
def takeMinus : List Char → Bool × List Char
  | [] => (false, [])
  | c :: cs => if c = '-' then (true, cs) else (false, c :: cs)

/-- One or more digits.  A text that has ended instead has the flaw `atEnd`. -/
def takeDigits (atEnd : Flaw) (cs : List Char) : Except Flaw (List Char × List Char) :=
  let digits := cs.takeWhile Char.isDigit
  if !digits.isEmpty then .ok (digits, cs.dropWhile Char.isDigit)
  else .error (if cs.isEmpty then atEnd else .malformed)

/-- The digits before the point.  A zero is the only one, if it is the first. -/
def takeWhole (atEnd : Flaw) (cs : List Char) : Except Flaw (List Char × List Char) := do
  let (digits, rest) ← takeDigits atEnd cs
  if digits.head? = some '0' && digits.length ≠ 1 then .error .malformed else .ok (digits, rest)

/-- The point and the digits after it, if there is a point. -/
def takeFraction (atEnd : Flaw) : List Char → Except Flaw (List Char × List Char)
  | [] => .ok ([], [])
  | c :: cs => if c = '.' then takeDigits atEnd cs else .ok ([], c :: cs)

/-- The exponent, if there is one. -/
def takeExponent (atEnd : Flaw) : List Char → Except Flaw (Option Int × List Char)
  | [] => .ok (none, [])
  | c :: cs =>
    if c = 'e' || c = 'E' then do
      let (negative, cs) := Decimal.takeSign cs
      let (digits, rest) ← takeDigits atEnd cs
      let n := Decimal.natural digits
      .ok (some (if negative then -n else n), rest)
    else .ok (none, c :: cs)

/-- A number.  A text that ends within it has the flaw `atEnd`. -/
def takeNumeral (atEnd : Flaw) (cs : List Char) : Except Flaw (Numeral × List Char) := do
  let (negative, cs) := takeMinus cs
  let (whole, cs) ← takeWhole atEnd cs
  let (fraction, cs) ← takeFraction atEnd cs
  let (exponent, cs) ← takeExponent atEnd cs
  .ok (⟨negative, whole, fraction, exponent⟩, cs)

/-! ## Values -/

/-- Appends digits to a number as long as it fits in 64 bits, and gives the digits left over. -/
def absorb : Nat → List Char → Nat × List Char
  | n, [] => (n, [])
  | n, c :: cs =>
    let n' := n * 10 + (c.toNat - '0'.toNat)
    if n' < Nat.pow 2 64 then absorb n' cs else (n, c :: cs)

namespace Numeral

/-- Whether a number is beyond all doubles.  It is computed with as many digits as fit in 64
bits. -/
def isHuge (n : Numeral) : Bool :=
  let (digits, dropped) := absorb 0 n.whole
  let (digits, ignored) := absorb digits n.fraction
  let exponent : Int := n.exponent.getD 0 + dropped.length - (n.fraction.length - ignored.length)
  digits ≠ 0 && 0 < exponent && (308 < exponent ||
    (Decimal.signed false (Decimal.ofDecimal digits 0) *
      Decimal.signed false (Decimal.ofDecimal 1 exponent)).isInf)

/-- The value of a number that is spelled as a natural one. -/
def natural? (n : Numeral) : Option Nat :=
  if n.negative || !n.fraction.isEmpty || n.exponent.isSome then none
  else some (Decimal.natural n.whole)

end Numeral

/-! ## What is left over -/

theorem length_lt_of_takeDigits {atEnd : Flaw} {cs ds rest : List Char}
    (h : takeDigits atEnd cs = .ok (ds, rest)) : rest.length < cs.length := by
  simp only [takeDigits] at h
  split at h
  · next hne =>
    simp only [Except.ok.injEq, Prod.mk.injEq] at h
    obtain ⟨-, rfl⟩ := h
    have hlen := congrArg List.length (List.takeWhile_append_dropWhile (p := Char.isDigit) (l := cs))
    have : cs.takeWhile Char.isDigit ≠ [] := by simpa using hne
    have := List.length_pos_iff.2 this
    simp only [List.length_append] at hlen
    omega
  · cases h

theorem length_lt_of_takeWhole {atEnd : Flaw} {cs ds rest : List Char}
    (h : takeWhole atEnd cs = .ok (ds, rest)) : rest.length < cs.length := by
  obtain ⟨⟨ds', rest'⟩, h₁, h⟩ := exists_of_bind_eq_ok h
  dsimp only at h
  split at h
  · cases h
  · cases h
    exact length_lt_of_takeDigits h₁

theorem length_le_of_takeFraction {atEnd : Flaw} {cs ds rest : List Char}
    (h : takeFraction atEnd cs = .ok (ds, rest)) : rest.length ≤ cs.length := by
  unfold takeFraction at h
  split at h
  · cases h
    simp
  · split at h
    · have := length_lt_of_takeDigits h
      simp only [List.length_cons]
      omega
    · cases h
      simp

theorem length_takeSign_le (cs : List Char) : (Decimal.takeSign cs).2.length ≤ cs.length := by
  unfold Decimal.takeSign
  split <;> simp

theorem length_le_of_takeExponent {atEnd : Flaw} {cs rest : List Char} {e : Option Int}
    (h : takeExponent atEnd cs = .ok (e, rest)) : rest.length ≤ cs.length := by
  unfold takeExponent at h
  split at h
  · cases h
    simp
  · next c cs =>
    split at h
    · obtain ⟨⟨ds, rest'⟩, h₁, h⟩ := exists_of_bind_eq_ok h
      cases h
      have : rest.length < (Decimal.takeSign cs).2.length := length_lt_of_takeDigits h₁
      have := length_takeSign_le cs
      simp only [List.length_cons]
      omega
    · cases h
      simp

theorem length_takeMinus_le (cs : List Char) : (takeMinus cs).2.length ≤ cs.length := by
  unfold takeMinus
  split
  · simp
  · split <;> simp

theorem length_lt_of_takeNumeral {atEnd : Flaw} {cs rest : List Char} {n : Numeral}
    (h : takeNumeral atEnd cs = .ok (n, rest)) : rest.length < cs.length := by
  obtain ⟨⟨ds, cs₁⟩, h₁, h⟩ := exists_of_bind_eq_ok h
  obtain ⟨⟨fs, cs₂⟩, h₂, h⟩ := exists_of_bind_eq_ok h
  obtain ⟨⟨e, cs₃⟩, h₃, h⟩ := exists_of_bind_eq_ok h
  cases h
  have := length_takeMinus_le cs
  have : cs₁.length < (takeMinus cs).2.length := length_lt_of_takeWhole h₁
  have := length_le_of_takeFraction h₂
  have := length_le_of_takeExponent h₃
  omega

end FormulaNet.Json
