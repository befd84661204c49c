import FormulaNet.Decimal.Layout
import FormulaNet.Text.Blank
import FormulaNet.Text.Letter

/-!
# Characters of numbers and names

A written number has no `=`, so that it is not taken for a formula, and no blanks.  Neither digits nor
letters are blank.
-/

namespace FormulaNet

namespace Decimal

/-- The characters of written numbers. -/
def isWritten (c : Char) : Bool :=
  c.isDigit || ['-', '.', 'e', 'i', 'n', 'f', 'N', 'a'].contains c

theorem isWritten_of_isDigit {c : Char} (h : c.isDigit = true) : isWritten c = true := by
  rw [isWritten, h, Bool.true_or]

theorem isDigit_of_mem_toDigits {d : Nat} {c : Char} (h : c ∈ Nat.toDigits 10 d) :
    c.isDigit = true :=
  Nat.isDigit_of_mem_toDigits (by decide) (by decide) h

theorem isWritten_sign (negative : Bool) :
    ∀ c ∈ if negative then ['-'] else [], isWritten c = true := by
  cases negative with
  | false => simp
  | true => simp [isWritten]

section Digits

variable {digits : List Char} (h : ∀ c ∈ digits, isWritten c = true)

include h

theorem isWritten_positional (point : Int) :
    ∀ c ∈ standard.positional digits point, isWritten c = true := by
  have hzeros (n : Nat) : ∀ c ∈ List.replicate n '0', isWritten c = true := by
    intro c hc
    rw [List.eq_of_mem_replicate hc]
    decide
  unfold Layout.positional
  split
  · simp only [List.cons_append, List.forall_mem_cons, List.forall_mem_append]
    exact ⟨by decide, by decide, hzeros _, h⟩
  split
  · simp only [List.forall_mem_append]
    exact ⟨⟨h, hzeros _⟩, List.all_eq_true.1 (by decide)⟩
  · simp only [List.forall_mem_append, List.forall_mem_cons]
    exact ⟨fun c hc => h c (List.mem_of_mem_take hc), by decide,
      fun c hc => h c (List.mem_of_mem_drop hc)⟩

theorem isWritten_scientific (exponent : Int) :
    ∀ c ∈ standard.scientific digits exponent, isWritten c = true := by
  have hdrop : ∀ c ∈ digits.drop 1, isWritten c = true := fun c hc => h c (List.mem_of_mem_drop hc)
  have hfraction : ∀ c ∈ if (digits.drop 1).isEmpty then [] else '.' :: digits.drop 1,
      isWritten c = true := by
    split
    · simp
    · exact List.forall_mem_cons.2 ⟨by decide, hdrop⟩
  have hsign := isWritten_sign (decide (exponent < 0))
  simp only [decide_eq_true_eq] at hsign
  simp only [Layout.scientific, List.forall_mem_append, List.forall_mem_cons]
  exact ⟨⟨fun c hc => h c (List.mem_of_mem_take hc), hfraction⟩, by decide, hsign,
    fun c hc => isWritten_of_isDigit (isDigit_of_mem_toDigits hc)⟩

end Digits

theorem isWritten_decimal (d : Nat) (e : Int) : ∀ c ∈ standard.decimal d e, isWritten c = true := by
  have hdigits : ∀ c ∈ Nat.toDigits 10 d, isWritten c = true := fun c hc =>
    isWritten_of_isDigit (isDigit_of_mem_toDigits hc)
  unfold Layout.decimal
  dsimp only
  split
  · exact isWritten_positional hdigits _
  · exact isWritten_scientific hdigits _

theorem isWritten_format (x : Float) : ∀ c ∈ (format x).toList, isWritten c = true := by
  unfold format Layout.format
  dsimp only
  split
  · exact List.all_eq_true.1 (by decide)
  split
  · rw [String.toList_ofList, List.forall_mem_append]
    exact ⟨isWritten_sign _, List.all_eq_true.1 (by decide)⟩
  · rw [String.toList_ofList, List.forall_mem_append]
    exact ⟨isWritten_sign _, isWritten_decimal _ _⟩

/-- A written number has no `=`. -/
theorem equals_not_mem_format (x : Float) : '=' ∉ (format x).toList := fun h =>
  absurd (isWritten_format x '=' h) (by decide)

end Decimal

theorem isBlank_eq_false_of_isDigit {c : Char} (h : c.isDigit) : isBlank c = false := by
  simp only [Char.isDigit, Bool.and_eq_true, decide_eq_true_eq, ge_iff_le,
    UInt32.le_iff_toNat_le] at h
  change 48 ≤ c.toNat ∧ c.toNat ≤ 57 at h
  refine Bool.eq_false_iff.2 fun hb => ?_
  simp only [isBlank, Bool.or_eq_true, Bool.and_eq_true, decide_eq_true_eq, beq_iff_eq] at hb
  omega

/-- A written number has no blanks. -/
theorem isBlank_eq_false_of_isWritten {c : Char} (h : Decimal.isWritten c = true) :
    isBlank c = false := by
  rw [Decimal.isWritten, Bool.or_eq_true] at h
  rcases h with hdigit | hmem
  · exact isBlank_eq_false_of_isDigit hdigit
  · have hall : ['-', '.', 'e', 'i', 'n', 'f', 'N', 'a'].all (!isBlank ·) = true := by decide
    simpa using List.all_eq_true.1 hall c (List.contains_iff_mem.1 hmem)

/-- The 25 characters with the property `White_Space`. -/
def blanks : List Nat :=
  [9, 10, 11, 12, 13, 0x20, 0x85, 0xa0, 0x1680, 0x2000, 0x2001, 0x2002, 0x2003, 0x2004, 0x2005,
    0x2006, 0x2007, 0x2008, 0x2009, 0x200a, 0x2028, 0x2029, 0x202f, 0x205f, 0x3000]

theorem mem_blanks {c : Char} (h : isBlank c) : c.toNat ∈ blanks := by
  simp only [isBlank, Bool.or_eq_true, Bool.and_eq_true, decide_eq_true_eq, beq_iff_eq] at h
  simp only [blanks, List.mem_cons]
  omega

/-- No letter is blank. -/
theorem isBlank_eq_false_of_isLetter {c : Char} (h : isLetter c) : isBlank c = false := by
  have htable : ∀ n ∈ blanks, ¬ ((65 ≤ n ∧ n ≤ 90) ∨ (97 ≤ n ∧ n ≤ 122)) ∧
      letterRanges.all (fun r => !(decide (r.1 ≤ n) && decide (n ≤ r.2))) = true := by
    decide +kernel
  refine Bool.eq_false_iff.2 fun hb => ?_
  obtain ⟨hascii, hranges⟩ := htable c.toNat (mem_blanks hb)
  simp only [isLetter, Bool.or_eq_true, Bool.and_eq_true, List.any_eq_true] at h
  rcases h with halpha | ⟨-, r, hr, hin⟩
  · exact hascii ((isAlpha_iff c).1 halpha)
  · have hout := List.all_eq_true.1 hranges r hr
    simp only [decide_eq_true_eq] at hin
    simp [hin] at hout

end FormulaNet
