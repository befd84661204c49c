import Mathlib

/-!
# Doubles that show the same

Two doubles are the `Same` if they compare as equal or both are NaN.  This is an equivalence, and the
one thing that it does not see is the sign of a zero.
-/

namespace FormulaNet

/-- Two doubles that compare as equal, or of which neither is a number. -/
def Same (x y : Float) : Prop :=
  (x == y) = true ∨ (x.isNaN = true ∧ y.isNaN = true)

instance (x y : Float) : Decidable (Same x y) :=
  inferInstanceAs (Decidable (_ ∨ _))

/-- Doubles that compare as equal are numbers. -/
theorem isNaN_eq_false_of_beq {x y : Float} (h : (x == y) = true) : x.isNaN = false ∧ y.isNaN = false := by
  obtain ⟨hx, hy, -⟩ := Float.beq_iff_ne_nan_and_eq.1 h
  exact ⟨by simpa using hx, by simpa using hy⟩

namespace Same

variable {x y z : Float}

theorem refl (x : Float) : Same x x := by
  by_cases hx : x.isNaN = true
  · exact .inr ⟨hx, hx⟩
  · exact .inl (Float.beq_self_iff.2 (by simpa using hx))

theorem symm (h : Same x y) : Same y x :=
  h.imp PartialEquivBEq.symm And.symm

theorem trans (h : Same x y) (h' : Same y z) : Same x z := by
  rcases h with hxy | ⟨hx, hy⟩
  · rcases h' with hyz | ⟨hy, -⟩
    · exact .inl (PartialEquivBEq.trans hxy hyz)
    · rw [(isNaN_eq_false_of_beq hxy).2] at hy
      cases hy
  · rcases h' with hyz | ⟨-, hz⟩
    · rw [(isNaN_eq_false_of_beq hyz).1] at hy
      cases hy
    · exact .inr ⟨hx, hz⟩

theorem equivalence : Equivalence Same :=
  ⟨refl, symm, trans⟩

end Same

/-- NaN counts as changed: a double that is not, is a number that compares as equal. -/
theorem same_of_not_bne {x y : Float} (h : ¬ (x != y) = true) : x.isNaN = false ∧ Same x y := by
  have hbeq : (x == y) = true := by simpa [bne] using h
  exact ⟨(isNaN_eq_false_of_beq hbeq).1, .inl hbeq⟩

theorem isNaN_nan : (0 / 0 : Float).isNaN = true := by
  decide

end FormulaNet
