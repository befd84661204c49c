import FormulaNet.Decimal.Shortest
import Mathlib.Tactic.Ring

/-!
# The shortest decimal reads back

The decimal that is found on a grid was tried before it is taken, and where all digits are taken instead,
the fraction that they stand for is a double, which is nearest to itself (`ofDecimal_exact`).  So
`shortest` gives a decimal of the double in any case: `ofDecimal_shortest`.
-/

namespace FormulaNet.Decimal

/-! ## Rounding -/

theorem roundHalfEven_mul_self (q : Nat) {den : Nat} (hden : 0 < den) :
    roundHalfEven (q * den) den = q := by
  simp [roundHalfEven, Nat.mul_div_cancel q hden, hden]

theorem roundHalfEven_mul_right (num den : Nat) {c : Nat} (hc : 0 < c) :
    roundHalfEven (num * c) (den * c) = roundHalfEven num den := by
  have hlow : 2 * (num % den * c) < den * c ↔ 2 * (num % den) < den := by
    rw [← Nat.mul_assoc, Nat.mul_lt_mul_right hc]
  have hhigh : den * c < 2 * (num % den * c) ↔ den < 2 * (num % den) := by
    rw [← Nat.mul_assoc, Nat.mul_lt_mul_right hc]
  simp only [roundHalfEven, Nat.mul_div_mul_right _ _ hc, Nat.mul_mod_mul_right, hlow, hhigh]

/-- The nearest double depends on the fraction alone. -/
theorem nearest_mul_right (num den : Nat) {c : Nat} (hc : 0 < c) :
    nearest (num * c) (den * c) = nearest num den := by
  have hscaled : num * c * resolution = num * resolution * c := Nat.mul_right_comm _ _ _
  have hgrid : ∀ k, den * c * Nat.pow 2 k = den * Nat.pow 2 k * c := fun k => Nat.mul_right_comm _ _ _
  simp only [nearest, hscaled, hgrid, Nat.mul_div_mul_right _ _ hc, roundHalfEven_mul_right _ _ hc]

/-- A mantissa and a scale that make a double: the scale is zero unless the mantissa has all bits. -/
structure Normal (m k : Nat) : Prop where
  lt : m < 2 ^ 53
  full : k = 0 ∨ 2 ^ 52 ≤ m

theorem Normal.log2_sub {m k : Nat} (h : Normal m k) (hm : m ≠ 0) : (m * 2 ^ k).log2 - 52 = k := by
  rcases h.full with rfl | hfull
  · have hlog : m.log2 < 53 := (Nat.log2_lt hm).2 h.lt
    rw [Nat.pow_zero, Nat.mul_one]
    omega
  · have hpos : m * 2 ^ k ≠ 0 := Nat.mul_ne_zero hm (Nat.ne_of_gt (Nat.two_pow_pos k))
    have hlog : (m * 2 ^ k).log2 = 52 + k := by
      refine (Nat.log2_eq_iff hpos).2 ⟨?_, ?_⟩
      · rw [Nat.pow_add]
        exact Nat.mul_le_mul_right _ hfull
      · rw [Nat.add_right_comm, Nat.pow_add]
        exact Nat.mul_lt_mul_of_pos_right h.lt (Nat.two_pow_pos k)
    rw [hlog, Nat.add_sub_cancel_left]

/-- A fraction that is a double is nearest to itself. -/
theorem nearest_of_eq {num den m k : Nat} (hden : 0 < den) (hm : m ≠ 0) (h : Normal m k)
    (hnum : num * resolution = m * 2 ^ k * den) :
    nearest num den = min (k * 2 ^ 52 + m) infinite := by
  have hk : (num * resolution / den).log2 - 52 = k := by
    rw [hnum, Nat.mul_div_cancel _ hden, h.log2_sub hm]
  have hround : roundHalfEven (num * resolution) (den * 2 ^ k) = m := by
    rw [hnum, Nat.mul_right_comm, Nat.mul_assoc]
    exact roundHalfEven_mul_self m (Nat.mul_pos hden (Nat.two_pow_pos k))
  simp only [nearest, hk, Nat.pow_eq, hround]

/-! ## Powers of ten -/

theorem ofDecimal_ofNat {d e : Nat} (hd : d ≠ 0) (he : e ≤ 400) :
    ofDecimal d e = nearest (d * 10 ^ e) 1 := by
  change (if d = 0 then 0 else if 400 < e then infinite else nearest (d * Nat.pow 10 e) 1) = _
  rw [if_neg hd, if_neg (Nat.not_lt.2 he), Nat.pow_eq]

theorem ofDecimal_neg {d j : Nat} (hj : 0 < j) (hcut : 3 * (j - 1) ≤ d.log2 + 1100) :
    ofDecimal d (-(j : Int)) = nearest d (10 ^ j) := by
  obtain ⟨i, rfl⟩ := Nat.exists_eq_add_of_lt hj
  rw [Nat.zero_add, Nat.add_sub_cancel] at hcut
  rw [Nat.zero_add]
  change (if d.log2 + 1100 < 3 * i then 0 else nearest d (Nat.pow 10 (i + 1))) = _
  rw [if_neg (Nat.not_lt.2 hcut), Nat.pow_eq]

theorem nearest_zero (den : Nat) : nearest 0 den = 0 := by
  simp [nearest, roundHalfEven]

/-- A zero behind the point changes nothing. -/
theorem ofDecimal_fraction_zero {d e : Nat} (h : d = 0 ∨ e ≤ 400) :
    ofDecimal (d * 10 ^ e * 10) (-(1 : Nat)) = ofDecimal d e := by
  rw [ofDecimal_neg Nat.one_pos (Nat.zero_le _), Nat.pow_one]
  by_cases hd : d = 0
  · subst hd
    rw [Nat.zero_mul, nearest_zero]
    rfl
  · rw [ofDecimal_ofNat hd (h.resolve_left hd)]
    exact nearest_mul_right (d * 10 ^ e) 1 (by decide)

theorem two_mul_le_log2_mul_pow_five {m : Nat} (hm : m ≠ 0) (j : Nat) : 2 * j ≤ (m * 5 ^ j).log2 := by
  have hpos : m * 5 ^ j ≠ 0 := Nat.mul_ne_zero hm (Nat.ne_of_gt (Nat.pow_pos (by decide : 0 < 5)))
  refine (Nat.le_log2 hpos).2 ?_
  calc 2 ^ (2 * j) = 4 ^ j := by rw [Nat.pow_mul]
    _ ≤ 5 ^ j := Nat.pow_le_pow_left (by decide) j
    _ ≤ m * 5 ^ j := Nat.le_mul_of_pos_left _ (Nat.pos_of_ne_zero hm)

theorem resolution_eq {p : Nat} (h : p = 1074) : resolution = 2 ^ p := by
  rw [resolution, ← h, Nat.pow_eq]

/-- All digits of a double read back. -/
theorem ofDecimal_exact {m k : Nat} (hm : m ≠ 0) (h : Normal m k) :
    ofDecimal (exact m k).1 (exact m k).2 = min (k * 2 ^ 52 + m) infinite := by
  unfold exact
  split
  · next hk =>
    obtain ⟨p, hp⟩ : ∃ p, p = 1074 := ⟨_, rfl⟩
    obtain ⟨i, rfl⟩ : ∃ i, k = p + i := Nat.exists_eq_add_of_le (hp ▸ hk)
    have hsub : p + i - 1074 = i := by omega
    rw [hsub, Nat.pow_eq]
    have hd : m * 2 ^ i ≠ 0 := Nat.mul_ne_zero hm (Nat.ne_of_gt (Nat.two_pow_pos i))
    refine (ofDecimal_ofNat hd (Nat.zero_le _)).trans (nearest_of_eq Nat.one_pos hm h ?_)
    rw [resolution_eq hp, Nat.pow_add]
    ring
  · next hk =>
    obtain ⟨j, hj⟩ : ∃ j, k + j = 1074 := ⟨1074 - k, by omega⟩
    have hsub : 1074 - k = j := by omega
    have hcut := two_mul_le_log2_mul_pow_five hm j
    rw [hsub, Nat.pow_eq]
    change ofDecimal (m * 5 ^ j) (-(j : Int)) = _
    refine (ofDecimal_neg (by omega) (by omega)).trans
      (nearest_of_eq (Nat.pow_pos (by decide : 0 < 10)) hm h ?_)
    have hten : 10 ^ j = 2 ^ j * 5 ^ j := by rw [← Nat.mul_pow]
    rw [resolution_eq hj, Nat.pow_add, hten]
    ring

/-! ## The shortest decimal -/

theorem split_normal {n : Nat} : Normal (split n).1 (split n).2 := by
  unfold split
  rw [Nat.pow_eq]
  split
  · exact ⟨by dsimp only; omega, .inl rfl⟩
  · exact ⟨by dsimp only; omega, .inr (by dsimp only; omega)⟩

theorem join_split (n : Nat) : (split n).2 * 2 ^ 52 + (split n).1 = n := by
  unfold split
  rw [Nat.pow_eq]
  split
  · dsimp only
    omega
  · dsimp only
    omega

/-- What is found on a grid is a decimal of the double. -/
theorem ofDecimal_search {n grids : Nat} {e : Int} {d : Nat × Int} (h : search n grids e = some d) :
    ofDecimal d.1 d.2 = n := by
  induction grids generalizing e with
  | zero => cases h
  | succ grids ih =>
    rw [search] at h
    split at h
    · next hfind =>
      cases h
      simpa using List.find?_some hfind
    · exact ih h

/-- The shortest decimal of a double is a decimal of the double. -/
theorem ofDecimal_shortest {n : Nat} (hn : n < infinite) :
    ofDecimal (shortest n).1 (shortest n).2 = n := by
  have hjoin := join_split n
  unfold shortest
  dsimp only
  split
  · next hm =>
    have hk := (split_normal (n := n)).full
    rw [hm] at hk hjoin
    rw [show n = 0 by omega]
    rfl
  · next hm =>
    cases hsearch : search n 24 (coarsest (split n).1 (split n).2) with
    | some d => exact ofDecimal_search hsearch
    | none =>
      rw [Option.getD_none, ofDecimal_exact hm split_normal, hjoin]
      exact Nat.min_eq_left (Nat.le_of_lt hn)

end FormulaNet.Decimal
