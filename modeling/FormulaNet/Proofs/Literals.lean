import FormulaNet.Proofs.Derivation

/-!
# Literals

A run of digits and points is read as a number if it has a digit and at most one point
(`Decimal.read?_eq_some_iff`); the digits before and behind the point are then those of its value.
-/

namespace FormulaNet.Decimal

theorem isDigit_of_isNumeric {c : Char} (h : Token.isNumeric c = true) (hne : c ≠ '.') :
    c.isDigit = true := by
  simpa [Token.isNumeric, hne] using h

/-- A run of digits and points is cut at its first point. -/
theorem exists_point {cs : List Char} (h : ∀ c ∈ cs, Token.isNumeric c = true) :
    (∀ c ∈ cs, c.isDigit = true) ∨
      ∃ ds fs, cs = ds ++ '.' :: fs ∧ ∀ c ∈ ds, c.isDigit = true := by
  induction cs with
  | nil => exact .inl fun c hc => absurd hc List.not_mem_nil
  | cons c cs ih =>
    by_cases hc : c = '.'
    · exact .inr ⟨[], cs, by rw [hc, List.nil_append], fun c hc => absurd hc List.not_mem_nil⟩
    · have hdigit := isDigit_of_isNumeric (h c List.mem_cons_self) hc
      rcases ih fun c' hc' => h c' (List.mem_cons_of_mem _ hc') with hall | ⟨ds, fs, rfl, hds⟩
      · exact .inl (List.forall_mem_cons.2 ⟨hdigit, hall⟩)
      · exact .inr ⟨c :: ds, fs, rfl, List.forall_mem_cons.2 ⟨hdigit, hds⟩⟩

theorem point_not_mem {ds : List Char} (h : ∀ c ∈ ds, c.isDigit = true) : '.' ∉ ds := fun hmem =>
  absurd (h '.' hmem) (by decide)

section Span

variable {ds : List Char} (h : ∀ c ∈ ds, c.isDigit = true) {c : Char} (hc : c.isDigit = false)
  (cs : List Char)

include h hc

theorem takeWhile_append_cons : (ds ++ c :: cs).takeWhile Char.isDigit = ds := by
  rw [List.takeWhile_append_of_pos h, List.takeWhile_cons_of_neg (by simp [hc]), List.append_nil]

theorem dropWhile_append_cons : (ds ++ c :: cs).dropWhile Char.isDigit = c :: cs := by
  rw [List.dropWhile_append_of_pos h, List.dropWhile_cons_of_neg (by simp [hc])]

end Span

theorem isDigit_point : '.'.isDigit = false := by decide

theorem exponent?_point (fs : List Char) : exponent? ('.' :: fs) = none := by
  simp [exponent?]

/-- The decimal of a run without a point. -/
theorem unsigned?_digits {ds : List Char} (h : ∀ c ∈ ds, c.isDigit = true) :
    unsigned? ds = if ds = [] then none else some (natural ds, 0) := by
  rw [unsigned?, List.takeWhile_eq_self_iff.2 h, List.dropWhile_eq_nil_iff.2 h]
  simp [takeFraction, exponent?]

/-- The decimal of a run with a point. -/
theorem unsigned?_point {ds fs : List Char} (hds : ∀ c ∈ ds, c.isDigit = true)
    (hfs : ∀ c ∈ fs, c.isDigit = true) :
    unsigned? (ds ++ '.' :: fs) =
      if ds = [] ∧ fs = [] then none else some (natural (ds ++ fs), -(fs.length : Int)) := by
  rw [unsigned?, takeWhile_append_cons hds isDigit_point, dropWhile_append_cons hds isDigit_point]
  simp only [takeFraction, List.takeWhile_eq_self_iff.2 hfs, List.dropWhile_eq_nil_iff.2 hfs]
  simp [exponent?]

/-- A run with a second point stands for nothing. -/
theorem unsigned?_points {ds fs gs : List Char} (hds : ∀ c ∈ ds, c.isDigit = true)
    (hfs : ∀ c ∈ fs, c.isDigit = true) : unsigned? (ds ++ '.' :: (fs ++ '.' :: gs)) = none := by
  rw [unsigned?, takeWhile_append_cons hds isDigit_point, dropWhile_append_cons hds isDigit_point]
  simp only [takeFraction, takeWhile_append_cons hfs isDigit_point, dropWhile_append_cons hfs isDigit_point]
  simp [exponent?_point]

theorem toLower_eq_self_of_isNumeric {c : Char} (h : Token.isNumeric c = true) : c.toLower = c := by
  by_cases hc : c = '.'
  · subst hc
    decide
  · have hdigit := isDigit_of_isNumeric h hc
    simp only [Char.isDigit, Bool.and_eq_true, decide_eq_true_eq, ge_iff_le,
      UInt32.le_iff_toNat_le] at hdigit
    have hle : ¬ c.val ≥ 'A'.val := by
      rw [ge_iff_le, UInt32.le_iff_toNat_le, Nat.not_le]
      exact Nat.lt_of_le_of_lt hdigit.2 (by decide)
    exact dif_neg fun hupper => hle hupper.1

section Signs

variable {cs : List Char} (h : ∀ c ∈ cs.head?, Token.isNumeric c = true)

include h

theorem takeSign_eq_self : takeSign cs = (false, cs) := by
  unfold takeSign
  split
  · exact absurd (h '-' rfl) (by decide)
  · exact absurd (h '+' rfl) (by decide)
  · rfl

theorem map_toLower_ne {c : Char} (hc : Token.isNumeric c = false) (word : List Char) :
    cs.map Char.toLower ≠ c :: word := by
  intro hword
  obtain ⟨c', cs', rfl, rfl, -⟩ := List.map_eq_cons_iff.1 hword
  have hc' := h c' rfl
  rw [toLower_eq_self_of_isNumeric hc', hc'] at hc
  cases hc

/-- Digits and points make no word, with a minus before them or without. -/
theorem read?_sign (negative : Bool) : read? ((if negative then ['-'] else []) ++ cs) =
    (unsigned? cs).map fun (d, e) => signed negative (ofDecimal d e) := by
  have hsign : takeSign ((if negative then ['-'] else []) ++ cs) = (negative, cs) := by
    cases negative with
    | false => exact takeSign_eq_self h
    | true => rfl
  have hinf : cs.map Char.toLower ≠ "inf".toList := map_toLower_ne h (by decide) ['n', 'f']
  have hinfinity : cs.map Char.toLower ≠ "infinity".toList :=
    map_toLower_ne h (by decide) ['n', 'f', 'i', 'n', 'i', 't', 'y']
  have hnan : cs.map Char.toLower ≠ "nan".toList := map_toLower_ne h (by decide) ['a', 'n']
  simp only [read?, hsign, hinf, hinfinity, hnan, or_self, if_false]

end Signs

/-- A run of digits and points is read if it has a digit and at most one point. -/
theorem read?_eq_some_iff {cs : List Char} (h : ∀ c ∈ cs, Token.isNumeric c = true) {x : Float} :
    read? cs = some x ↔
      ((∃ c ∈ cs, c.isDigit = true) ∧ cs.count '.' ≤ 1) ∧ literalValue cs = x := by
  rw [show read? cs = _ from read?_sign (fun c hc => h c (List.mem_of_mem_head? hc)) false]
  rcases exists_point h with hall | ⟨ds, fs, rfl, hds⟩
  · have hcount : cs.count '.' = 0 := List.count_eq_zero.2 (point_not_mem hall)
    have hdrop : cs.dropWhile (· ≠ '.') = [] := by
      rw [List.dropWhile_eq_nil_iff]
      intro c hc
      have hne : c ≠ '.' := ne_of_mem_of_not_mem hc (point_not_mem hall)
      simpa using hne
    rw [unsigned?_digits hall, literalValue, hdrop, List.filter_eq_self.2 hall, hcount]
    cases cs with
    | nil => simp
    | cons c cs => simp [hall c List.mem_cons_self]
  · have hdrop : (ds ++ '.' :: fs).dropWhile (· ≠ '.') = '.' :: fs := by
      rw [List.dropWhile_append_of_pos, List.dropWhile_cons_of_neg (by simp)]
      intro c hc
      have hne : c ≠ '.' := ne_of_mem_of_not_mem hc (point_not_mem hds)
      simpa using hne
    have hcount : (ds ++ '.' :: fs).count '.' = fs.count '.' + 1 := by
      rw [List.count_append, List.count_eq_zero.2 (point_not_mem hds), List.count_cons_self, Nat.zero_add]
    have hnumeric : ∀ c ∈ fs, Token.isNumeric c = true := fun c hc => h c (by simp [hc])
    rcases exists_point hnumeric with hall | ⟨fs, gs, rfl, hfs⟩
    · have hfilter : (ds ++ '.' :: fs).filter Char.isDigit = ds ++ fs := by
        rw [List.filter_append, List.filter_cons_of_neg (by decide), List.filter_eq_self.2 hds,
          List.filter_eq_self.2 hall]
      rw [unsigned?_point hds hall, literalValue, hdrop, hfilter, hcount,
        List.count_eq_zero.2 (point_not_mem hall)]
      by_cases hnil : ds = [] ∧ fs = []
      · obtain ⟨rfl, rfl⟩ := hnil
        simp
      · have hdigit : ∃ c ∈ ds ++ '.' :: fs, c.isDigit = true := by
          obtain ⟨c, hc⟩ := List.exists_mem_of_ne_nil (ds ++ fs) (by simpa using hnil)
          refine ⟨c, ?_, (List.forall_mem_append.2 ⟨hds, hall⟩) c hc⟩
          simpa [or_left_comm] using (List.mem_append.1 hc).imp_right Or.inr
        rw [if_neg hnil, Option.map_some, Option.some.injEq]
        exact (and_iff_right ⟨hdigit, Nat.le_refl 1⟩).symm
    · have hmany : ¬ (ds ++ '.' :: (fs ++ '.' :: gs)).count '.' ≤ 1 := by
        rw [hcount, List.count_append, List.count_cons_self]
        omega
      rw [unsigned?_points hds hfs]
      exact iff_of_false (by simp) fun hx => hmany hx.1.2

end FormulaNet.Decimal
