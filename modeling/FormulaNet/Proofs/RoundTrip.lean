import FormulaNet.Proofs.Characters
import FormulaNet.Proofs.Doubles
import FormulaNet.Proofs.Literals
import FormulaNet.Proofs.Shortest

/-!
# Written numbers are read back

The digits, the point and the exponent of a written number are read as a decimal of the double that was
written (`unsigned?_decimal`), and its sign is read apart from its magnitude (`signed_magnitude`).  So
every double, the two zeros and the infinities among them, is read back from its text: `read?_format`.
-/

namespace FormulaNet.Decimal

open Float.Model (Format UnpackedFloat)

/-! ## Bits of a double -/

/-- A double is its sign and its magnitude. -/
theorem signed_magnitude (x : Float) : signed (isNegative x) (magnitude x) = x := by
  have hlt : x.toBits.toNat < 2 ^ 64 := x.toBits.toNat_lt
  have hbits : (if isNegative x then Nat.pow 2 63 else 0) + magnitude x = x.toBits.toNat := by
    rw [magnitude, isNegative, Nat.pow_eq]
    split
    · next h =>
      have hle : 2 ^ 63 ≤ x.toBits.toNat := of_decide_eq_true h
      omega
    · next h =>
      have hnot : ¬ 2 ^ 63 ≤ x.toBits.toNat := fun hle => h (decide_eq_true hle)
      omega
  rw [signed, hbits, UInt64.ofNat_toNat, Float.ofBits_toBits]

/-- Beyond the infinities there is NaN alone. -/
theorem eq_nan_of_infinite_lt {x : Float} (h : infinite < magnitude x) : x = 0 / 0 := by
  have hlt : x.toBits.toNat < 2 ^ 64 := x.toBits.toNat_lt
  rw [infinite, magnitude, Nat.pow_eq, Nat.pow_eq] at h
  have hexponent :
      @UnpackedFloat.unpackExponent Format.binary64 x.toBits.toBitVec = -1#11 := by
    refine BitVec.eq_of_toNat_eq ?_
    rw [UnpackedFloat.unpackExponent_def, BitVec.extractLsb'_toNat, Nat.shiftRight_eq_div_pow]
    change x.toBits.toNat / 2 ^ 52 % 2 ^ 11 = 2047
    omega
  have hmantissa :
      @UnpackedFloat.unpackMantissa Format.binary64 x.toBits.toBitVec ≠ 0#52 := by
    intro hzero
    have hnat := congrArg BitVec.toNat hzero
    rw [UnpackedFloat.unpackMantissa_def, BitVec.extractLsb'_toNat, Nat.shiftRight_zero] at hnat
    change x.toBits.toNat % 2 ^ 52 = 0 at hnat
    omega
  have hbits := x.toModel.valid.eq_packedNaN hexponent hmantissa
  refine Float.toBits_inj.1 (UInt64.toBitVec_inj.1 (hbits.trans ?_))
  decide

/-! ## The value of digits -/

theorem natural_append (as bs : List Char) :
    natural (as ++ bs) = natural as * 10 ^ bs.length + natural bs := by
  rw [natural, Nat.ofDigitChars_append, Nat.ofDigitChars_eq_ofDigitChars_zero, Nat.mul_comm]
  rfl

theorem natural_replicate_zero (n : Nat) : natural (List.replicate n '0') = 0 := by
  rw [natural, Nat.ofDigitChars_replicate_zero, Nat.mul_zero]

theorem isDigit_of_mem_replicate_zero {n : Nat} {c : Char} (h : c ∈ List.replicate n '0') :
    c.isDigit = true := by
  rw [List.eq_of_mem_replicate h]
  decide

/-! ## The decimal of a text -/

/-- A text is read as a decimal of the same double as `d * 10 ^ e`. -/
def ReadsAs (cs : List Char) (d : Nat) (e : Int) : Prop :=
  ∃ d' e', unsigned? cs = some (d', e') ∧ ofDecimal d' e' = ofDecimal d e

theorem unsigned?_point_of_ne_nil {ds fs : List Char} (hds : ∀ c ∈ ds, c.isDigit = true)
    (hfs : ∀ c ∈ fs, c.isDigit = true) (hne : ds ≠ []) :
    unsigned? (ds ++ '.' :: fs) = some (natural (ds ++ fs), -(fs.length : Int)) := by
  rw [unsigned?_point hds hfs, if_neg fun h => hne h.1]

theorem readsAs_positional {d : Nat} {e : Int} (h : d = 0 ∨ e ≤ 400) :
    ReadsAs (standard.positional (Nat.toDigits 10 d) (e + (Nat.toDigits 10 d).length)) d e := by
  have hdigits : ∀ c ∈ Nat.toDigits 10 d, c.isDigit = true := fun c => isDigit_of_mem_toDigits
  have hne : Nat.toDigits 10 d ≠ [] := Nat.toDigits_ne_nil
  have hvalue := natural_toDigits d
  generalize Nat.toDigits 10 d = digits at hdigits hne hvalue
  have hzero : ∀ c ∈ ['0'], c.isDigit = true := List.forall_mem_singleton.2 (by decide)
  have hzeros (n : Nat) : ∀ c ∈ List.replicate n '0', c.isDigit = true := fun c =>
    isDigit_of_mem_replicate_zero
  unfold Layout.positional
  split
  · next hpoint =>
    generalize hn : (-(e + digits.length)).toNat = n
    have hfraction := List.forall_mem_append.2 ⟨hzeros n, hdigits⟩
    refine ⟨_, _, @unsigned?_point_of_ne_nil ['0'] (List.replicate n '0' ++ digits) hzero hfraction
      (by simp), ?_⟩
    have hnatural : natural (['0'] ++ (List.replicate n '0' ++ digits)) = d := by
      rw [natural_append, natural_append, natural_replicate_zero, hvalue,
        show natural ['0'] = 0 from rfl]
      simp
    have hexponent : -((List.replicate n '0' ++ digits).length : Int) = e := by
      rw [List.length_append, List.length_replicate]
      omega
    rw [hnatural, hexponent]
  split
  · next hpoint hle =>
    obtain ⟨k, rfl⟩ : ∃ k : Nat, e = k := ⟨e.toNat, by omega⟩
    have hk : ((k : Int) + digits.length).toNat - digits.length = k := by omega
    rw [hk, show standard.whole.toList = ['.', '0'] from rfl]
    have hwhole := List.forall_mem_append.2 ⟨hdigits, hzeros k⟩
    refine ⟨_, _, unsigned?_point_of_ne_nil hwhole hzero (by simp [hne]), ?_⟩
    have hnatural : natural (digits ++ List.replicate k '0' ++ ['0']) = d * 10 ^ k * 10 := by
      rw [natural_append, natural_append, natural_replicate_zero, hvalue, List.length_replicate]
      rfl
    rw [hnatural]
    exact ofDecimal_fraction_zero (h.imp_right Int.ofNat_le.1)
  · next hpoint hle =>
    have htake : digits.take (e + digits.length).toNat ≠ [] := by
      rw [Ne, List.take_eq_nil_iff]
      exact not_or.2 ⟨by omega, hne⟩
    refine ⟨_, _, unsigned?_point_of_ne_nil (fun c hc => hdigits c (List.mem_of_mem_take hc))
      (fun c hc => hdigits c (List.mem_of_mem_drop hc)) htake, ?_⟩
    have hexponent : -((digits.drop (e + digits.length).toNat).length : Int) = e := by
      rw [List.length_drop]
      omega
    rw [List.take_append_drop, hvalue, hexponent]

/-- The exponent of a written number is read as it is. -/
theorem exponent?_written (exponent : Int) :
    exponent? ('e' :: ((if exponent < 0 then ['-'] else []) ++ Nat.toDigits 10 exponent.natAbs)) =
      some exponent := by
  have hdigits : ∀ c ∈ Nat.toDigits 10 exponent.natAbs, c.isDigit = true := fun c =>
    isDigit_of_mem_toDigits
  have hall : (Nat.toDigits 10 exponent.natAbs).all Char.isDigit = true := List.all_eq_true.2 hdigits
  have hsign : takeSign ((if exponent < 0 then ['-'] else []) ++ Nat.toDigits 10 exponent.natAbs) =
      (decide (exponent < 0), Nat.toDigits 10 exponent.natAbs) := by
    split
    · next hneg => rw [decide_eq_true hneg]; rfl
    · next hneg =>
      rw [decide_eq_false hneg, List.nil_append]
      refine takeSign_eq_self fun c hc => ?_
      rw [Token.isNumeric, hdigits c (List.mem_of_mem_head? hc), Bool.true_or]
  simp only [exponent?, true_or, if_true, hsign, hall, natural_toDigits]
  rw [if_neg (by simp [Nat.toDigits_ne_nil]), Option.some.injEq]
  split
  · next hneg =>
    have hlt : exponent < 0 := of_decide_eq_true hneg
    omega
  · next hneg =>
    have hnot : ¬ exponent < 0 := fun hlt => hneg (decide_eq_true hlt)
    omega

theorem unsigned?_exponent {ds fs es : List Char} (hds : ∀ c ∈ ds, c.isDigit = true)
    (hfs : ∀ c ∈ fs, c.isDigit = true) (hne : ds ≠ []) {exponent : Int}
    (hes : exponent? ('e' :: es) = some exponent) :
    unsigned? (ds ++ (if fs.isEmpty then [] else '.' :: fs) ++ 'e' :: es) =
      some (natural (ds ++ fs), exponent - fs.length) := by
  have he : 'e'.isDigit = false := by decide
  cases fs with
  | nil =>
    rw [List.isEmpty_nil, if_pos rfl, List.append_nil, unsigned?, takeWhile_append_cons hds he,
      dropWhile_append_cons hds he]
    simp [takeFraction, hes, hne]
  | cons f fs =>
    have hpoint : ds ++ (if (f :: fs).isEmpty then [] else '.' :: f :: fs) ++ 'e' :: es =
        ds ++ '.' :: (f :: fs ++ 'e' :: es) := by simp
    rw [hpoint, unsigned?, takeWhile_append_cons hds isDigit_point,
      dropWhile_append_cons hds isDigit_point]
    simp only [takeFraction, takeWhile_append_cons hfs he, dropWhile_append_cons hfs he]
    simp [hes]

theorem readsAs_scientific (d : Nat) (e : Int) :
    ReadsAs (standard.scientific (Nat.toDigits 10 d) (e + (Nat.toDigits 10 d).length - 1)) d e := by
  have hdigits : ∀ c ∈ Nat.toDigits 10 d, c.isDigit = true := fun c => isDigit_of_mem_toDigits
  have hvalue := natural_toDigits d
  have hlength : 0 < (Nat.toDigits 10 d).length := Nat.length_toDigits_pos
  generalize Nat.toDigits 10 d = digits at hdigits hvalue hlength
  have htake : digits.take 1 ≠ [] := by
    rw [Ne, List.take_eq_nil_iff]
    exact not_or.2 ⟨by decide, List.ne_nil_of_length_pos hlength⟩
  refine ⟨_, _, unsigned?_exponent (fun c hc => hdigits c (List.mem_of_mem_take hc))
    (fun c hc => hdigits c (List.mem_of_mem_drop hc)) htake (exponent?_written _), ?_⟩
  have hexponent : e + digits.length - 1 - ((digits.drop 1).length : Int) = e := by
    rw [List.length_drop]
    omega
  rw [List.take_append_drop, hvalue, hexponent]

theorem readsAs_decimal (d : Nat) (e : Int) : ReadsAs (standard.decimal d e) d e := by
  unfold Layout.decimal
  dsimp only
  split
  · next h =>
    rw [Int.sub_add_cancel]
    refine readsAs_positional (h.imp_right fun hrange => ?_)
    have hgreatest : standard.greatest = 15 := rfl
    omega
  · exact readsAs_scientific d e

/-! ## Whole numbers -/

/-- A decimal begins with a digit or a point. -/
theorem isNumeric_head?_of_unsigned? {cs : List Char} {y : Nat × Int} (h : unsigned? cs = some y) :
    ∀ c ∈ cs.head?, Token.isNumeric c = true := by
  intro c hc
  obtain ⟨cs, rfl⟩ := List.head?_eq_some_iff.1 hc
  by_cases hdigit : c.isDigit = true
  · rw [Token.isNumeric, hdigit, Bool.true_or]
  · have hpoint : c = '.' := by
      by_contra hne
      have hfraction : takeFraction (c :: cs) = ([], c :: cs) := by simp [takeFraction, hne]
      rw [unsigned?, List.takeWhile_cons_of_neg hdigit, List.dropWhile_cons_of_neg hdigit,
        hfraction] at h
      cases h
    rw [hpoint]
    decide

/-- What begins like a formula is not a number. -/
theorem read?_equals (cs : List Char) : read? ('=' :: cs) = none := by
  have hunsigned : unsigned? ('=' :: cs) = none := by
    cases h : unsigned? ('=' :: cs) with
    | none => rfl
    | some y => exact absurd (isNumeric_head?_of_unsigned? h '=' rfl) (by decide)
  have hlower : Char.toLower '=' = '=' := by decide
  simp [read?, takeSign, hlower, hunsigned]

/-- Every double is read back from its text. -/
theorem read?_format (x : Float) : read? (format x).toList = some x := by
  unfold format Layout.format
  dsimp only
  split
  · next hnan =>
    rw [eq_nan_of_infinite_lt hnan]
    rfl
  split
  · next hinfinite =>
    have hword (negative : Bool) : read? ((if negative then ['-'] else []) ++ standard.infinity.toList) =
        some (signed negative infinite) := by
      cases negative with
      | false | true => rfl
    rw [String.toList_ofList, hword, ← hinfinite, signed_magnitude]
  · next hle hne =>
    obtain ⟨d, e, hread, hvalue⟩ := readsAs_decimal (shortest (magnitude x)).1 (shortest (magnitude x)).2
    rw [String.toList_ofList, read?_sign (isNumeric_head?_of_unsigned? hread), hread, Option.map_some]
    dsimp only
    rw [hvalue, ofDecimal_shortest (by omega), signed_magnitude]

/-- Doubles with the same text are the same. -/
theorem format_injective : Function.Injective format := by
  intro x y h
  exact Option.some.inj ((read?_format x).symm.trans ((congrArg (read? ·.toList) h).trans (read?_format y)))

end FormulaNet.Decimal
