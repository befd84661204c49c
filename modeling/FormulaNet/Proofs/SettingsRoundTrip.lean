import FormulaNet.Proofs.PartialSettings

/-!
# Settings are read back as they were written

Settings are written as an object that names them all: each number by its digits (`Json.isWhole_toDigits`)
and the name as a string (`Json.spells_flatMap_writeChar`).  So they are what is read from their own text:
`Settings.ofJson_toJson`.
-/

namespace FormulaNet

namespace Json

/-- The digits of a number begin with a zero if they are no other digits. -/
theorem head?_toDigits_ne_zero {n : Nat} (h : 0 < n) : (Nat.toDigits 10 n).head? ≠ some '0' := by
  induction n using Nat.strongRecOn with
  | ind n ih =>
    by_cases hn : n < 10
    · have hdigit : ∀ k < 10, 0 < k → Nat.digitChar k ≠ '0' := by decide
      rw [Nat.toDigits_of_lt_base hn, List.head?_cons, ne_eq, Option.some.injEq]
      exact hdigit n hn h
    · have hle : 10 ≤ n := Nat.le_of_not_lt hn
      have ih := ih (n / 10) (Nat.div_lt_self h (by decide)) (Nat.div_pos hle (by decide))
      rw [Nat.toDigits_of_base_le (by decide) hle]
      obtain ⟨c, cs, hcs⟩ := List.exists_cons_of_ne_nil (@Nat.toDigits_ne_nil (n / 10) 10)
      rwa [hcs] at ih ⊢

theorem isWhole_toDigits (n : Nat) : IsWhole (Nat.toDigits 10 n) := by
  have hdigits : ∀ c ∈ Nat.toDigits 10 n, c.isDigit = true := fun c =>
    Nat.isDigit_of_mem_toDigits (by decide) (by decide)
  refine ⟨⟨Nat.toDigits_ne_nil, hdigits⟩, fun hzero => ?_⟩
  rcases Nat.eq_zero_or_pos n with rfl | hn
  · exact Nat.toDigits_zero 10
  · exact absurd hzero (head?_toDigits_ne_zero hn)

end Json

namespace Settings

open Json

/-! ## Members -/

/-- A member as it is written. -/
def writeMember (m : Member) (value : List Char) : List Char :=
  quote m.key.toList ++ ':' :: value

theorem memberText_writeMember {m : Member} {value : List Char} (h : m.HasValue value) :
    MemberText m (writeMember m value) := by
  have hnone : IsSpaces [] := List.forall_mem_nil _
  have htext := MemberText.mk hnone (spells_flatMap_writeChar m.key.toList) hnone hnone h hnone
  have heq : writeMember m value =
      [] ++ '"' :: (m.key.toList.flatMap writeChar ++ '"' :: ([] ++ ':' :: ([] ++ (value ++ [])))) := by
    simp [writeMember, quote]
  exact heq ▸ htext

theorem hasValue_depthLimit (n : UInt64) : (Member.depthLimit n).HasValue (Nat.toDigits 10 n.toNat) :=
  ⟨isWhole_toDigits n.toNat, Decimal.natural_toDigits n.toNat⟩

theorem hasValue_messageTicks (n : UInt32) : (Member.messageTicks n).HasValue (Nat.toDigits 10 n.toNat) :=
  ⟨isWhole_toDigits n.toNat, Decimal.natural_toDigits n.toNat⟩

theorem hasValue_defaultName (s : String) : (Member.defaultName s).HasValue (quote s.toList) :=
  ⟨s.toList.flatMap writeChar, spells_flatMap_writeChar s.toList, rfl⟩

/-! ## The whole text -/

theorem toList_toJson (s : Settings) :
    (toJson s).toList = '\x7b' ::
      (writeMember (.depthLimit s.depthLimit) (Nat.toDigits 10 s.depthLimit.toNat) ++ ',' ::
        (writeMember (.messageTicks s.messageTicks) (Nat.toDigits 10 s.messageTicks.toNat) ++ ',' ::
          writeMember (.defaultName s.defaultName) (quote s.defaultName.toList)) ++ ['\x7d']) := by
  have hlimit : "\x7b\"recursion_limit\":".toList = '\x7b' :: (quote "recursion_limit".toList ++ [':']) := by
    decide
  have hticks : ",\"error_display_ticks\":".toList =
      ',' :: (quote "error_display_ticks".toList ++ [':']) := by decide
  have hname : ",\"default_name\":".toList = ',' :: (quote "default_name".toList ++ [':']) := by decide
  have htext : (toJson s).toList = _ := String.toList_ofList
  rw [htext, hlimit, hticks, hname]
  simp only [writeMember, Member.key, List.append_assoc, List.cons_append, List.nil_append]

/-- Settings are written as an object that names them all. -/
theorem objectText_toJson (s : Settings) :
    ObjectText [.depthLimit s.depthLimit, .messageTicks s.messageTicks, .defaultName s.defaultName]
      (toJson s).toList := by
  rw [toList_toJson]
  have hnone : IsSpaces [] := List.forall_mem_nil _
  refine .members hnone ?_ hnone
  refine .more (memberText_writeMember (hasValue_depthLimit _)) ?_
  refine .more (memberText_writeMember (hasValue_messageTicks _)) ?_
  exact .last (memberText_writeMember (hasValue_defaultName _))

/-- Settings are what is read from the text in which they are written. -/
theorem ofJson_toJson (s : Settings) : ofJson (toJson s) = .ok s := by
  have honce : knownKeys.Nodup := by decide
  exact ofJson_eq_foldl_set (objectText_toJson s) honce

end Settings

end FormulaNet
