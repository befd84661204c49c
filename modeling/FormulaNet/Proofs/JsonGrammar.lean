import FormulaNet.Json.Value
import FormulaNet.Proofs.Literals
import Mathlib.Data.List.DropRight

/-!
# The grammar of JSON

    value    := 'null' | 'true' | 'false' | number | string
              | '[' space ']' | '[' elements ']' | '{' space '}' | '{' members '}'
    elements := element (',' element)*         element := space value space
    members  := member (',' member)*           member  := space string space ':' element
    number   := '-'? whole fraction? exponent?

`JsonText` says which texts these productions have, and `Spells` what characters a string stands for.  The
readers of numbers and strings take them to their end: `takeNumeral_append`, `skipString_append`,
`takeString_append`.  A string is written as what spells it (`spells_flatMap_writeChar`).
-/

namespace FormulaNet.Json

/-! ## Space -/

def IsSpaces (cs : List Char) : Prop :=
  ∀ c ∈ cs, isSpace c = true

instance (cs : List Char) : Decidable (IsSpaces cs) :=
  List.decidableBAll (fun c => isSpace c = true) cs

theorem dropSpace_cons {c : Char} (hc : isSpace c = false) (cs : List Char) :
    dropSpace (c :: cs) = c :: cs :=
  List.dropWhile_cons_of_neg (by simp [hc])

theorem isSpace_of_isDigit {c : Char} (hc : c.isDigit = true) : isSpace c = false := by
  refine Bool.eq_false_iff.2 fun hs => ?_
  simp only [isSpace, Bool.or_eq_true, beq_iff_eq] at hs
  rcases hs with ((rfl | rfl) | rfl) | rfl
  all_goals exact absurd hc (by decide)

theorem dropSpace_append {space : List Char} (h : IsSpaces space) (cs : List Char) :
    dropSpace (space ++ cs) = dropSpace cs :=
  List.dropWhile_append_of_pos h

theorem dropSpace_dropSpace (cs : List Char) : dropSpace (dropSpace cs) = dropSpace cs :=
  List.dropWhile_idempotent isSpace cs

/-! ## Numbers -/

def IsDigits (cs : List Char) : Prop :=
  cs ≠ [] ∧ ∀ c ∈ cs, c.isDigit = true

instance (cs : List Char) : Decidable (IsDigits cs) :=
  have : Decidable (∀ c ∈ cs, c.isDigit = true) := List.decidableBAll (fun c => c.isDigit = true) cs
  inferInstanceAs (Decidable (cs ≠ [] ∧ _))

/-- The digits before the point, where a zero stands alone. -/
def IsWhole (cs : List Char) : Prop :=
  IsDigits cs ∧ (cs.head? = some '0' → cs = ['0'])

instance (cs : List Char) : Decidable (IsWhole cs) :=
  inferInstanceAs (Decidable (_ ∧ _))

inductive IsFraction : List Char → Prop
  | none : IsFraction []
  | digits {ds : List Char} (h : IsDigits ds) : IsFraction ('.' :: ds)

inductive IsExponent : List Char → Prop
  | none : IsExponent []
  | digits {mark : Char} {sign ds : List Char} (hmark : mark = 'e' ∨ mark = 'E')
      (hsign : sign = [] ∨ sign = ['+'] ∨ sign = ['-']) (h : IsDigits ds) : IsExponent (mark :: (sign ++ ds))

inductive IsNumber : List Char → Prop
  | mk {sign whole fraction exponent : List Char} (hsign : sign = [] ∨ sign = ['-']) (hw : IsWhole whole)
      (hf : IsFraction fraction) (he : IsExponent exponent) :
      IsNumber (sign ++ (whole ++ (fraction ++ exponent)))

/-- A character that a number does not go on with. -/
def EndsNumeral (c : Char) : Prop :=
  c.isDigit = false ∧ c ≠ '.' ∧ c ≠ 'e' ∧ c ≠ 'E'

instance (c : Char) : Decidable (EndsNumeral c) :=
  inferInstanceAs (Decidable (_ ∧ _))

theorem endsNumeral_head_cons {c : Char} (hc : EndsNumeral c) (rest : List Char) :
    ∀ d ∈ (c :: rest).head?, EndsNumeral d :=
  fun _ hd => Option.some.inj hd ▸ hc

section Numerals

variable (atEnd : Flaw)

theorem takeDigits_append {ds : List Char} (h : IsDigits ds) {rest : List Char}
    (hrest : ∀ c ∈ rest.head?, c.isDigit = false) : takeDigits atEnd (ds ++ rest) = .ok (ds, rest) := by
  have hspan : (ds ++ rest).takeWhile Char.isDigit = ds ∧ (ds ++ rest).dropWhile Char.isDigit = rest := by
    cases rest with
    | nil =>
      rw [List.append_nil]
      exact ⟨List.takeWhile_eq_self_iff.2 h.2, List.dropWhile_eq_nil_iff.2 h.2⟩
    | cons c rest =>
      have hc := hrest c rfl
      exact ⟨Decimal.takeWhile_append_cons h.2 hc rest, Decimal.dropWhile_append_cons h.2 hc rest⟩
  simp only [takeDigits, hspan]
  simp [h.1]

theorem takeWhole_append {ds : List Char} (h : IsWhole ds) {rest : List Char}
    (hrest : ∀ c ∈ rest.head?, c.isDigit = false) : takeWhole atEnd (ds ++ rest) = .ok (ds, rest) := by
  rw [takeWhole, takeDigits_append atEnd h.1 hrest]
  refine if_neg ?_
  rw [Bool.and_eq_true, decide_eq_true_eq, decide_eq_true_eq]
  rintro ⟨hzero, hlength⟩
  exact hlength (h.2 hzero ▸ rfl)

theorem takeFraction_append {fraction : List Char} (h : IsFraction fraction) {rest : List Char}
    (hrest : ∀ c ∈ rest.head?, c.isDigit = false ∧ c ≠ '.') :
    Json.takeFraction atEnd (fraction ++ rest) = .ok (fraction.tail, rest) := by
  cases h with
  | none =>
    cases rest with
    | nil => rfl
    | cons c rest => exact if_neg (hrest c rfl).2
  | digits h =>
    rw [List.cons_append, Json.takeFraction, if_pos rfl]
    exact takeDigits_append atEnd h fun c hc => (hrest c hc).1

theorem takeExponent_append {exponent : List Char} (h : IsExponent exponent) {rest : List Char}
    (hrest : ∀ c ∈ rest.head?, EndsNumeral c) :
    ∃ e, takeExponent atEnd (exponent ++ rest) = .ok (e, rest) ∧ (exponent = [] → e = none) := by
  cases h with
  | none =>
    refine ⟨none, ?_, fun _ => rfl⟩
    cases rest with
    | nil => rfl
    | cons c rest =>
      obtain ⟨-, -, he, hE⟩ := hrest c rfl
      exact if_neg (by simp [he, hE])
  | @digits mark sign ds hmark hsign h =>
    have hdigits := takeDigits_append atEnd h fun c hc => (hrest c hc).1
    obtain ⟨negative, htake⟩ :
        ∃ negative, Decimal.takeSign (sign ++ ds ++ rest) = (negative, ds ++ rest) := by
      rcases hsign with rfl | rfl | rfl
      · refine ⟨false, Decimal.takeSign_eq_self fun c hc => ?_⟩
        obtain ⟨d, ds, rfl⟩ := List.exists_cons_of_ne_nil h.1
        obtain rfl : d = c := Option.some.inj hc
        rw [Token.isNumeric, h.2 d List.mem_cons_self, Bool.true_or]
      · exact ⟨false, rfl⟩
      · exact ⟨true, rfl⟩
    rw [List.cons_append, takeExponent, if_pos (by simpa using hmark), htake]
    dsimp only
    rw [hdigits]
    exact ⟨_, rfl, fun hnil => by cases hnil⟩

/-- A number is read to its end. -/
theorem takeNumeral_append {sign whole fraction exponent : List Char} (hsign : sign = [] ∨ sign = ['-'])
    (hw : IsWhole whole) (hf : IsFraction fraction) (he : IsExponent exponent) {rest : List Char}
    (hrest : ∀ c ∈ rest.head?, EndsNumeral c) :
    ∃ e, takeNumeral atEnd (sign ++ (whole ++ (fraction ++ (exponent ++ rest)))) =
      .ok (⟨!sign.isEmpty, whole, fraction.tail, e⟩, rest) ∧ (exponent = [] → e = none) := by
  have hminus : takeMinus (sign ++ (whole ++ (fraction ++ (exponent ++ rest)))) =
      (!sign.isEmpty, whole ++ (fraction ++ (exponent ++ rest))) := by
    rcases hsign with rfl | rfl
    · obtain ⟨d, ds, rfl⟩ := List.exists_cons_of_ne_nil hw.1.1
      have hne : d ≠ '-' := by
        rintro rfl
        exact absurd (hw.1.2 '-' List.mem_cons_self) (by decide)
      exact if_neg hne
    · rfl
  have hexponent : ∀ c ∈ (exponent ++ rest).head?, c.isDigit = false ∧ c ≠ '.' := by
    intro c hc
    cases he with
    | none => exact ⟨(hrest c hc).1, (hrest c hc).2.1⟩
    | digits hmark =>
      cases hc
      rcases hmark with rfl | rfl
      · decide
      · decide
  have hfraction : ∀ c ∈ (fraction ++ (exponent ++ rest)).head?, c.isDigit = false := by
    intro c hc
    cases hf with
    | none => exact (hexponent c hc).1
    | digits => cases hc; decide
  obtain ⟨e, hread, hnone⟩ := takeExponent_append atEnd he hrest
  refine ⟨e, ?_, hnone⟩
  rw [takeNumeral, hminus]
  dsimp only
  rw [takeWhole_append atEnd hw hfraction]
  dsimp only [bind, Except.bind]
  rw [takeFraction_append atEnd hf hexponent]
  dsimp only
  rw [hread]

end Numerals

/-! ## Strings -/

/-- What stands between the quotes of a string. -/
inductive IsChars : List Char → Prop
  | nil : IsChars []
  | plain {c : Char} {cs : List Char} (hc : ¬ c < ' ' ∧ c ≠ '"' ∧ c ≠ '\\') (h : IsChars cs) :
      IsChars (c :: cs)
  | escape {e c : Char} {cs : List Char} (he : (e, c) ∈ escapes) (h : IsChars cs) :
      IsChars ('\\' :: e :: cs)
  | unicode {a b c d : Char} {n : Nat} {cs : List Char} (hn : hexValue? a b c d = some n) (h : IsChars cs) :
      IsChars ('\\' :: 'u' :: a :: b :: c :: d :: cs)

/-- What stands between the quotes of a string, and the characters that it stands for.  Surrogates come in
pairs. -/
inductive Spells : List Char → List Char → Prop
  | nil : Spells [] []
  | plain {c : Char} {cs s : List Char} (hc : ¬ c < ' ' ∧ c ≠ '"' ∧ c ≠ '\\') (h : Spells cs s) :
      Spells (c :: cs) (c :: s)
  | escape {e c : Char} {cs s : List Char} (he : (e, c) ∈ escapes) (h : Spells cs s) :
      Spells ('\\' :: e :: cs) (c :: s)
  | unicode {a b c d : Char} {n : Nat} {cs s : List Char} (hn : hexValue? a b c d = some n)
      (hlow : isLowSurrogate n = false) (hhigh : isHighSurrogate n = false) (h : Spells cs s) :
      Spells ('\\' :: 'u' :: a :: b :: c :: d :: cs) (.ofNat n :: s)
  | pair {a b c d a' b' c' d' : Char} {high low : Nat} {cs s : List Char}
      (hhigh : hexValue? a b c d = some high) (hlow : hexValue? a' b' c' d' = some low)
      (h₁ : isHighSurrogate high = true) (h₂ : isLowSurrogate low = true) (h : Spells cs s) :
      Spells ('\\' :: 'u' :: a :: b :: c :: d :: '\\' :: 'u' :: a' :: b' :: c' :: d' :: cs)
        (ofSurrogates high low :: s)

theorem lookup_escapes {e c : Char} (h : (e, c) ∈ escapes) : e ≠ 'u' ∧ escapes.lookup e = some c := by
  simp only [escapes, List.mem_cons, Prod.mk.injEq, List.not_mem_nil, or_false] at h
  rcases h with ⟨rfl, rfl⟩ | ⟨rfl, rfl⟩ | ⟨rfl, rfl⟩ | ⟨rfl, rfl⟩ | ⟨rfl, rfl⟩ | ⟨rfl, rfl⟩ | ⟨rfl, rfl⟩ |
    ⟨rfl, rfl⟩
  all_goals exact ⟨by decide, rfl⟩

theorem takeHex_of_hexValue? {a b c d : Char} {n : Nat} (h : hexValue? a b c d = some n) (rest : List Char) :
    takeHex (a :: b :: c :: d :: rest) = .ok (n, rest) := by
  simp only [takeHex, h]

theorem skipString_escape {cs rest : List Char} (h : skipEscape cs = .ok rest) :
    skipString ('\\' :: cs) = skipString rest := by
  rw [skipString, if_neg (by decide), if_pos rfl]
  split
  · next flaw hflaw => cases h.symm.trans hflaw
  · next rest' hrest =>
    cases h.symm.trans hrest
    rfl

/-- A string is passed over to its closing quote. -/
theorem skipString_append {cs : List Char} (h : IsChars cs) (rest : List Char) :
    skipString (cs ++ '"' :: rest) = .ok rest := by
  induction h with
  | nil => rw [List.nil_append, skipString, if_pos rfl]
  | plain hc _ ih =>
    obtain ⟨hcontrol, hquote, hbackslash⟩ := hc
    rw [List.cons_append, skipString, if_neg hquote, if_neg hbackslash, if_neg hcontrol, ih]
  | @escape e c cs he _ ih =>
    obtain ⟨hu, hlookup⟩ := lookup_escapes he
    have hskip : skipEscape (e :: (cs ++ '"' :: rest)) = .ok (cs ++ '"' :: rest) := by
      rw [skipEscape, if_neg hu, hlookup]
      rfl
    exact (skipString_escape hskip).trans ih
  | @unicode a b c d n cs hn _ ih =>
    have hskip : skipEscape ('u' :: a :: b :: c :: d :: (cs ++ '"' :: rest)) = .ok (cs ++ '"' :: rest) := by
      rw [skipEscape, if_pos rfl, takeHex_of_hexValue? hn]
      rfl
    exact (skipString_escape hskip).trans ih

theorem takeString_escape {cs rest : List Char} {c : Char} (h : takeEscape cs = .ok (c, rest)) :
    takeString ('\\' :: cs) = (takeString rest).map fun s => (c :: s.1, s.2) := by
  rw [takeString, if_neg (by decide), if_pos rfl]
  split
  · next flaw hflaw => cases h.symm.trans hflaw
  · next c' rest' hrest =>
    cases h.symm.trans hrest
    rfl

/-- A string is read to its closing quote. -/
theorem takeString_append {cs s : List Char} (h : Spells cs s) (rest : List Char) :
    takeString (cs ++ '"' :: rest) = .ok (s, rest) := by
  induction h with
  | nil => rw [List.nil_append, takeString, if_pos rfl]
  | plain hc _ ih =>
    obtain ⟨hcontrol, hquote, hbackslash⟩ := hc
    rw [List.cons_append, takeString, if_neg hquote, if_neg hbackslash, if_neg hcontrol, ih]
    rfl
  | @escape e c cs s he _ ih =>
    obtain ⟨hu, hlookup⟩ := lookup_escapes he
    have htake : takeEscape (e :: (cs ++ '"' :: rest)) = .ok (c, cs ++ '"' :: rest) := by
      rw [takeEscape, if_neg hu, hlookup]
    refine (takeString_escape htake).trans ?_
    rw [ih]
    rfl
  | @unicode a b c d n cs s hn hlow hhigh _ ih =>
    have htake : takeEscape ('u' :: a :: b :: c :: d :: (cs ++ '"' :: rest)) =
        .ok (.ofNat n, cs ++ '"' :: rest) := by
      simp [takeEscape, takeHex_of_hexValue? hn, hlow, hhigh]
    refine (takeString_escape htake).trans ?_
    rw [ih]
    rfl
  | @pair a b c d a' b' c' d' high low cs s hhigh hlow h₁ h₂ _ ih =>
    -- the first half of a pair is not a second one
    have hnot : isLowSurrogate high = false := by
      simp only [isHighSurrogate, Bool.and_eq_true, decide_eq_true_eq] at h₁
      simp only [isLowSurrogate, Bool.and_eq_false_iff, decide_eq_false_iff_not]
      omega
    have hsecond : takeLowSurrogate high ('\\' :: 'u' :: a' :: b' :: c' :: d' :: (cs ++ '"' :: rest)) =
        .ok (ofSurrogates high low, cs ++ '"' :: rest) := by
      simp [takeLowSurrogate, expect, bind, Except.bind, takeHex_of_hexValue? hlow, h₂]
    have htake : takeEscape ('u' :: a :: b :: c :: d :: '\\' :: 'u' :: a' :: b' :: c' :: d' ::
        (cs ++ '"' :: rest)) = .ok (ofSurrogates high low, cs ++ '"' :: rest) := by
      simp [takeEscape, takeHex_of_hexValue? hhigh, hnot, h₁, hsecond]
    refine (takeString_escape htake).trans ?_
    rw [ih]
    rfl

/-! ### Strings as they are written -/

theorem mem_escapes_of_lookup {c e : Char} (h : escaped.lookup c = some e) : (e, c) ∈ escapes := by
  obtain ⟨l, r, heq, -⟩ := List.lookup_eq_some_iff.1 h
  have hmem : (c, e) ∈ escaped := by simp [heq]
  have hswap : ∀ p ∈ escaped, (p.2, p.1) ∈ escapes := by decide
  exact hswap (c, e) hmem

theorem hexValue?_digitChar : ∀ n < 32,
    hexValue? '0' '0' (Nat.digitChar (n / 16)) (Nat.digitChar (n % 16)) = some n := by
  decide

theorem spells_writeChar (c : Char) {cs s : List Char} (h : Spells cs s) :
    Spells (writeChar c ++ cs) (c :: s) := by
  rw [writeChar]
  split
  · next e he => exact .escape (mem_escapes_of_lookup he) h
  · next he =>
    split
    · next control =>
      have hsmall : c.toNat < 32 := control
      have hlow : isLowSurrogate c.toNat = false := by
        simp only [isLowSurrogate, Bool.and_eq_false_iff, decide_eq_false_iff_not]
        omega
      have hhigh : isHighSurrogate c.toNat = false := by
        simp only [isHighSurrogate, Bool.and_eq_false_iff, decide_eq_false_iff_not]
        omega
      have hspells := Spells.unicode (hexValue?_digitChar _ hsmall) hlow hhigh h
      rwa [Char.ofNat_toNat] at hspells
    · next graphic =>
      have plain : c ≠ '"' ∧ c ≠ '\\' := by
        constructor <;> rintro rfl <;> simp [escaped, List.lookup_cons] at he
      exact .plain ⟨graphic, plain⟩ h

theorem spells_flatMap_writeChar (s : List Char) : Spells (s.flatMap writeChar) s := by
  induction s with
  | nil => exact .nil
  | cons c s ih =>
    rw [List.flatMap_cons]
    exact spells_writeChar c ih

/-! ## Values -/

def Bracket.opener : Bracket → Char
  | array => '['
  | object => '{'

/-- What the grammar has productions for, besides numbers and strings. -/
inductive Production
  | value
  | element
  | member
  /-- Elements or members, one or more of them. -/
  | items (b : Bracket)

/-- What stands in brackets. -/
def Bracket.item : Bracket → Production
  | array => .element
  | object => .member

/-- A text of the grammar. -/
inductive JsonText : Production → List Char → Prop
  | word {w : String} (hw : w ∈ ["null", "true", "false"]) : JsonText .value w.toList
  | number {cs : List Char} (h : IsNumber cs) : JsonText .value cs
  | string {cs : List Char} (h : IsChars cs) : JsonText .value ('"' :: (cs ++ ['"']))
  | empty (b : Bracket) {space : List Char} (h : IsSpaces space) :
      JsonText .value (b.opener :: (space ++ [b.closer]))
  | bracket {b : Bracket} {cs : List Char} (h : JsonText (.items b) cs) :
      JsonText .value (b.opener :: (cs ++ [b.closer]))
  | element {before v after : List Char} (hb : IsSpaces before) (ha : IsSpaces after)
      (h : JsonText .value v) : JsonText .element (before ++ (v ++ after))
  | member {before key between e : List Char} (hb : IsSpaces before) (hkey : IsChars key)
      (hbt : IsSpaces between) (h : JsonText .element e) :
      JsonText .member (before ++ '"' :: (key ++ '"' :: (between ++ ':' :: e)))
  | last {b : Bracket} {cs : List Char} (h : JsonText b.item cs) : JsonText (.items b) cs
  | more {b : Bracket} {cs rest : List Char} (h : JsonText b.item cs) (hrest : JsonText (.items b) rest) :
      JsonText (.items b) (cs ++ ',' :: rest)

end FormulaNet.Json
