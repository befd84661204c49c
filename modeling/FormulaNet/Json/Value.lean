import FormulaNet.Json.Numeral

/-!
# Values in JSON

`skipValue` passes over one value of any kind and any nesting, for which it keeps the brackets that are
open.  In what it passes over it looks at the grammar alone: escapes need not stand for characters,
and numbers may be beyond all doubles.
-/

namespace FormulaNet.Json

inductive Bracket
  | array
  | object
  deriving DecidableEq, Repr

/-- An escape of any value, after its backslash. -/
def skipEscape : List Char → Except Flaw (List Char)
  | [] => .error .truncated
  | c :: cs =>
    if c = 'u' then (takeHex cs).map Prod.snd
    else if (escapes.lookup c).isSome then .ok cs
    else .error .malformed

theorem length_lt_of_skipEscape {cs rest : List Char} (h : skipEscape cs = .ok rest) :
    rest.length < cs.length := by
  unfold skipEscape at h
  split at h
  · cases h
  · next c cs =>
    split at h
    · cases hex : takeHex cs with
      | error _ => simp [hex, Except.map] at h
      | ok read =>
        simp only [hex, Except.map, Except.ok.injEq] at h
        have := length_lt_of_takeHex hex
        simp only [List.length_cons, ← h]
        omega
    · split at h
      · cases h
        simp
      · cases h

/-- A string, after its opening quote. -/
def skipString : List Char → Except Flaw (List Char)
  | [] => .error .truncated
  | c :: cs =>
    if c = '"' then .ok cs
    else if c = '\\' then
      match h : skipEscape cs with
      | .error flaw => .error flaw
      | .ok rest =>
        have := length_lt_of_skipEscape h
        skipString rest
    else if c < ' ' then .error .malformed
    else skipString cs
termination_by cs => cs.length

theorem length_lt_of_skipString {cs rest : List Char} (h : skipString cs = .ok rest) :
    rest.length < cs.length := by
  fun_induction skipString cs with
  | case1 | case3 | case5 => cases h
  | case2 =>
    cases h
    simp
  | case4 cs rest' _ shorter _ ih =>
    have := ih h
    simp only [List.length_cons]
    omega
  | case6 c cs _ _ _ ih =>
    have := ih h
    simp only [List.length_cons]
    omega

/-- A value that has no parts. -/
def skipScalar : List Char → Except Flaw (List Char)
  | [] => .error .truncated
  | c :: cs =>
    if c = '"' then skipString cs
    else if c = 'n' then expectWord "ull".toList cs
    else if c = 't' then expectWord "rue".toList cs
    else if c = 'f' then expectWord "alse".toList cs
    else if c = '-' || c.isDigit then (takeNumeral .malformed (c :: cs)).map Prod.snd
    else .error .malformed

theorem length_lt_of_skipScalar {cs rest : List Char} (h : skipScalar cs = .ok rest) :
    rest.length < cs.length := by
  unfold skipScalar at h
  split at h
  · cases h
  · next c cs =>
    split at h
    · exact Nat.lt_succ_of_lt (length_lt_of_skipString h)
    split at h
    · exact Nat.lt_succ_of_le (length_le_of_expectWord h)
    split at h
    · exact Nat.lt_succ_of_le (length_le_of_expectWord h)
    split at h
    · exact Nat.lt_succ_of_le (length_le_of_expectWord h)
    split at h
    · match hn : takeNumeral .malformed (c :: cs) with
      | .error _ => simp [hn, Except.map] at h
      | .ok (n, rest') =>
        simp only [hn, Except.map, Except.ok.injEq] at h
        exact h ▸ length_lt_of_takeNumeral hn
    · cases h

/-- The colon after a key. -/
def takeColon (cs : List Char) : Except Flaw (List Char) :=
  expect ':' (dropSpace cs)

/-- The key of a member and the colon. -/
def skipKey (cs : List Char) : Except Flaw (List Char) := do
  let cs ← expect '"' (dropSpace cs)
  let cs ← skipString cs
  takeColon cs

theorem length_lt_of_takeColon {cs rest : List Char} (h : takeColon cs = .ok rest) :
    rest.length < cs.length :=
  Nat.lt_of_lt_of_le (length_lt_of_expect h) (length_dropSpace_le cs)

theorem length_lt_of_skipKey {cs rest : List Char} (h : skipKey cs = .ok rest) :
    rest.length < cs.length := by
  obtain ⟨cs₁, h₁, h⟩ := exists_of_bind_eq_ok h
  obtain ⟨cs₂, h₂, h⟩ := exists_of_bind_eq_ok h
  have := length_dropSpace_le cs
  have := length_lt_of_expect h₁
  have := length_lt_of_skipString h₂
  have := length_lt_of_takeColon h
  omega

/-- What comes before the next value inside a bracket: in an object the key of the value. -/
def skipToValue : Bracket → List Char → Except Flaw (List Char)
  | .array, cs => .ok cs
  | .object, cs => skipKey cs

theorem length_le_of_skipToValue {b : Bracket} {cs rest : List Char}
    (h : skipToValue b cs = .ok rest) : rest.length ≤ cs.length := by
  cases b with
  | array =>
    cases h
    exact Nat.le_refl _
  | object => exact Nat.le_of_lt (length_lt_of_skipKey h)

/-- The bracket that a character opens. -/
def opens? (c : Char) : Option Bracket :=
  if c = '[' then some .array else if c = '{' then some .object else none

/-- The character that closes a bracket. -/
def Bracket.closer : Bracket → Char
  | array => ']'
  | object => '}'

theorem length_lt_of_dropSpace {cs cs' : List Char} {c : Char} (h : dropSpace cs = c :: cs') :
    cs'.length < cs.length := by
  have := length_dropSpace_le cs
  rw [h] at this
  exact this

mutual

/-- A value inside the brackets that are open, the innermost first, and what follows it up to the
last closing bracket. -/
def skipValue (stack : List Bracket) (cs : List Char) : Except Flaw (List Char) :=
  match _h₁ : dropSpace cs with
  | [] => .error .truncated
  | c :: cs' =>
    match opens? c with
    | some b =>
      match _h₂ : dropSpace cs' with
      | [] => .error .truncated
      | c' :: cs'' =>
        if c' = b.closer then skipNext stack cs''
        else
          match _h₃ : skipToValue b (c' :: cs'') with
          | .error flaw => .error flaw
          | .ok rest => skipValue (b :: stack) rest
    | none =>
      match _h₂ : skipScalar (c :: cs') with
      | .error flaw => .error flaw
      | .ok rest => skipNext stack rest
termination_by cs.length
decreasing_by
  · have := length_lt_of_dropSpace _h₁
    have := length_lt_of_dropSpace _h₂
    omega
  · have := length_lt_of_dropSpace _h₁
    have := length_lt_of_dropSpace _h₂
    have := length_le_of_skipToValue _h₃
    simp only [List.length_cons] at this
    omega
  · have := length_lt_of_skipScalar _h₂
    have := length_lt_of_dropSpace _h₁
    simp only [List.length_cons] at *
    omega

/-- What follows a value inside the brackets that are open, up to the last closing bracket. -/
def skipNext (stack : List Bracket) (cs : List Char) : Except Flaw (List Char) :=
  match stack with
  | [] => .ok cs
  | b :: stack =>
    match _h₁ : dropSpace cs with
    | [] => .error .truncated
    | c :: cs' =>
      if c = b.closer then skipNext stack cs'
      else if c = ',' then
        match _h₂ : skipToValue b cs' with
        | .error flaw => .error flaw
        | .ok rest => skipValue (b :: stack) rest
      else .error .malformed
termination_by cs.length
decreasing_by
  · exact length_lt_of_dropSpace _h₁
  · have := length_lt_of_dropSpace _h₁
    have := length_le_of_skipToValue _h₂
    omega

end

mutual

theorem length_lt_of_skipValue {stack : List Bracket} {cs rest : List Char}
    (h : skipValue stack cs = .ok rest) : rest.length < cs.length := by
  unfold skipValue at h
  split at h
  · cases h
  · next c cs' h₁ =>
    have l₁ := length_lt_of_dropSpace h₁
    split at h
    · split at h
      · cases h
      · next c' cs'' h₂ =>
        have l₂ := length_lt_of_dropSpace h₂
        split at h
        · have := length_le_of_skipNext h
          omega
        · split at h
          · cases h
          · next rest' h₃ =>
            have l₃ : rest'.length ≤ cs''.length + 1 := length_le_of_skipToValue h₃
            have := length_lt_of_skipValue h
            omega
    · split at h
      · cases h
      · next rest' h₂ =>
        have l₂ : rest'.length < cs'.length + 1 := length_lt_of_skipScalar h₂
        have := length_le_of_skipNext h
        omega
termination_by cs.length

theorem length_le_of_skipNext {stack : List Bracket} {cs rest : List Char}
    (h : skipNext stack cs = .ok rest) : rest.length ≤ cs.length := by
  unfold skipNext at h
  split at h
  · cases h
    exact Nat.le_refl _
  · split at h
    · cases h
    · next c cs' h₁ =>
      have l₁ := length_lt_of_dropSpace h₁
      split at h
      · have := length_le_of_skipNext h
        omega
      · split at h
        · split at h
          · cases h
          · next rest' h₂ =>
            have l₂ := length_le_of_skipToValue h₂
            have := length_lt_of_skipValue h
            omega
        · cases h
termination_by cs.length

end

end FormulaNet.Json
