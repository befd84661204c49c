import FormulaNet.Result
import FormulaNet.Text.Bytes

/-!
# Strings in JSON

Readers take what they read from the front of a list of characters and give the rest.  When they
fail they tell the kind of the first flaw from the left.  `quote` writes a string, and `takeString`
reads one.
-/

namespace FormulaNet.Json

/-- What is wrong with a text that should be JSON of a given form. -/
inductive Flaw
  /-- The text is not JSON. -/
  | malformed
  /-- The text ends too early. -/
  | truncated
  /-- The text is JSON so far, but not of the form asked for. -/
  | mismatched
  deriving DecidableEq, Repr

def isSpace (c : Char) : Bool :=
  c == ' ' || c == '\n' || c == '\t' || c == '\r'

def dropSpace (cs : List Char) : List Char :=
  cs.dropWhile isSpace

theorem length_dropSpace_le (cs : List Char) : (dropSpace cs).length ≤ cs.length :=
  (List.dropWhile_sublist _).length_le

/-! ## Reading -/

/-- One given character. -/
def expect (c : Char) : List Char → Except Flaw (List Char)
  | [] => .error .truncated
  | c' :: rest => if c' = c then .ok rest else .error .malformed

/-- A given word. -/
def expectWord : List Char → List Char → Except Flaw (List Char)
  | [], cs => .ok cs
  | c :: word, cs => do
    let rest ← expect c cs
    expectWord word rest

theorem length_lt_of_expect {c : Char} {cs rest : List Char} (h : expect c cs = .ok rest) :
    rest.length < cs.length := by
  unfold expect at h
  split at h
  · cases h
  · split at h
    · cases h
      simp
    · cases h

theorem length_le_of_expectWord {word cs rest : List Char}
    (h : expectWord word cs = .ok rest) : rest.length ≤ cs.length := by
  induction word generalizing cs with
  | nil =>
    cases h
    exact Nat.le_refl _
  | cons c word ih =>
    obtain ⟨cs', he, h⟩ := exists_of_bind_eq_ok h
    exact Nat.le_trans (ih h) (Nat.le_of_lt (length_lt_of_expect he))

/-- The value of a hexadecimal digit of either case. -/
def hexDigit? (c : Char) : Option Nat :=
  if c.isDigit then some (c.toNat - '0'.toNat)
  else if 'a' ≤ c && c ≤ 'f' then some (c.toNat - 'a'.toNat + 10)
  else if 'A' ≤ c && c ≤ 'F' then some (c.toNat - 'A'.toNat + 10)
  else none

/-- The value of four hexadecimal digits. -/
def hexValue? (a b c d : Char) : Option Nat := do
  let a ← hexDigit? a
  let b ← hexDigit? b
  let c ← hexDigit? c
  let d ← hexDigit? d
  some (((a * 16 + b) * 16 + c) * 16 + d)

/-- Four hexadecimal digits.  With fewer than four bytes left the text is truncated, whatever they
are. -/
def takeHex (cs : List Char) : Except Flaw (Nat × List Char) :=
  match cs with
  | a :: b :: c :: d :: rest =>
    match hexValue? a b c d with
    | some n => .ok (n, rest)
    | none => .error .malformed
  | _ => .error (if byteSize cs < 4 then .truncated else .malformed)

/-- The escapes of one letter or sign, with what they stand for. -/
def escapes : List (Char × Char) :=
  [('"', '"'), ('\\', '\\'), ('/', '/'), ('b', '\x08'), ('f', '\x0c'), ('n', '\n'), ('r', '\r'),
   ('t', '\t')]

def isHighSurrogate (n : Nat) : Bool :=
  0xd800 ≤ n && n ≤ 0xdbff

def isLowSurrogate (n : Nat) : Bool :=
  0xdc00 ≤ n && n ≤ 0xdfff

/-- The character that a surrogate pair stands for. -/
def ofSurrogates (high low : Nat) : Char :=
  .ofNat (0x10000 + (high - 0xd800) * 0x400 + (low - 0xdc00))

/-- The second half of a surrogate pair, after its first half. -/
def takeLowSurrogate (high : Nat) (cs : List Char) : Except Flaw (Char × List Char) := do
  let cs ← expect '\\' cs
  let cs ← expect 'u' cs
  let (low, rest) ← takeHex cs
  if isLowSurrogate low then .ok (ofSurrogates high low, rest) else .error .malformed

/-- The character that is written by an escape, after its backslash. -/
def takeEscape : List Char → Except Flaw (Char × List Char)
  | [] => .error .truncated
  | c :: cs =>
    if c = 'u' then
      match takeHex cs with
      | .error flaw => .error flaw
      | .ok (n, rest) =>
        if isLowSurrogate n then .error .malformed
        else if isHighSurrogate n then takeLowSurrogate n rest
        else .ok (.ofNat n, rest)
    else
      match escapes.lookup c with
      | some c' => .ok (c', cs)
      | none => .error .malformed

theorem length_lt_of_takeHex {cs rest : List Char} {n : Nat} (h : takeHex cs = .ok (n, rest)) :
    rest.length < cs.length := by
  unfold takeHex at h
  split at h
  · split at h
    · cases h
      simp only [List.length_cons]
      omega
    · cases h
  · cases h

theorem length_lt_of_takeLowSurrogate {high : Nat} {cs rest : List Char} {c : Char}
    (h : takeLowSurrogate high cs = .ok (c, rest)) : rest.length < cs.length := by
  obtain ⟨cs₁, h₁, h⟩ := exists_of_bind_eq_ok h
  obtain ⟨cs₂, h₂, h⟩ := exists_of_bind_eq_ok h
  obtain ⟨⟨n, cs₃⟩, h₃, h⟩ := exists_of_bind_eq_ok h
  have l₁ := length_lt_of_expect h₁
  have l₂ := length_lt_of_expect h₂
  have l₃ := length_lt_of_takeHex h₃
  dsimp only at h
  split at h
  · simp only [Except.ok.injEq, Prod.mk.injEq] at h
    rw [← h.2]
    omega
  · cases h

theorem length_lt_of_takeEscape {cs rest : List Char} {c : Char}
    (h : takeEscape cs = .ok (c, rest)) : rest.length < cs.length := by
  unfold takeEscape at h
  split at h
  · cases h
  · split at h
    · split at h
      · cases h
      · next hex =>
        have := length_lt_of_takeHex hex
        split at h
        · cases h
        · split at h
          · have := length_lt_of_takeLowSurrogate h
            simp only [List.length_cons]
            omega
          · cases h
            simp only [List.length_cons]
            omega
    · split at h
      · cases h
        simp
      · cases h

/-- A string, after its opening quote. -/
def takeString : List Char → Except Flaw (List Char × List Char)
  | [] => .error .truncated
  | c :: cs =>
    if c = '"' then .ok ([], cs)
    else if c = '\\' then
      match h : takeEscape cs with
      | .error flaw => .error flaw
      | .ok (c', rest) =>
        have := length_lt_of_takeEscape h
        (takeString rest).map fun s => (c' :: s.1, s.2)
    else if c < ' ' then .error .malformed
    else (takeString cs).map fun s => (c :: s.1, s.2)
termination_by cs => cs.length

theorem length_lt_of_takeString {cs s rest : List Char} (h : takeString cs = .ok (s, rest)) :
    rest.length < cs.length := by
  fun_induction takeString cs generalizing s rest with
  | case1 | case3 | case5 => cases h
  | case2 =>
    cases h
    simp
  | case4 cs c' rest' _ shorter _ ih =>
    match hs : takeString rest', h with
    | .ok (s', r), h =>
      cases h
      have := ih hs
      simp only [List.length_cons]
      omega
  | case6 c cs _ _ _ ih =>
    match hs : takeString cs, h with
    | .ok (s', r), h =>
      cases h
      have := ih hs
      simp only [List.length_cons]
      omega

/-! ## Writing -/

/-- The characters that are written as an escape of one letter or sign. -/
def escaped : List (Char × Char) :=
  [('"', '"'), ('\\', '\\'), ('\x08', 'b'), ('\x0c', 'f'), ('\n', 'n'), ('\r', 'r'), ('\t', 't')]

/-- How a character is written in a string: by its number if it is any other control character,
and as it is otherwise. -/
def writeChar (c : Char) : List Char :=
  match escaped.lookup c with
  | some e => ['\\', e]
  | none =>
    if c < ' ' then
      ['\\', 'u', '0', '0', Nat.digitChar (c.toNat / 16), Nat.digitChar (c.toNat % 16)]
    else [c]

/-- A string in quotes. -/
def quote (s : List Char) : List Char :=
  '"' :: s.flatMap writeChar ++ ['"']

end FormulaNet.Json
