import FormulaNet.Json.Value
import FormulaNet.Settings.Basic

/-!
# Settings in JSON

Settings are read from an object, in which unknown members are skipped and missing ones take their
defaults, or from an array of the values in order, which may be cut short.  They are written as an
object with all members and without spaces.
-/

namespace FormulaNet.Settings

open Json

/-! ## Values of members -/

/-- Reads a scalar to its end.  Of an array or an object it reads nothing. -/
def checkScalar : List Char → Except Flaw Unit
  | [] => .error .truncated
  | c :: cs =>
    if c = '"' then discard (takeString cs)
    else if c = 'n' then discard (expectWord "ull".toList cs)
    else if c = 't' then discard (expectWord "rue".toList cs)
    else if c = 'f' then discard (expectWord "alse".toList cs)
    else if c = '-' || c.isDigit then do
      let (n, _) ← takeNumeral .truncated (c :: cs)
      if n.isHuge then .error .malformed else .ok ()
    else if (opens? c).isSome then .ok ()
    else .error .malformed

/-- The flaw of a value that is not of the kind asked for: its own first flaw, if it has one. -/
def flawOfOther (cs : List Char) : Flaw :=
  match checkScalar cs with
  | .ok () => .mismatched
  | .error flaw => flaw

/-- A natural number below a bound. -/
def takeNatural (bound : Nat) (cs : List Char) : Except Flaw (Nat × List Char) :=
  match dropSpace cs with
  | [] => .error .truncated
  | c :: cs =>
    if c = '-' || c.isDigit then do
      let (n, rest) ← takeNumeral .truncated (c :: cs)
      match n.natural? with
      | some k => if k < bound then .ok (k, rest) else .error (flawOfOther (c :: cs))
      | none => .error (flawOfOther (c :: cs))
    else .error (flawOfOther (c :: cs))

/-- A string. -/
def takeText (cs : List Char) : Except Flaw (String × List Char) :=
  match dropSpace cs with
  | [] => .error .truncated
  | c :: cs =>
    if c = '"' then do
      let (s, rest) ← takeString cs
      .ok (.ofList s, rest)
    else .error (flawOfOther (c :: cs))

theorem length_lt_of_takeNatural {bound n : Nat} {cs rest : List Char}
    (h : takeNatural bound cs = .ok (n, rest)) : rest.length < cs.length := by
  have := length_dropSpace_le cs
  unfold takeNatural at h
  split at h
  · cases h
  · next c cs' heq =>
    rw [heq] at this
    split at h
    · obtain ⟨⟨m, rest'⟩, hm, h⟩ := exists_of_bind_eq_ok h
      have := length_lt_of_takeNumeral hm
      dsimp only at h
      split at h
      · split at h
        · simp only [Except.ok.injEq, Prod.mk.injEq] at h
          rw [← h.2]
          omega
        · cases h
      · cases h
    · cases h

theorem length_lt_of_takeText {cs rest : List Char} {s : String}
    (h : takeText cs = .ok (s, rest)) : rest.length < cs.length := by
  have := length_dropSpace_le cs
  unfold takeText at h
  split at h
  · cases h
  · next c cs' heq =>
    simp only [heq, List.length_cons] at this
    split at h
    · obtain ⟨⟨s', rest'⟩, hs, h⟩ := exists_of_bind_eq_ok h
      cases h
      have := length_lt_of_takeString hs
      omega
    · cases h

/-! ## Objects and arrays -/

/-- The values that were read so far. -/
structure Draft where
  depthLimit : Option UInt64
  messageTicks : Option UInt32
  defaultName : Option String

def Draft.empty : Draft where
  depthLimit := none
  messageTicks := none
  defaultName := none

/-- The settings with defaults for what was not read. -/
def Draft.finish (d : Draft) : Settings where
  depthLimit := d.depthLimit.getD default.depthLimit
  messageTicks := d.messageTicks.getD default.messageTicks
  defaultName := d.defaultName.getD default.defaultName

def takeDepthLimit (d : Draft) (cs : List Char) : Except Flaw (Draft × List Char) := do
  let (n, rest) ← takeNatural (Nat.pow 2 64) cs
  .ok ({ d with depthLimit := some (.ofNat n) }, rest)

def takeMessageTicks (d : Draft) (cs : List Char) : Except Flaw (Draft × List Char) := do
  let (n, rest) ← takeNatural (Nat.pow 2 32) cs
  .ok ({ d with messageTicks := some (.ofNat n) }, rest)

def takeDefaultName (d : Draft) (cs : List Char) : Except Flaw (Draft × List Char) := do
  let (s, rest) ← takeText cs
  .ok ({ d with defaultName := some s }, rest)

/-- The colon and the value of a member.  A known member may occur once. -/
def takeMember (d : Draft) (key : String) (cs : List Char) : Except Flaw (Draft × List Char) :=
  if key = "recursion_limit" then
    if d.depthLimit.isSome then .error .mismatched
    else takeColon cs >>= takeDepthLimit d
  else if key = "error_display_ticks" then
    if d.messageTicks.isSome then .error .mismatched
    else takeColon cs >>= takeMessageTicks d
  else if key = "default_name" then
    if d.defaultName.isSome then .error .mismatched
    else takeColon cs >>= takeDefaultName d
  else do
    let cs ← takeColon cs
    let rest ← skipValue [] cs
    .ok (d, rest)

/-- The comma before a member, which the first one does not have. -/
def takeComma (first : Bool) (cs : List Char) : Except Flaw (List Char) :=
  if first then .ok cs else expect ',' cs

/-- The key of a member, and a comma before it. -/
def takeKey (first : Bool) (cs : List Char) : Except Flaw (String × List Char) := do
  let cs ← takeComma first cs
  let cs ← expect '"' (dropSpace cs)
  let (key, cs) ← takeString cs
  .ok (.ofList key, cs)

theorem length_lt_of_takeMember {d d' : Draft} {key : String} {cs rest : List Char}
    (h : takeMember d key cs = .ok (d', rest)) : rest.length < cs.length := by
  have natural {bound n : Nat} {cs' : List Char} (hc : takeColon cs = .ok cs')
      (hn : takeNatural bound cs' = .ok (n, rest)) : rest.length < cs.length :=
    Nat.lt_trans (length_lt_of_takeNatural hn) (length_lt_of_takeColon hc)
  unfold takeMember at h
  split at h
  · split at h
    · cases h
    · obtain ⟨cs', hc, h⟩ := exists_of_bind_eq_ok h
      obtain ⟨⟨n, rest'⟩, hn, h⟩ := exists_of_bind_eq_ok h
      simp only [Except.ok.injEq, Prod.mk.injEq] at h
      exact natural hc (h.2 ▸ hn)
  split at h
  · split at h
    · cases h
    · obtain ⟨cs', hc, h⟩ := exists_of_bind_eq_ok h
      obtain ⟨⟨n, rest'⟩, hn, h⟩ := exists_of_bind_eq_ok h
      simp only [Except.ok.injEq, Prod.mk.injEq] at h
      exact natural hc (h.2 ▸ hn)
  split at h
  · split at h
    · cases h
    · obtain ⟨cs', hc, h⟩ := exists_of_bind_eq_ok h
      obtain ⟨⟨s, rest'⟩, hs, h⟩ := exists_of_bind_eq_ok h
      cases h
      exact Nat.lt_trans (length_lt_of_takeText hs) (length_lt_of_takeColon hc)
  · obtain ⟨cs', hc, h⟩ := exists_of_bind_eq_ok h
    obtain ⟨rest', hs, h⟩ := exists_of_bind_eq_ok h
    cases h
    exact Nat.lt_trans (length_lt_of_skipValue hs) (length_lt_of_takeColon hc)

theorem length_lt_of_takeKey {first : Bool} {key : String} {cs rest : List Char}
    (h : takeKey first cs = .ok (key, rest)) : rest.length < cs.length := by
  obtain ⟨cs₁, h₁, h⟩ := exists_of_bind_eq_ok h
  obtain ⟨cs₂, h₂, h⟩ := exists_of_bind_eq_ok h
  obtain ⟨⟨s, cs₃⟩, h₃, h⟩ := exists_of_bind_eq_ok h
  cases h
  have l₁ : cs₁.length ≤ cs.length := by
    unfold takeComma at h₁
    split at h₁
    · cases h₁
      exact Nat.le_refl _
    · exact Nat.le_of_lt (length_lt_of_expect h₁)
  have := length_lt_of_expect h₂
  have := length_dropSpace_le cs₁
  have := length_lt_of_takeString h₃
  omega

/-- The members of an object up to its end. -/
def takeMembers (first : Bool) (d : Draft) (cs : List Char) : Except Flaw (Draft × List Char) :=
  match _start : dropSpace cs with
  | [] => .error .truncated
  | c :: cs' =>
    if c = '}' then .ok (d, cs')
    else
      match _key : takeKey first (c :: cs') with
      | .error flaw => .error flaw
      | .ok (key, cs'') =>
        match _member : takeMember d key cs'' with
        | .error flaw => .error flaw
        | .ok (d, rest) => takeMembers false d rest
termination_by cs.length
decreasing_by
  have := length_lt_of_dropSpace _start
  have := length_lt_of_takeKey _key
  have := length_lt_of_takeMember _member
  simp only [List.length_cons] at *
  omega

/-- The place of the next value in an array, or `none` at the end of the array. -/
def nextElement (first : Bool) (cs : List Char) : Except Flaw (Option (List Char)) :=
  match dropSpace cs with
  | [] => .error .truncated
  | c :: cs =>
    if c = ']' then .ok none
    else if first then .ok (some (c :: cs))
    else if c = ',' then
      match dropSpace cs with
      | [] => .error .truncated
      | c :: cs => if c = ']' then .error .malformed else .ok (some (c :: cs))
    else .error .malformed

/-- The elements of an array, of which there are as many as there are readers at most.  The closing
bracket is left. -/
def takeElements (first : Bool) (d : Draft) (cs : List Char) :
    List (Draft → List Char → Except Flaw (Draft × List Char)) → Except Flaw (Draft × List Char)
  | [] => .ok (d, cs)
  | take :: takes => do
    match ← nextElement first cs with
    | none => .ok (d, cs)
    | some cs =>
      let (d, cs) ← take d cs
      takeElements false d cs takes

/-! ## The whole text -/

/-- An object or an array. -/
def takeDraft (cs : List Char) : Except Flaw (Draft × List Char) :=
  match dropSpace cs with
  | [] => .error .truncated
  | c :: cs =>
    if c = '{' then takeMembers true .empty cs
    else if c = '[' then do
      let (d, cs) ←
        takeElements true .empty cs [takeDepthLimit, takeMessageTicks, takeDefaultName]
      let rest ← expect ']' (dropSpace cs)
      .ok (d, rest)
    else .error (flawOfOther (c :: cs))

/-- Settings from their JSON text. -/
def ofJson (text : String) : Except Flaw Settings := do
  let (d, rest) ← takeDraft text.toList
  if (dropSpace rest).isEmpty then .ok d.finish else .error .malformed

/-- Settings as JSON text. -/
def toJson (s : Settings) : String :=
  .ofList ("\x7b\"recursion_limit\":".toList ++ Nat.toDigits 10 s.depthLimit.toNat ++
    ",\"error_display_ticks\":".toList ++ Nat.toDigits 10 s.messageTicks.toNat ++
    ",\"default_name\":".toList ++ quote s.defaultName.toList ++ ['\x7d'])

end FormulaNet.Settings
