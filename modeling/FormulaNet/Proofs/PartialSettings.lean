import FormulaNet.Proofs.SkippedValues
import FormulaNet.Settings.Json
import Mathlib.Data.List.Nodup

/-!
# Settings from some members

An object may name some of the settings, in any order and among members with other keys: `ObjectText` says
how such an object is written.  The reader takes one member after the other (`takeMembers_membersText`), a
value that it knows to its end and any other over its end, so that nothing of one member is left for the
next.  What is read is the default with the named settings replaced: `ofJson_objectText`.
-/

namespace FormulaNet.Settings

open Json

/-! ## Members -/

/-- The keys of the members that are settings. -/
def knownKeys : List String :=
  ["recursion_limit", "error_display_ticks", "default_name"]

/-- A member of an object by what it says.  Of a member with an unknown key the value says nothing. -/
inductive Member
  | depthLimit (n : UInt64)
  | messageTicks (n : UInt32)
  | defaultName (s : String)
  | other (key : String) (h : key ∉ knownKeys)

def Member.key : Member → String
  | depthLimit _ => "recursion_limit"
  | messageTicks _ => "error_display_ticks"
  | defaultName _ => "default_name"
  | other key _ => key

/-- Members that are not the same setting twice. -/
def Member.Apart (m m' : Member) : Prop :=
  m.key ∈ knownKeys → m'.key ∈ knownKeys → m.key ≠ m'.key

/-- The members that are settings. -/
def named (ms : List Member) : List Member :=
  ms.filter fun m => m.key ∈ knownKeys

/-- The settings with one of them replaced. -/
def set (s : Settings) : Member → Settings
  | .depthLimit n => { s with depthLimit := n }
  | .messageTicks n => { s with messageTicks := n }
  | .defaultName name => { s with defaultName := name }
  | .other _ _ => s

/-! ## Texts -/

/-- The texts of the value of a member. -/
def Member.HasValue : Member → List Char → Prop
  | depthLimit n, cs => IsWhole cs ∧ Decimal.natural cs = n.toNat
  | messageTicks n, cs => IsWhole cs ∧ Decimal.natural cs = n.toNat
  | defaultName s, cs => ∃ chars, Spells chars s.toList ∧ cs = '"' :: (chars ++ ['"'])
  | other _ _, cs => JsonText .value cs

inductive MemberText (m : Member) : List Char → Prop
  | mk {before key between space value after : List Char} (hb : IsSpaces before)
      (hkey : Spells key m.key.toList) (hbt : IsSpaces between) (hs : IsSpaces space) (hv : m.HasValue value)
      (ha : IsSpaces after) :
      MemberText m (before ++ '"' :: (key ++ '"' :: (between ++ ':' :: (space ++ (value ++ after)))))

/-- Members with commas between them, one or more. -/
inductive MembersText : List Member → List Char → Prop
  | last {m : Member} {cs : List Char} (h : MemberText m cs) : MembersText [m] cs
  | more {m : Member} {ms : List Member} {cs rest : List Char} (h : MemberText m cs)
      (hrest : MembersText ms rest) : MembersText (m :: ms) (cs ++ ',' :: rest)

/-- An object with members in their order, with space around it. -/
inductive ObjectText : List Member → List Char → Prop
  | empty {before inside after : List Char} (hb : IsSpaces before) (hi : IsSpaces inside)
      (ha : IsSpaces after) : ObjectText [] (before ++ '\x7b' :: (inside ++ '\x7d' :: after))
  | members {ms : List Member} {before cs after : List Char} (hb : IsSpaces before)
      (h : MembersText ms cs) (ha : IsSpaces after) :
      ObjectText ms (before ++ '\x7b' :: (cs ++ '\x7d' :: after))

/-! ## Values -/

section Values

variable {bound : Nat} {cs cs' rest : List Char}

theorem takeNatural_congr (h : dropSpace cs = dropSpace cs') :
    takeNatural bound cs = takeNatural bound cs' := by
  rw [takeNatural, takeNatural, h]

theorem takeText_congr (h : dropSpace cs = dropSpace cs') : takeText cs = takeText cs' := by
  rw [takeText, takeText, h]

/-- A natural number below its bound is read to its end. -/
theorem takeNatural_append (h : IsWhole cs) (hlt : Decimal.natural cs < bound)
    (hrest : ∀ c ∈ rest.head?, EndsNumeral c) :
    takeNatural bound (cs ++ rest) = .ok (Decimal.natural cs, rest) := by
  obtain ⟨e, hread, hnone⟩ := takeNumeral_append .truncated (.inl rfl) h .none .none hrest
  obtain rfl := hnone rfl
  rw [List.nil_append, List.nil_append, List.nil_append] at hread
  obtain ⟨d, ds, rfl⟩ := List.exists_cons_of_ne_nil h.1.1
  have hd : d.isDigit = true := h.1.2 d List.mem_cons_self
  rw [takeNatural, List.cons_append, dropSpace_cons (isSpace_of_isDigit hd)]
  dsimp only
  rw [if_pos (by simp [hd]), ← List.cons_append, hread]
  exact if_pos hlt

/-- A string is read to its end. -/
theorem takeText_append {s : String} (h : Spells cs s.toList) (rest : List Char) :
    takeText ('"' :: (cs ++ '"' :: rest)) = .ok (s, rest) := by
  rw [takeText, dropSpace_cons (by decide)]
  dsimp only
  rw [if_pos rfl, takeString_append h]
  dsimp only [bind, Except.bind]
  rw [String.ofList_toList]

end Values

/-! ## One member -/

/-- A draft with what a member says. -/
def Draft.add (d : Draft) : Member → Draft
  | .depthLimit n => { d with depthLimit := some n }
  | .messageTicks n => { d with messageTicks := some n }
  | .defaultName s => { d with defaultName := some s }
  | .other _ _ => d

/-- A draft has not yet what a member says. -/
def Draft.Lacks (d : Draft) : Member → Prop
  | .depthLimit _ => d.depthLimit = none
  | .messageTicks _ => d.messageTicks = none
  | .defaultName _ => d.defaultName = none
  | .other _ _ => True

theorem Draft.finish_add (d : Draft) (m : Member) : (d.add m).finish = d.finish.set m := by
  cases m <;> rfl

theorem Draft.empty_lacks (m : Member) : Draft.empty.Lacks m := by
  cases m <;> trivial

theorem Draft.Lacks.add {d : Draft} {m m' : Member} (h : d.Lacks m') (hne : m.Apart m') :
    (d.add m).Lacks m' := by
  cases m with
  | depthLimit n =>
    cases m' with
    | depthLimit n' => exact absurd rfl (hne (.head _) (.head _))
    | _ => exact h
  | messageTicks n =>
    cases m' with
    | messageTicks n' => exact absurd rfl (hne (.tail _ (.head _)) (.tail _ (.head _)))
    | _ => exact h
  | defaultName s =>
    cases m' with
    | defaultName s' => exact absurd rfl (hne (.tail _ (.tail _ (.head _))) (.tail _ (.tail _ (.head _))))
    | _ => exact h
  | other key hkey => exact h

section Member

variable {d : Draft} {m : Member} {between space value rest : List Char}

/-- What follows the key of a member is taken for what the member says. -/
theorem takeMember_append (hd : d.Lacks m) (hbt : IsSpaces between) (hs : IsSpaces space)
    (hv : m.HasValue value) (hrest : ∀ c ∈ rest.head?, EndsNumeral c) :
    takeMember d m.key (between ++ ':' :: (space ++ (value ++ rest))) = .ok (d.add m, rest) := by
  have hcolon := takeColon_append hbt (space ++ (value ++ rest))
  have hspace := dropSpace_append hs (value ++ rest)
  cases m with
  | depthLimit n =>
    have hlimit : d.depthLimit = none := hd
    obtain ⟨hw, hn⟩ := hv
    have hlt : Decimal.natural value < Nat.pow 2 64 := hn ▸ UInt64.toNat_lt n
    rw [takeMember, Member.key, if_pos rfl, hlimit, if_neg (by decide), hcolon]
    dsimp only [bind, Except.bind]
    rw [takeDepthLimit, takeNatural_congr hspace, takeNatural_append hw hlt hrest]
    dsimp only [bind, Except.bind]
    rw [hn, UInt64.ofNat_toNat, Draft.add]
  | messageTicks n =>
    have hticks : d.messageTicks = none := hd
    obtain ⟨hw, hn⟩ := hv
    have hlt : Decimal.natural value < Nat.pow 2 32 := hn ▸ UInt32.toNat_lt n
    rw [takeMember, Member.key, if_neg (by decide), if_pos rfl, hticks, if_neg (by decide), hcolon]
    dsimp only [bind, Except.bind]
    rw [takeMessageTicks, takeNatural_congr hspace, takeNatural_append hw hlt hrest]
    dsimp only [bind, Except.bind]
    rw [hn, UInt32.ofNat_toNat, Draft.add]
  | defaultName s =>
    have hname : d.defaultName = none := hd
    obtain ⟨chars, hspells, rfl⟩ := hv
    have htext : '"' :: (chars ++ ['"']) ++ rest = '"' :: (chars ++ '"' :: rest) := by simp
    rw [takeMember, Member.key, if_neg (by decide), if_neg (by decide), if_pos rfl, hname, if_neg (by decide),
      hcolon]
    dsimp only [bind, Except.bind]
    rw [takeDefaultName, takeText_congr hspace, htext, takeText_append hspells]
    rfl
  | other key h =>
    simp only [knownKeys, List.mem_cons, List.not_mem_nil, or_false, not_or] at h
    obtain ⟨hlimit, hticks, hname⟩ := h
    have hvalue : JsonText .value value := hv
    rw [takeMember, Member.key, if_neg hlimit, if_neg hticks, if_neg hname, hcolon]
    dsimp only [bind, Except.bind]
    rw [skipValue_congr hspace, hvalue.skipValue_append hrest]
    rfl

end Member

/-! ## All members -/

section Members

variable {first : Bool} {d d' : Draft} {c : Char} {cs cs' rest : List Char}

/-- What stands before a member, which is nothing before the first one. -/
def separator (first : Bool) : List Char :=
  if first then [] else [',']

theorem takeKey_separator (first : Bool) {before key : List Char} {s : String} (hb : IsSpaces before)
    (hkey : Spells key s.toList) (rest : List Char) :
    takeKey first (separator first ++ (before ++ '"' :: (key ++ '"' :: rest))) = .ok (s, rest) := by
  have hcomma : takeComma first (separator first ++ (before ++ '"' :: (key ++ '"' :: rest))) =
      .ok (before ++ '"' :: (key ++ '"' :: rest)) := by
    cases first <;> rfl
  rw [takeKey, hcomma]
  dsimp only [bind, Except.bind]
  rw [dropSpace_append hb, dropSpace_cons (by decide), expect, if_pos rfl]
  dsimp only
  rw [takeString_append hkey]
  dsimp only
  rw [String.ofList_toList]

theorem takeMembers_congr (h : dropSpace cs = dropSpace cs') :
    takeMembers first d cs = takeMembers first d cs' := by
  rw [takeMembers, takeMembers, h]

theorem takeMembers_end (h : dropSpace cs = '\x7d' :: rest) : takeMembers first d cs = .ok (d, rest) := by
  rw [takeMembers, h]
  exact if_pos rfl

/-- The reader of an object takes a member and goes on behind it. -/
theorem takeMembers_eq_of_member {key : String} (hstart : dropSpace cs = c :: cs') (hc : c ≠ '\x7d')
    {cs'' : List Char} (hkey : takeKey first (c :: cs') = .ok (key, cs''))
    (hmember : takeMember d key cs'' = .ok (d', rest)) :
    takeMembers first d cs = takeMembers false d' rest := by
  rw [takeMembers, hstart]
  dsimp only
  rw [if_neg hc, hkey]
  dsimp only
  rw [hmember]

theorem takeMembers_memberText {m : Member} (h : MemberText m cs) (hd : d.Lacks m)
    (hrest : ∀ c ∈ rest.head?, EndsNumeral c) :
    takeMembers first d (separator first ++ (cs ++ rest)) = takeMembers false (d.add m) rest := by
  obtain @⟨before, key, between, space, value, after, hb, hkey, hbt, hs, hv, ha⟩ := h
  have htext : before ++ '"' :: (key ++ '"' :: (between ++ ':' :: (space ++ (value ++ after)))) ++ rest =
      before ++ '"' :: (key ++ '"' :: (between ++ ':' :: (space ++ (value ++ (after ++ rest))))) := by
    simp only [List.append_assoc, List.cons_append]
  have hmember := takeMember_append hd hbt hs hv (endsNumeral_append ha hrest)
  rw [htext, takeMembers_congr (dropSpace_append ha rest).symm]
  cases first with
  | true =>
    have hquote := takeKey_separator true (List.forall_mem_nil _) hkey
      (between ++ ':' :: (space ++ (value ++ (after ++ rest))))
    refine takeMembers_eq_of_member ?_ (by decide) hquote hmember
    exact (dropSpace_append hb _).trans (dropSpace_cons (by decide) _)
  | false =>
    have hcomma := takeKey_separator false hb hkey
      (between ++ ':' :: (space ++ (value ++ (after ++ rest))))
    exact takeMembers_eq_of_member (dropSpace_cons (by decide) _) (by decide) hcomma hmember

end Members

/-- All members are taken, up to the end of the object. -/
theorem takeMembers_membersText {ms : List Member} {cs : List Char} (h : MembersText ms cs) {d : Draft}
    (hd : ∀ m ∈ ms, d.Lacks m) (honce : ms.Pairwise Member.Apart) (first : Bool) (rest : List Char) :
    takeMembers first d (separator first ++ (cs ++ '\x7d' :: rest)) = .ok (ms.foldl Draft.add d, rest) := by
  -- the draft lacks what the members say that are still to come
  induction h generalizing d first with
  | @last m cs h =>
    rw [takeMembers_memberText h (hd m List.mem_cons_self) (endsNumeral_head_cons (by decide) rest)]
    exact takeMembers_end (dropSpace_cons (by decide) rest)
  | @more m ms cs rest' h _ ih =>
    obtain ⟨hfirst, honce⟩ := List.pairwise_cons.1 honce
    have hd' : ∀ m' ∈ ms, (d.add m).Lacks m' := fun m' hm' =>
      (hd m' (List.mem_cons_of_mem m hm')).add (hfirst m' hm')
    rw [List.append_assoc, List.cons_append]
    rw [takeMembers_memberText h (hd m List.mem_cons_self) (endsNumeral_head_cons (by decide) _)]
    exact ih hd' honce false

/-! ## The whole text -/

/-- The members that are settings have different keys. -/
theorem pairwise_of_nodup {ms : List Member} (h : ((named ms).map Member.key).Nodup) :
    ms.Pairwise Member.Apart := by
  have hnamed := List.pairwise_filter.1 (List.pairwise_map.1 h)
  simp only [decide_eq_true_eq] at hnamed
  exact hnamed

theorem takeDraft_objectText {ms : List Member} {cs : List Char} (h : ObjectText ms cs)
    (honce : ((named ms).map Member.key).Nodup) :
    ∃ rest, takeDraft cs = .ok (ms.foldl Draft.add .empty, rest) ∧ dropSpace rest = [] := by
  have hstart : ∀ before cs : List Char, IsSpaces before →
      dropSpace (before ++ '\x7b' :: cs) = '\x7b' :: cs := fun before cs hb =>
    (dropSpace_append hb _).trans (dropSpace_cons (by decide) cs)
  cases h with
  | @empty before inside after hb hi ha =>
    refine ⟨after, ?_, List.dropWhile_eq_nil_iff.2 ha⟩
    rw [takeDraft, hstart before _ hb]
    exact takeMembers_end ((dropSpace_append hi _).trans (dropSpace_cons (by decide) after))
  | @members _ before cs after hb h ha =>
    refine ⟨after, ?_, List.dropWhile_eq_nil_iff.2 ha⟩
    rw [takeDraft, hstart before _ hb]
    exact takeMembers_membersText h (fun m _ => Draft.empty_lacks m) (pairwise_of_nodup honce) true after

/-- What an object says is read from it. -/
theorem ofJson_eq_foldl_set {text : String} {ms : List Member} (h : ObjectText ms text.toList)
    (honce : ((named ms).map Member.key).Nodup) : ofJson text = .ok (ms.foldl set .default) := by
  obtain ⟨rest, htake, hrest⟩ := takeDraft_objectText h honce
  have hfinish : (ms.foldl Draft.add .empty).finish = ms.foldl set .default :=
    (List.foldl_hom Draft.finish fun d m => (d.finish_add m).symm).symm
  rw [ofJson, htake]
  dsimp only [bind, Except.bind]
  rw [hrest, hfinish]
  rfl

/-! ## Order -/

theorem set_comm (s : Settings) {m m' : Member} (h : m.key ≠ m'.key) :
    (s.set m).set m' = (s.set m').set m := by
  cases m with
  | depthLimit n =>
    cases m' with
    | depthLimit n' => exact absurd rfl h
    | _ => rfl
  | messageTicks n =>
    cases m' with
    | messageTicks n' => exact absurd rfl h
    | _ => rfl
  | defaultName name =>
    cases m' with
    | defaultName name' => exact absurd rfl h
    | _ => rfl
  | other key hkey => rfl

theorem set_of_notMem (s : Settings) {m : Member} (h : m.key ∉ knownKeys) : s.set m = s := by
  cases m with
  | depthLimit n => exact absurd (.head _) h
  | messageTicks n => exact absurd (.tail _ (.head _)) h
  | defaultName name => exact absurd (.tail _ (.tail _ (.head _))) h
  | other key hkey => rfl

theorem foldl_set_named (ms : List Member) (s : Settings) : (named ms).foldl set s = ms.foldl set s := by
  rw [named, List.foldl_filter]
  congr 1
  funext s m
  split
  · rfl
  · next hm => exact (set_of_notMem s (by simpa using hm)).symm

/-- Members with different keys say the same in every order. -/
theorem foldl_set_perm {ms ms' : List Member} (honce : (ms.map Member.key).Nodup) (hperm : ms'.Perm ms)
    (s : Settings) : ms'.foldl set s = ms.foldl set s := by
  refine (hperm.symm.foldl_eq' (fun m hm m' hm' s => ?_) s).symm
  by_cases heq : m.key = m'.key
  · rw [List.inj_on_of_nodup_map honce hm hm' heq]
  · exact set_comm s heq

/-- Settings from an object are the default with the named ones replaced.  Neither the order of the members
nor any member that is no setting makes a difference. -/
theorem ofJson_objectText {text : String} {ms : List Member} (htext : ObjectText ms text.toList)
    (honce : ((named ms).map Member.key).Nodup) :
    ofJson text = .ok (ms.foldl set .default) ∧
      ∀ (text' : String) (ms' : List Member), ObjectText ms' text'.toList → (named ms').Perm (named ms) →
        ofJson text' = ofJson text := by
  have hread := ofJson_eq_foldl_set htext honce
  refine ⟨hread, fun text' ms' htext' hperm => ?_⟩
  have honce' : ((named ms').map Member.key).Nodup := (hperm.map Member.key).nodup_iff.2 honce
  rw [hread, ofJson_eq_foldl_set htext' honce', ← foldl_set_named ms', foldl_set_perm honce hperm,
    foldl_set_named]

theorem ofJson_objectText_nested :
    ofJson (" \x7b\"a\" : [\x7b\"]\": \"\\\"\x7d\"\x7d , -1.5e+3,[ ]] , " ++
        "\"\\u0064efault_name\":\"x\\ty\",\"a\":null,\n\"recursion_limit\" : 8 \x7d\n") =
        .ok ⟨8, 300, "x\ty"⟩ ∧
      ofJson "\x7b\"recursion_limit\":8,\"default_name\":\"x\\ty\"\x7d" =
        ofJson (" \x7b\"a\" : [\x7b\"]\": \"\\\"\x7d\"\x7d , -1.5e+3,[ ]] , " ++
          "\"\\u0064efault_name\":\"x\\ty\",\"a\":null,\n\"recursion_limit\" : 8 \x7d\n") := by
  have hnone : IsSpaces [] := by decide
  have hspace : IsSpaces [' '] := by decide
  have hbreak : IsSpaces ['\n'] := by decide
  -- the first member: an object with brackets in its strings, a number and an empty array
  have hchars : IsChars ['\\', '"', '\x7d'] := .escape (c := '"') (by decide) (.plain (by decide) .nil)
  have hnested := JsonText.bracket (.last (b := .object)
    (.member hnone (.plain (c := ']') (by decide) .nil) hnone (.element hspace hnone (.string hchars))))
  have hnumber : IsNumber _ := .mk (.inr rfl) (by decide : IsWhole ['1'])
    (.digits (by decide : IsDigits ['5'])) (.digits (.inl rfl) (.inr (.inl rfl)) (by decide : IsDigits ['3']))
  have harray := JsonText.bracket (.more (b := .array) (.element hnone hspace hnested)
    (.more (b := .array) (.element hspace hnone (.number hnumber))
      (.last (b := .array) (.element hnone hnone (.empty .array hspace)))))
  have ha := spells_flatMap_writeChar "a".toList
  have hfirst : MemberText (.other "a" (by decide)) _ := .mk hnone ha hspace hspace harray hspace
  -- the second one has an escape in its key
  have hkey : Spells "\\u0064efault_name".toList "default_name".toList :=
    .unicode (n := 100) (by decide) (by decide) (by decide) (spells_flatMap_writeChar "efault_name".toList)
  have hname : (Member.defaultName "x\ty").HasValue _ := ⟨_, spells_flatMap_writeChar "x\ty".toList, rfl⟩
  have hsecond : MemberText (.defaultName "x\ty") _ := .mk hspace hkey hnone hnone hname hnone
  have hnull : JsonText .value _ := .word (w := "null") (by decide)
  have hthird : MemberText (.other "a" (by decide)) _ := .mk hnone ha hnone hnone hnull hnone
  have hlimit : (Member.depthLimit 8).HasValue ['8'] := ⟨by decide, rfl⟩
  have hlimitKey := spells_flatMap_writeChar "recursion_limit".toList
  have hfourth : MemberText (.depthLimit 8) _ := .mk hbreak hlimitKey hspace hspace hlimit hspace
  have hmembers := MembersText.more hfirst (.more hsecond (.more hthird (.last hfourth)))
  have hobject := ObjectText.members hspace hmembers hbreak
  -- the settings alone, the other way round
  have hnameKey := spells_flatMap_writeChar "default_name".toList
  have hsecond' : MemberText (.defaultName "x\ty") _ := .mk hnone hnameKey hnone hnone hname hnone
  have hfourth' : MemberText (.depthLimit 8) _ := .mk hnone hlimitKey hnone hnone hlimit hnone
  have hobject' := ObjectText.members hnone (.more hfourth' (.last hsecond')) hnone
  refine (ofJson_objectText (Eq.mp (congrArg (ObjectText _) ?_) hobject) (by decide)).imp_right fun hsame =>
    hsame _ _ (Eq.mp (congrArg (ObjectText _) ?_) hobject') ?_
  · decide
  · decide
  · exact List.Perm.swap (Member.defaultName "x\ty") (Member.depthLimit 8) []

end FormulaNet.Settings
