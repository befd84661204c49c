import FormulaNet.Proofs.JsonGrammar

/-!
# Values that are passed over

`skipValue` passes over a value to its end and no further, however deep its brackets are nested and whatever
is in its strings: `JsonText.skipValue_append`.  The proof goes by the productions of the grammar, where the
stack has the brackets that are open around a text: behind an item the reader looks for what may follow it in
the innermost of them (`skipNext`), and behind the last item it is done with that bracket.
-/

namespace FormulaNet.Json

/-- Passes over an item of a bracket. -/
def skipItem (b : Bracket) (stack : List Bracket) (cs : List Char) : Except Flaw (List Char) :=
  skipToValue b cs >>= skipValue (b :: stack)

/-- A text begins, behind its space, with something that does not close the bracket. -/
def Begins (b : Bracket) (cs : List Char) : Prop :=
  ∃ c cs', dropSpace cs = c :: cs' ∧ c ≠ b.closer

/-! ## Brackets -/

theorem opens?_opener (b : Bracket) : opens? b.opener = some b := by
  cases b <;> rfl

theorem isSpace_opener (b : Bracket) : isSpace b.opener = false := by
  cases b <;> rfl

theorem isSpace_closer (b : Bracket) : isSpace b.closer = false := by
  cases b <;> rfl

theorem opener_ne_closer (b b' : Bracket) : b.opener ≠ b'.closer := by
  cases b <;> cases b' <;> decide

theorem comma_ne_closer (b : Bracket) : ',' ≠ b.closer := by
  cases b <;> decide

theorem endsNumeral_closer (b : Bracket) : EndsNumeral b.closer := by
  cases b <;> decide

/-! ## Steps -/

section Steps

variable {stack : List Bracket} {b : Bracket} {c : Char} {cs cs' rest : List Char}

theorem skipValue_congr (h : dropSpace cs = dropSpace cs') : skipValue stack cs = skipValue stack cs' := by
  rw [skipValue, skipValue, h]

theorem skipNext_congr (h : dropSpace cs = dropSpace cs') :
    skipNext (b :: stack) cs = skipNext (b :: stack) cs' := by
  rw [skipNext, skipNext, h]

theorem skipItem_congr (h : dropSpace cs = dropSpace cs') : skipItem b stack cs = skipItem b stack cs' := by
  cases b with
  | array => exact skipValue_congr h
  | object => rw [skipItem, skipItem, skipToValue, skipToValue, skipKey, skipKey, h]

theorem skipValue_scalar (hstart : dropSpace cs = c :: cs') (hc : opens? c = none)
    (hskip : skipScalar (c :: cs') = .ok rest) : skipValue stack cs = skipNext stack rest := by
  rw [skipValue, hstart]
  dsimp only
  rw [hc]
  dsimp only
  rw [hskip]

theorem skipValue_empty (hstart : dropSpace cs = b.opener :: cs') (hend : dropSpace cs' = b.closer :: rest) :
    skipValue stack cs = skipNext stack rest := by
  rw [skipValue, hstart]
  dsimp only
  rw [opens?_opener]
  dsimp only
  rw [hend]
  exact if_pos rfl

theorem skipValue_bracket (hstart : dropSpace cs = b.opener :: cs') (hb : Begins b cs') :
    skipValue stack cs = skipItem b stack cs' := by
  obtain ⟨c, rest, hrest, hc⟩ := hb
  rw [← skipItem_congr (dropSpace_dropSpace cs'), skipValue, hstart]
  dsimp only
  rw [opens?_opener]
  dsimp only
  rw [hrest]
  dsimp only
  rw [if_neg hc, skipItem]
  cases skipToValue b (c :: rest) <;> rfl

theorem skipNext_closer (hstart : dropSpace cs = b.closer :: rest) :
    skipNext (b :: stack) cs = skipNext stack rest := by
  rw [skipNext, hstart]
  exact if_pos rfl

theorem skipNext_comma (hstart : dropSpace cs = ',' :: rest) :
    skipNext (b :: stack) cs = skipItem b stack rest := by
  rw [skipNext, hstart]
  dsimp only
  rw [if_neg (comma_ne_closer b), if_pos rfl, skipItem]
  cases skipToValue b rest <;> rfl

end Steps

/-! ## What texts begin and end with -/

theorem dropSpace_append_of_eq_cons {c : Char} {cs cs' : List Char} (h : dropSpace cs = c :: cs')
    (rest : List Char) : dropSpace (cs ++ rest) = c :: (cs' ++ rest) := by
  have hne : (cs.dropWhile isSpace).isEmpty = false := by
    rw [dropSpace] at h
    rw [h]
    rfl
  rw [dropSpace, List.dropWhile_append, hne, if_neg Bool.false_ne_true, ← dropSpace, h, List.cons_append]

theorem Begins.append {b : Bracket} {cs : List Char} (h : Begins b cs) (rest : List Char) :
    Begins b (cs ++ rest) := by
  obtain ⟨c, cs', hcs, hc⟩ := h
  exact ⟨c, cs' ++ rest, dropSpace_append_of_eq_cons hcs rest, hc⟩

theorem Begins.spaces {b : Bracket} {space cs : List Char} (hspace : IsSpaces space) (h : Begins b cs) :
    Begins b (space ++ cs) := by
  rwa [Begins, dropSpace_append hspace]

theorem begins_cons {b : Bracket} {c : Char} (hspace : isSpace c = false) (hc : c ≠ b.closer)
    (cs : List Char) : Begins b (c :: cs) :=
  ⟨c, cs, dropSpace_cons hspace cs, hc⟩

theorem endsNumeral_of_isSpace {c : Char} (hc : isSpace c = true) : EndsNumeral c := by
  simp only [isSpace, Bool.or_eq_true, beq_iff_eq] at hc
  rcases hc with ((rfl | rfl) | rfl) | rfl
  all_goals decide

/-- No number goes on with space, nor behind it. -/
theorem endsNumeral_append {space rest : List Char} (hspace : IsSpaces space)
    (hrest : ∀ c ∈ rest.head?, EndsNumeral c) : ∀ c ∈ (space ++ rest).head?, EndsNumeral c := by
  cases space with
  | nil => exact hrest
  | cons s space =>
    rintro c hc
    obtain rfl : s = c := Option.some.inj hc
    exact endsNumeral_of_isSpace (hspace s List.mem_cons_self)

/-! ## Scalars -/

theorem IsNumber.exists_cons {cs : List Char} (h : IsNumber cs) :
    ∃ c cs', cs = c :: cs' ∧ (c = '-' || c.isDigit) = true := by
  obtain ⟨hsign, hw, -, -⟩ := h
  rcases hsign with rfl | rfl
  · obtain ⟨d, ds, rfl⟩ := List.exists_cons_of_ne_nil hw.1.1
    exact ⟨d, _, rfl, by simp [hw.1.2 d List.mem_cons_self]⟩
  · exact ⟨'-', _, rfl, rfl⟩

/-- What a number begins with begins no other value, and it is neither space nor a bracket. -/
theorem opens_number_notMem {c : Char} (hc : (c = '-' || c.isDigit) = true) :
    c ∉ ['"', 'n', 't', 'f', '[', ']', '\x7b', ' ', '\n', '\t', '\r'] := by
  intro hmem
  simp only [List.mem_cons, List.not_mem_nil, or_false] at hmem
  rcases hmem with rfl | rfl | rfl | rfl | rfl | rfl | rfl | rfl | rfl | rfl | rfl
  all_goals exact absurd hc (by decide)

theorem begins_word {w : String} (hw : w ∈ ["null", "true", "false"]) : Begins .array w.toList := by
  simp only [List.mem_cons, List.not_mem_nil, or_false] at hw
  rcases hw with rfl | rfl | rfl
  all_goals exact begins_cons (by decide) (by decide) _

theorem IsNumber.begins {cs : List Char} (h : IsNumber cs) : Begins .array cs := by
  obtain ⟨c, cs', rfl, hc⟩ := h.exists_cons
  have hmem := opens_number_notMem hc
  simp only [List.mem_cons, List.not_mem_nil, or_false, not_or] at hmem
  obtain ⟨-, -, -, -, -, hcloser, -, hspace⟩ := hmem
  exact begins_cons (by simp [isSpace, hspace]) hcloser cs'

section Scalars

variable {stack : List Bracket} {cs rest : List Char}

theorem skipValue_word {w : String} (hw : w ∈ ["null", "true", "false"]) :
    skipValue stack (w.toList ++ rest) = skipNext stack rest := by
  simp only [List.mem_cons, List.not_mem_nil, or_false] at hw
  rcases hw with rfl | rfl | rfl
  all_goals exact skipValue_scalar rfl rfl rfl

theorem skipValue_number (h : IsNumber cs) (hrest : ∀ c ∈ rest.head?, EndsNumeral c) :
    skipValue stack (cs ++ rest) = skipNext stack rest := by
  obtain ⟨c, cs', hcons, hc⟩ := h.exists_cons
  have hmem := opens_number_notMem hc
  simp only [List.mem_cons, List.not_mem_nil, or_false, not_or] at hmem
  obtain ⟨hquote, hn, ht, hf, harray, -, hobject, hspace⟩ := hmem
  have hread : (takeNumeral .malformed (cs ++ rest)).map Prod.snd = .ok rest := by
    obtain ⟨hsign, hw, hf, he⟩ := h
    obtain ⟨e, hread, -⟩ := takeNumeral_append .malformed hsign hw hf he hrest
    simp only [List.append_assoc]
    rw [hread]
    rfl
  rw [hcons, List.cons_append] at hread ⊢
  refine skipValue_scalar (dropSpace_cons (by simp [isSpace, hspace]) _) ?_ ?_
  · rw [opens?, if_neg harray, if_neg hobject]
  · rw [skipScalar, if_neg hquote, if_neg hn, if_neg ht, if_neg hf, if_pos hc, hread]

theorem skipValue_string (h : IsChars cs) :
    skipValue stack ('"' :: (cs ++ '"' :: rest)) = skipNext stack rest :=
  skipValue_scalar rfl rfl (skipString_append h rest)

end Scalars

/-! ## Keys -/

theorem takeColon_append {space : List Char} (h : IsSpaces space) (cs : List Char) :
    takeColon (space ++ ':' :: cs) = .ok cs := by
  rw [takeColon, dropSpace_append h]
  rfl

theorem skipKey_append {key space : List Char} (hkey : IsChars key) (h : IsSpaces space) (cs : List Char) :
    skipKey ('"' :: (key ++ '"' :: (space ++ ':' :: cs))) = .ok cs := by
  rw [skipKey, dropSpace_cons (by decide), expect, if_pos rfl]
  dsimp only [bind, Except.bind]
  rw [skipString_append hkey]
  exact takeColon_append h cs

/-! ## Productions -/

/-- The texts of a production are passed over.  A value and an element may be those of an array or of the
member of an object. -/
def PassedOver : Production → List Char → Prop
  | .value, cs => Begins .array cs ∧ ∀ stack rest, (∀ c ∈ rest.head?, EndsNumeral c) →
      skipValue stack (cs ++ rest) = skipNext stack rest
  | .element, cs => Begins .array cs ∧ ∀ b stack rest, (∀ c ∈ rest.head?, EndsNumeral c) →
      skipValue (b :: stack) (cs ++ rest) = skipNext (b :: stack) rest
  | .member, cs => Begins .object cs ∧ ∀ stack rest, (∀ c ∈ rest.head?, EndsNumeral c) →
      skipItem .object stack (cs ++ rest) = skipNext (.object :: stack) rest
  | .items b, cs => Begins b cs ∧ ∀ stack rest,
      skipItem b stack (cs ++ b.closer :: rest) = skipNext stack rest

theorem PassedOver.item {b : Bracket} {cs : List Char} (h : PassedOver b.item cs) :
    Begins b cs ∧ ∀ stack rest, (∀ c ∈ rest.head?, EndsNumeral c) →
      skipItem b stack (cs ++ rest) = skipNext (b :: stack) rest := by
  cases b with
  | array => exact ⟨h.1, h.2 .array⟩
  | object => exact h

theorem JsonText.passedOver {p : Production} {cs : List Char} (h : JsonText p cs) : PassedOver p cs := by
  -- the stack is arbitrary in each case, so that the parts of a bracket may have one more on it
  induction h with
  | word hw => exact ⟨begins_word hw, fun stack rest _ => skipValue_word hw⟩
  | number h => exact ⟨h.begins, fun stack rest hrest => skipValue_number h hrest⟩
  | @string cs h =>
    refine ⟨begins_cons (by decide) (by decide) _, fun stack rest _ => ?_⟩
    rw [List.cons_append, List.append_assoc, List.singleton_append]
    exact skipValue_string h
  | @empty b space hspace =>
    refine ⟨begins_cons (isSpace_opener b) (opener_ne_closer b .array) _, fun stack rest _ => ?_⟩
    have hend : dropSpace (space ++ b.closer :: rest) = b.closer :: rest := by
      rw [dropSpace_append hspace]
      exact dropSpace_cons (isSpace_closer b) rest
    rw [List.cons_append, List.append_assoc, List.singleton_append]
    exact skipValue_empty (dropSpace_cons (isSpace_opener b) _) hend
  | @bracket b cs _ ih =>
    refine ⟨begins_cons (isSpace_opener b) (opener_ne_closer b .array) _, fun stack rest _ => ?_⟩
    rw [List.cons_append, List.append_assoc, List.singleton_append]
    rw [skipValue_bracket (dropSpace_cons (isSpace_opener b) _) (ih.1.append _)]
    exact ih.2 stack rest
  | @element before v after hb ha _ ih =>
    refine ⟨(ih.1.append after).spaces hb, fun b stack rest hrest => ?_⟩
    calc skipValue (b :: stack) (before ++ (v ++ after) ++ rest)
        = skipValue (b :: stack) (v ++ (after ++ rest)) := by
          rw [List.append_assoc, List.append_assoc]
          exact skipValue_congr (dropSpace_append hb _)
      _ = skipNext (b :: stack) (after ++ rest) := ih.2 _ _ (endsNumeral_append ha hrest)
      _ = skipNext (b :: stack) rest := skipNext_congr (dropSpace_append ha rest)
  | @member before key between e hb hkey hbt _ ih =>
    refine ⟨.spaces hb (begins_cons (by decide) (by decide) _), fun stack rest hrest => ?_⟩
    have htext : before ++ '"' :: (key ++ '"' :: (between ++ ':' :: e)) ++ rest =
        before ++ '"' :: (key ++ '"' :: (between ++ ':' :: (e ++ rest))) := by
      simp only [List.append_assoc, List.cons_append]
    rw [htext, skipItem_congr (dropSpace_append hb _), skipItem, skipToValue, skipKey_append hkey hbt]
    exact ih.2 .object stack rest hrest
  | @last b cs _ ih =>
    obtain ⟨hbegins, hskip⟩ := ih.item
    refine ⟨hbegins, fun stack rest => ?_⟩
    rw [hskip stack _ (endsNumeral_head_cons (endsNumeral_closer b) rest)]
    exact skipNext_closer (dropSpace_cons (isSpace_closer b) rest)
  | @more b cs rest' _ _ ih ihrest =>
    obtain ⟨hbegins, hskip⟩ := ih.item
    refine ⟨hbegins.append _, fun stack rest => ?_⟩
    rw [List.append_assoc, List.cons_append, hskip stack _ (endsNumeral_head_cons (by decide) _)]
    rw [skipNext_comma (dropSpace_cons (by decide) _)]
    exact ihrest.2 stack rest

/-- A value is passed over to its end. -/
theorem JsonText.skipValue_append {v : List Char} (h : JsonText .value v) {rest : List Char}
    (hrest : ∀ c ∈ rest.head?, EndsNumeral c) : skipValue [] (v ++ rest) = .ok rest := by
  rw [h.passedOver.2 [] rest hrest, skipNext]

end FormulaNet.Json
