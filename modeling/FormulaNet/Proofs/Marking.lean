import FormulaNet.Proofs.Consumption

/-!
# Mentions in a text

A mention stands in a text as an `@`, blanks, and a token that is apart from what follows.
`tokens_append_mention` says which token of the grammar it is cut into, and `marked_of_legible` finds
all mentions of a text, with the spans that the grammar gives them.
-/

namespace FormulaNet

/-- The tokens of a text that begins at a byte offset. -/
def tokensFrom (start : Nat) (cs : List Char) : List Token :=
  Token.ofPlaced (placed start cs)

/-- A text that a mention of this kind can have as its token, with inner blanks. -/
structure IsToken (kind : MentionKind) (token : List Char) : Prop where
  ne_nil : token ≠ []
  trimmed : Trimmed token
  admits : ∀ c ∈ token, isBlank c = false → kind.admits c

/-- A text whose only `@` comes last, blanks aside. -/
def Announces (before : List Char) : Prop :=
  ∃ cs blanks, before = cs ++ '@' :: blanks ∧ '@' ∉ cs ∧ ∀ c ∈ blanks, isBlank c

/-- A text that does not go on with a token that ends where the text begins. -/
def Apart (cs : List Char) : Prop :=
  ∀ c ∈ (cs.filter (!isBlank ·)).head?, isApart c

/-! ## Texts apart from what is before them -/

theorem head?_filter_append {cs cs' : List Char} {c : Char}
    (h : (cs.filter (!isBlank ·)).head? = some c) :
    ((cs ++ cs').filter (!isBlank ·)).head? = some c := by
  rw [List.filter_append, List.head?_append, h, Option.some_or]

theorem Apart.of_append {cs cs' : List Char} (h : Apart (cs ++ cs')) : Apart cs :=
  fun c hc => h c (head?_filter_append hc)

theorem Apart.append {cs : List Char} (h : Apart cs) (hne : cs.filter (!isBlank ·) ≠ [])
    (cs' : List Char) : Apart (cs ++ cs') := by
  obtain ⟨c, hc⟩ := Option.ne_none_iff_exists'.1 fun hn => hne (List.head?_eq_none_iff.1 hn)
  intro c' hc'
  rw [head?_filter_append hc] at hc'
  obtain rfl := Option.some.inj hc'
  exact h c hc

theorem Apart.isRun_head {cs : List Char} (h : Apart cs) (start : Nat) :
    ∀ t ∈ (tokensFrom start cs).head?, t.isRun = false := by
  refine (Token.spells_ofPlaced (placed start cs)).isRun_head fun p hp => h p.char ?_
  rw [← map_char_placed start cs, List.head?_map, hp, Option.map_some]
  rfl

theorem apart_of_isApart_head {start : Nat} {cs : List Char}
    (h : ∀ p ∈ (placed start cs).head?, isApart p.char) : Apart cs := by
  intro c hc
  rw [← map_char_placed start cs, List.head?_map] at hc
  obtain ⟨p, hp, rfl⟩ := Option.map_eq_some_iff.1 hc
  exact h p hp

/-- A token is not blank. -/
theorem IsToken.filter_ne_nil {kind : MentionKind} {token : List Char} (h : IsToken kind token) :
    token.filter (!isBlank ·) ≠ [] := by
  obtain ⟨c, cs, rfl⟩ := List.exists_cons_of_ne_nil h.ne_nil
  have hc : isBlank c = false := h.trimmed.1 c rfl
  rw [List.filter_cons_of_pos (by simp [hc])]
  exact List.cons_ne_nil _ _

theorem not_blank_at {c : Char} (h : isBlank c) : c ≠ '@' := by
  rintro rfl
  exact absurd h (by decide)

theorem Announces.at_mem {before : List Char} (h : Announces before) :
    '@' ∈ before.filter (!isBlank ·) := by
  obtain ⟨cs, blanks, rfl, -, -⟩ := h
  exact List.mem_filter.2 ⟨by simp, by decide⟩

/-! ## Cutting a mention -/

theorem tokensFrom_append (start : Nat) (cs cs' : List Char) :
    tokensFrom start (cs ++ cs') =
      (placed start cs).foldr Token.push (tokensFrom (start + byteSize cs) cs') := by
  rw [tokensFrom, placed_append, Token.ofPlaced, List.foldr_append]
  rfl

theorem tokensFrom_append_of_blank {blanks : List Char} (h : ∀ c ∈ blanks, isBlank c) (start : Nat)
    (cs : List Char) : tokensFrom start (blanks ++ cs) = tokensFrom (start + byteSize blanks) cs := by
  rw [tokensFrom_append, placed_eq_nil h, List.foldr_nil]

theorem tokensFrom_cons_at (start : Nat) (cs : List Char) :
    tokensFrom start ('@' :: cs) =
      Token.push ⟨start, '@'⟩ (tokensFrom (start + Char.utf8Size '@') cs) := by
  rw [tokensFrom, placed_cons_of_not_blank (by decide)]
  rfl

/-- The mention that a token in its place is. -/
def mentionAt (kind : MentionKind) (token : List Char) (start : Nat) : Mention where
  kind := kind
  token := squeeze (.ofList token)
  span := ⟨start, start + byteSize token⟩

theorem squeeze_ofList (cs : List Char) :
    squeeze (.ofList cs) = .ofList (cs.filter (!isBlank ·)) := by
  rw [squeeze, String.toList_ofList]

/-- A mention in a text is cut into one token, and what is before it is cut by itself. -/
theorem tokens_append_mention {kind : MentionKind} {token after : List Char}
    (ht : IsToken kind token) (ha : Apart after) {blanks : List Char}
    (hb : ∀ c ∈ blanks, isBlank c) (cs : List Char) (start : Nat) :
    ∃ run : Run,
      ⟨kind, run.spell, run.span⟩ = mentionAt kind token (start + byteSize (cs ++ '@' :: blanks)) ∧
      tokensFrom start (cs ++ '@' :: blanks ++ (token ++ after)) =
        (placed start cs).foldr Token.push (.mention kind run ::
          tokensFrom (start + byteSize (cs ++ '@' :: blanks) + byteSize token) after) := by
  obtain ⟨run, hrun, hspan⟩ :=
    exists_run_of_trimmed ht.ne_nil ht.trimmed (start + byteSize (cs ++ '@' :: blanks))
  have hchars : run.toList.map Placed.char = token.filter (!isBlank ·) := by
    rw [← hrun, map_char_placed]
  have hadmits : ∀ q ∈ run.toList, kind.admits q.char := by
    intro q hq
    have hmem : q.char ∈ token.filter (!isBlank ·) := hchars ▸ List.mem_map_of_mem hq
    obtain ⟨hin, hnb⟩ := List.mem_filter.1 hmem
    exact ht.admits _ hin (by simpa using hnb)
  refine ⟨run, ?_, ?_⟩
  · rw [mentionAt, squeeze_ofList, ← hchars, hspan, Run.spell]
  · rw [List.append_assoc, tokensFrom_append, List.cons_append, tokensFrom_cons_at,
      tokensFrom_append_of_blank hb, tokensFrom_append]
    have hstart : start + byteSize cs + Char.utf8Size '@' + byteSize blanks =
        start + byteSize (cs ++ '@' :: blanks) := by
      rw [byteSize_append, byteSize_cons]
      omega
    rw [hstart, hrun, Token.push_at_foldr_push rfl hadmits (ha.isRun_head _)]

/-- An `@` without a token is cut as a stray character. -/
theorem tokens_append_lone_at {after : List Char} (ha : Apart after) {blanks : List Char}
    (hb : ∀ c ∈ blanks, isBlank c) (cs : List Char) (start : Nat) :
    tokensFrom start (cs ++ '@' :: blanks ++ after) =
      (placed start cs).foldr Token.push (.stray '@' ::
        tokensFrom (start + byteSize (cs ++ '@' :: blanks)) after) := by
  rw [List.append_assoc, tokensFrom_append, List.cons_append, tokensFrom_cons_at,
    tokensFrom_append_of_blank hb, Token.push_at_of_isRun_head rfl (ha.isRun_head _)]
  have hstart : start + byteSize cs + Char.utf8Size '@' + byteSize blanks =
      start + byteSize (cs ++ '@' :: blanks) := by
    rw [byteSize_append, byteSize_cons]
    omega
  rw [hstart]

theorem char_ne_at_of_mem_placed {start : Nat} {cs : List Char} (h : '@' ∉ cs) :
    ∀ p ∈ placed start cs, p.char ≠ '@' := by
  intro p hp hat
  have hmem : p.char ∈ cs.filter (!isBlank ·) := by
    rw [← map_char_placed start cs]
    exact List.mem_map_of_mem hp
  exact h (hat ▸ (List.mem_filter.1 hmem).1)

theorem mentions_tokensFrom_eq_nil {cs : List Char} (h : '@' ∉ cs) (start : Nat) :
    Token.mentions (tokensFrom start cs) = [] :=
  Token.mentions_foldr_push (char_ne_at_of_mem_placed h) []

theorem mentions_append_mention {kind : MentionKind} {before token after : List Char}
    (hb : Announces before) (ht : IsToken kind token) (ha : Apart after) (start : Nat) :
    Token.mentions (tokensFrom start (before ++ (token ++ after))) =
      mentionAt kind token (start + byteSize before) ::
        Token.mentions (tokensFrom (start + byteSize before + byteSize token) after) := by
  obtain ⟨cs, blanks, rfl, hat, hblanks⟩ := hb
  obtain ⟨run, hm, hts⟩ := tokens_append_mention ht ha hblanks cs start
  rw [hts, Token.mentions_foldr_push (char_ne_at_of_mem_placed hat), ← hm]
  rfl

/-! ## Finding the mentions of a text -/

/-- The text that begins at a byte offset has exactly these mentions. -/
inductive Marked : Nat → List Char → List Mention → Prop
  | last {start : Nat} {cs : List Char} (h : '@' ∉ cs) : Marked start cs []
  | mention {start : Nat} {before token rest : List Char} {kind : MentionKind} {ms : List Mention}
      (hb : Announces before) (ht : IsToken kind token) (ha : Apart rest)
      (hr : Marked (start + byteSize before + byteSize token) rest ms) :
      Marked start (before ++ (token ++ rest))
        (mentionAt kind token (start + byteSize before) :: ms)

/-- A text without mentions can be put before a text with its mentions. -/
theorem Marked.prepend {start : Nat} {cs rest : List Char} {ms : List Mention} (hat : '@' ∉ cs)
    (h : Marked (start + byteSize cs) rest ms) : Marked start (cs ++ rest) ms := by
  generalize hs : start + byteSize cs = start' at h
  cases h with
  | last h => exact .last (by simp [hat, h])
  | @mention _ before token rest kind ms hb ht ha hr =>
    obtain ⟨cs', blanks, rfl, hat', hblanks⟩ := hb
    have hsize : start + byteSize (cs ++ (cs' ++ '@' :: blanks)) =
        start' + byteSize (cs' ++ '@' :: blanks) := by
      rw [byteSize_append, ← hs, Nat.add_assoc]
    rw [← List.append_assoc, ← hsize]
    refine .mention ⟨cs ++ cs', blanks, by simp, by simp [hat, hat'], hblanks⟩ ht ha ?_
    rwa [hsize]

theorem at_not_mem_of_placed_eq {start : Nat} {part : List Char} {ps : List Placed}
    (h : placed start part = ps) (hps : ∀ p ∈ ps, p.char ≠ '@') : '@' ∉ part := by
  intro hmem
  have hf : '@' ∈ part.filter (!isBlank ·) := List.mem_filter.2 ⟨hmem, by decide⟩
  rw [← map_char_placed start, h] at hf
  obtain ⟨p, hp, hat⟩ := List.mem_map.1 hf
  exact hps p hp hat

theorem isNumeric_at : Token.isNumeric '@' = false := by decide

theorem isLetter_at : isLetter '@' = false := by decide

/-- Characters that are no mention are put before a text with its mentions. -/
theorem marked_of_placed_append {start : Nat} {cs : List Char} {ps qs : List Placed}
    {ms : List Mention} (h : placed start cs = ps ++ qs) (hps : ∀ p ∈ ps, p.char ≠ '@')
    (hrest : ∀ {start cs}, placed start cs = qs → Marked start cs ms) : Marked start cs ms := by
  obtain ⟨part, rest, rfl, hpart, hqs, -⟩ := exists_part_of_placed_append h
  exact (hrest hqs).prepend (at_not_mem_of_placed_eq hpart hps)

theorem marked_of_placed_cons {start : Nat} {cs : List Char} {p : Placed} {qs : List Placed}
    {ms : List Mention} (h : placed start cs = p :: qs) (hp : p.char ≠ '@')
    (hrest : ∀ {start cs}, placed start cs = qs → Marked start cs ms) : Marked start cs ms :=
  @marked_of_placed_append start cs [p] qs ms h (by simpa using hp) hrest

/-- An `@` and a run of its characters are a mention in the text. -/
theorem exists_mention_of_placed {start : Nat} {cs : List Char} {p : Placed} {kind : MentionKind}
    {run : Run} {ps : List Placed} (h : placed start cs = p :: (run.toList ++ ps))
    (hat : p.char = '@') (hrun : ∀ q ∈ run.toList, kind.admits q.char) :
    ∃ before token rest, cs = before ++ (token ++ rest) ∧ Announces before ∧ IsToken kind token ∧
      ⟨kind, run.spell, run.span⟩ = mentionAt kind token (start + byteSize before) ∧
      placed (start + byteSize before + byteSize token) rest = ps := by
  obtain ⟨blanks, rest, rfl, hb, -, ho, hr⟩ := exists_blanks_of_placed_eq_cons h
  obtain ⟨blanks', token, rest, rfl, hb', hne, htrim, htoken, hspan, hps⟩ :=
    exists_part_of_placed hr
  have hchars : run.toList.map Placed.char = token.filter (!isBlank ·) := by
    rw [← htoken, map_char_placed]
  have hsize : start + byteSize (blanks ++ p.char :: blanks') = p.stop + byteSize blanks' := by
    rw [byteSize_append, byteSize_cons, Placed.stop, ← ho]
    omega
  refine ⟨blanks ++ p.char :: blanks', token, rest, by simp,
    ⟨blanks, blanks', by rw [hat], fun hmem => not_blank_at (hb _ hmem) rfl, hb'⟩,
    ⟨hne, htrim, fun c hc hnb => ?_⟩, ?_, ?_⟩
  · have hmem : c ∈ run.toList.map Placed.char := by
      rw [hchars]
      exact List.mem_filter.2 ⟨hc, by simpa using hnb⟩
    obtain ⟨q, hq, rfl⟩ := List.mem_map.1 hmem
    exact hrun q hq
  · rw [mentionAt, squeeze_ofList, ← hchars, hsize, hspan, Run.spell]
  · rw [← hps, hspan, hsize]

/-- The mentions of a text are the mentions among its tokens, if these are legible. -/
theorem marked_of_legible {ps : List Placed} {ts : List Token} (hs : Token.Spells ps ts)
    (hl : Token.Legible ts) {start : Nat} {cs : List Char} (h : placed start cs = ps) :
    Marked start cs (Token.mentions ts) := by
  induction hs generalizing start cs with
  | nil => exact .last (at_not_mem_of_placed_eq h (by simp))
  | number hrun _ _ ih =>
    refine marked_of_placed_append h (fun p hp hat => ?_) (ih hl.tail)
    exact absurd (hrun p hp) (by rw [hat, isNumeric_at]; decide)
  | word hrun _ _ ih =>
    refine marked_of_placed_append h (fun p hp hat => ?_) (ih hl.tail)
    exact absurd (hrun p hp) (by rw [hat, isLetter_at]; decide)
  | @mention p kind run ps ts hat hrun _ hrest ih =>
    obtain ⟨before, token, rest, rfl, hb, ht, hm, rfl⟩ := exists_mention_of_placed h hat hrun
    have hmentions : Token.mentions (.mention kind run :: ts) =
        mentionAt kind token (start + byteSize before) :: Token.mentions ts := by
      rw [← hm]
      rfl
    rw [hmentions]
    refine .mention hb ht (apart_of_isApart_head (hrest.isApart_head ?_ ?_)) (ih hl.tail rfl)
    · rintro run' ts' rfl
      exact absurd (hl.isRun_head _ rfl) (by simp [Token.isRun])
    · rintro run' ts' rfl
      exact absurd (hl.isRun_head _ rfl) (by simp [Token.isRun])
  | operator hop _ ih =>
    refine marked_of_placed_cons h (fun hat => ?_) (ih hl.tail)
    rw [hat] at hop
    exact absurd hop (by simp [Operator.ofChar?])
  | opening hp _ ih | closing hp _ ih =>
    exact marked_of_placed_cons h (by rw [hp]; decide) (ih hl.tail)
  | @stray p => exact absurd List.mem_cons_self (hl.1 p.char)

end FormulaNet
