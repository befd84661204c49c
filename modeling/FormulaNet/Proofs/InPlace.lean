import FormulaNet.Proofs.Substitution

/-!
# References in place

References are in place in a text if their spans begin and end between two characters of it, one behind the
other.  `Located` says the same along the text, from one reference to the next (`inPlace_iff_located`), and
is what proofs follow.  The references of a content always are in place in its input, and every text with
references in place is the input of a content.
-/

namespace FormulaNet

/-! ## Parts of a text -/

theorem utf8ByteSize_eq (text : String) : text.utf8ByteSize = byteSize text.toList := by
  obtain ⟨cs, rfl⟩ := text.exists_eq_ofList
  rw [String.toList_ofList]
  induction cs with
  | nil => rfl
  | cons c cs ih => simp [String.ofList_cons, String.utf8ByteSize_append, ih]

/-- Of two beginnings of a text, the shorter one is a beginning of the other. -/
theorem exists_between {as bs as' bs' : List Char} (h : as ++ bs = as' ++ bs')
    (hle : byteSize as ≤ byteSize as') : ∃ between, as' = as ++ between ∧ bs = between ++ bs' := by
  rcases List.append_eq_append_iff.1 h with ⟨between, hbetween⟩ | ⟨between, rfl, rfl⟩
  · exact ⟨between, hbetween⟩
  · cases between with
    | nil => exact ⟨[], by simp⟩
    | cons c cs =>
      have := Char.utf8Size_pos c
      simp only [byteSize_append, byteSize_cons] at hle
      omega

/-- Beginnings of a text that are as long as each other are equal. -/
theorem append_inj_of_byteSize {as bs as' bs' : List Char} (h : as ++ bs = as' ++ bs')
    (heq : byteSize as = byteSize as') : as = as' ∧ bs = bs' := by
  have hsplit := splitBytes_append as bs
  rw [h, heq, splitBytes_append] at hsplit
  exact ⟨(congrArg Prod.fst hsplit).symm, (congrArg Prod.snd hsplit).symm⟩

namespace Span

/-- A span of a text begins and ends between two of its characters. -/
structure Within (span : Span) (text : String) : Prop where
  start : String.Pos.Raw.IsValid text ⟨span.start⟩
  stop : String.Pos.Raw.IsValid text ⟨span.stop⟩
  ordered : span.start ≤ span.stop

instance (span : Span) (text : String) : Decidable (span.Within text) :=
  decidable_of_iff (String.Pos.Raw.IsValid text ⟨span.start⟩ ∧
    String.Pos.Raw.IsValid text ⟨span.stop⟩ ∧ span.start ≤ span.stop)
    ⟨fun h => ⟨h.1, h.2.1, h.2.2⟩, fun h => ⟨h.start, h.stop, h.ordered⟩⟩

/-- The part of a text at a span. -/
def slice? (span : Span) (text : String) : Option String :=
  if h : span.Within text then
    some (text.slice (text.pos ⟨span.start⟩ h.start) (text.pos ⟨span.stop⟩ h.stop) h.ordered).copy
  else none

variable {span : Span} {text part : String}

theorem within_iff : span.Within text ↔ ∃ part, span.slice? text = some part := by
  rw [← Option.isSome_iff_exists, slice?]
  split <;> simp_all

theorem exists_append_of_slice? (h : span.slice? text = some part) :
    ∃ before after, text.toList = before ++ (part.toList ++ after) ∧
      span = ⟨byteSize before, byteSize before + byteSize part.toList⟩ := by
  have hw := within_iff.2 ⟨part, h⟩
  rw [slice?, dif_pos hw, Option.some.injEq] at h
  obtain ⟨before, after, hstart, hstop⟩ := String.copy_slice_eq_iff_splits.1 ⟨_, h⟩
  refine ⟨before.toList, after.toList, by simp [hstart.eq_append], ?_⟩
  have hstart := congrArg String.Pos.Raw.byteIdx hstart.offset_eq_rawEndPos
  have hstop := congrArg String.Pos.Raw.byteIdx hstop.offset_eq_rawEndPos
  simp only [String.offset_pos, String.byteIdx_rawEndPos, utf8ByteSize_eq, String.toList_append,
    byteSize_append] at hstart hstop
  exact congrArg₂ Span.mk hstart hstop

/-- A part of a text is at the span from its first to its last byte. -/
theorem slice?_eq_some (before after : List Char)
    (htext : text.toList = before ++ (part.toList ++ after))
    (hspan : span = ⟨byteSize before, byteSize before + byteSize part.toList⟩) :
    span.slice? text = some part := by
  obtain ⟨before, rfl⟩ : ∃ s : String, s.toList = before := ⟨.ofList before, String.toList_ofList⟩
  obtain ⟨after, rfl⟩ : ∃ s : String, s.toList = after := ⟨.ofList after, String.toList_ofList⟩
  obtain rfl : text = before ++ (part ++ after) := String.toList_inj.1 (by simp [htext])
  have hfirst : (⟨span.start⟩ : String.Pos.Raw) = before.rawEndPos := by
    simp [String.Pos.Raw.ext_iff, hspan, utf8ByteSize_eq]
  have hlast : (⟨span.stop⟩ : String.Pos.Raw) = (before ++ part).rawEndPos := by
    simp [String.Pos.Raw.ext_iff, hspan, utf8ByteSize_eq]
  have hw : span.Within (before ++ (part ++ after)) := by
    refine ⟨?_, ?_, by simp [hspan]⟩
    · exact String.Pos.Raw.isValid_iff_exists_append.2 ⟨before, part ++ after, rfl, hfirst⟩
    · exact String.Pos.Raw.isValid_iff_exists_append.2
        ⟨before ++ part, after, String.append_assoc.symm, hlast⟩
  rw [slice?, dif_pos hw, Option.some.injEq]
  exact (String.copy_slice_eq_iff_splits.2
    ⟨before, after, ⟨rfl, hfirst⟩, ⟨String.append_assoc.symm, hlast⟩⟩).2

end Span

/-- The rest of a text that begins at a byte offset. -/
def RestAt (text : String) (start : Nat) (cs : List Char) : Prop :=
  ∃ front, text.toList = front ++ cs ∧ start = byteSize front

namespace RestAt

variable {text : String} {start : Nat} {before token rest : List Char}

theorem zero (text : String) : RestAt text 0 text.toList :=
  ⟨[], rfl, rfl⟩

theorem append (h : RestAt text start (before ++ rest)) : RestAt text (start + byteSize before) rest := by
  obtain ⟨front, htext, rfl⟩ := h
  exact ⟨front ++ before, by rw [htext, List.append_assoc], (byteSize_append _ _).symm⟩

theorem slice? (h : RestAt text start (token ++ rest)) :
    Span.slice? ⟨start, start + byteSize token⟩ text = some (.ofList token) := by
  obtain ⟨front, htext, rfl⟩ := h
  exact Span.slice?_eq_some front rest (by rw [htext, String.toList_ofList])
    (by rw [String.toList_ofList])

theorem slice?_end (h : RestAt text start rest) :
    Span.slice? ⟨start, text.utf8ByteSize⟩ text = some (.ofList rest) := by
  have hsize : text.utf8ByteSize = start + byteSize rest := by
    obtain ⟨front, htext, rfl⟩ := h
    rw [utf8ByteSize_eq, htext, byteSize_append]
  rw [hsize]
  exact slice? (by rwa [List.append_nil])

/-- A span that does not begin before the rest divides it. -/
theorem exists_split (h : RestAt text start rest) {span : Span} (hspan : span.Within text)
    (hle : start ≤ span.start) : ∃ before token rest', rest = before ++ (token ++ rest') ∧
      span = ⟨start + byteSize before, start + byteSize before + byteSize token⟩ := by
  obtain ⟨front, htext, rfl⟩ := h
  obtain ⟨part, hpart⟩ := Span.within_iff.1 hspan
  obtain ⟨before, after, hsplit, rfl⟩ := Span.exists_append_of_slice? hpart
  obtain ⟨between, rfl, rfl⟩ := exists_between (htext.symm.trans hsplit) hle
  exact ⟨between, part.toList, after, rfl, by rw [byteSize_append]⟩

end RestAt

/-! ## References in a text -/

/-- The spans of references are in a text, each behind the one before it; they may touch, and be empty. -/
structure InPlace (text : String) (refs : List Reference) : Prop where
  within : ∀ r ∈ refs, r.span.Within text
  apart : refs.Pairwise fun r s => r.span.stop ≤ s.span.start

/-- The references of a text that begins at a byte offset, with what stands before each of them. -/
inductive Located : Nat → List Char → List Reference → Prop
  | last (start : Nat) (cs : List Char) : Located start cs []
  | token {start : Nat} {before token rest : List Char} {r : Reference} {rs : List Reference}
      (hspan : r.span = ⟨start + byteSize before, start + byteSize before + byteSize token⟩)
      (hrest : Located r.span.stop rest rs) : Located start (before ++ (token ++ rest)) (r :: rs)

theorem InPlace.located {text : String} {refs : List Reference} (h : InPlace text refs) {start : Nat}
    {cs : List Char} (hcs : RestAt text start cs) (hstart : ∀ r ∈ refs, start ≤ r.span.start) :
    Located start cs refs := by
  induction refs generalizing start cs with
  | nil => exact .last _ _
  | cons r rs ih =>
    obtain ⟨hr, hrs⟩ := List.forall_mem_cons.1 h.within
    obtain ⟨hbehind, hapart⟩ := List.pairwise_cons.1 h.apart
    obtain ⟨before, token, rest, rfl, hspan⟩ := hcs.exists_split hr (hstart r List.mem_cons_self)
    refine .token hspan (ih ⟨hrs, hapart⟩ ?_ hbehind)
    rw [hspan]
    exact hcs.append.append

theorem Located.start_le {start : Nat} {cs : List Char} {rs : List Reference}
    (h : Located start cs rs) : ∀ r ∈ rs, start ≤ r.span.start := by
  induction h with
  | last => exact fun r hr => absurd hr List.not_mem_nil
  | token hspan _ ih =>
    rw [hspan] at ih
    refine List.forall_mem_cons.2 ⟨?_, fun s hs => ?_⟩
    · rw [hspan]
      exact Nat.le_add_right _ _
    · exact Nat.le_trans (Nat.le_add_right_of_le (Nat.le_add_right _ _)) (ih s hs)

theorem Located.inPlace {start : Nat} {cs : List Char} {rs : List Reference}
    (h : Located start cs rs) {text : String} (hcs : RestAt text start cs) : InPlace text rs := by
  induction h with
  | last => exact ⟨fun r hr => absurd hr List.not_mem_nil, .nil⟩
  | @token start before token rest r rs hspan hrest ih =>
    have hslice := hcs.append.slice?
    have ih := ih (by rw [hspan]; exact hcs.append.append)
    rw [← hspan] at hslice
    exact ⟨List.forall_mem_cons.2 ⟨Span.within_iff.2 ⟨_, hslice⟩, ih.within⟩,
      List.pairwise_cons.2 ⟨hrest.start_le, ih.apart⟩⟩

/-- References are in place in a text if they are located along it. -/
theorem inPlace_iff_located {text : String} {refs : List Reference} :
    InPlace text refs ↔ Located 0 text.toList refs :=
  ⟨fun h => h.located (.zero text) fun _ _ => Nat.zero_le _, fun h => h.inPlace (.zero text)⟩

/-! ## Contents with references in place -/

/-- A text is cut at its references into what it is. -/
theorem Located.cutFrom {start : Nat} {cs : List Char} {rs : List Reference}
    (h : Located start cs rs) : writtenAs Piece.chars (LinkedText.cutFrom start cs rs) = cs ∧
      LinkedText.refsFrom start (LinkedText.cutFrom start cs rs) = rs := by
  induction h with
  | last => simp [LinkedText.cutFrom, writtenAs, Piece.chars, LinkedText.refsFrom]
  | @token start before token rest r rs hspan _ ih =>
    rw [LinkedText.cutFrom_cons start rest hspan]
    rw [hspan] at ih
    obtain ⟨hchars, hrefs⟩ := ih
    constructor
    · simpa [writtenAs, Piece.chars] using hchars
    · rw [LinkedText.refsFrom, LinkedText.refsFrom, hrefs, ← hspan]

/-- Every text with references in place is the text of a formula that is linked at them. -/
theorem InPlace.exists_content {text : String} {refs : List Reference} (h : InPlace text refs) :
    ∃ c : Content, c.input = text ∧ c.refs = refs := by
  obtain ⟨hchars, hrefs⟩ := (inPlace_iff_located.1 h).cutFrom
  refine ⟨.formula (.cut text.toList refs), ?_, hrefs⟩
  rw [← String.toList_inj]
  exact String.toList_ofList.trans hchars

theorem Substitution.located {replacement : Reference → Option String} {start start' : Nat}
    {cs cs' : List Char} {rs rs' : List Reference}
    (h : Substitution replacement start cs rs start' cs' rs') :
    Located start cs rs ∧ Located start' cs' rs' := by
  induction h with
  | last => exact ⟨.last _ _, .last _ _⟩
  | token hspan hspan' _ _ _ _ ih => exact ⟨.token hspan ih.1, .token hspan' ih.2⟩

/-- The references of a content are in place in its input. -/
theorem Content.inPlace (c : Content) : InPlace c.input c.refs :=
  inPlace_iff_located.2 (c.substitution_replace fun _ => none).located.1

end FormulaNet
