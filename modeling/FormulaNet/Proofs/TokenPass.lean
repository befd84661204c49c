import FormulaNet.Proofs.InPlace

/-!
# Replacing tokens in one pass

`TokenPass.run?` goes once through a text, from reference to reference, with a cursor in the old text and a
new text that grows, and gives each reference its new span as soon as its token is written.  It never looks
for a part of the text that is not there, and its outcome is the substitution of all tokens at once
(`retokened_of_inPlace`).  A content that is changed piece by piece ends with the same text and references
(`Content.run?_eq`).
-/

namespace FormulaNet

/-! ## The outcome of a substitution -/

namespace Substitution

variable {replacement : Reference → Option String} {start start' : Nat} {cs cs' : List Char}
  {rs rs' : List Reference}

/-- A text with references and its replacements decide what takes the places of both. -/
theorem unique (h : Substitution replacement start cs rs start' cs' rs') {cs'' : List Char}
    {rs'' : List Reference} (h' : Substitution replacement start cs rs start' cs'' rs'') :
    cs' = cs'' ∧ rs' = rs'' := by
  induction h generalizing cs'' rs'' with
  | last =>
    cases h'
    exact ⟨rfl, rfl⟩
  | @token start start' before token token₁ rest rest₁ r r₁ rs rs₁ hspan hspan₁ hkind₁ htarget₁
      htoken₁ _ ih =>
    generalize hcs : before ++ (token ++ rest) = cs at h'
    cases h' with
    | @token _ _ before' token' token₂ rest' rest₂ _ r₂ _ rs₂ hspan' hspan₂ hkind₂ htarget₂ htoken₂
        hrest₂ =>
      -- Both ways to divide the old text have the same spans, and so they are the same.
      obtain ⟨hstart, hstop⟩ := Span.mk.inj (hspan.symm.trans hspan')
      obtain ⟨rfl, htail⟩ := append_inj_of_byteSize hcs (by omega)
      obtain ⟨rfl, rfl⟩ := append_inj_of_byteSize htail (by omega)
      obtain rfl : token₁ = token₂ := htoken₁.trans htoken₂.symm
      obtain rfl : r₁ = r₂ := by
        cases r₁
        cases r₂
        simp_all
      obtain ⟨rfl, rfl⟩ := ih hrest₂
      exact ⟨rfl, rfl⟩

/-- All references are there, in their order, each with its kind and its target. -/
theorem map_kind_target (h : Substitution replacement start cs rs start' cs' rs') :
    (rs'.map fun r => (r.kind, r.target)) = rs.map fun r => (r.kind, r.target) := by
  induction h with
  | last => rfl
  | token _ _ hkind htarget _ _ ih => rw [List.map_cons, List.map_cons, ih, hkind, htarget]

/-- Each reference has its token at its span in the old text, and the replacement or the same token at its
span in the new one. -/
theorem tokens (h : Substitution replacement start cs rs start' cs' rs') {text text' : String}
    (hcs : RestAt text start cs) (hcs' : RestAt text' start' cs') :
    List.Forall₂ (fun r r' => ∃ token, r.span.slice? text = some token ∧
      r'.span.slice? text' = some ((replacement r).getD token)) rs rs' := by
  induction h with
  | last => exact .nil
  | @token start start' before token token' rest rest' r r' rs rs' hspan hspan' _ _ htoken _ ih =>
    have hold := hcs.append.slice?
    have hnew := hcs'.append.slice?
    have hrest := hcs.append.append
    have hrest' := hcs'.append.append
    rw [← hspan] at hold
    rw [← hspan'] at hnew
    have hchars : String.ofList token' = (replacement r).getD (.ofList token) := by
      rw [htoken]
      cases replacement r <;> simp
    refine .cons ⟨.ofList token, hold, hchars ▸ hnew⟩ (ih ?_ ?_)
    · rwa [hspan]
    · rwa [hspan']

theorem gap_le (h : Substitution replacement start cs rs start' cs' rs') {gap : Nat}
    (hgap : ∀ r ∈ rs, start + gap ≤ r.span.start) : ∀ r' ∈ rs', start' + gap ≤ r'.span.start := by
  cases h with
  | last => exact fun r hr => absurd hr List.not_mem_nil
  | @token _ _ before token token' _ _ r r' _ _ hspan hspan' _ _ _ hrest =>
    have hle := hgap r List.mem_cons_self
    have hbehind := hrest.located.2.start_le
    rw [hspan] at hle
    rw [hspan'] at hbehind
    dsimp only at hle hbehind
    refine List.forall_mem_cons.2 ⟨?_, fun s hs => ?_⟩
    · rw [hspan']
      dsimp only
      omega
    · have := hbehind s hs
      omega

/-- References with some bytes between them are as far apart as they were. -/
theorem pairwise (h : Substitution replacement start cs rs start' cs' rs') {gap : Nat}
    (hgap : rs.Pairwise fun r s => r.span.stop + gap ≤ s.span.start) :
    rs'.Pairwise fun r s => r.span.stop + gap ≤ s.span.start := by
  induction h with
  | last => exact .nil
  | token _ _ _ _ _ hrest ih =>
    obtain ⟨hbehind, hapart⟩ := List.pairwise_cons.1 hgap
    exact List.pairwise_cons.2 ⟨hrest.gap_le hbehind, ih hapart⟩

end Substitution

/-- Without replacements a text takes its own place. -/
theorem Located.substitution_self {replacement : Reference → Option String} {start : Nat}
    {cs : List Char} {rs : List Reference} (h : Located start cs rs)
    (hnone : ∀ r ∈ rs, replacement r = none) : Substitution replacement start cs rs start cs rs := by
  induction h with
  | last => exact .last _ _ _
  | token hspan _ ih =>
    obtain ⟨hr, hrs⟩ := List.forall_mem_cons.1 hnone
    exact .token hspan hspan rfl rfl (by rw [hr]; rfl) (ih hrs)

/-! ## The pass -/

/-- A pass that has come to some byte of the old text: the new text so far, the references that are moved to
it, and whether one of them has got a replacement. -/
structure TokenPass where
  written : String
  cursor : Nat
  moved : List Reference
  changed : Bool

/-- The outcome of a pass. -/
structure TokenPass.Outcome where
  text : String
  refs : List Reference
  changed : Bool
  deriving DecidableEq, Repr

section Pass

variable (replacement : Reference → Option String)

/-- Copies the text up to a reference, writes the replacement or the old token, and moves the reference
there. -/
def TokenPass.next? (text : String) (pass : TokenPass) (r : Reference) : Option TokenPass := do
  let between ← Span.slice? ⟨pass.cursor, r.span.start⟩ text
  let before := pass.written ++ between
  let token ← (replacement r).or (r.span.slice? text)
  let written := before ++ token
  some {
    written := written
    cursor := r.span.stop
    moved := pass.moved ++ [{ r with span := ⟨before.utf8ByteSize, written.utf8ByteSize⟩ }]
    changed := pass.changed || (replacement r).isSome }

/-- Writes the tokens of all references and then the rest of the text.  If there was no replacement, the old
text stays, with the references as they were moved. -/
def TokenPass.run? (text : String) (refs : List Reference) :
    Option TokenPass.Outcome := do
  let pass ← refs.foldlM (TokenPass.next? replacement text) ⟨"", 0, [], false⟩
  if pass.changed then
    let rest ← Span.slice? ⟨pass.cursor, text.utf8ByteSize⟩ text
    some ⟨pass.written ++ rest, pass.moved, true⟩
  else some ⟨text, pass.moved, false⟩

/-- One step of a pass writes what a substitution has for the reference. -/
theorem TokenPass.next?_eq {text : String} {start : Nat} {before token rest : List Char} {r : Reference}
    (hcs : RestAt text start (before ++ (token ++ rest)))
    (hspan : r.span = ⟨start + byteSize before, start + byteSize before + byteSize token⟩)
    (written : String) (moved : List Reference) (changed : Bool) :
    ∃ token' r', next? replacement text ⟨written, start, moved, changed⟩ r =
        some ⟨written ++ .ofList (before ++ token'), r.span.stop, moved ++ [r'],
          changed || (replacement r).isSome⟩ ∧
      token' = ((replacement r).map String.toList).getD token ∧
      r'.span = ⟨byteSize written.toList + byteSize before,
        byteSize written.toList + byteSize before + byteSize token'⟩ ∧
      r'.kind = r.kind ∧ r'.target = r.target := by
  have hbetween : Span.slice? ⟨start, r.span.start⟩ text = some (.ofList before) := by
    rw [hspan]
    exact hcs.slice?
  have htoken : r.span.slice? text = some (.ofList token) := by
    rw [hspan]
    exact hcs.append.slice?
  obtain ⟨new, hnew, hchars⟩ : ∃ new, (replacement r).or (r.span.slice? text) = some new ∧
      new.toList = ((replacement r).map String.toList).getD token := by
    cases replacement r with
    | none => exact ⟨_, htoken, String.toList_ofList⟩
    | some new => exact ⟨new, rfl, rfl⟩
  refine ⟨new.toList, { r with span := ⟨byteSize written.toList + byteSize before,
    byteSize written.toList + byteSize before + byteSize new.toList⟩ }, ?_, hchars, rfl, rfl, rfl⟩
  simp [next?, hbetween, hnew, utf8ByteSize_eq, String.append_assoc, Nat.add_assoc]

/-- The steps of a pass over the references that are located behind its cursor: what they write and the rest
of the text are a substitution. -/
theorem Located.foldlM_next? {text : String} {start : Nat} {cs : List Char} {rs : List Reference}
    (h : Located start cs rs) (hcs : RestAt text start cs) (written : String) (moved : List Reference)
    (changed : Bool) :
    ∃ body cursor rest rs',
      rs.foldlM (TokenPass.next? replacement text) ⟨written, start, moved, changed⟩ =
        some ⟨written ++ .ofList body, cursor, moved ++ rs',
          changed || rs.any fun r => (replacement r).isSome⟩ ∧
      RestAt text cursor rest ∧
      Substitution replacement start cs rs (byteSize written.toList) (body ++ rest) rs' := by
  induction h generalizing written moved changed with
  | last start cs => exact ⟨[], start, cs, [], by simp, hcs, .last _ _ _⟩
  | @token start before token rest r rs hspan _ ih =>
    obtain ⟨token', r', hnext, htoken, hspan', hkind, htarget⟩ :=
      TokenPass.next?_eq replacement hcs hspan written moved changed
    obtain ⟨body, cursor, last, rs', hfold, hlast, hsub⟩ := ih (by rw [hspan]; exact hcs.append.append)
      (written ++ .ofList (before ++ token')) (moved ++ [r']) (changed || (replacement r).isSome)
    have hstop : byteSize (written ++ .ofList (before ++ token')).toList = r'.span.stop := by
      simp [hspan', Nat.add_assoc]
    rw [hstop] at hsub
    refine ⟨before ++ (token' ++ body), cursor, last, r' :: rs', ?_, hlast, ?_⟩
    · rw [List.foldlM_cons, hnext]
      simpa [String.append_assoc, Bool.or_assoc] using hfold
    · simpa using Substitution.token hspan hspan' hkind htarget htoken hsub

/-- A pass over references that are located in the text has an outcome, which is a substitution. -/
theorem Located.exists_run?_eq {text : String} {refs : List Reference}
    (h : Located 0 text.toList refs) : ∃ out, TokenPass.run? replacement text refs = some out ∧
      Substitution replacement 0 text.toList refs 0 out.text.toList out.refs ∧
      out.changed = refs.any fun r => (replacement r).isSome := by
  obtain ⟨body, cursor, rest, refs', hfold, hrest, hsub⟩ :=
    h.foldlM_next? replacement (.zero text) "" [] false
  cases hany : refs.any fun r => (replacement r).isSome with
  | true =>
    refine ⟨⟨.ofList (body ++ rest), refs', true⟩, ?_, by simpa using hsub, rfl⟩
    simp [TokenPass.run?, hfold, hany, hrest.slice?_end]
  | false =>
    -- The new text is lost, but the references were moved in it: they fit the old text as these are equal.
    have hself : Substitution replacement 0 text.toList refs 0 text.toList refs :=
      h.substitution_self (by simpa using hany)
    obtain ⟨-, rfl⟩ := hsub.unique hself
    refine ⟨⟨text, refs', false⟩, ?_, hself, rfl⟩
    simp [TokenPass.run?, hfold, hany]

end Pass

/-! ## Contents and texts -/

theorem LinkedText.isSome_replace? (t : LinkedText) (replacement : Reference → Option String) :
    (t.replace? replacement).isSome = t.refs.any fun r => (replacement r).isSome := by
  unfold replace?
  split <;> simp_all

theorem Content.replace_eq_self {c : Content} {replacement : Reference → Option String}
    (hnone : ∀ r ∈ c.refs, replacement r = none) : c.replace replacement = c := by
  cases c with
  | number x => rfl
  | formula t =>
    rw [replace, LinkedText.replace_eq, LinkedText.replaceFrom_eq_self replacement hnone]

/-- The tokens of a content are replaced as by a pass over its input. -/
theorem Content.run?_eq (c : Content) (replacement : Reference → Option String) :
    TokenPass.run? replacement c.input c.refs = some ⟨(c.replace replacement).input,
      (c.replace replacement).refs, c.refs.any fun r => (replacement r).isSome⟩ := by
  obtain ⟨out, hout, hsub, hchanged⟩ :=
    (inPlace_iff_located.1 c.inPlace).exists_run?_eq replacement
  obtain ⟨htext, hrefs⟩ := hsub.unique (c.substitution_replace replacement)
  rw [hout, ← String.toList_inj.1 htext, ← hrefs, ← hchanged]

/-- A text and its references after the references with a replacement have got it as their tokens. -/
structure Retokened (replacement : Reference → Option String) (text : String) (refs : List Reference)
    (out : TokenPass.Outcome) : Prop where
  /-- Everything in the text but the replaced tokens is as it was. -/
  substitution : Substitution replacement 0 text.toList refs 0 out.text.toList out.refs
  kept : (out.refs.map fun r => (r.kind, r.target)) = refs.map fun r => (r.kind, r.target)
  tokens : List.Forall₂ (fun r r' => ∃ token, r.span.slice? text = some token ∧
    r'.span.slice? out.text = some ((replacement r).getD token)) refs out.refs
  inPlace : InPlace out.text out.refs
  /-- Tokens do not come closer to each other, even if some of them are empty now. -/
  apart : ∀ gap, (refs.Pairwise fun r s => r.span.stop + gap ≤ s.span.start) →
    out.refs.Pairwise fun r s => r.span.stop + gap ≤ s.span.start
  changed : out.changed = true ↔ ∃ r ∈ refs, (replacement r).isSome
  unchanged : out.changed = false → out.text = text ∧ out.refs = refs
  /-- There is a content with the text and the references, and the replacement in each such content has the
  same outcome. -/
  stored : ∃ c : Content, c.input = text ∧ c.refs = refs
  replaced : ∀ c : Content, c.input = text → c.refs = refs →
    (c.replace replacement).input = out.text ∧ (c.replace replacement).refs = out.refs ∧
      (out.changed = false → c.replace replacement = c)
  answer : ∀ t : LinkedText, t.refs = refs → (t.replace? replacement).isSome = out.changed

/-- A pass over references in place replaces all tokens that have a replacement, and leaves every reference
at its token. -/
theorem retokened_of_inPlace {text : String} {refs : List Reference} (h : InPlace text refs)
    (replacement : Reference → Option String) :
    ∃ out, TokenPass.run? replacement text refs = some out ∧ Retokened replacement text refs out := by
  have hlocated := inPlace_iff_located.1 h
  obtain ⟨out, hout, hsub, hchanged⟩ := hlocated.exists_run?_eq replacement
  have hnone : out.changed = false → ∀ r ∈ refs, replacement r = none := fun hfalse => by
    simpa [hfalse] using hchanged.symm
  refine ⟨out, hout, ?_⟩
  constructor
  case substitution => exact hsub
  case kept => exact hsub.map_kind_target
  case tokens => exact hsub.tokens (.zero text) (.zero out.text)
  case inPlace => exact inPlace_iff_located.2 hsub.located.2
  case apart => exact fun gap => hsub.pairwise
  case changed => simp [hchanged]
  case unchanged =>
    intro hfalse
    obtain ⟨htext, hrefs⟩ := hsub.unique (hlocated.substitution_self (hnone hfalse))
    exact ⟨String.toList_inj.1 htext, hrefs⟩
  case stored => exact h.exists_content
  case replaced =>
    rintro c rfl rfl
    obtain rfl := Option.some.inj (hout.symm.trans (c.run?_eq replacement))
    exact ⟨rfl, rfl, fun hfalse => Content.replace_eq_self (hnone hfalse)⟩
  case answer =>
    rintro t rfl
    rw [hchanged, t.isSome_replace?]

/-- References in a text with characters of two bytes. -/
def threeReferences : List Reference :=
  [⟨⟨4, 12⟩, .name, 4⟩, ⟨⟨14, 15⟩, .index, 7⟩, ⟨⟨19, 21⟩, .name, 9⟩]

/-- One node loses its name, and the indices grow. -/
def blankedAndShifted (r : Reference) : Option String :=
  match r.kind with
  | .index => some "100"
  | .name => if r.target = 4 then some "" else none

theorem retokened_threeReferences :
    InPlace "= @ Grö ße*@7 - @Ä" threeReferences ∧
      ∃ out, TokenPass.run? blankedAndShifted "= @ Grö ße*@7 - @Ä" threeReferences = some out ∧
        out = ⟨"= @ *@100 - @Ä",
          [⟨⟨4, 4⟩, .name, 4⟩, ⟨⟨6, 9⟩, .index, 7⟩, ⟨⟨13, 15⟩, .name, 9⟩], true⟩ ∧
        Retokened blankedAndShifted "= @ Grö ße*@7 - @Ä" threeReferences out := by
  have h : InPlace "= @ Grö ße*@7 - @Ä" threeReferences := ⟨by decide +kernel, by decide⟩
  have hout : TokenPass.run? blankedAndShifted "= @ Grö ße*@7 - @Ä" threeReferences =
      some ⟨"= @ *@100 - @Ä",
        [⟨⟨4, 4⟩, .name, 4⟩, ⟨⟨6, 9⟩, .index, 7⟩, ⟨⟨13, 15⟩, .name, 9⟩], true⟩ := by
    decide +kernel
  obtain ⟨out, heq, hretokened⟩ := retokened_of_inPlace h blankedAndShifted
  exact ⟨h, out, heq, Option.some.inj (heq.symm.trans hout), hretokened⟩

end FormulaNet
