import FormulaNet.Proofs.LinkedText

/-!
# Cutting and rewriting texts

A text cut at its mentions has a link for each of them and still reads the same (`cutFrom_of_marked`).
New tokens for links and dropped links leave the other characters, the kinds and the remaining targets
as they were.
-/

namespace FormulaNet

namespace Piece

/-- The node to which a piece is linked. -/
def target? : Piece → Option NodeId
  | plain _ => none
  | link _ target _ => some target

end Piece

namespace LinkedText

/-- The targets of the links, in order. -/
def targets (t : LinkedText) : List NodeId :=
  t.pieces.filterMap Piece.target?

theorem map_target_refsFrom (start : Nat) (ps : List Piece) :
    (refsFrom start ps).map Reference.target = ps.filterMap Piece.target? := by
  induction ps generalizing start with
  | nil => rfl
  | cons p ps ih =>
    cases p with
    | plain cs => exact ih _
    | link kind target token => exact congrArg (target :: ·) (ih _)

theorem map_target_refs (t : LinkedText) : t.refs.map Reference.target = t.targets :=
  map_target_refsFrom 0 t.pieces

theorem mem_targets {t : LinkedText} {target : NodeId} :
    target ∈ t.targets ↔ ∃ kind token, .link kind target token ∈ t.pieces := by
  rw [targets, List.mem_filterMap]
  constructor
  · rintro ⟨p, hp, h⟩
    cases p with
    | plain cs => cases h
    | link kind other token =>
      obtain rfl : other = target := Option.some.inj h
      exact ⟨kind, token, hp⟩
  · rintro ⟨kind, token, hp⟩
    exact ⟨_, hp, rfl⟩

/-- A reference stands for a link, whose token is at the span of the reference. -/
theorem exists_split_of_mem_refsFrom {start : Nat} {ps : List Piece} {r : Reference}
    (h : r ∈ refsFrom start ps) : ∃ ps₁ token ps₂, ps = ps₁ ++ .link r.kind r.target token :: ps₂ ∧
      r.span.start = start + byteSize (writtenAs Piece.chars ps₁) ∧
      r.span.stop = r.span.start + byteSize token := by
  induction ps generalizing start with
  | nil => cases h
  | cons p ps ih =>
    cases p with
    | plain cs =>
      obtain ⟨ps₁, token, ps₂, rfl, hstart, hstop⟩ := ih h
      refine ⟨.plain cs :: ps₁, token, ps₂, rfl, ?_, hstop⟩
      rw [hstart, writtenAs, writtenAs, List.flatMap_cons, byteSize_append, Piece.chars]
      omega
    | link kind target token =>
      rcases List.mem_cons.1 h with rfl | h
      · exact ⟨[], token, ps, rfl, rfl, rfl⟩
      · obtain ⟨ps₁, token', ps₂, rfl, hstart, hstop⟩ := ih h
        refine ⟨.link kind target token :: ps₁, token', ps₂, rfl, ?_, hstop⟩
        rw [hstart, writtenAs, writtenAs, List.flatMap_cons, byteSize_append, Piece.chars]
        omega

theorem exists_link_of_mem_refsFrom {start : Nat} {ps : List Piece} {r : Reference}
    (h : r ∈ refsFrom start ps) : ∃ token, .link r.kind r.target token ∈ ps := by
  obtain ⟨ps₁, token, ps₂, rfl, -, -⟩ := exists_split_of_mem_refsFrom h
  exact ⟨token, by simp⟩

theorem exists_mem_refsFrom_of_link {ps : List Piece} {kind : MentionKind} {target : NodeId}
    {token : List Char} (h : .link kind target token ∈ ps) (start : Nat) :
    ∃ r ∈ refsFrom start ps, r.kind = kind ∧ r.target = target := by
  induction ps generalizing start with
  | nil => cases h
  | cons p ps ih =>
    cases p with
    | plain cs => exact ih ((List.mem_cons.1 h).resolve_left (by simp)) _
    | link kind' target' token' =>
      rcases List.mem_cons.1 h with heq | hmem
      · cases heq
        exact ⟨_, List.mem_cons_self, rfl, rfl⟩
      · obtain ⟨r, hr, hkind, htarget⟩ := ih hmem (start + byteSize token')
        exact ⟨r, List.mem_cons_of_mem _ hr, hkind, htarget⟩

/-! ## Cutting -/

theorem cutFrom_cons (start : Nat) {before token : List Char} (rest : List Char) {r : Reference}
    (hspan : r.span = ⟨start + byteSize before, start + byteSize before + byteSize token⟩)
    (rs : List Reference) :
    cutFrom start (before ++ (token ++ rest)) (r :: rs) =
      .plain before :: .link r.kind r.target token ::
        cutFrom (start + byteSize before + byteSize token) rest rs := by
  simp only [cutFrom, hspan, Nat.add_sub_cancel_left, splitBytes_append]

theorem cutFrom_eq_cons (start : Nat) (cs : List Char) (rs : List Reference) :
    ∃ before ps, cutFrom start cs rs = .plain before :: ps := by
  cases rs with
  | nil => exact ⟨_, _, rfl⟩
  | cons r rs => exact ⟨_, _, rfl⟩

/-- A text is cut at its links into what it is. -/
theorem cutFrom_refsFrom {ps : List Piece} (h : Fits False ps) (start : Nat) :
    cutFrom start (writtenAs Piece.chars ps) (refsFrom start ps) = ps := by
  induction h generalizing start with
  | @last cs => simp [writtenAs, refsFrom, cutFrom, Piece.chars]
  | @link before after token kind target ps _ _ _ ih =>
    have ih := ih (start + byteSize before + byteSize token)
    rw [writtenAs, List.flatMap_cons, List.flatMap_cons]
    rw [refsFrom, refsFrom, cutFrom_cons start _ rfl]
    exact congrArg _ (congrArg _ ih)
  | dangling hd => exact hd.elim

/-- A text cut at its mentions is the same text, with a link for each mention. -/
theorem cutFrom_of_marked {start : Nat} {cs : List Char} {ms : List Mention}
    (h : Marked start cs ms) {scope : Scope} {rs : List Reference}
    (hrs : List.Forall₂ (fun m r => scope.reference m = .ok r) ms rs) :
    Fits False (cutFrom start cs rs) ∧ writtenAs Piece.chars (cutFrom start cs rs) = cs ∧
      refsFrom start (cutFrom start cs rs) = rs ∧
      ∀ kind target token, .link kind target token ∈ cutFrom start cs rs →
        IsToken kind token ∧ scope.resolve kind (squeeze (.ofList token)) = .ok target := by
  induction h generalizing rs with
  | @last start cs h =>
    cases hrs
    exact ⟨.last h, by simp [cutFrom, writtenAs, Piece.chars], rfl, by simp [cutFrom]⟩
  | @mention start before token rest kind ms hb ht ha hmarked ih =>
    cases hrs with
    | @cons _ _ _ rs hr hrs =>
    obtain ⟨target, hresolve, hr⟩ := exists_of_bind_eq_ok hr
    cases hr
    obtain ⟨hfits, hchars, hrefs, hlinks⟩ := ih hrs
    rw [cutFrom_cons start rest rfl]
    simp only [mentionAt]
    obtain ⟨after, ps, hcut⟩ :=
      cutFrom_eq_cons (start + byteSize before + byteSize token) rest rs
    rw [hcut] at hfits hchars hrefs hlinks ⊢
    have hafter : Apart after := by
      rw [← hchars, writtenAs, List.flatMap_cons] at ha
      exact ha.of_append
    refine ⟨.link hb hafter hfits, ?_, ?_, ?_⟩
    · rw [← hchars]
      simp [writtenAs, Piece.chars]
    · rw [← hrefs]
      simp [refsFrom, Nat.add_assoc]
    · intro k x t hmem
      rcases List.mem_cons.1 hmem with h | hmem
      · cases h
      rcases List.mem_cons.1 hmem with h | hmem
      · cases h
        exact ⟨ht, hresolve⟩
      · exact hlinks k x t hmem

/-! ## New tokens -/

section Replacing

variable (replacement : Reference → Option String)

theorem replaceFrom_eq_self {start : Nat} {ps : List Piece}
    (h : ∀ r ∈ refsFrom start ps, replacement r = none) : replaceFrom replacement start ps = ps := by
  induction ps generalizing start with
  | nil => rfl
  | cons p ps ih =>
    cases p with
    | plain cs => exact congrArg (Piece.plain cs :: ·) (ih h)
    | link kind target token =>
      have hr := h _ List.mem_cons_self
      have hrest := ih fun r hmem => h r (List.mem_cons_of_mem _ hmem)
      simp [replaceFrom, hr, hrest]

theorem replace_eq (t : LinkedText) :
    t.replace replacement = ⟨replaceFrom replacement 0 t.pieces⟩ := by
  unfold replace replace?
  split
  · rfl
  · next h =>
    have hnone : ∀ r ∈ refsFrom 0 t.pieces, replacement r = none := by
      simpa [refs] using h
    rw [replaceFrom_eq_self replacement hnone]
    rfl

/-- A link after a replacement is one from before, with its token or the new one. -/
theorem exists_link_of_mem_replaceFrom {start : Nat} {ps : List Piece} {kind : MentionKind}
    {target : NodeId} {token : List Char}
    (h : .link kind target token ∈ replaceFrom replacement start ps) :
    ∃ old span, .link kind target old ∈ ps ∧
      token = ((replacement ⟨span, kind, target⟩).map String.toList).getD old := by
  induction ps generalizing start with
  | nil => cases h
  | cons p ps ih =>
    cases p with
    | plain cs =>
      obtain ⟨old, span, hmem, ht⟩ := ih ((List.mem_cons.1 h).resolve_left (by simp))
      exact ⟨old, span, List.mem_cons_of_mem _ hmem, ht⟩
    | link kind' target' old =>
      rcases List.mem_cons.1 h with h | h
      · cases h
        exact ⟨old, _, List.mem_cons_self, rfl⟩
      · obtain ⟨old, span, hmem, ht⟩ := ih h
        exact ⟨old, span, List.mem_cons_of_mem _ hmem, ht⟩

theorem filterMap_target?_replaceFrom (start : Nat) (ps : List Piece) :
    (replaceFrom replacement start ps).filterMap Piece.target? = ps.filterMap Piece.target? := by
  induction ps generalizing start with
  | nil => rfl
  | cons p ps ih =>
    cases p with
    | plain cs => exact ih _
    | link kind target token => exact congrArg (target :: ·) (ih _)

theorem targets_replace (t : LinkedText) : (t.replace replacement).targets = t.targets := by
  rw [replace_eq]
  exact filterMap_target?_replaceFrom replacement 0 t.pieces

theorem writtenAs_severed_replaceFrom (start : Nat) (ps : List Piece) :
    writtenAs Piece.severed (replaceFrom replacement start ps) = writtenAs Piece.severed ps := by
  induction ps generalizing start with
  | nil => rfl
  | cons p ps ih =>
    cases p with
    | plain cs => exact congrArg (cs ++ ·) (ih _)
    | link kind target token => exact congrArg (danglingToken.toList ++ ·) (ih _)

end Replacing

/-! ## Dropped links -/

section Unlinking

variable (target : NodeId)

/-- The piece without a link to a node. -/
def unlinkPiece : Piece → Piece
  | .link kind other token => if other = target then .plain token else .link kind other token
  | p => p

variable {target}

theorem link_mem_map_unlinkPiece {ps : List Piece} {kind : MentionKind} {other : NodeId}
    {token : List Char} (h : .link kind other token ∈ ps.map (unlinkPiece target)) :
    .link kind other token ∈ ps ∧ other ≠ target := by
  obtain ⟨p, hp, h⟩ := List.mem_map.1 h
  cases p with
  | plain cs => cases h
  | link kind' other' token' =>
    simp only [unlinkPiece] at h
    split at h
    · cases h
    · next hne =>
      cases h
      exact ⟨hp, hne⟩

theorem writtenAs_chars_unlink (ps : List Piece) :
    writtenAs Piece.chars (ps.map (unlinkPiece target)) = writtenAs Piece.chars ps := by
  rw [writtenAs, writtenAs, List.flatMap_map]
  refine List.flatMap_congr fun p _ => ?_
  cases p with
  | plain cs => rfl
  | link kind other token =>
    rw [unlinkPiece]
    split
    · rfl
    · rfl

theorem refsFrom_unlink (start : Nat) (ps : List Piece) :
    refsFrom start (ps.map (unlinkPiece target)) = (refsFrom start ps).filter (·.target ≠ target) := by
  induction ps generalizing start with
  | nil => rfl
  | cons p ps ih =>
    cases p with
    | plain cs => exact ih _
    | link kind other token =>
      by_cases h : other = target
      · simp only [List.map_cons, unlinkPiece, if_pos h, refsFrom, ih]
        simp [h]
      · simp only [List.map_cons, unlinkPiece, if_neg h, refsFrom, ih]
        simp [h]

theorem targets_unlink (t : LinkedText) (target : NodeId) :
    (t.unlink target).targets = t.targets.filter (· ≠ target) := by
  rw [← map_target_refs, ← map_target_refs, List.filter_map]
  exact congrArg (List.map Reference.target) (refsFrom_unlink 0 t.pieces)

end Unlinking

end LinkedText

theorem Fits.replaceFrom (replacement : Reference → Option String) {d : Prop} {ps : List Piece}
    (h : Fits d ps) (start : Nat) : Fits d (LinkedText.replaceFrom replacement start ps) := by
  induction h generalizing start with
  | last h => exact .last h
  | link hb ha _ ih => exact .link hb ha (ih _)
  | dangling hd hb ha _ ih => exact .dangling hd hb ha (ih _)

/-- Links that read `NA` may be dropped. -/
theorem Fits.unlink {d : Prop} {ps : List Piece} (h : Fits d ps) {target : NodeId}
    (hna : ∀ kind token, .link kind target token ∈ ps → token = danglingToken.toList) :
    Fits True (ps.map (LinkedText.unlinkPiece target)) := by
  induction h with
  | last h => exact .last h
  | @link before after token kind other ps hb ha _ ih =>
    have ih := ih fun kind token hmem => hna kind token (by simp [hmem])
    by_cases hother : other = target
    · subst hother
      obtain rfl := hna kind token (by simp)
      simpa [LinkedText.unlinkPiece] using Fits.dangling trivial hb ha ih
    · simpa [LinkedText.unlinkPiece, hother] using Fits.link hb ha ih
  | dangling _ hb ha _ ih =>
    exact .dangling trivial hb ha (ih fun kind token hmem => hna kind token (by simp [hmem]))

theorem writtenAs_severed_unlink {ps : List Piece} {target : NodeId}
    (hna : ∀ kind token, .link kind target token ∈ ps → token = danglingToken.toList) :
    writtenAs Piece.severed (ps.map (LinkedText.unlinkPiece target)) =
      writtenAs Piece.severed ps := by
  rw [writtenAs, writtenAs, List.flatMap_map]
  refine List.flatMap_congr fun p hp => ?_
  cases p with
  | plain cs => rfl
  | link kind other token =>
    by_cases hother : other = target
    · subst hother
      obtain rfl := hna kind token hp
      simp [LinkedText.unlinkPiece, Piece.severed]
    · simp [LinkedText.unlinkPiece, Piece.severed, hother]

end FormulaNet
