import FormulaNet.Formula.Evaluation
import FormulaNet.Net.Edit
import FormulaNet.Proofs.Alike
import FormulaNet.Proofs.Marking

/-!
# Links in a text

`Fits` says that the links of a text stand where its mentions are: each has an `@` before it and
something apart from it behind it, and no mention is left without a link, unless it dangles.  The
replacement of tokens keeps this, whatever the new tokens are, and so it does when links are dropped
that read `NA`.
-/

namespace FormulaNet

/-- The pieces have a link for every mention in them; a mention without a link reads `NA`, and occurs
only if `dangling` allows it. -/
inductive Fits (dangling : Prop) : List Piece → Prop
  | last {cs : List Char} (h : '@' ∉ cs) : Fits dangling [.plain cs]
  | link {before after token : List Char} {kind : MentionKind} {target : NodeId} {ps : List Piece}
      (hb : Announces before) (ha : Apart after) (hr : Fits dangling (.plain after :: ps)) :
      Fits dangling (.plain before :: .link kind target token :: .plain after :: ps)
  | dangling {before after : List Char} {ps : List Piece} (hd : dangling)
      (hb : Announces before) (ha : Apart after) (hr : Fits dangling (.plain after :: ps)) :
      Fits dangling (.plain before :: .plain danglingToken.toList :: .plain after :: ps)

theorem Fits.mono {d d' : Prop} (hd : d → d') {ps : List Piece} (h : Fits d ps) : Fits d' ps := by
  induction h with
  | last h => exact .last h
  | link hb ha _ ih => exact .link hb ha ih
  | dangling h hb ha _ ih => exact .dangling (hd h) hb ha ih

/-- The characters of pieces, each of which is written in a given way. -/
def writtenAs (write : Piece → List Char) (ps : List Piece) : List Char :=
  ps.flatMap write

/-- The piece with `NA` as the token of a link. -/
def Piece.severed : Piece → List Char
  | plain cs => cs
  | link _ _ _ => danglingToken.toList

theorem isToken_danglingToken : IsToken .name danglingToken.toList := by
  have hchars : danglingToken.toList = ['N', 'A'] := rfl
  have hmem : ∀ c ∈ ['N', 'A'], isBlank c = false ∧ isLetter c = true := by
    simp only [List.forall_mem_cons]
    exact ⟨by decide, by decide, fun _ hc => absurd hc List.not_mem_nil⟩
  rw [hchars]
  exact ⟨by simp, trimmed_of_forall fun c hc => (hmem c hc).1, fun c hc _ => (hmem c hc).2⟩

theorem Scope.reference_mentionAt {scope : Scope} {kind : MentionKind} {token : List Char}
    {target : NodeId} (h : scope.resolve kind (squeeze (.ofList token)) = .ok target) (start : Nat) :
    scope.reference (mentionAt kind token start) = .ok ⟨⟨start, start + byteSize token⟩, kind, target⟩ := by
  simp only [reference, mentionAt, h]
  rfl

theorem squeeze_danglingToken : squeeze (.ofList danglingToken.toList) = danglingToken := by
  decide

/-! ## The tokens of a text with links -/

/-- What stands behind a mention stays apart from it, however the links behind it are written. -/
theorem Fits.apart {d : Prop} {after : List Char} {ps : List Piece} (h : Fits d (.plain after :: ps))
    (ha : Apart after) (cs : List Char) (hlast : ps = [] → cs = []) : Apart (after ++ cs) := by
  cases h with
  | last => simpa [hlast rfl] using ha
  | link hb | dangling _ hb => exact ha.append (List.ne_nil_of_mem hb.at_mem) cs

/-- Tokens that are read alike behind an `@`, wherever they stand; the second one may be missing. -/
inductive ReadAlike (M : Mention → Option Mention → Prop) (token : List Char) : List Char → Prop
  | token {kind kind' : MentionKind} {token' : List Char} (ht : IsToken kind token)
      (ht' : IsToken kind' token')
      (h : ∀ start start', M (mentionAt kind token start) (some (mentionAt kind' token' start'))) :
      ReadAlike M token token'
  | missing {kind : MentionKind} (ht : IsToken kind token)
      (h : ∀ start, M (mentionAt kind token start) none) : ReadAlike M token []

section Alike

variable {M : Mention → Option Mention → Prop}

theorem alikeTokens_step {before token token' after after' : List Char} (hb : Announces before)
    (ht : ReadAlike M token token') (ha : Apart after) (ha' : Apart after') {start start' : Nat}
    (h : ∀ start start', AlikeTokens M (tokensFrom start after) (tokensFrom start' after')) :
    AlikeTokens M (tokensFrom start (before ++ (token ++ after)))
      (tokensFrom start' (before ++ (token' ++ after'))) := by
  obtain ⟨cs, blanks, rfl, hat, hblanks⟩ := hb
  cases ht with
  | token ht ht' hM =>
    obtain ⟨run, hrun, htokens⟩ := tokens_append_mention ht ha hblanks cs start
    obtain ⟨run', hrun', htokens'⟩ := tokens_append_mention ht' ha' hblanks cs start'
    rw [htokens, htokens']
    refine alike_foldr_push hat _ _ (.cons (.mention ?_) (h _ _))
    rw [hrun, hrun']
    exact hM _ _
  | missing ht hM =>
    obtain ⟨run, hrun, htokens⟩ := tokens_append_mention ht ha hblanks cs start
    rw [htokens, List.nil_append, tokens_append_lone_at ha' hblanks cs start']
    refine alike_foldr_push hat _ _ (.cons (.lone ?_) (h _ _))
    rw [hrun]
    exact hM _

/-- The tokens of links decide neither how a text is cut nor what it says besides its mentions. -/
theorem Fits.alikeTokens {d : Prop} {ps : List Piece} (h : Fits d ps) {write write' : Piece → List Char}
    (hw : ∀ cs, write (.plain cs) = cs) (hw' : ∀ cs, write' (.plain cs) = cs)
    (hlinks : ∀ kind target token, .link kind target token ∈ ps →
      ReadAlike M (write (.link kind target token)) (write' (.link kind target token)))
    (hdangling : d → ReadAlike M danglingToken.toList danglingToken.toList) (start start' : Nat) :
    AlikeTokens M (tokensFrom start (writtenAs write ps)) (tokensFrom start' (writtenAs write' ps)) := by
  induction h generalizing start start' with
  | last h =>
    simp only [writtenAs, List.flatMap_cons, List.flatMap_nil, List.append_nil, hw, hw']
    exact alike_foldr_push h _ _ .nil
  | @link before after token kind target ps hb ha hr ih =>
    have ih := ih fun k x t hmem => hlinks k x t (by simp [hmem])
    simp only [writtenAs, List.flatMap_cons, hw, hw'] at ih ⊢
    exact alikeTokens_step hb (hlinks kind target token (by simp)) (hr.apart ha _ (by rintro rfl; rfl))
      (hr.apart ha _ (by rintro rfl; rfl)) ih
  | @dangling before after ps hd hb ha hr ih =>
    have ih := ih fun k x t hmem => hlinks k x t (by simp [hmem])
    simp only [writtenAs, List.flatMap_cons, hw, hw'] at ih ⊢
    exact alikeTokens_step hb (hdangling hd) (hr.apart ha _ (by rintro rfl; rfl))
      (hr.apart ha _ (by rintro rfl; rfl)) ih

end Alike

/-! ## The mentions of a text with links -/

/-- The tokens of links are tokens of their kinds. -/
def SpellsLinks (ps : List Piece) : Prop :=
  ∀ kind target token, .link kind target token ∈ ps → IsToken kind token

theorem SpellsLinks.tail {p : Piece} {ps : List Piece} (h : SpellsLinks (p :: ps)) : SpellsLinks ps :=
  fun kind target token hmem => h kind target token (List.mem_cons_of_mem _ hmem)

/-- A text in which no mention reads `NA` does not dangle. -/
theorem Fits.of_mentions {d : Prop} {ps : List Piece} (h : Fits d ps) (hs : SpellsLinks ps)
    (start : Nat) (hna : ∀ m ∈ Token.mentions (tokensFrom start (writtenAs Piece.chars ps)),
      m.kind = .name → m.token ≠ danglingToken) : Fits False ps := by
  induction h generalizing start with
  | last h => exact .last h
  | @link before after token kind target ps hb ha hr ih =>
    have ih := ih hs.tail.tail (start + byteSize before + byteSize token)
    simp only [writtenAs, List.flatMap_cons, Piece.chars] at hna ih
    rw [mentions_append_mention hb (hs kind target token (by simp))
      (hr.apart ha _ (by rintro rfl; rfl))] at hna
    exact .link hb ha (ih fun m hm => hna m (List.mem_cons_of_mem _ hm))
  | @dangling before after ps hd hb ha hr ih =>
    simp only [writtenAs, List.flatMap_cons, Piece.chars] at hna
    rw [mentions_append_mention hb isToken_danglingToken
      (hr.apart ha _ (by rintro rfl; rfl))] at hna
    exact absurd squeeze_danglingToken (hna _ List.mem_cons_self rfl)

/-- Links that resolve to their targets: the references of a text are what its mentions mean. -/
theorem Fits.forall₂_mentions {ps : List Piece} (h : Fits False ps) {scope : Scope}
    (hs : SpellsLinks ps) (hr : ∀ kind target token, .link kind target token ∈ ps →
      scope.resolve kind (squeeze (.ofList token)) = .ok target) (start : Nat) :
    List.Forall₂ (fun m r => scope.reference m = .ok r)
      (Token.mentions (tokensFrom start (writtenAs Piece.chars ps))) (LinkedText.refsFrom start ps) := by
  induction h generalizing start with
  | @last cs h =>
    rw [writtenAs, List.flatMap_singleton, Piece.chars, mentions_tokensFrom_eq_nil h]
    exact .nil
  | @link before after token kind target ps hb ha hrest ih =>
    have ih := ih hs.tail.tail (fun k x t hmem => hr k x t (by simp [hmem]))
      (start + byteSize before + byteSize token)
    simp only [writtenAs, List.flatMap_cons, Piece.chars] at ih ⊢
    rw [mentions_append_mention hb (hs kind target token (by simp))
      (hrest.apart ha _ (by rintro rfl; rfl))]
    exact .cons (Scope.reference_mentionAt (hr kind target token (by simp)) _) ih
  | dangling hd => exact hd.elim

/-- Links that resolve to their targets are among what the mentions of the text mean, in order. -/
theorem Fits.sublist_refsFrom {d : Prop} {ps : List Piece} (h : Fits d ps) {scope : Scope}
    (hs : SpellsLinks ps) (hr : ∀ kind target token, .link kind target token ∈ ps →
      scope.resolve kind (squeeze (.ofList token)) = .ok target) {start : Nat} {rs : List Reference}
    (hrs : List.Forall₂ (fun m r => scope.reference m = .ok r)
      (Token.mentions (tokensFrom start (writtenAs Piece.chars ps))) rs) :
    (LinkedText.refsFrom start ps).Sublist rs := by
  induction h generalizing start rs with
  | last => exact List.nil_sublist rs
  | @link before after token kind target ps hb ha hrest ih =>
    have ih := @ih hs.tail.tail (fun k x t hmem => hr k x t (by simp [hmem]))
      (start + byteSize before + byteSize token)
    simp only [writtenAs, List.flatMap_cons, Piece.chars] at ih hrs ⊢
    rw [mentions_append_mention hb (hs kind target token (by simp))
      (hrest.apart ha _ (by rintro rfl; rfl))] at hrs
    cases hrs with
    | cons hm hrs =>
      rw [Scope.reference_mentionAt (hr kind target token (by simp))] at hm
      cases hm
      exact (ih hrs).cons_cons _
  | @dangling before after ps hd hb ha hrest ih =>
    have ih := @ih hs.tail.tail (fun k x t hmem => hr k x t (by simp [hmem]))
      (start + byteSize before + byteSize danglingToken.toList)
    simp only [writtenAs, List.flatMap_cons, Piece.chars] at ih hrs ⊢
    rw [mentions_append_mention hb isToken_danglingToken (hrest.apart ha _ (by rintro rfl; rfl))] at hrs
    cases hrs with
    | cons hm hrs => exact (ih hrs).cons _

theorem stray_at_mem_step {before after : List Char} (hb : Announces before) (ha : Apart after)
    (start : Nat) : .stray '@' ∈ tokensFrom start (before ++ after) := by
  obtain ⟨cs, blanks, rfl, -, hblanks⟩ := hb
  rw [tokens_append_lone_at ha hblanks]
  exact Token.stray_mem_foldr_push List.mem_cons_self _

theorem stray_at_mem_of_mem {before token after : List Char} {kind : MentionKind}
    (hb : Announces before) (ht : IsToken kind token) (ha : Apart after) {start : Nat}
    (h : .stray '@' ∈ tokensFrom (start + byteSize before + byteSize token) after) :
    .stray '@' ∈ tokensFrom start (before ++ (token ++ after)) := by
  obtain ⟨cs, blanks, rfl, -, hblanks⟩ := hb
  obtain ⟨run, -, hts⟩ := tokens_append_mention ht ha hblanks cs start
  rw [hts]
  exact Token.stray_mem_foldr_push (List.mem_cons_of_mem _ h) _

/-- A link whose token is empty leaves its `@` alone. -/
theorem Fits.stray_at_mem {d : Prop} {ps : List Piece} (h : Fits d ps)
    (hs : ∀ kind target token, .link kind target token ∈ ps → token = [] ∨ IsToken kind token)
    (he : ∃ kind target, .link kind target [] ∈ ps) (start : Nat) :
    .stray '@' ∈ tokensFrom start (writtenAs Piece.chars ps) := by
  induction h generalizing start with
  | last => simp at he
  | @link before after token kind target ps hb ha hr ih =>
    have ih := ih (fun k x t hmem => hs k x t (by simp [hmem]))
    simp only [writtenAs, List.flatMap_cons, Piece.chars] at ih ⊢
    have hapart := hr.apart ha (ps.flatMap Piece.chars) (by rintro rfl; rfl)
    rcases hs kind target token (by simp) with rfl | ht
    · exact stray_at_mem_step hb hapart start
    · refine stray_at_mem_of_mem hb ht hapart (ih ?_ _)
      obtain ⟨k, x, hmem⟩ := he
      have hne : [] ≠ token := ht.ne_nil.symm
      exact ⟨k, x, by simpa [hne] using hmem⟩
  | @dangling before after ps hd hb ha hr ih =>
    have ih := ih (fun k x t hmem => hs k x t (by simp [hmem])) (by simpa using he)
    simp only [writtenAs, List.flatMap_cons, Piece.chars] at ih ⊢
    exact stray_at_mem_of_mem hb isToken_danglingToken (hr.apart ha _ (by rintro rfl; rfl)) (ih _)

end FormulaNet
