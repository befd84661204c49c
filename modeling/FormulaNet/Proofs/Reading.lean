import FormulaNet.Proofs.Directory
import FormulaNet.Proofs.Rewriting

/-!
# Reading stored formulas

A formula with links is `Sound` if the grammar reads it once `NA` stands for each of its links.  This
does not depend on the tokens, so it survives every replacement: texts that differ in the tokens of their
links are read as these are resolved (`Fits.follows`).  If the tokens reach the targets of the links, then
the formula as it stands is read too, and its references are those of the links
(`LinkedText.Sound.exists_read_eq`); a mention without a link is the only thing that can fail
(`LinkedText.Sound.fault`).
-/

namespace FormulaNet

/-- Whether a text is a formula: its first character that is not blank is an `=`. -/
def IsFormulaText (cs : List Char) : Prop :=
  (cs.filter (!isBlank ·)).head? = some '='

instance (cs : List Char) : Decidable (IsFormulaText cs) :=
  inferInstanceAs (Decidable (_ = _))

/-- The tokens of the formula in a text, which are behind its `=`. -/
def bodyTokens (cs : List Char) : List Token :=
  Token.ofPlaced (placed 0 cs).tail

/-- Reads the formula in a text. -/
def Scope.read (scope : Scope) (cs : List Char) : Except Fault (Expr Reference) :=
  Expr.ofTokens scope.reference (bodyTokens cs)

theorem exists_placed_eq_cons {cs : List Char} (h : IsFormulaText cs) :
    ∃ offset, placed 0 cs = ⟨offset, '='⟩ :: (placed 0 cs).tail := by
  rw [IsFormulaText, ← map_char_placed 0 cs] at h
  cases hps : placed 0 cs with
  | nil =>
    rw [hps] at h
    cases h
  | cons p ps =>
    rw [hps] at h
    have hp : p.char = '=' := Option.some.inj h
    exact ⟨p.offset, by rw [← hp]; rfl⟩

theorem isFormulaText_of_placed {cs : List Char} {offset : Nat} {ps : List Placed}
    (h : placed 0 cs = ⟨offset, '='⟩ :: ps) : IsFormulaText cs := by
  rw [IsFormulaText, ← map_char_placed 0 cs, h]
  rfl

theorem Token.push_equals (offset : Nat) (ts : List Token) :
    Token.push ⟨offset, '='⟩ ts = .stray '=' :: ts := by
  have hn : isNumeric '=' = false := by decide
  have hl : isLetter '=' = false := by decide
  simp [push, hn, hl, Operator.ofChar?]

theorem tokensFrom_of_isFormulaText {cs : List Char} (h : IsFormulaText cs) :
    tokensFrom 0 cs = .stray '=' :: bodyTokens cs := by
  obtain ⟨offset, hps⟩ := exists_placed_eq_cons h
  rw [tokensFrom, hps]
  exact Token.push_equals offset _

/-! ## Expressions and their references -/

namespace Expr

variable {ρ σ : Type}

theorem outline_map (f : ρ → σ) (e : Expr ρ) : (e.map f).outline = e.outline := by
  induction e with
  | number | ref => rfl
  | negate _ ih => exact congrArg negate ih
  | call g _ ih => exact congrArg (call g) ih
  | binary op _ _ iha ihb => exact congr (congrArg (binary op) iha) ihb

theorem outline_unit (e : Expr Unit) : e.outline = e := by
  induction e with
  | number | ref => rfl
  | negate _ ih => exact congrArg negate ih
  | call g _ ih => exact congrArg (call g) ih
  | binary op a b iha ihb =>
    rw [outline, map]
    exact congrArg₂ (binary op) iha ihb

theorem length_refs_outline (e : Expr ρ) : e.outline.refs.length = e.refs.length := by
  rw [outline, refs_map, List.length_map]

/-- An expression is told by its outline and its references. -/
theorem eq_of_outline_of_refs {e e' : Expr ρ} (h : e.outline = e'.outline) (hr : e.refs = e'.refs) :
    e = e' := by
  induction e generalizing e' with
  | number x =>
    cases e' with
    | number =>
      cases h
      rfl
    | ref | negate | call | binary => cases h
  | ref r =>
    cases e' with
    | ref =>
      cases hr
      rfl
    | number | negate | call | binary => cases h
  | negate e ih =>
    cases e' with
    | negate e' => exact congrArg negate (ih (Expr.negate.inj h) hr)
    | number | ref | call | binary => cases h
  | call f e ih =>
    cases e' with
    | call f' e' =>
      obtain ⟨rfl, he⟩ := Expr.call.inj h
      exact congrArg (call f) (ih he hr)
    | number | ref | negate | binary => cases h
  | binary op a b iha ihb =>
    cases e' with
    | binary op' a' b' =>
      obtain ⟨rfl, ha, hb⟩ := Expr.binary.inj h
      have hlen : a.refs.length = a'.refs.length := by
        rw [← length_refs_outline a, ← length_refs_outline a', outline, ha, outline]
      obtain ⟨hra, hrb⟩ := List.append_inj hr hlen
      rw [iha ha hra, ihb hb hrb]
    | number | ref | negate | call => cases h

end Expr

/-! ## Sound formulas -/

/-- Pieces begin with the same character, however their links are written. -/
theorem Fits.isFormulaText_iff {d : Prop} {ps : List Piece} (h : Fits d ps)
    {write write' : Piece → List Char} (hw : ∀ cs, write (.plain cs) = cs)
    (hw' : ∀ cs, write' (.plain cs) = cs) :
    IsFormulaText (writtenAs write ps) ↔ IsFormulaText (writtenAs write' ps) := by
  obtain ⟨before, ps, rfl, hlast | hb⟩ :
      ∃ before ps', ps = .plain before :: ps' ∧ (ps' = [] ∨ Announces before) := by
    cases h with
    | last => exact ⟨_, _, rfl, .inl rfl⟩
    | link hb | dangling _ hb => exact ⟨_, _, rfl, .inr hb⟩
  · simp only [hlast, writtenAs, List.flatMap_singleton, hw, hw']
  · obtain ⟨c, hc⟩ : ∃ c, (before.filter (!isBlank ·)).head? = some c :=
      Option.ne_none_iff_exists'.1 fun hn =>
        List.ne_nil_of_mem hb.at_mem (List.head?_eq_none_iff.1 hn)
    simp only [IsFormulaText, writtenAs, List.flatMap_cons, hw, hw', head?_filter_append hc]

/-- Texts that differ in the tokens of their links are read as these are resolved. -/
theorem Fits.follows {d : Prop} {ps : List Piece} (h : Fits d ps) {ρ σ : Type} {P : Fault → Prop}
    {S : ρ → σ → Prop} {resolve : Mention → Except Fault ρ} {resolve' : Mention → Except Fault σ}
    {write write' : Piece → List Char} (hw : ∀ cs, write (.plain cs) = cs)
    (hw' : ∀ cs, write' (.plain cs) = cs) (hbegins : IsFormulaText (writtenAs write' ps))
    (hlinks : ∀ kind target token, .link kind target token ∈ ps →
      ReadAlike (fun m m' => Follows P S (resolve m) (Grammar.resolvePlace resolve' m'))
        (write (.link kind target token)) (write' (.link kind target token)))
    (hdangling : d → ReadAlike (fun m m' => Follows P S (resolve m) (Grammar.resolvePlace resolve' m'))
      danglingToken.toList danglingToken.toList) :
    Follows P (Expr.Alike S) (Expr.ofTokens resolve (bodyTokens (writtenAs write ps)))
      (Expr.ofTokens resolve' (bodyTokens (writtenAs write' ps))) := by
  have halike := h.alikeTokens hw hw' hlinks hdangling 0 0
  rw [tokensFrom_of_isFormulaText ((h.isFormulaText_iff hw hw').2 hbegins),
    tokensFrom_of_isFormulaText hbegins] at halike
  exact Expr.ofTokens_follows (fun _ _ hm => hm) (List.forall₂_cons.1 halike).2

namespace LinkedText

/-- The text with `NA` for each of its links. -/
def severed (t : LinkedText) : List Char :=
  writtenAs Piece.severed t.pieces

/-- What the formula says, its references aside. -/
def outline (t : LinkedText) : Except Fault (Expr Unit) :=
  Expr.ofTokens (fun _ => .ok ()) (bodyTokens t.severed)

/-- The text is a formula, its links are at its mentions, and the grammar reads it. -/
structure Sound (dangling : Prop) (t : LinkedText) : Prop where
  begins : IsFormulaText t.severed
  fits : Fits dangling t.pieces
  reads : ∃ k, t.outline = .ok k

/-- Every link has a token with which the scope reaches its target. -/
def Linked (scope : Scope) (t : LinkedText) : Prop :=
  ∀ kind target token, .link kind target token ∈ t.pieces →
    IsToken kind token ∧ scope.resolve kind (squeeze (.ofList token)) = .ok target

theorem Linked.spellsLinks {scope : Scope} {t : LinkedText} (h : t.Linked scope) :
    SpellsLinks t.pieces :=
  fun kind target token hmem => (h kind target token hmem).1

theorem Sound.isFormulaText_chars {d : Prop} {t : LinkedText} (h : t.Sound d) : IsFormulaText t.chars :=
  (h.fits.isFormulaText_iff (fun _ => rfl) (fun _ => rfl)).1 h.begins

theorem Sound.mono {d d' : Prop} (hd : d → d') {t : LinkedText} (h : t.Sound d) : t.Sound d' :=
  ⟨h.begins, h.fits.mono hd, h.reads⟩

/-- The links to a node read `NA`. -/
def Dangles (t : LinkedText) (target : NodeId) : Prop :=
  ∀ kind token, .link kind target token ∈ t.pieces → token = danglingToken.toList

theorem severed_replace (replacement : Reference → Option String) (t : LinkedText) :
    (t.replace replacement).severed = t.severed := by
  rw [severed, replace_eq]
  exact writtenAs_severed_replaceFrom replacement 0 t.pieces

theorem severed_unlink {t : LinkedText} {target : NodeId} (hna : t.Dangles target) :
    (t.unlink target).severed = t.severed :=
  writtenAs_severed_unlink hna

theorem outline_replace (replacement : Reference → Option String) (t : LinkedText) :
    (t.replace replacement).outline = t.outline := by
  rw [outline, severed_replace, outline]

theorem outline_unlink {t : LinkedText} {target : NodeId} (hna : t.Dangles target) :
    (t.unlink target).outline = t.outline := by
  rw [outline, severed_unlink hna, outline]

theorem Sound.replace {d : Prop} {t : LinkedText} (h : t.Sound d)
    (replacement : Reference → Option String) : (t.replace replacement).Sound d where
  begins := by
    rw [severed_replace]
    exact h.begins
  fits := by
    rw [replace_eq]
    exact h.fits.replaceFrom replacement 0
  reads := by
    rw [outline_replace]
    exact h.reads

theorem Sound.unlink {d : Prop} {t : LinkedText} (h : t.Sound d) {target : NodeId}
    (hna : t.Dangles target) : (t.unlink target).Sound True where
  begins := by
    rw [severed_unlink hna]
    exact h.begins
  fits := h.fits.unlink hna
  reads := by
    rw [outline_unlink hna]
    exact h.reads

/-! ## Reading with links -/

theorem exists_of_forall₂_of_mem {α β : Type} {R : α → β → Prop} {as : List α} {bs : List β}
    (h : List.Forall₂ R as bs) {a : α} (ha : a ∈ as) : ∃ b ∈ bs, R a b := by
  induction h with
  | nil => cases ha
  | cons hr _ ih =>
    rcases List.mem_cons.1 ha with rfl | ha
    · exact ⟨_, List.mem_cons_self, hr⟩
    · obtain ⟨b, hb, hr⟩ := ih ha
      exact ⟨b, List.mem_cons_of_mem _ hb, hr⟩

/-- What a formula can fail at whose links reach their targets as far as they have tokens: a mention that
dangles, or a link without a token. -/
def FailsAtLink (dangling : Prop) (scope : Scope) (t : LinkedText) (fault : Fault) : Prop :=
  (dangling ∧ scope.resolve .name danglingToken = .error fault) ∨
    ((∃ kind target, .link kind target [] ∈ t.pieces) ∧ fault = .reference .malformed)

/-- A formula whose links reach their targets, as far as they have tokens, is read or fails at a link. -/
theorem follows_read_of_reached {d : Prop} {t : LinkedText} (hbegins : IsFormulaText t.chars)
    (hfits : Fits d t.pieces) {scope : Scope}
    (hlinks : ∀ kind target token, .link kind target token ∈ t.pieces → token = [] ∨
      (IsToken kind token ∧ scope.resolve kind (squeeze (.ofList token)) = .ok target)) :
    Follows (FailsAtLink d scope t) (fun k e => k = e.outline) t.outline (scope.read t.chars) := by
  have hsevered : ∀ cs, Piece.severed (.plain cs) = cs := fun _ => rfl
  have hchars : ∀ cs, Piece.chars (.plain cs) = cs := fun _ => rfl
  have hread : Follows (FailsAtLink d scope t) (Expr.Alike fun (_ : Unit) (_ : Reference) => True)
      t.outline (scope.read t.chars) := by
    refine hfits.follows hsevered hchars hbegins (fun kind target token hmem => ?_) fun hd => ?_
    · rcases hlinks kind target token hmem with rfl | ⟨htoken, hresolve⟩
      · exact .missing isToken_danglingToken fun _ => .fault (.inr ⟨⟨kind, target, hmem⟩, rfl⟩)
      · refine .token isToken_danglingToken htoken fun _ _ => ?_
        simp only [Grammar.resolvePlace, Piece.chars, Scope.reference_mentionAt hresolve]
        exact .ok trivial
    · refine .token isToken_danglingToken isToken_danglingToken fun _ _ => ?_
      simp only [Grammar.resolvePlace, Scope.reference, mentionAt, squeeze_danglingToken]
      cases hna : scope.resolve .name danglingToken with
      | ok target => exact .ok trivial
      | error fault => exact .fault (.inl ⟨hd, hna⟩)
  exact hread.mono (fun _ h => h) fun k e h => by rw [← h.outline, Expr.outline_unit]

/-- Whether a mention in a text is at a link or dangles, the scope decides how it is read. -/
theorem follows_read {d : Prop} {t : LinkedText} (hbegins : IsFormulaText t.chars)
    (hfits : Fits d t.pieces) {scope : Scope} (hlinked : t.Linked scope) :
    Follows (fun fault => d ∧ scope.resolve .name danglingToken = .error fault)
      (fun k e => k = e.outline) t.outline (scope.read t.chars) := by
  refine (follows_read_of_reached hbegins hfits fun kind target token hmem =>
    .inr (hlinked kind target token hmem)).mono (fun fault h => h.resolve_right ?_) fun _ _ h => h
  rintro ⟨⟨kind, target, hmem⟩, -⟩
  exact (hlinked kind target [] hmem).1.ne_nil rfl

/-- A formula that does not dangle is read, and its references are those of its links. -/
theorem Sound.exists_read_eq {t : LinkedText} (h : t.Sound False) {scope : Scope}
    (hlinked : t.Linked scope) :
    ∃ e, scope.read t.chars = .ok e ∧ e.refs = t.refs ∧ t.outline = .ok e.outline := by
  obtain ⟨k, hk⟩ := h.reads
  have hfollows := follows_read h.isFormulaText_chars h.fits hlinked
  rw [hk] at hfollows
  obtain ⟨e, he, rfl⟩ : ∃ e, scope.read t.chars = .ok e ∧ k = e.outline := by
    generalize scope.read t.chars = x at hfollows
    cases hfollows with
    | ok h => exact ⟨_, rfl, h⟩
    | fault h => exact h.1.elim
  have hrefs := h.fits.forall₂_mentions hlinked.spellsLinks
    (fun kind target token hmem => (hlinked kind target token hmem).2) 0
  rw [show writtenAs Piece.chars t.pieces = t.chars from rfl,
    tokensFrom_of_isFormulaText h.isFormulaText_chars] at hrefs
  refine ⟨e, he, ?_, hk⟩
  exact List.right_unique_forall₂' (fun m r r' hr hr' => Except.ok.inj (hr.symm.trans hr'))
    (Expr.ofTokens_consumes he).resolved hrefs

/-- A formula that does not dangle is what its text and its references tell. -/
theorem Sound.cut_refs {t : LinkedText} (h : t.Sound False) : cut t.chars t.refs = t :=
  congrArg LinkedText.mk (cutFrom_refsFrom h.fits 0)

/-- A formula with links that is not read dangles. -/
theorem Sound.fault {d : Prop} {t : LinkedText} (h : t.Sound d) {scope : Scope}
    (hlinked : t.Linked scope) {fault : Fault} (hread : scope.read t.chars = .error fault) :
    d ∧ scope.resolve .name danglingToken = .error fault := by
  obtain ⟨k, hk⟩ := h.reads
  have hfollows := follows_read h.isFormulaText_chars h.fits hlinked
  rw [hk, hread] at hfollows
  cases hfollows with
  | fault h => exact h

/-- No link of a formula that is read has an empty token. -/
theorem Sound.spellsLinks {d : Prop} {t : LinkedText} (h : t.Sound d)
    (hlinks : ∀ kind target token, .link kind target token ∈ t.pieces →
      token = [] ∨ IsToken kind token) {scope : Scope} {e : Expr Reference}
    (hread : scope.read t.chars = .ok e) : SpellsLinks t.pieces := by
  intro kind target token hmem
  refine (hlinks kind target token hmem).resolve_left ?_
  rintro rfl
  have hstray := h.fits.stray_at_mem hlinks ⟨kind, target, hmem⟩ 0
  rw [show writtenAs Piece.chars t.pieces = t.chars from rfl,
    tokensFrom_of_isFormulaText h.isFormulaText_chars] at hstray
  have hbody : .stray '@' ∈ bodyTokens t.chars :=
    (List.mem_cons.1 hstray).resolve_left (by simp)
  exact (Expr.ofTokens_consumes hread).legible.1 '@' hbody

/-- The references of a formula that is read are what its mentions mean. -/
theorem Sound.forall₂_mentions {d : Prop} {t : LinkedText} (h : t.Sound d) {scope : Scope}
    {e : Expr Reference} (hread : scope.read t.chars = .ok e) :
    List.Forall₂ (fun m r => scope.reference m = .ok r)
      (Token.mentions (tokensFrom 0 (writtenAs Piece.chars t.pieces))) e.refs := by
  rw [show writtenAs Piece.chars t.pieces = t.chars from rfl,
    tokensFrom_of_isFormulaText h.isFormulaText_chars]
  exact (Expr.ofTokens_consumes hread).resolved

/-- The stored references of a formula that is read are among its references, in order. -/
theorem Sound.sublist_refs {d : Prop} {t : LinkedText} (h : t.Sound d) {scope : Scope}
    (hlinked : t.Linked scope) {e : Expr Reference} (hread : scope.read t.chars = .ok e) :
    t.refs.Sublist e.refs :=
  h.fits.sublist_refsFrom hlinked.spellsLinks (fun kind target token hmem => (hlinked kind target token hmem).2)
    (h.forall₂_mentions hread)

/-- The links of a formula that is read are among its references. -/
theorem Sound.exists_ref_of_link {d : Prop} {t : LinkedText} (h : t.Sound d) {scope : Scope}
    (hlinked : t.Linked scope) {e : Expr Reference} (hread : scope.read t.chars = .ok e)
    {kind : MentionKind} {target : NodeId} {token : List Char}
    (hmem : .link kind target token ∈ t.pieces) : ∃ r ∈ e.refs, r.kind = kind ∧ r.target = target := by
  obtain ⟨r, hr, hkind, htarget⟩ := exists_mem_refsFrom_of_link hmem 0
  exact ⟨r, (h.sublist_refs hlinked hread).subset hr, hkind, htarget⟩

/-- A formula that is read where nothing has the name `NA` does not dangle. -/
theorem Sound.of_read {d : Prop} {t : LinkedText} (h : t.Sound d) {scope : Scope}
    (hlinked : t.Linked scope) {e : Expr Reference} (hread : scope.read t.chars = .ok e)
    {fault : Fault} (hna : scope.resolve .name danglingToken = .error fault) : t.Sound False := by
  refine ⟨h.begins, h.fits.of_mentions hlinked.spellsLinks 0 fun m hm hkind htoken => ?_, h.reads⟩
  obtain ⟨r, -, href⟩ := exists_of_forall₂_of_mem (h.forall₂_mentions hread) hm
  rw [Scope.reference, hkind, htoken, hna] at href
  cases href

/-- A formula that was read is sound once it is cut at its references. -/
theorem sound_cut {cs : List Char} (hbegins : IsFormulaText cs) {scope : Scope}
    {e : Expr Reference} (hread : scope.read cs = .ok e) :
    (cut cs e.refs).Sound False ∧ (cut cs e.refs).chars = cs ∧ (cut cs e.refs).refs = e.refs ∧
      (cut cs e.refs).Linked scope := by
  obtain ⟨offset, hps⟩ := exists_placed_eq_cons hbegins
  have hspelled := Expr.ofTokens_consumes hread
  have hmarked : Marked 0 cs (Token.mentions (bodyTokens cs)) :=
    marked_of_placed_cons hps (show '=' ≠ '@' by decide) fun h =>
      marked_of_legible (Token.spells_ofPlaced _) hspelled.legible h
  obtain ⟨hfits, hchars, hrefs, hlinks⟩ := cutFrom_of_marked hmarked hspelled.resolved
  have hlinked : (cut cs e.refs).Linked scope := hlinks
  have hcs : (cut cs e.refs).chars = cs := hchars
  have hbegins' : IsFormulaText (cut cs e.refs).chars := by rwa [hcs]
  have hfollows := follows_read hbegins' hfits hlinked
  rw [hcs, hread] at hfollows
  refine ⟨⟨(hfits.isFormulaText_iff (fun _ => rfl) (fun _ => rfl)).1 hbegins', hfits, ?_⟩, hcs,
    hrefs, hlinked⟩
  generalize (cut cs e.refs).outline = x at hfollows
  cases hfollows with
  | ok h => exact ⟨_, rfl⟩

end LinkedText

/-! ## Accepted inputs -/

namespace Net

/-- Evaluates a formula on behalf of a node, where nodes have the values that `read` gives. -/
def evaluation (net : Net) (read : NodeId → Float) (host : NodeId) (text : String) :
    Except Fault Evaluation :=
  evaluatePlaced ⟨(net.scope host).resolve, read⟩ (placed 0 text.toList).tail

theorem evaluation_eq (net : Net) (read : NodeId → Float) (host : NodeId) (text : String) :
    net.evaluation read host text = (do
      let e ← (net.scope host).read text.toList
      .ok ({ value := e.value fun r => read r.target, refs := e.refs } : Evaluation)) :=
  rfl

theorem evaluation_eq_of_ok {net : Net} {host : NodeId} {text : String} {e : Expr Reference}
    (h : (net.scope host).read text.toList = .ok e) (read : NodeId → Float) :
    net.evaluation read host text = .ok ⟨e.value fun r => read r.target, e.refs⟩ := by
  rw [evaluation_eq, h]
  rfl

theorem evaluation_eq_error_iff {net : Net} {host : NodeId} {text : String} {read : NodeId → Float}
    {fault : Fault} : net.evaluation read host text = .error fault ↔
      (net.scope host).read text.toList = .error fault := by
  cases hread : (net.scope host).read text.toList with
  | ok e => simp [evaluation_eq_of_ok hread]
  | error fault' =>
    rw [evaluation_eq, hread]
    simp [bind, Except.bind]

/-- An accepted input is a number, or a formula that can be read. -/
theorem meaning_cases {net : Net} {host : NodeId} {text : String} {m : Meaning}
    (h : net.meaning host text = .ok m) :
    (∃ x, m = ⟨.number x, x⟩) ∨ (IsFormulaText text.toList ∧
      ∃ e, (net.scope host).read text.toList = .ok e ∧
        m = ⟨.formula (.cut text.toList e.refs), e.value fun r => net.valueOf r.target⟩) := by
  unfold meaning at h
  split at h
  · cases h
    exact .inl ⟨0, rfl⟩
  · next offset body hps =>
    obtain ⟨evaluation, heval, hc⟩ := exists_of_bind_eq_ok h
    obtain ⟨e, he, hc'⟩ := exists_of_bind_eq_ok heval
    cases hc'
    cases hc
    refine .inr ⟨isFormulaText_of_placed hps, e, ?_, rfl⟩
    rw [Scope.read, bodyTokens, hps]
    exact he
  · split at h
    · next x hx =>
      cases h
      exact .inl ⟨x, rfl⟩
    · cases h

/-- A formula means what its evaluation gives. -/
theorem meaning_eq_evaluation (net : Net) (host : NodeId) {text : String}
    (h : IsFormulaText text.toList) :
    net.meaning host text = (net.evaluation net.valueOf host text).map fun evaluation =>
      ⟨.formula (.cut text.toList evaluation.refs), evaluation.value⟩ := by
  obtain ⟨offset, hps⟩ := exists_placed_eq_cons h
  rw [meaning, hps]
  change (evaluatePlaced (net.scope host) (placed 0 text.toList).tail >>= _) =
    Except.map _ (evaluatePlaced (net.scope host) (placed 0 text.toList).tail)
  cases evaluatePlaced (net.scope host) (placed 0 text.toList).tail with
  | ok evaluation => rfl
  | error fault => rfl

/-- What a node takes on as a formula is sound, and its links reach their targets. -/
theorem sound_of_meaning {net : Net} {host : NodeId} {text : String} {m : Meaning}
    (h : net.meaning host text = .ok m) {t : LinkedText} (ht : m.content = .formula t) :
    t.Sound False ∧ t.Linked (net.scope host) ∧ t.chars = text.toList ∧
      ∃ e : Expr Reference, t.outline = .ok e.outline ∧ e.refs = t.refs ∧
        m.value = e.value fun r => net.valueOf r.target := by
  obtain ⟨x, rfl⟩ | ⟨hf, e, he, rfl⟩ := meaning_cases h
  · cases ht
  · cases ht
    obtain ⟨hsound, hchars, hrefs, hlinked⟩ := LinkedText.sound_cut hf he
    obtain ⟨e', he', -, houtline⟩ := hsound.exists_read_eq hlinked
    rw [hchars, he] at he'
    cases he'
    exact ⟨hsound, hlinked, hchars, e, houtline, hrefs.symm, rfl⟩

/-- The references that a node takes on reach other nodes of the net. -/
theorem target_of_meaning {net : Net} {host : NodeId} {text : String} {m : Meaning}
    (h : net.meaning host text = .ok m) {r : Reference} (hr : r ∈ m.content.refs) :
    (∃ n, net.node? r.target = some n) ∧ r.target ≠ host := by
  cases hm : m.content with
  | number x =>
    rw [hm] at hr
    cases hr
  | formula t =>
    rw [hm] at hr
    obtain ⟨-, hlinked, -, -⟩ := sound_of_meaning h hm
    obtain ⟨token, hmem⟩ := LinkedText.exists_link_of_mem_refsFrom hr
    exact resolve_target (hlinked _ _ _ hmem).2

end Net

end FormulaNet
