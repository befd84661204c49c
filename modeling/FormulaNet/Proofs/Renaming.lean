import FormulaNet.Proofs.Persistence
import FormulaNet.Proofs.References

/-!
# Formulas after a rename

A rename gives new tokens to the links by name to one node, and leaves the others alone.  If every mention
in a formula reaches the same node before and after, then the formula is read alike
(`Net.Intact.exists_read_renamed`).  Two mentions can fail to: a link to a node whose new name is blank,
and a mention that dangles and meets the renamed node.  `Net.run_evaluatesAs_rename` leaves these aside,
and `Net.rename_blank_breaks` shows the first.
-/

namespace FormulaNet

namespace Expr

variable {ρ σ : Type} {S : ρ → σ → Prop} {e : Expr ρ} {e' : Expr σ}

/-- Alike expressions are worth the same if their references are. -/
theorem Alike.value_eq (h : e.Alike S e') {read : ρ → Float} {read' : σ → Float}
    (hread : ∀ r s, S r s → read r = read' s) : e.value read = e'.value read' := by
  induction h with
  | number => rfl
  | ref h => exact hread _ _ h
  | negate _ ih => exact congrArg (- ·) ih
  | call f _ ih => exact congrArg f.apply ih
  | binary op _ _ iha ihb => exact congr (congrArg op.apply iha) ihb

theorem Alike.refs (h : e.Alike S e') : List.Forall₂ S e.refs e'.refs := by
  induction h with
  | number => exact .nil
  | ref h => exact .cons h .nil
  | negate _ ih => exact ih
  | call _ _ ih => exact ih
  | binary _ _ _ iha ihb => exact List.rel_append iha ihb

end Expr

/-! ## Mentions that dangle -/

/-- A text that dangles has a mention of `NA` that is not at a link. -/
theorem Fits.exists_dangling {d : Prop} {ps : List Piece} (h : Fits d ps) (hs : SpellsLinks ps)
    (hdangles : ¬ Fits False ps) (start : Nat) :
    ∃ m ∈ Token.mentions (tokensFrom start (writtenAs Piece.chars ps)), m.kind = .name ∧
      m.token = danglingToken ∧ start < m.span.start ∧
      ∀ r ∈ LinkedText.refsFrom start ps, r.span ≠ m.span := by
  induction h generalizing start with
  | last h => exact absurd (.last h) hdangles
  | @link before after token kind target ps hb ha hr ih =>
    obtain ⟨m, hm, hkind, htoken, hstart, hspan⟩ := ih hs.tail.tail (fun h => hdangles (.link hb ha h))
      (start + byteSize before + byteSize token)
    simp only [writtenAs, List.flatMap_cons, Piece.chars] at hm ⊢
    rw [mentions_append_mention hb (hs kind target token (by simp))
      (hr.apart ha _ (by rintro rfl; rfl))]
    refine ⟨m, List.mem_cons_of_mem _ hm, hkind, htoken, by omega, fun r hr => ?_⟩
    rw [LinkedText.refsFrom, LinkedText.refsFrom] at hr
    rcases List.mem_cons.1 hr with rfl | hr
    · -- the link is in front of the mention
      intro heq
      rw [← heq] at hstart
      dsimp only at hstart
      omega
    · exact hspan r hr
  | @dangling before after ps hd hb ha hr ih =>
    simp only [writtenAs, List.flatMap_cons, Piece.chars]
    rw [mentions_append_mention hb isToken_danglingToken (hr.apart ha _ (by rintro rfl; rfl))]
    have hpos := hb.byteSize_pos
    refine ⟨_, List.mem_cons_self, rfl, squeeze_danglingToken, Nat.lt_add_of_pos_right hpos,
      fun r hmem heq => ?_⟩
    -- the links are behind the mention
    have hbehind := (hr.pairwise_refsFrom _).1 r hmem
    rw [heq] at hbehind
    simp only [mentionAt] at hbehind
    omega

/-- The characters of a piece, with a new token for a link by name to a node. -/
def Piece.retokened (id : NodeId) (key : String) : Piece → List Char
  | plain cs => cs
  | link kind target token => if kind = .name ∧ target = id then key.toList else token

namespace LinkedText

theorem writtenAs_chars_retoken (id : NodeId) (key : String) (start : Nat) (ps : List Piece) :
    writtenAs Piece.chars (replaceFrom (Net.retoken id key) start ps) =
      writtenAs (Piece.retokened id key) ps := by
  induction ps generalizing start with
  | nil => rfl
  | cons p ps ih =>
    cases p with
    | plain cs => exact congrArg (cs ++ ·) (ih _)
    | link kind target token =>
      have htoken : ((Net.retoken id key ⟨⟨start, start + byteSize token⟩, kind, target⟩).map
          String.toList).getD token = Piece.retokened id key (.link kind target token) := by
        by_cases h : kind = .name ∧ target = id
        · simp [Net.retoken, Piece.retokened, h]
        · simp [Net.retoken, Piece.retokened, h]
      rw [replaceFrom, writtenAs, List.flatMap_cons, Piece.chars, htoken]
      exact congrArg (Piece.retokened id key (.link kind target token) ++ ·) (ih _)

theorem chars_retoken (id : NodeId) (key : String) (t : LinkedText) :
    (t.replace (Net.retoken id key)).chars = writtenAs (Piece.retokened id key) t.pieces := by
  rw [replace_eq]
  exact writtenAs_chars_retoken id key 0 t.pieces

/-- A formula that dangles and is read has a reference to a node named `NA` that it does not store. -/
theorem Sound.exists_unrecorded {d : Prop} {t : LinkedText} (h : t.Sound d) {scope : Scope}
    (hlinked : t.Linked scope) {e : Expr Reference} (hread : scope.read t.chars = .ok e)
    (hdangles : ¬ Fits False t.pieces) : ∃ r ∈ e.refs, r.kind = .name ∧
      scope.resolve .name danglingToken = .ok r.target ∧ r ∉ t.refs := by
  obtain ⟨m, hm, hkind, htoken, -, hspan⟩ := h.fits.exists_dangling hlinked.spellsLinks hdangles 0
  obtain ⟨r, hr, href⟩ := exists_of_forall₂_of_mem (h.forall₂_mentions hread) hm
  obtain ⟨target, hresolve, heq⟩ := exists_of_bind_eq_ok href
  cases heq
  rw [hkind, htoken] at hresolve
  exact ⟨_, hr, hkind, hresolve, fun hmem => hspan _ hmem rfl⟩

end LinkedText

/-- References of the same form to the same node. -/
def Reference.Alike (r r' : Reference) : Prop :=
  r.kind = r'.kind ∧ r.target = r'.target

namespace Net

/-! ## The net after a rename -/

section Renamed

variable {net : Net} {id : NodeId} {m : Node} {name : String}

theorem valueOf_renamed (net : Net) (id : NodeId) (children : IdSet) (name : String) :
    (net.renamed id children name).valueOf = net.valueOf := by
  funext x
  rw [valueOf, valueOf, node?_renamed]
  cases net.node? x with
  | none => rfl
  | some n => rfl

/-- A name that differs in blanks alone changes no directory. -/
theorem directory_renamed_of_key (hm : net.node? id = some m) (hkey : m.key = squeeze name)
    (children : IdSet) : (net.renamed id children name).directory = net.directory := by
  rw [directory_renamed]
  refine (List.map_congr_left fun e he => ?_).trans (List.map_id _)
  obtain ⟨x, key⟩ := e
  by_cases hx : x = id
  · subst hx
    obtain ⟨n, hn, rfl⟩ := mem_directory.1 he
    obtain rfl : n = m := Option.some.inj (hn.symm.trans hm)
    simp [hkey]
  · simp [hx]

theorem Reaches.resolve {host target : NodeId} {kind : MentionKind} {token : List Char}
    (h : net.Reaches True host kind target token) (hne : token ≠ []) :
    IsToken kind token ∧ (net.scope host).resolve kind (squeeze (.ofList token)) = .ok target := by
  cases h with
  | token ht hr => exact ⟨ht, hr⟩
  | blank => exact absurd rfl hne

/-- A link by name spells the name of its target. -/
theorem key_of_resolve {host : NodeId} {token : List Char} (hm : net.node? id = some m)
    (h : (net.scope host).resolve .name (squeeze (.ofList token)) = .ok id) :
    m.key = squeeze (.ofList token) := by
  obtain ⟨n, hn, hkey⟩ := mem_directory.1 (resolveName_target h).1
  obtain rfl : n = m := Option.some.inj (hn.symm.trans hm)
  exact hkey

/-- Only the children of a node have tokens that a rename of it replaces. -/
theorem Wired.replace_retoken (h : net.Wired) (hm : net.node? id = some m) (key : String) {x : NodeId}
    {n : Node} (hn : net.node? x = some n) (hx : x ∉ m.children) :
    n.content.replace (retoken id key) = n.content := by
  cases ht : n.content with
  | number y => rfl
  | formula t =>
    have hnone : ∀ r ∈ LinkedText.refsFrom 0 t.pieces, retoken id key r = none := by
      intro r hr
      obtain ⟨token, hmem⟩ := LinkedText.exists_link_of_mem_refsFrom hr
      refine if_neg ?_
      rintro ⟨-, htarget⟩
      rw [htarget] at hmem
      exact hx (h.mem_children_of_link hn hm ht hmem).2
    rw [Content.replace, LinkedText.replace_eq, LinkedText.replaceFrom_eq_self _ hnone]

/-- Every node after a rename of one of them. -/
theorem Wired.node?_renamed (h : net.Wired) (hm : net.node? id = some m) (name : String) {x : NodeId}
    {n : Node} (hn : net.node? x = some n) :
    (net.renamed id m.children name).node? x = some
      { n with
        content := n.content.replace (retoken id (squeeze name))
        name := if x = id then name else n.name } := by
  rw [Net.node?_renamed, hn, Option.map_some]
  by_cases hx : x ∈ m.children
  · rw [if_pos hx]
  · rw [if_neg hx, h.replace_retoken hm (squeeze name) hn hx]

/-- A formula after a rename of one of the nodes that it may read. -/
theorem content_renamed (h : net.Wired) (hm : net.node? id = some m) (name : String) {x : NodeId}
    {n : Node} {t : LinkedText} (hn : net.node? x = some n) (ht : n.content = .formula t) :
    ∃ n', (net.renamed id m.children name).node? x = some n' ∧
      n'.content = .formula (t.replace (retoken id (squeeze name))) :=
  ⟨_, h.node?_renamed hm name hn, by rw [ht, Content.replace]⟩

/-- Where a rename leaves the mentions of a formula: none of them reaches a node whose name becomes blank,
and none that is not stored reaches the renamed node, unless that keeps its name, blanks aside. -/
def KeptByRename (net : Net) (id : NodeId) (name : String) (n : Node) (refs : List Reference) : Prop :=
  ∀ r ∈ refs, r.kind = .name → r.target = id →
    (∃ m, net.node? id = some m ∧ m.key = squeeze name) ∨ (squeeze name ≠ "" ∧ r ∈ n.content.refs)

variable (h : net.Intact) (hm : net.node? id = some m) (hproper : isProperName name = true)
  (hunused : net.Unused id (squeeze name)) {x : NodeId} {n : Node} {t : LinkedText}
  (hn : net.node? x = some n) (ht : n.content = .formula t) {e : Expr Reference}
  (hread : (net.scope x).read t.chars = .ok e) (hkept : net.KeptByRename id name n e.refs)

include h hm hproper hunused hn ht hread hkept

/-- A link has a token with which it reaches its target after the rename. -/
theorem Intact.resolve_retokened {kind : MentionKind} {target : NodeId} {token : List Char}
    (hmem : .link kind target token ∈ t.pieces) :
    IsToken kind (Piece.retokened id (squeeze name) (.link kind target token)) ∧
      ((net.renamed id m.children name).scope x).resolve kind
        (squeeze (.ofList (Piece.retokened id (squeeze name) (.link kind target token)))) = .ok target := by
  have hsound := h.sound x n t hn ht
  have hlinked := h.linked.scope_of_read hn ht hsound hread
  obtain ⟨htoken, hresolve⟩ := hlinked kind target token hmem
  by_cases hnew : kind = .name ∧ target = id
  · obtain ⟨rfl, rfl⟩ := hnew
    have hne : target ≠ x := (h.wired.parent x n target hn (h.wired.mem_children_of_link hn hm ht hmem).1).2
    have hkey : squeeze name ≠ "" := by
      obtain ⟨r, hr, hkind, htarget⟩ := hsound.exists_ref_of_link hlinked hread hmem
      rcases hkept r hr hkind htarget with ⟨k, hk, hkey⟩ | ⟨hkey, -⟩
      · rw [← hkey, key_of_resolve hk hresolve]
        exact htoken.squeeze_ne_empty
      · exact hkey
    simp only [Piece.retokened, and_self, if_true]
    exact (Reaches.retokened hproper hunused (fun _ => trivial) m.children ⟨m, hm⟩ hne).resolve
      fun hempty => hkey (String.toList_inj.1 hempty)
  · have hother : kind = .index ∨ target ≠ id := by
      cases kind with
      | index => exact .inl rfl
      | name => exact .inr fun htarget => hnew ⟨rfl, htarget⟩
    simp only [Piece.retokened, if_neg hnew]
    exact ((Reaches.token htoken hresolve).renamed hunused m.children hother).resolve htoken.ne_nil

omit hm hproper in
/-- A mention that dangles reaches the same node before and after the rename. -/
theorem Intact.resolve_dangling (hdangles : ¬ Fits False t.pieces) :
    ∃ target, (net.scope x).resolve .name danglingToken = .ok target ∧
      ((net.renamed id m.children name).scope x).resolve .name danglingToken = .ok target := by
  have hsound := h.sound x n t hn ht
  have hlinked := h.linked.scope_of_read hn ht hsound hread
  obtain ⟨r, hr, hkind, hresolve, hnot⟩ := hsound.exists_unrecorded hlinked hread hdangles
  refine ⟨r.target, hresolve, ?_⟩
  by_cases htarget : r.target = id
  · rcases hkept r hr hkind htarget with ⟨k, hk, hkey⟩ | ⟨-, hmem⟩
    · rwa [resolve_congr (directory_renamed_of_key hk hkey m.children)]
    · rw [ht] at hmem
      exact absurd hmem hnot
  · rw [← squeeze_danglingToken] at hresolve ⊢
    exact (((Reaches.token isToken_danglingToken hresolve).renamed hunused m.children
      (.inr htarget)).resolve isToken_danglingToken.ne_nil).2

/-- A formula is read after the rename as before it. -/
theorem Intact.exists_read_renamed : ∃ e', ((net.renamed id m.children name).scope x).read
    (t.replace (retoken id (squeeze name))).chars = .ok e' ∧ e.Alike Reference.Alike e' := by
  have hsound := h.sound x n t hn ht
  have hlinked := h.linked.scope_of_read hn ht hsound hread
  obtain ⟨d, hfits, hdangling⟩ : ∃ d, Fits d t.pieces ∧ (d → ¬ Fits False t.pieces) := by
    by_cases hfits : Fits False t.pieces
    · exact ⟨False, hfits, False.elim⟩
    · exact ⟨_, hsound.fits, fun _ => hfits⟩
  have hbegins : IsFormulaText (writtenAs (Piece.retokened id (squeeze name)) t.pieces) :=
    (hfits.isFormulaText_iff (fun _ => rfl) (fun _ => rfl)).1 hsound.begins
  have hchars : ∀ cs, Piece.chars (.plain cs) = cs := fun _ => rfl
  have hfollows : Follows (fun _ => False) (Expr.Alike Reference.Alike) ((net.scope x).read t.chars)
      (((net.renamed id m.children name).scope x).read (t.replace (retoken id (squeeze name))).chars) := by
    rw [LinkedText.chars_retoken]
    refine hfits.follows hchars (fun _ => rfl) hbegins (fun kind target token hmem => ?_) fun hd => ?_
    · obtain ⟨htoken, hresolve⟩ := hlinked kind target token hmem
      obtain ⟨htoken', hresolve'⟩ := h.resolve_retokened hm hproper hunused hn ht hread hkept hmem
      refine .token htoken htoken' fun _ _ => ?_
      simp only [Grammar.resolvePlace, Piece.chars, Scope.reference_mentionAt hresolve,
        Scope.reference_mentionAt hresolve']
      exact .ok ⟨rfl, rfl⟩
    · obtain ⟨target, hresolve, hresolve'⟩ :=
        h.resolve_dangling (m := m) hunused hn ht hread hkept (hdangling hd)
      rw [← squeeze_danglingToken] at hresolve hresolve'
      refine .token isToken_danglingToken isToken_danglingToken fun _ _ => ?_
      simp only [Grammar.resolvePlace, Scope.reference_mentionAt hresolve,
        Scope.reference_mentionAt hresolve']
      exact .ok ⟨rfl, rfl⟩
  rw [hread] at hfollows
  generalize ((net.renamed id m.children name).scope x).read
    (t.replace (retoken id (squeeze name))).chars = y at hfollows ⊢
  cases hfollows with
  | ok halike => exact ⟨_, rfl, halike⟩
  | fault hfalse => exact hfalse.elim

end Renamed

/-- The input of a node is evaluated to the same value, with references of the same forms to the same
nodes in the same order. -/
def EvaluatesAs (net : Net) (id : NodeId) (evaluation : Evaluation) : Prop :=
  ∃ n evaluation', net.node? id = some n ∧ net.evaluation net.valueOf id n.input = .ok evaluation' ∧
    evaluation'.value = evaluation.value ∧
    List.Forall₂ Reference.Alike evaluation.refs evaluation'.refs

/-- A rename leaves every formula evaluated as it was whose mentions it keeps. -/
theorem run_evaluatesAs_rename (settings : Settings) (ops : List Operation) {id : NodeId} {name : String}
    {net' : Net} (hr : (run settings ops).rename id name = .ok net') {x : NodeId} {n : Node}
    (hn : (run settings ops).node? x = some n) (hf : IsFormulaText n.input.toList)
    {evaluation : Evaluation}
    (heval : (run settings ops).evaluation (run settings ops).valueOf x n.input = .ok evaluation)
    (hkept : (run settings ops).KeptByRename id name n evaluation.refs) :
    net'.EvaluatesAs x evaluation := by
  obtain ⟨m, hm, rfl | ⟨hproper, hunused, rfl⟩⟩ := rename_eq_ok hr
  · refine ⟨n, evaluation, hn, heval, rfl, List.forall₂_same.2 fun r _ => ⟨rfl, rfl⟩⟩
  obtain ⟨t, ht⟩ := exists_formula hf
  obtain ⟨e, hread, hevaluation⟩ := exists_of_bind_eq_ok heval
  cases hevaluation
  rw [toList_input ht] at hread
  have hintact := intact_run settings ops
  obtain ⟨n', hn', ht'⟩ := content_renamed hintact.wired hm name hn ht
  obtain ⟨e', hread', halike⟩ :=
    hintact.exists_read_renamed hm hproper hunused hn ht hread hkept
  rw [← toList_input ht'] at hread'
  refine ⟨n', _, hn', evaluation_eq_of_ok hread' _, ?_, halike.refs⟩
  rw [valueOf_renamed]
  exact (halike.value_eq fun r r' hrr => congrArg (run settings ops).valueOf hrr.2).symm

/-- A formula with several mentions of two nodes. -/
def mentioning : List Operation :=
  [.create "A" 0 0, .create "B" 0 0, .create "C" 0 0, .submit 0 "3" false,
    .submit 2 "=@ A*@1-@0/(@B+@A)" false]

theorem run_mentioning :
    ∃ net' n evaluation, (run .default mentioning).rename 0 " Net cost" = .ok net' ∧
      (run .default mentioning).node? 2 = some n ∧ IsFormulaText n.input.toList ∧
      (run .default mentioning).evaluation (run .default mentioning).valueOf 2 n.input = .ok evaluation ∧
      (run .default mentioning).KeptByRename 0 " Net cost" n evaluation.refs ∧
      net'.EvaluatesAs 2 evaluation := by
  obtain ⟨net', hr⟩ : ∃ net', (run .default mentioning).rename 0 " Net cost" = .ok net' :=
    exists_of_isOk (by decide +kernel)
  obtain ⟨n, hn⟩ : ∃ n, (run .default mentioning).node? 2 = some n :=
    Option.isSome_iff_exists.1 (by decide +kernel)
  have hbegins : ∀ n ∈ (run .default mentioning).node? 2, IsFormulaText n.input.toList := by
    decide +kernel
  have haccepted : ∀ n ∈ (run .default mentioning).node? 2,
      ((run .default mentioning).evaluation (run .default mentioning).valueOf 2 n.input).isOk = true := by
    decide +kernel
  have hstored : ∀ n ∈ (run .default mentioning).node? 2, ∀ evaluation ∈
      ((run .default mentioning).evaluation (run .default mentioning).valueOf 2 n.input).toOption,
      ∀ r ∈ evaluation.refs, r ∈ n.content.refs := by decide +kernel
  obtain ⟨evaluation, heval⟩ := exists_of_isOk (haccepted n hn)
  have hkept : (run .default mentioning).KeptByRename 0 " Net cost" n evaluation.refs := by
    intro r hmem _ _
    exact .inr ⟨by decide, hstored n hn evaluation (by rw [heval]; rfl) r hmem⟩
  exact ⟨net', n, evaluation, hr, hn, hbegins n hn, heval, hkept,
    run_evaluatesAs_rename .default mentioning hr hn (hbegins n hn) heval hkept⟩

/-- A formula reads a node. -/
def naming : List Operation :=
  [.create "A" 0 0, .create "B" 0 0, .submit 1 "=@A" false]

/-- A rename to a blank name succeeds, and leaves a formula that was evaluated without a token. -/
theorem rename_blank_breaks :
    ∃ net' n evaluation, (run .default naming).rename 0 "" = .ok net' ∧
      (run .default naming).node? 1 = some n ∧ IsFormulaText n.input.toList ∧
      (run .default naming).evaluation (run .default naming).valueOf 1 n.input = .ok evaluation ∧
      ¬ net'.EvaluatesAs 1 evaluation := by
  obtain ⟨net', hr⟩ : ∃ net', (run .default naming).rename 0 "" = .ok net' :=
    exists_of_isOk (by decide +kernel)
  obtain ⟨n, hn⟩ : ∃ n, (run .default naming).node? 1 = some n :=
    Option.isSome_iff_exists.1 (by decide +kernel)
  have hbegins : ∀ n ∈ (run .default naming).node? 1, IsFormulaText n.input.toList := by decide +kernel
  have haccepted : ∀ n ∈ (run .default naming).node? 1,
      ((run .default naming).evaluation (run .default naming).valueOf 1 n.input).isOk = true := by
    decide +kernel
  have hrejected : ∀ net' ∈ ((run .default naming).rename 0 "").toOption, ∀ n ∈ net'.node? 1,
      (net'.evaluation net'.valueOf 1 n.input).isOk = false := by decide +kernel
  obtain ⟨evaluation, heval⟩ := exists_of_isOk (haccepted n hn)
  refine ⟨net', n, evaluation, hr, hn, hbegins n hn, heval, ?_⟩
  rintro ⟨n', evaluation', hn', heval', -⟩
  have hok := hrejected net' (by rw [hr]; rfl) n' hn'
  rw [heval'] at hok
  cases hok

end Net

end FormulaNet
