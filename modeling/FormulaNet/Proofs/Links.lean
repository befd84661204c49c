import FormulaNet.Proofs.Characters
import FormulaNet.Proofs.Edges

/-!
# Links that reach their targets

Every link of a stored formula has a token with which a mention reaches the target of the link, in
stale nodes too.  The one exception is a node renamed to blanks: a link to it by name has no token at
all.  `Net.Linked` allows this or not, and `Net.linked_run` says when it holds after a run.
-/

namespace FormulaNet

/-! ## Tokens -/

/-- A token spells something. -/
theorem IsToken.squeeze_ne_empty {kind : MentionKind} {token : List Char} (h : IsToken kind token) :
    squeeze (.ofList token) ≠ "" := by
  intro hempty
  have hchars := congrArg String.toList hempty
  rw [squeeze_ofList, String.toList_ofList] at hchars
  exact h.filter_ne_nil hchars

/-- The name that a rename gives to a node is a token, unless it is blank. -/
theorem isToken_squeeze {name : String} (hproper : isProperName name = true)
    (hne : squeeze name ≠ "") : IsToken .name (squeeze name).toList where
  ne_nil h := hne (String.toList_inj.1 h)
  trimmed := by
    refine trimmed_of_forall fun c hc => ?_
    rw [toList_squeeze] at hc
    simpa using (List.mem_filter.1 hc).2
  admits c hc hnb := by
    rw [toList_squeeze] at hc
    have halpha := List.all_eq_true.1 hproper c (List.mem_filter.1 hc).1
    rw [hnb, Bool.or_false] at halpha
    exact isLetter_of_isAlpha halpha

theorem toList_toString (i : Nat) : (toString i).toList = Nat.toDigits 10 i := by
  rw [Nat.toString_eq_ofList_toDigits, String.toList_ofList]

/-- An index is a token, and it reads as the index. -/
theorem isToken_toString (i : Nat) : IsToken .index (toString i).toList := by
  rw [toList_toString]
  have hdigit : ∀ c ∈ Nat.toDigits 10 i, c.isDigit = true := fun c hc =>
    Nat.isDigit_of_mem_toDigits (by decide) (by decide) hc
  exact ⟨Nat.toDigits_ne_nil, trimmed_of_forall fun c hc => isBlank_eq_false_of_isDigit (hdigit c hc),
    fun c hc _ => hdigit c hc⟩

theorem squeeze_toString (i : Nat) : squeeze (.ofList (toString i).toList) = toString i := by
  rw [String.ofList_toList, squeeze, List.filter_eq_self.2, String.ofList_toList]
  intro c hc
  rw [toList_toString] at hc
  have hdigit : c.isDigit = true := Nat.isDigit_of_mem_toDigits (by decide) (by decide) hc
  simp [isBlank_eq_false_of_isDigit hdigit]

theorem natural_toString (i : Nat) : Decimal.natural (toString i).toList = i := by
  rw [toList_toString, Decimal.natural, Nat.ofDigitChars_ten_toDigits]

namespace Net

/-! ## One link -/

/-- A token with which a link of a node reaches its target; a target whose name is blank may be linked
by no token at all. -/
inductive Reaches (blanks : Prop) (net : Net) (host : NodeId) :
    MentionKind → NodeId → List Char → Prop
  | token {kind : MentionKind} {target : NodeId} {token : List Char} (ht : IsToken kind token)
      (hr : (net.scope host).resolve kind (squeeze (.ofList token)) = .ok target) :
      Reaches blanks net host kind target token
  | blank {target : NodeId} (hblanks : blanks) (htarget : (target, "") ∈ net.directory)
      (hne : target ≠ host) : Reaches blanks net host .name target []

namespace Reaches

variable {blanks : Prop} {net net' : Net} {host target id : NodeId} {kind : MentionKind}
  {token : List Char}

theorem congr (h : net.Reaches blanks host kind target token)
    (hdir : net'.directory = net.directory) : net'.Reaches blanks host kind target token := by
  cases h with
  | token ht hr => exact .token ht (by rwa [resolve_congr hdir])
  | blank hblanks htarget hne => exact .blank hblanks (by rwa [hdir]) hne

/-- New nodes come last, so they take no mention away from another node. -/
theorem create (h : net.Reaches blanks host kind target token) (name : String) (x y : Float) :
    (net.create name x y).2.Reaches blanks host kind target token := by
  cases h with
  | blank hblanks htarget hne =>
    exact .blank hblanks (by simp [htarget]) hne
  | token ht hr =>
    refine .token ht ?_
    cases kind with
    | name =>
      refine resolveName_eq_ok_iff.2 ?_
      rw [directory_create, List.find?_append, resolveName_eq_ok_iff.1 hr, Option.some_or]
    | index =>
      obtain ⟨hat, hne⟩ := resolveIndex_eq_ok_iff.1 hr
      refine resolveIndex_eq_ok_iff.2 ⟨?_, hne⟩
      obtain ⟨hlt, -⟩ := List.getElem?_eq_some_iff.1 hat
      rw [Roster.at?, Net.create, Roster.ids_push, List.getElem?_append_left hlt]
      exact hat

theorem ids_renamed (net : Net) (id : NodeId) (children : IdSet) (name : String) :
    (net.renamed id children name).nodes.ids = net.nodes.ids :=
  Roster.ids_map _ _

/-- A rename keeps the links that are not links by name to the renamed node. -/
theorem renamed (h : net.Reaches blanks host kind target token) {name : String}
    (hunused : net.Unused id (squeeze name)) (children : IdSet)
    (hother : kind = .index ∨ target ≠ id) :
    (net.renamed id children name).Reaches blanks host kind target token := by
  cases h with
  | @blank target hblanks htarget hne =>
    have hother : target ≠ id := hother.resolve_left (by simp)
    refine .blank hblanks ?_ hne
    rw [directory_renamed]
    exact List.mem_map.2 ⟨_, htarget, if_neg hother⟩
  | token ht hr =>
    refine .token ht ?_
    cases kind with
    | index =>
      obtain ⟨hat, hne⟩ := resolveIndex_eq_ok_iff.1 hr
      exact resolveIndex_eq_ok_iff.2 ⟨(Roster.at?_congr (ids_renamed net id children name) _).trans hat, hne⟩
    | name =>
      have hother : target ≠ id := hother.resolve_left (by simp)
      have hdir := directory_renamed net id children name
      rw [← List.filterMap_eq_map'] at hdir
      refine resolveName_of_candidates hr hdir (by simp [hother]) ?_
      intro e hmem e' he' hc
      by_cases hid : e.1 = id
      · simp only [if_pos hid, Option.some.injEq] at he'
        subst he'
        -- the new name is not the token, which another node has
        simp only [candidate, Bool.and_eq_true, decide_eq_true_eq] at hc
        rcases hunused with hblank | hunused
        · exact absurd (hc.1.symm.trans hblank) ht.squeeze_ne_empty
        · have htarget := (resolveName_target hr).1
          rw [← hc.1] at htarget
          exact absurd (hunused target htarget) hother
      · simp only [if_neg hid, Option.some.injEq] at he'
        rwa [he']

/-- A link by name to a renamed node reads its new name. -/
theorem retokened {name : String} (hproper : isProperName name = true) (hunused : net.Unused id (squeeze name))
    (hblanks : squeeze name = "" → blanks) (children : IdSet) (hid : ∃ n, net.node? id = some n)
    (hne : id ≠ host) :
    (net.renamed id children name).Reaches blanks host .name id (squeeze name).toList := by
  obtain ⟨n, hn⟩ := hid
  have hmem : (id, squeeze name) ∈ (net.renamed id children name).directory := by
    rw [directory_renamed]
    exact List.mem_map.2 ⟨(id, n.key), mem_directory.2 ⟨n, hn, rfl⟩, if_pos rfl⟩
  by_cases hkey : squeeze name = ""
  · rw [hkey] at hmem ⊢
    exact .blank (hblanks hkey) hmem hne
  · refine .token (isToken_squeeze hproper hkey) (resolveName_eq_ok_iff.2 ?_)
    rw [String.ofList_toList, squeeze_squeeze]
    have hunique := hunused.resolve_left hkey
    cases hfind : (net.renamed id children name).directory.find? (candidate host (squeeze name)) with
    | none =>
      have hnot := List.find?_eq_none.1 hfind _ hmem
      exact absurd (by simp [candidate, hne]) hnot
    | some e =>
      have hc := List.find?_some hfind
      simp only [candidate, Bool.and_eq_true, decide_eq_true_eq] at hc
      have hin := List.mem_of_find?_eq_some hfind
      rw [directory_renamed] at hin
      obtain ⟨e₀, he₀, rfl⟩ := List.mem_map.1 hin
      by_cases hid : e₀.1 = id
      · simp [hid]
      · rw [if_neg hid] at hc
        refine absurd (hunique e₀.1 ?_) hid
        rw [← hc.1]
        exact he₀

theorem ids_remove (net : Net) (id : NodeId) (index : Nat) :
    (net.remove id index).nodes.ids = (net.nodes.erase id).ids :=
  (Roster.ids_map _ _).trans (Roster.ids_map _ _)

/-- A removal keeps the links to other nodes, where indices from the removed one on are renumbered. -/
theorem removed (h : net.Reaches blanks host kind target token) {index : Nat}
    (hindex : net.nodes.indexOf? id = some index) (hother : target ≠ id) (span : Span) :
    (net.remove id index).Reaches blanks host kind target
      (((renumbering (net.nodes.erase id) index ⟨span, kind, target⟩).map String.toList).getD
        token) := by
  have hdir := directory_remove net id index
  cases h with
  | blank hblanks htarget hne =>
    refine .blank hblanks ?_ hne
    rw [hdir]
    exact List.mem_filter.2 ⟨htarget, by simpa using hother⟩
  | token ht hr =>
    cases kind with
    | name =>
      refine .token ht ?_
      rw [← List.filterMap_eq_filter] at hdir
      refine resolveName_of_candidates hr hdir (by simp [Option.guard, hother]) ?_
      intro e _ e' he' hc
      simp only [Option.guard_eq_some_iff] at he'
      rwa [he'.1]
    | index =>
      obtain ⟨hat, hne⟩ := resolveIndex_eq_ok_iff.1 hr
      have herase := Roster.at?_erase (Roster.indexOf?_eq_some_iff.1 hindex)
      obtain ⟨n, hn⟩ := mem_ids_iff.1 (Roster.mem_ids_of_at? hat)
      have hmem : target ∈ (net.nodes.erase id).ids := by
        refine Roster.mem_ids_iff_get?.2 ⟨n, ?_⟩
        rw [Roster.get?_erase, if_neg hother]
        exact hn
      obtain ⟨j, hj⟩ := Roster.exists_indexOf? hmem
      have hjat := Roster.indexOf?_eq_some_iff.1 hj
      by_cases hle : index ≤ j
      · simp only [renumbering, hj, if_pos hle, Option.map_some, Option.getD_some]
        refine .token (isToken_toString j) (resolveIndex_eq_ok_iff.2 ⟨?_, hne⟩)
        rw [squeeze_toString, natural_toString, Roster.at?_congr (ids_remove net id index), hjat]
      · simp only [renumbering, hj, if_neg hle, Option.map_none, Option.getD_none]
        refine .token ht (resolveIndex_eq_ok_iff.2 ⟨?_, hne⟩)
        -- in front of the removed node an index is what it was
        have hlt : j < index := Nat.lt_of_not_le hle
        have hold : net.nodes.at? j = some target := by
          rw [herase, if_pos hlt] at hjat
          exact hjat
        rw [Roster.at?_inj hat hold, Roster.at?_congr (ids_remove net id index), hjat]

end Reaches

/-! ## All links -/

/-- Every link of every formula has a token that reaches its target. -/
def Linked (blanks : Prop) (net : Net) : Prop :=
  ∀ id n t, net.node? id = some n → n.content = .formula t →
    ∀ kind target token, .link kind target token ∈ t.pieces → net.Reaches blanks id kind target token

variable {blanks : Prop} {net : Net}

theorem Linked.create (h : net.Linked blanks) (name : String) (x y : Float) :
    (net.create name x y).2.Linked blanks := by
  intro id n t hn ht kind target token hmem
  rcases node?_create_cases hn with ⟨-, rfl⟩ | hn
  · cases ht
  · exact (h id n t hn ht kind target token hmem).create name x y

theorem Linked.modify (h : net.Linked blanks) (id : NodeId) {f : Node → Node}
    (hname : ∀ n, (f n).name = n.name) (hcontent : ∀ n, (f n).content = n.content) :
    (net.modify id f).Linked blanks := by
  intro x n t hn ht kind target token hmem
  refine Reaches.congr ?_ (net.directory_modify id hname)
  rw [node?_modify] at hn
  split at hn
  · obtain ⟨n₀, hn₀, rfl⟩ := exists_of_map_eq_some hn
    rw [hcontent] at ht
    exact h x n₀ t hn₀ ht kind target token hmem
  · exact h x n t hn ht kind target token hmem

theorem Linked.adopt (h : net.Linked blanks) {id : NodeId} {text : String} {m : Meaning}
    (hm : net.meaning id text = .ok m) : (net.adopt id m).Linked blanks := by
  cases hid : net.node? id with
  | none => rwa [adopt_of_none hid]
  | some n₁ =>
    intro x n t hn ht kind target token hmem
    refine Reaches.congr ?_ (net.directory_adopt id m)
    by_cases hx : x = id
    · subst hx
      rw [(node?_adopt_self hid hn).1] at ht
      obtain ⟨htoken, hresolve⟩ := (sound_of_meaning hm ht).2.1 kind target token hmem
      exact .token htoken hresolve
    · obtain ⟨k, hk, hcontent, -⟩ := node?_adopt_other hid hx hn
      exact h x k t hk (hcontent ▸ ht) kind target token hmem

/-- The links to a node are in its children. -/
theorem Wired.mem_children_of_link (h : net.Wired) {x id : NodeId} {n m : Node} {t : LinkedText}
    (hn : net.node? x = some n) (hm : net.node? id = some m) (ht : n.content = .formula t)
    {kind : MentionKind} {token : List Char} (hmem : .link kind id token ∈ t.pieces) :
    id ∈ n.parents ∧ x ∈ m.children := by
  have hparent : id ∈ n.parents :=
    (h.mem_parents_iff hn ht).2 (LinkedText.mem_targets.2 ⟨kind, token, hmem⟩)
  exact ⟨hparent, (h.mirrored id x m n hm hn).1 hparent⟩

theorem Linked.renamed (h : net.Linked blanks) (hw : net.Wired) {id : NodeId} {m : Node}
    (hm : net.node? id = some m) {name : String} (hproper : isProperName name = true)
    (hunused : net.Unused id (squeeze name)) (hblanks : squeeze name = "" → blanks) :
    (net.renamed id m.children name).Linked blanks := by
  intro x n t hn ht kind target token hmem
  rw [node?_renamed] at hn
  obtain ⟨n₀, hn₀, rfl⟩ := exists_of_map_eq_some hn
  dsimp only at ht
  split at ht
  · obtain ⟨t₀, ht₀, rfl⟩ := Content.exists_of_replace_eq ht
    rw [LinkedText.replace_eq] at hmem
    obtain ⟨old, span, hold, rfl⟩ := LinkedText.exists_link_of_mem_replaceFrom _ hmem
    have hreach := h x n₀ t₀ hn₀ ht₀ kind target old hold
    by_cases hnew : kind = .name ∧ target = id
    · obtain ⟨rfl, rfl⟩ := hnew
      have hne : target ≠ x :=
        (hw.parent x n₀ target hn₀ (hw.mem_children_of_link hn₀ hm ht₀ hold).1).2
      simpa [retoken] using Reaches.retokened hproper hunused hblanks m.children ⟨m, hm⟩ hne
    · have hother : kind = .index ∨ target ≠ id := by
        cases kind with
        | index => exact .inl rfl
        | name => exact .inr fun htarget => hnew ⟨rfl, htarget⟩
      simpa [retoken, hnew] using hreach.renamed hunused m.children hother
  · next hx =>
    refine (h x n₀ t hn₀ ht kind target token hmem).renamed hunused m.children (.inr ?_)
    rintro rfl
    exact hx (hw.mem_children_of_link hn₀ hm ht hmem).2

/-- The links that are left after a removal, before their tokens are renumbered. -/
theorem link_of_detached {id : NodeId} {n : Node} {t : LinkedText} {kind : MentionKind}
    {target : NodeId} {token : List Char}
    (ht : (if id ∈ n.parents then (n.content.replace (dangle id)).unlink id else n.content) =
      .formula t)
    (hlinks : ∀ t₀, n.content = .formula t₀ → ∀ kind token,
      .link kind id token ∈ t₀.pieces → id ∈ n.parents)
    (hmem : .link kind target token ∈ t.pieces) :
    target ≠ id ∧ ∃ t₀, n.content = .formula t₀ ∧ .link kind target token ∈ t₀.pieces := by
  split at ht
  · obtain ⟨t₁, ht₁, rfl⟩ := Content.exists_of_unlink_eq ht
    obtain ⟨t₀, ht₀, rfl⟩ := Content.exists_of_replace_eq ht₁
    obtain ⟨hmem, hne⟩ := LinkedText.link_mem_map_unlinkPiece hmem
    rw [LinkedText.replace_eq] at hmem
    obtain ⟨old, span, hold, rfl⟩ := LinkedText.exists_link_of_mem_replaceFrom _ hmem
    refine ⟨hne, t₀, ht₀, ?_⟩
    simpa [dangle, hne] using hold
  · next hid =>
    refine ⟨?_, t, ht, hmem⟩
    rintro rfl
    exact hid (hlinks t ht kind token hmem)

theorem Linked.removed (h : net.Linked blanks) (hw : net.Wired) {id : NodeId} {index : Nat}
    (hindex : net.nodes.indexOf? id = some index) : (net.remove id index).Linked blanks := by
  have hat := Roster.indexOf?_eq_some_iff.1 hindex
  obtain ⟨m, hm⟩ := mem_ids_iff.1 (Roster.mem_ids_of_at? hat)
  intro x n t hn ht kind target token hmem
  rw [node?_remove] at hn
  split at hn
  · cases hn
  obtain ⟨n₀, hn₀, rfl⟩ := exists_of_map_eq_some hn
  obtain ⟨t₁, ht₁, rfl⟩ := Content.exists_of_replace_eq ht
  rw [LinkedText.replace_eq] at hmem
  obtain ⟨old, span, hold, rfl⟩ := LinkedText.exists_link_of_mem_replaceFrom _ hmem
  obtain ⟨hne, t₀, ht₀, hmem₀⟩ := link_of_detached ht₁
    (fun t₀ ht₀ kind token hmem => (hw.mem_children_of_link hn₀ hm ht₀ hmem).1) hold
  exact (h x n₀ t₀ hn₀ ht₀ kind target old hmem₀).removed hindex hne span

/-- Links keep reaching their targets, if names that are blank are allowed only where they may be. -/
theorem kept_linked {allowed : String → Prop}
    (hallowed : ∀ name, allowed name → squeeze name = "" → blanks) :
    Kept allowed fun net => net.Wired ∧ net.Linked blanks where
  create net name x y h := ⟨kept_wired.create net name x y h.1, h.2.create name x y⟩
  move net id p h := ⟨kept_wired.move net id p h.1, h.2.modify id (fun _ => rfl) fun _ => rfl⟩
  rename net id name net' hname h hr := by
    refine ⟨kept_wired.rename net id name net' trivial h.1 hr, ?_⟩
    obtain ⟨n, hn, rfl | ⟨hproper, hunused, rfl⟩⟩ := rename_eq_ok hr
    · exact h.2
    · exact h.2.renamed h.1 hn hproper hunused (hallowed name hname)
  remove net id index hindex h :=
    ⟨kept_wired.remove net id index hindex h.1, h.2.removed h.1 hindex⟩
  markStale net id h := ⟨kept_wired.markStale net id h.1, h.2.modify id (fun _ => rfl) fun _ => rfl⟩
  adopt net id text m hm h := ⟨kept_wired.adopt net id text m hm h.1, h.2.adopt hm⟩

theorem linked_run {allowed : String → Prop}
    (hallowed : ∀ name, allowed name → squeeze name = "" → blanks) (settings : Settings)
    {ops : List Operation} (hops : ∀ op ∈ ops, ∀ name ∈ op.newName?, allowed name) :
    (run settings ops).Linked blanks := by
  have hempty : (empty settings).Wired ∧ (empty settings).Linked blanks :=
    ⟨wired_empty settings, fun id n t hn => by cases hn⟩
  exact ((kept_linked hallowed).run hempty hops).2

end Net

end FormulaNet
