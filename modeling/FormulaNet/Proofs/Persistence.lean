import FormulaNet.Proofs.Staleness
import FormulaNet.Proofs.Visits

/-!
# What walks leave alone

A walk changes neither the directory nor the settings, so that inputs are accepted as before
(`Net.meaning_congr`).  An accepted content stays as it is, a formula that cannot be evaluated stays
stale, and as a formula that is evaluated again still reads what it is linked to, edges are added at
most (`Net.keptByWalks_grown`).  A walk without a fault only evaluates nodes again, and leaves none of
those out that read a node whose value changed (`Net.Settling.walk`).
-/

namespace FormulaNet.Net

/-! ## Inputs and the directory -/

theorem reference_congr {net net' : Net} (h : net'.directory = net.directory) (host : NodeId) :
    (net'.scope host).reference = (net.scope host).reference := by
  funext m
  rw [Scope.reference, Scope.reference, resolve_congr h]

theorem read_congr {net net' : Net} (h : net'.directory = net.directory) (host : NodeId) (cs : List Char) :
    (net'.scope host).read cs = (net.scope host).read cs := by
  rw [Scope.read, Scope.read, reference_congr h]

/-- Nets with the same directory accept the same inputs, as the same contents. -/
theorem meaning_congr {net net' : Net} (h : net'.directory = net.directory) (host : NodeId)
    (text : String) :
    (net'.meaning host text).map Meaning.content = (net.meaning host text).map Meaning.content := by
  unfold meaning
  split
  · rfl
  · next offset body hps =>
    rw [evaluatePlaced, evaluatePlaced, reference_congr h]
    cases Expr.ofTokens (net.scope host).reference (Token.ofPlaced body) with
    | ok e => rfl
    | error fault => rfl
  · rfl

section Congruence

variable {net net' : Net} {host : NodeId} {text : String}

theorem content_of_meaning_congr (h : net'.directory = net.directory) {m m' : Meaning}
    (hm : net.meaning host text = .ok m) (hm' : net'.meaning host text = .ok m') :
    m'.content = m.content := by
  have hcongr := meaning_congr h host text
  rw [hm, hm'] at hcongr
  exact Except.ok.inj hcongr

theorem exists_meaning_congr (h : net'.directory = net.directory) {m : Meaning}
    (hm : net.meaning host text = .ok m) :
    ∃ m', net'.meaning host text = .ok m' ∧ m'.content = m.content := by
  have hcongr := meaning_congr h host text
  rw [hm] at hcongr
  cases hm' : net'.meaning host text with
  | ok m' => exact ⟨m', rfl, content_of_meaning_congr h hm hm'⟩
  | error fault =>
    rw [hm'] at hcongr
    cases hcongr

theorem meaning_error_congr (h : net'.directory = net.directory) {fault : Fault}
    (hm : net.meaning host text = .error fault) : net'.meaning host text = .error fault := by
  have hcongr := meaning_congr h host text
  rw [hm] at hcongr
  cases hm' : net'.meaning host text with
  | ok m' =>
    rw [hm'] at hcongr
    cases hcongr
  | error fault' =>
    rw [hm'] at hcongr
    cases hcongr
    rfl

end Congruence

theorem text_of_meaning {net : Net} {host : NodeId} {text : String} {m : Meaning} {t : LinkedText}
    (hm : net.meaning host text = .ok m) (ht : m.content = .formula t) : t.text = text := by
  obtain ⟨-, -, hchars, -⟩ := sound_of_meaning hm ht
  rw [LinkedText.text, hchars, String.ofList_toList]

/-! ## Steps of a walk -/

@[simp] theorem directory_markStale (net : Net) (id : NodeId) :
    (net.markStale id).directory = net.directory :=
  net.directory_modify id fun _ => rfl

@[simp] theorem settings_adopt (net : Net) (id : NodeId) (m : Meaning) :
    (net.adopt id m).settings = net.settings := by
  unfold adopt
  split
  · rfl
  · rfl

theorem node?_markStale_self {net : Net} {id : NodeId} {n : Node} (hn : net.node? id = some n) :
    (net.markStale id).node? id = some n.markStale := by
  rw [node?_markStale, if_pos rfl, hn, Option.map_some]

/-- A node keeps its content when some node is made stale. -/
theorem exists_node?_markStale {net : Net} {x : NodeId} {n : Node} (hn : net.node? x = some n)
    (id : NodeId) : ∃ n', (net.markStale id).node? x = some n' ∧ n'.content = n.content ∧
      (n.isStale = true → n'.isStale = true) := by
  rw [node?_markStale, hn]
  split
  · exact ⟨n.markStale, rfl, rfl, fun _ => rfl⟩
  · exact ⟨n, rfl, rfl, fun h => h⟩

theorem directory_refresh {net net' : Net} {id : NodeId} (h : net.refresh id = .ok net') :
    net'.directory = net.directory := by
  obtain ⟨n, -, ⟨x, -, rfl⟩ | ⟨t, m, -, -, rfl⟩⟩ := refresh_eq_ok h
  · rfl
  · exact net.directory_adopt id m

theorem settings_refresh {net net' : Net} {id : NodeId} (h : net.refresh id = .ok net') :
    net'.settings = net.settings := by
  obtain ⟨n, -, ⟨x, -, rfl⟩ | ⟨t, m, -, -, rfl⟩⟩ := refresh_eq_ok h
  · rfl
  · exact net.settings_adopt id m

/-- An evaluation that fails has a formula to fail. -/
theorem refresh_eq_error {net : Net} {id : NodeId} {n : Node} (hn : net.node? id = some n)
    {fault : Fault} (h : net.refresh id = .error fault) :
    ∃ t, n.content = .formula t ∧ net.meaning id t.text = .error fault := by
  rw [refresh, node, hn] at h
  cases hcontent : n.content with
  | number x =>
    simp only [bind, Except.bind, hcontent] at h
    cases h
  | formula t =>
    refine ⟨t, rfl, ?_⟩
    simp only [bind, Except.bind, hcontent] at h
    split at h
    · next hm => rw [hm, Except.error.inj h]
    · cases h

/-- Another node than the one that is evaluated again. -/
theorem node?_refresh_other {net net' : Net} {id x : NodeId} (h : net.refresh id = .ok net')
    (hx : x ≠ id) {n : Node} (hn : net.node? x = some n) :
    ∃ n', net'.node? x = some n' ∧ n'.content = n.content ∧ n'.result = n.result := by
  obtain ⟨k, hk, ⟨y, -, rfl⟩ | ⟨t, m, -, -, rfl⟩⟩ := refresh_eq_ok h
  · exact ⟨n, hn, rfl, rfl⟩
  · rw [node?_adopt x hk, hn]
    refine ⟨_, rfl, ?_⟩
    dsimp only
    rw [if_neg hx]
    exact ⟨rfl, rfl⟩

/-- An accepted content stays, however often the node is evaluated again. -/
theorem keptByWalks_content {net : Net} {id : NodeId} {text : String} {m : Meaning}
    (hm : net.meaning id text = .ok m) : KeptByWalks fun net' =>
      net'.directory = net.directory ∧ ∃ n, net'.node? id = some n ∧ n.content = m.content where
  markStale net' x h := by
    obtain ⟨hdir, n, hn, hcontent⟩ := h
    obtain ⟨n', hn', hcontent', -⟩ := exists_node?_markStale hn x
    exact ⟨(net'.directory_markStale x).trans hdir, n', hn', hcontent'.trans hcontent⟩
  refresh net₁ x net₂ hr h := by
    obtain ⟨hdir, n, hn, hcontent⟩ := h
    refine ⟨(directory_refresh hr).trans hdir, ?_⟩
    by_cases hx : id = x
    · subst hx
      obtain ⟨k, hk, ⟨y, -, rfl⟩ | ⟨t, m', ht, hm', rfl⟩⟩ := refresh_eq_ok hr
      · exact ⟨n, hn, hcontent⟩
      · obtain rfl : n = k := Option.some.inj (hn.symm.trans hk)
        rw [text_of_meaning hm (hcontent.symm.trans ht)] at hm'
        rw [node?_adopt id hk, hn]
        exact ⟨_, rfl, by simpa using content_of_meaning_congr hdir hm hm'⟩
    · obtain ⟨n', hn', hcontent', -⟩ := node?_refresh_other hr hx hn
      exact ⟨n', hn', hcontent'.trans hcontent⟩

/-- A formula that cannot be evaluated, in a node that is stale. -/
def Failing (net : Net) (id : NodeId) (fault : Fault) : Prop :=
  ∃ n t, net.node? id = some n ∧ n.isStale = true ∧ n.content = .formula t ∧
    net.meaning id t.text = .error fault

/-- What cannot be evaluated stays stale. -/
theorem keptByWalks_failing (id : NodeId) (fault : Fault) : KeptByWalks fun net => net.Failing id fault where
  markStale net x h := by
    obtain ⟨n, t, hn, hstale, ht, hm⟩ := h
    obtain ⟨n', hn', hcontent, hstale'⟩ := exists_node?_markStale hn x
    exact ⟨n', t, hn', hstale' hstale, hcontent.trans ht,
      meaning_error_congr (net.directory_markStale x) hm⟩
  refresh net x net' hr h := by
    obtain ⟨n, t, hn, hstale, ht, hm⟩ := h
    have hm' := meaning_error_congr (directory_refresh hr) hm
    by_cases hx : id = x
    · subst hx
      obtain ⟨k, hk, ⟨y, hy, -⟩ | ⟨s, m, hs, hms, -⟩⟩ := refresh_eq_ok hr
      · obtain rfl : n = k := Option.some.inj (hn.symm.trans hk)
        cases ht.symm.trans hy
      · obtain rfl : n = k := Option.some.inj (hn.symm.trans hk)
        cases ht.symm.trans hs
        cases hm.symm.trans hms
    · obtain ⟨n', hn', hcontent, hresult⟩ := node?_refresh_other hr hx hn
      exact ⟨n', t, hn', by rwa [Node.isStale, hresult], hcontent.trans ht, hm'⟩

/-! ## Edges are added at most -/

/-- What holds of every net of a run. -/
structure Intact (net : Net) : Prop where
  wired : net.Wired
  sound : net.FormulasSound
  linked : net.Linked True

theorem kept_intact : Kept (fun _ => True) Intact where
  create net name x y h :=
    ⟨kept_wired.create net name x y h.wired, kept_formulasSound.create net name x y h.sound,
      h.linked.create name x y⟩
  move net id p h :=
    ⟨kept_wired.move net id p h.wired, kept_formulasSound.move net id p h.sound,
      h.linked.modify id (fun _ => rfl) fun _ => rfl⟩
  rename net id name net' hname h hr := by
    have hlinked := (@kept_linked True (fun _ => True)
      (fun _ _ _ => trivial)).rename net id name net' hname ⟨h.wired, h.linked⟩ hr
    exact ⟨hlinked.1, kept_formulasSound.rename net id name net' hname h.sound hr, hlinked.2⟩
  remove net id index hindex h :=
    ⟨kept_wired.remove net id index hindex h.wired,
      kept_formulasSound.remove net id index hindex h.sound, h.linked.removed h.wired hindex⟩
  markStale net id h :=
    ⟨kept_wired.markStale net id h.wired, kept_formulasSound.markStale net id h.sound,
      h.linked.modify id (fun _ => rfl) fun _ => rfl⟩
  adopt net id text m hm h :=
    ⟨kept_wired.adopt net id text m hm h.wired, kept_formulasSound.adopt net id text m hm h.sound,
      h.linked.adopt hm⟩

theorem kept_settings (settings : Settings) : Kept (fun _ => True) fun net => net.settings = settings where
  create _ _ _ _ h := h
  move _ _ _ h := h
  rename _ _ _ _ _ h hr := by
    obtain ⟨n, -, rfl | ⟨-, -, rfl⟩⟩ := rename_eq_ok hr
    · exact h
    · exact h
  remove _ _ _ _ h := h
  markStale _ _ h := h
  adopt net id _ m _ h := (net.settings_adopt id m).trans h

theorem settings_run (settings : Settings) (ops : List Operation) : (run settings ops).settings = settings :=
  (kept_settings settings).run rfl fun _ _ _ _ => trivial

theorem intact_run (settings : Settings) (ops : List Operation) : (run settings ops).Intact :=
  ⟨wired_run settings ops, formulasSound_run settings ops,
    @linked_run True (fun _ => True) (fun _ _ _ => trivial) settings ops fun _ _ _ _ => trivial⟩

/-- A formula that is evaluated again still reads the nodes that it is linked to. -/
theorem Intact.mem_targets_of_meaning {net : Net} (h : net.Intact) {id : NodeId} {n : Node}
    {t : LinkedText} (hn : net.node? id = some n) (ht : n.content = .formula t) {m : Meaning}
    (hm : net.meaning id t.text = .ok m) {p : NodeId} (hp : p ∈ t.targets) : p ∈ m.content.targets := by
  have hsound := h.sound id n t hn ht
  obtain ⟨e, he, hcontent⟩ := h.sound.exists_read hn ht hm
  have hlinked := h.linked.scope_of_read hn ht hsound he
  obtain ⟨kind, token, hlink⟩ := LinkedText.mem_targets.1 hp
  obtain ⟨r, hr, -, rfl⟩ := hsound.exists_ref_of_link hlinked he hlink
  obtain ⟨hcut, hchars, hrefs, -⟩ := LinkedText.sound_cut hsound.isFormulaText_chars he
  rw [hcontent, Content.targets, Content.refs, hrefs]
  exact List.mem_map_of_mem hr

theorem exists_node?_congr {net net' : Net} (h : net'.directory = net.directory) {id : NodeId} :
    (∃ n, net'.node? id = some n) ↔ ∃ n, net.node? id = some n := by
  rw [← mem_ids_iff, ← mem_ids_iff, ids_congr h]

/-- A node is read by another one. -/
def ReadBy (net : Net) (a b : NodeId) : Prop :=
  ∃ n, net.node? a = some n ∧ b ∈ n.children

theorem mem_edges {net : Net} {a b : NodeId} : (a, b) ∈ net.edges ↔ net.ReadBy a b := by
  rw [edges, List.mem_flatMap]
  constructor
  · rintro ⟨e, he, hab⟩
    obtain ⟨c, hc, h⟩ := List.mem_map.1 hab
    cases h
    exact ⟨e.2, Roster.get?_eq_some_iff_mem.2 he, hc⟩
  · rintro ⟨n, hn, hb⟩
    exact ⟨(a, n), Roster.get?_eq_some_iff_mem.1 hn, List.mem_map.2 ⟨b, hb, rfl⟩⟩

theorem Wired.exists_of_readBy {net : Net} (h : net.Wired) {a b : NodeId} (hab : net.ReadBy a b) :
    (∃ n, net.node? a = some n) ∧ ∃ n, net.node? b = some n := by
  obtain ⟨n, hn, hb⟩ := hab
  exact ⟨⟨n, hn⟩, h.child a n b hn hb⟩

theorem readBy_markStale {net : Net} {id a b : NodeId} :
    (net.markStale id).ReadBy a b ↔ net.ReadBy a b := by
  rw [ReadBy, ReadBy, node?_markStale]
  split
  · constructor
    · rintro ⟨n', hn', hb⟩
      obtain ⟨n, hn, rfl⟩ := exists_of_map_eq_some hn'
      exact ⟨n, hn, hb⟩
    · rintro ⟨n, hn, hb⟩
      exact ⟨n.markStale, by rw [hn, Option.map_some], hb⟩
  · exact Iff.rfl

theorem Intact.readBy_refresh {net net' : Net} (h : net.Intact) {id a b : NodeId}
    (hr : net.refresh id = .ok net') (hab : net.ReadBy a b) : net'.ReadBy a b := by
  obtain ⟨n, hn, ⟨x, -, rfl⟩ | ⟨t, m, ht, hm, rfl⟩⟩ := refresh_eq_ok hr
  · exact hab
  obtain ⟨k, hk, hb⟩ := hab
  have hkept : b ∈ relinked id n.parents (.ofList m.content.targets) a k := by
    refine (mem_relinked id).2 (.inr ⟨hb, fun _ ha => IdSet.mem_ofList.2 ?_⟩)
    exact h.mem_targets_of_meaning hn ht hm ((h.wired.mem_parents_iff hn ht).1 ha)
  rw [ReadBy, node?_adopt a hn, hk]
  refine ⟨_, rfl, ?_⟩
  dsimp only
  split
  · exact hkept
  · exact hkept

theorem Wired.readBy_iff {net : Net} (h : net.Wired) {a b : NodeId} {n : Node}
    (hn : net.node? b = some n) : net.ReadBy a b ↔ a ∈ n.parents := by
  constructor
  · rintro ⟨m, hm, hb⟩
    exact (h.mirrored a b m n hm hn).2 hb
  · intro ha
    obtain ⟨⟨m, hm⟩, -⟩ := h.parent b n a hn ha
    exact ⟨m, hm, (h.mirrored a b m n hm hn).1 ha⟩

section Refresh

variable {net net' : Net} {id : NodeId} (h : net.Intact) (hr : net.refresh id = .ok net')

include h hr

/-- The other nodes keep what they have, their children aside. -/
theorem Intact.exists_node?_refresh {x : NodeId} (hx : x ≠ id) {n' : Node} (hn' : net'.node? x = some n') :
    ∃ n, net.node? x = some n ∧ n'.content = n.content ∧ n'.result = n.result ∧
      n'.parents = n.parents := by
  obtain ⟨n, hn⟩ := (exists_node?_congr (directory_refresh hr)).1 ⟨n', hn'⟩
  obtain ⟨k, hk, hcontent, hresult⟩ := node?_refresh_other hr hx hn
  obtain rfl : k = n' := Option.some.inj (hk.symm.trans hn')
  refine ⟨n, hn, hcontent, hresult, ?_⟩
  rw [(kept_intact.refresh h hr).wired.parents x k hk, h.wired.parents x n hn, hcontent]

theorem Intact.readBy_of_refresh {a x : NodeId} (hx : x ≠ id) (hread : net'.ReadBy a x) :
    net.ReadBy a x := by
  have h' := kept_intact.refresh h hr
  obtain ⟨-, n', hn'⟩ := h'.wired.exists_of_readBy hread
  obtain ⟨n, hn, -, -, hparents⟩ := h.exists_node?_refresh hr hx hn'
  rw [h'.wired.readBy_iff hn', hparents] at hread
  exact (h.wired.readBy_iff hn).2 hread

theorem Intact.valueOf_refresh {x : NodeId} (hx : x ≠ id) : net'.valueOf x = net.valueOf x := by
  cases hn' : net'.node? x with
  | none =>
    cases hn : net.node? x with
    | none => rw [valueOf, valueOf, hn, hn']
    | some n =>
      obtain ⟨k, hk⟩ := (exists_node?_congr (directory_refresh hr)).2 ⟨n, hn⟩
      cases hn'.symm.trans hk
  | some n' =>
    obtain ⟨n, hn, -, hresult, -⟩ := h.exists_node?_refresh hr hx hn'
    rw [valueOf_of_node? hn, valueOf_of_node? hn', Node.value, Node.value, hresult]

end Refresh

/-- A net after some steps of a walk. -/
structure Grown (old net : Net) : Prop where
  intact : net.Intact
  directory : net.directory = old.directory
  settings : net.settings = old.settings
  readBy : ∀ a b, old.ReadBy a b → net.ReadBy a b

theorem Intact.grown {net : Net} (h : net.Intact) : Grown net net :=
  ⟨h, rfl, rfl, fun _ _ => id⟩

theorem keptByWalks_grown (old : Net) : KeptByWalks (Grown old) where
  markStale net id h :=
    ⟨kept_intact.markStale net id h.intact, (net.directory_markStale id).trans h.directory, h.settings,
      fun a b hab => readBy_markStale.2 (h.readBy a b hab)⟩
  refresh _ _ _ hr h :=
    ⟨kept_intact.refresh h.intact hr, (directory_refresh hr).trans h.directory,
      (settings_refresh hr).trans h.settings,
      fun a b hab => h.intact.readBy_refresh hr (h.readBy a b hab)⟩

/-! ## Walks without a fault -/

/-- A property of nets in which some nodes are due.  A node that is evaluated again is no longer due,
and the nodes that read it are, unless it has a value as before. -/
structure Settling (P : (NodeId → Prop) → Net → Prop) (Q : NodeId × Net → Prop) : Prop where
  mono : ∀ D D' net, (∀ c, D c → D' c) → P D net → P D' net
  refresh : ∀ D child net net', Q (child, net) → net.refresh child = .ok net' →
    P (fun c => D c ∨ c = child) net → P (fun c => D c ∨ net'.ReadBy child c) net' ∧
      ((net.valueOf child != net'.valueOf child) = false → P D net')

namespace Settling

variable {P : (NodeId → Prop) → Net → Prop} {Q : NodeId × Net → Prop} (hP : Settling P Q)
  {D : NodeId → Prop} {net : Net}

include hP

theorem visit (descend : NodeId → Net → Outcome) (below : NodeId → Net → List (NodeId × Net))
    (hdescend : ∀ D child net, P (fun c => D c ∨ net.ReadBy child c) net →
      (descend child net).fault = none → (∀ e ∈ below child net, Q e) → P D (descend child net).net)
    (ids : List NodeId) (h : P (fun c => D c ∨ c ∈ ids) net)
    (hf : (Net.visit descend ids net).fault = none) (hQ : ∀ e ∈ visited descend below ids net, Q e) :
    P D (Net.visit descend ids net).net := by
  induction ids generalizing net with
  | nil => exact hP.mono _ _ net (fun c hc => hc.resolve_right List.not_mem_nil) h
  | cons child others ih =>
    rw [Net.visit] at hf ⊢
    rw [visited, List.forall_mem_cons] at hQ
    obtain ⟨hchild, hQ⟩ := hQ
    cases hr : net.refresh child with
    | error fault =>
      simp only [hr] at hf
      cases hf
    | ok net' =>
      have hsplit : P (fun c => (D c ∨ c ∈ others) ∨ c = child) net := by
        refine hP.mono _ _ net (fun c hc => ?_) h
        rw [List.mem_cons, or_comm (a := c = child), ← or_assoc] at hc
        exact hc
      obtain ⟨hnew, hsame⟩ := hP.refresh _ child net net' hchild hr hsplit
      simp only [hr] at hf hQ ⊢
      split at hf
      · next hchanged =>
        rw [if_pos hchanged] at hQ ⊢
        obtain ⟨hbelow, hQ⟩ := List.forall_mem_append.1 hQ
        have hdone := hdescend (fun c => D c ∨ c ∈ others) child net' hnew
        cases hd : descend child net' with
        | mk net'' fault =>
          rw [hd] at hf hQ hdone
          cases fault with
          | some fault => cases hf
          | none => exact ih (hdone rfl hbelow) hf hQ
      · next hunchanged =>
        rw [if_neg hunchanged] at hQ ⊢
        exact ih (hsame (Bool.eq_false_iff.2 hunchanged)) hf hQ

/-- After a walk without a fault the nodes that read the edited one are no longer due. -/
theorem walk (room : Nat) (id : NodeId) (h : P (fun c => D c ∨ net.ReadBy id c) net)
    (hf : (Net.walk room id net).fault = none) (hQ : ∀ e ∈ walked room id net, Q e) :
    P D (Net.walk room id net).net := by
  induction room generalizing D id net with
  | zero => cases hf
  | succ room ih =>
    rw [Net.walk] at hf ⊢
    rw [walked] at hQ
    cases hid : net.node id with
    | error fault =>
      rw [hid] at hf
      cases hf
    | ok n =>
      have hchildren : P (fun c => D c ∨ c ∈ n.children.toList) net := by
        refine hP.mono _ _ net (fun c hc => hc.imp_right ?_) h
        rintro ⟨k, hk, hread⟩
        obtain rfl : n = k := Option.some.inj ((node_eq_ok hid).symm.trans hk)
        exact hread
      have hvisit := hP.visit (Net.walk room) (walked room)
        (fun D child _ h hf hQ => ih child h hf hQ) n.children.toList hchildren
      rw [hid] at hf hQ
      dsimp only at hf hQ ⊢
      cases hv : Net.visit (Net.walk room) n.children.toList net with
      | mk net' fault =>
        rw [hv] at hf hvisit
        cases fault with
        | some fault => cases hf
        | none => exact hvisit rfl hQ

theorem walkBelow (id : NodeId) (h : P (fun c => D c ∨ net.ReadBy id c) net)
    (hf : (net.walkBelow id).fault = none) (hQ : ∀ e ∈ net.walkedBelow id, Q e) :
    P D (net.walkBelow id).net :=
  hP.walk _ id h hf hQ

end Settling

/-- A walk without a fault does nothing but evaluate nodes again. -/
theorem walkBelow_of_fault_eq_none {I : Net → Prop}
    (hI : ∀ net id net', net.refresh id = .ok net' → I net → I net') {net : Net} {id : NodeId}
    (h : I net) (hf : (net.walkBelow id).fault = none) : I (net.walkBelow id).net := by
  have hsettling : Settling (fun _ => I) fun _ => True := by
    refine ⟨fun _ _ _ _ h => h, fun _ child net net' _ hr h => ?_⟩
    exact ⟨hI net child net' hr h, fun _ => hI net child net' hr h⟩
  exact hsettling.walkBelow (D := fun _ => False) id h hf fun _ _ => trivial

end FormulaNet.Net
