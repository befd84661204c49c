import FormulaNet.Proofs.Characters
import FormulaNet.Proofs.Reading
import FormulaNet.Proofs.Run

/-!
# Edges

Both directions of every edge are stored, and both are those of the references.  `Net.Wired` says so,
and every elementary change keeps it, as it keeps formulas sound.
-/

namespace FormulaNet

/-! ## Targets of contents -/

namespace Content

/-- The targets of the references, in order. -/
def targets (c : Content) : List NodeId :=
  c.refs.map Reference.target

theorem targets_formula (t : LinkedText) : (formula t).targets = t.targets :=
  t.map_target_refs

theorem targets_replace (c : Content) (replacement : Reference → Option String) :
    (c.replace replacement).targets = c.targets := by
  cases c with
  | number x => rfl
  | formula t => rw [replace, targets_formula, targets_formula, LinkedText.targets_replace]

theorem targets_unlink (c : Content) (id : NodeId) :
    (c.unlink id).targets = c.targets.filter (· ≠ id) := by
  cases c with
  | number x => rfl
  | formula t => rw [unlink, targets_formula, targets_formula, LinkedText.targets_unlink]

theorem exists_of_replace_eq {c : Content} {replacement : Reference → Option String}
    {t : LinkedText} (h : c.replace replacement = formula t) :
    ∃ t₀, c = formula t₀ ∧ t = t₀.replace replacement := by
  cases c with
  | number x => cases h
  | formula t₀ =>
    cases h
    exact ⟨t₀, rfl, rfl⟩

theorem eq_number_of_replace {c : Content} {replacement : Reference → Option String} {x : Float}
    (h : c.replace replacement = number x) : c = number x := by
  cases c with
  | number y => exact h
  | formula t => cases h

theorem exists_of_unlink_eq {c : Content} {id : NodeId} {t : LinkedText}
    (h : c.unlink id = formula t) : ∃ t₀, c = formula t₀ ∧ t = t₀.unlink id := by
  cases c with
  | number x => cases h
  | formula t₀ =>
    cases h
    exact ⟨t₀, rfl, rfl⟩

end Content

theorem LinkedText.dangles_replace (id : NodeId) (t : LinkedText) :
    (t.replace (Net.dangle id)).Dangles id := by
  intro kind token hmem
  rw [LinkedText.replace_eq] at hmem
  obtain ⟨old, span, -, rfl⟩ := LinkedText.exists_link_of_mem_replaceFrom _ hmem
  simp [Net.dangle]

namespace Net

/-! ## Formulas that stay sound -/

/-- Every formula is sound, and a mention dangles in stale nodes only. -/
def FormulasSound (net : Net) : Prop :=
  ∀ id n t, net.node? id = some n → n.content = .formula t → t.Sound (n.isStale = true)

theorem formulasSound_create {net : Net} (h : net.FormulasSound) (name : String) (a b : Float) :
    (net.create name a b).2.FormulasSound := by
  intro id n t hn ht
  rcases node?_create_cases hn with ⟨-, rfl⟩ | hn
  · cases ht
  · exact h id n t hn ht

theorem formulasSound_modify {net : Net} (h : net.FormulasSound) (id : NodeId) {f : Node → Node}
    (hcontent : ∀ n, (f n).content = n.content)
    (hstale : ∀ n, n.isStale = true → (f n).isStale = true) : (net.modify id f).FormulasSound := by
  intro x n t hn ht
  rw [node?_modify] at hn
  split at hn
  · obtain ⟨n₀, hn₀, rfl⟩ := exists_of_map_eq_some hn
    rw [hcontent] at ht
    exact (h x n₀ t hn₀ ht).mono (hstale n₀)
  · exact h x n t hn ht

theorem formulasSound_renamed {net : Net} (h : net.FormulasSound) (id : NodeId) (children : IdSet)
    (name : String) : (net.renamed id children name).FormulasSound := by
  intro x n t hn ht
  rw [node?_renamed] at hn
  obtain ⟨n₀, hn₀, rfl⟩ := exists_of_map_eq_some hn
  dsimp only at ht
  split at ht
  · obtain ⟨t₀, ht₀, rfl⟩ := Content.exists_of_replace_eq ht
    exact (h x n₀ t₀ hn₀ ht₀).replace _
  · exact h x n₀ t hn₀ ht

theorem formulasSound_remove {net : Net} (h : net.FormulasSound) (id : NodeId) (index : Nat) :
    (net.remove id index).FormulasSound := by
  intro x n t hn ht
  rw [node?_remove] at hn
  split at hn
  · cases hn
  obtain ⟨n₀, hn₀, rfl⟩ := exists_of_map_eq_some hn
  obtain ⟨t₁, ht₁, rfl⟩ := Content.exists_of_replace_eq ht
  refine LinkedText.Sound.replace ?_ _
  split at ht₁
  · next hparent =>
    obtain ⟨t₂, ht₂, rfl⟩ := Content.exists_of_unlink_eq ht₁
    obtain ⟨t₀, ht₀, rfl⟩ := Content.exists_of_replace_eq ht₂
    have hsound := ((h x n₀ t₀ hn₀ ht₀).replace (dangle id)).unlink (t₀.dangles_replace id)
    exact hsound.mono fun _ => by simp [Node.isStale, hparent]
  · next hparent =>
    have hsound := h x n₀ t₁ hn₀ ht₁
    simpa [Node.isStale, hparent] using hsound

theorem formulasSound_adopt {net : Net} (h : net.FormulasSound) {id : NodeId} {text : String}
    {m : Meaning} (hm : net.meaning id text = .ok m) : (net.adopt id m).FormulasSound := by
  cases hid : net.node? id with
  | none => rwa [adopt_of_none hid]
  | some n₁ =>
    intro x n t hn ht
    rcases node?_adopt_cases hid hn with ⟨-, hcontent, -⟩ | ⟨-, k, hk, hcontent, hresult⟩
    · rw [hcontent] at ht
      exact (sound_of_meaning hm ht).1.mono False.elim
    · rw [hcontent] at ht
      rw [Node.isStale, hresult]
      exact h x k t hk ht

theorem kept_formulasSound : Kept (fun _ => True) FormulasSound where
  create _ name x y h := formulasSound_create h name x y
  move _ id _ h := formulasSound_modify h id (fun _ => rfl) fun _ h => h
  rename net id name net' _ h hr := by
    obtain ⟨n, -, rfl | ⟨-, -, rfl⟩⟩ := rename_eq_ok hr
    · exact h
    · exact formulasSound_renamed h id n.children name
  remove _ id index _ h := formulasSound_remove h id index
  markStale _ id h := formulasSound_modify h id (fun _ => rfl) fun _ _ => rfl
  adopt _ _ _ _ hm h := formulasSound_adopt h hm

/-! ## Edges in both directions -/

/-- The parents of a node are what it refers to, other nodes of the net, and its children are those
that have it as a parent. -/
structure Wired (net : Net) : Prop where
  parents : ∀ id n, net.node? id = some n → n.parents = .ofList n.content.targets
  mirrored : ∀ a b m n, net.node? a = some m → net.node? b = some n →
    (a ∈ n.parents ↔ b ∈ m.children)
  parent : ∀ id n p, net.node? id = some n → p ∈ n.parents → (∃ m, net.node? p = some m) ∧ p ≠ id
  child : ∀ id n c, net.node? id = some n → c ∈ n.children → ∃ m, net.node? c = some m

theorem Wired.mem_targets {net : Net} (h : net.Wired) {id : NodeId} {n : Node}
    (hn : net.node? id = some n) {p : NodeId} : p ∈ n.parents ↔ p ∈ n.content.targets := by
  rw [h.parents id n hn, IdSet.mem_ofList]

theorem Wired.mem_parents_iff {net : Net} (h : net.Wired) {id : NodeId} {n : Node} {t : LinkedText}
    (hn : net.node? id = some n) (ht : n.content = .formula t) {p : NodeId} :
    p ∈ n.parents ↔ p ∈ t.targets := by
  rw [h.mem_targets hn, ht, Content.targets_formula]

/-- A change of other data keeps the edges. -/
theorem Wired.of_map {net net' : Net} (h : net.Wired) {f : NodeId → Node → Node}
    (hnodes : ∀ x, net'.node? x = (net.node? x).map (f x))
    (htargets : ∀ x n, (f x n).content.targets = n.content.targets)
    (hparents : ∀ x n, (f x n).parents = n.parents)
    (hchildren : ∀ x n, (f x n).children = n.children) : net'.Wired := by
  have hold : ∀ {x n'}, net'.node? x = some n' → ∃ n, net.node? x = some n ∧ n' = f x n := by
    intro x n' hn'
    rw [hnodes] at hn'
    exact exists_of_map_eq_some hn'
  have hlive : ∀ {x}, (∃ n, net.node? x = some n) → ∃ n', net'.node? x = some n' := by
    rintro x ⟨n, hn⟩
    exact ⟨f x n, by rw [hnodes, hn, Option.map_some]⟩
  constructor
  case parents =>
    intro id n' hn'
    obtain ⟨n, hn, rfl⟩ := hold hn'
    rw [hparents, htargets, h.parents id n hn]
  case mirrored =>
    intro a b m' n' hm' hn'
    obtain ⟨m, hm, rfl⟩ := hold hm'
    obtain ⟨n, hn, rfl⟩ := hold hn'
    rw [hparents, hchildren]
    exact h.mirrored a b m n hm hn
  case parent =>
    intro id n' p hn' hp
    obtain ⟨n, hn, rfl⟩ := hold hn'
    rw [hparents] at hp
    exact (h.parent id n p hn hp).imp_left hlive
  case child =>
    intro id n' c hn' hc
    obtain ⟨n, hn, rfl⟩ := hold hn'
    rw [hchildren] at hc
    exact hlive (h.child id n c hn hc)

theorem Wired.create {net : Net} (h : net.Wired) (name : String) (x y : Float) :
    (net.create name x y).2.Wired := by
  have hnext : ∀ {n}, net.node? net.nodes.next ≠ some n := by
    intro n hn
    rw [node?_next] at hn
    cases hn
  have hlive : ∀ {id}, (∃ n, net.node? id = some n) → ∃ n, (net.create name x y).2.node? id = some n := by
    rintro id ⟨n, hn⟩
    refine ⟨n, ?_⟩
    rw [node?_create, if_neg, hn]
    rintro rfl
    exact hnext hn
  constructor
  case parents =>
    intro id n' hn'
    rcases node?_create_cases hn' with ⟨-, rfl⟩ | hn
    · rfl
    · exact h.parents id n' hn
  case mirrored =>
    intro a b m' n' hm' hn'
    rcases node?_create_cases hm' with ⟨rfl, rfl⟩ | hm
    · rcases node?_create_cases hn' with ⟨rfl, rfl⟩ | hn
      · exact Iff.rfl
      · refine iff_of_false (fun hp => ?_) (IdSet.not_mem_empty b)
        obtain ⟨⟨m, hm⟩, -⟩ := h.parent b n' _ hn hp
        exact hnext hm
    · rcases node?_create_cases hn' with ⟨rfl, rfl⟩ | hn
      · refine iff_of_false (IdSet.not_mem_empty a) fun hc => ?_
        obtain ⟨n, hn⟩ := h.child a m' _ hm hc
        exact hnext hn
      · exact h.mirrored a b m' n' hm hn
  case parent =>
    intro id n' p hn' hp
    rcases node?_create_cases hn' with ⟨-, rfl⟩ | hn
    · exact absurd hp (IdSet.not_mem_empty p)
    · exact (h.parent id n' p hn hp).imp_left hlive
  case child =>
    intro id n' c hn' hc
    rcases node?_create_cases hn' with ⟨-, rfl⟩ | hn
    · exact absurd hc (IdSet.not_mem_empty c)
    · exact hlive (h.child id n' c hn hc)

theorem Wired.remove {net : Net} (h : net.Wired) (id : NodeId) (index : Nat) :
    (net.remove id index).Wired := by
  have hold : ∀ {x n'}, (net.remove id index).node? x = some n' → x ≠ id ∧
      ∃ n, net.node? x = some n ∧ n'.parents = n.parents.erase id ∧
        n'.children = n.children.erase id ∧
        n'.content.targets =
          if id ∈ n.parents then n.content.targets.filter (· ≠ id) else n.content.targets := by
    intro x n' hn'
    rw [node?_remove] at hn'
    split at hn'
    · cases hn'
    next hx =>
    obtain ⟨n, hn, rfl⟩ := exists_of_map_eq_some hn'
    refine ⟨hx, n, hn, rfl, rfl, ?_⟩
    rw [Content.targets_replace]
    split
    · rw [Content.targets_unlink, Content.targets_replace]
    · rfl
  have hlive : ∀ {x}, x ≠ id → (∃ n, net.node? x = some n) →
      ∃ n, (net.remove id index).node? x = some n := by
    rintro x hx ⟨n, hn⟩
    rw [node?_remove, if_neg hx, hn, Option.map_some]
    exact ⟨_, rfl⟩
  constructor
  case parents =>
    intro x n' hn'
    obtain ⟨-, n, hn, hparents, -, htargets⟩ := hold hn'
    ext p
    rw [hparents, htargets, IdSet.mem_erase, IdSet.mem_ofList, h.mem_targets hn]
    split
    · simp
    · next hid =>
      refine ⟨fun hp => hp.1, fun hp => ⟨hp, ?_⟩⟩
      rintro rfl
      exact hid ((h.mem_targets hn).2 hp)
  case mirrored =>
    intro a b m' n' hm' hn'
    obtain ⟨ha, m, hm, -, hchildren, -⟩ := hold hm'
    obtain ⟨hb, n, hn, hparents, -, -⟩ := hold hn'
    rw [hparents, hchildren, IdSet.mem_erase, IdSet.mem_erase, h.mirrored a b m n hm hn]
    simp [ha, hb]
  case parent =>
    intro x n' p hn' hp
    obtain ⟨hx, n, hn, hparents, -, -⟩ := hold hn'
    rw [hparents, IdSet.mem_erase] at hp
    exact (h.parent x n p hn hp.1).imp_left (hlive hp.2)
  case child =>
    intro x n' c hn' hc
    obtain ⟨hx, n, hn, -, hchildren, -⟩ := hold hn'
    rw [hchildren, IdSet.mem_erase] at hc
    exact hlive hc.2 (h.child x n c hn hc.1)

theorem Wired.adopt {net : Net} (h : net.Wired) {id : NodeId} {text : String} {m : Meaning}
    (hm : net.meaning id text = .ok m) : (net.adopt id m).Wired := by
  cases hid : net.node? id with
  | none => rwa [adopt_of_none hid]
  | some n₁ =>
    have hold : ∀ {x n'}, (net.adopt id m).node? x = some n' → ∃ n, net.node? x = some n ∧
        n'.parents = (if x = id then .ofList m.content.targets else n.parents) ∧
        n'.children = relinked id n₁.parents (.ofList m.content.targets) x n ∧
        n'.content = (if x = id then m.content else n.content) := by
      intro x n' hn'
      rw [node?_adopt x hid] at hn'
      obtain ⟨n, hn, rfl⟩ := exists_of_map_eq_some hn'
      refine ⟨n, hn, ?_⟩
      dsimp only
      split
      · exact ⟨rfl, rfl, rfl⟩
      · exact ⟨rfl, rfl, rfl⟩
    have hlive : ∀ {x}, (∃ n, net.node? x = some n) → ∃ n, (net.adopt id m).node? x = some n := by
      rintro x ⟨n, hn⟩
      rw [node?_adopt x hid, hn, Option.map_some]
      exact ⟨_, rfl⟩
    constructor
    case parents =>
      intro x n' hn'
      obtain ⟨n, hn, hparents, -, hcontent⟩ := hold hn'
      rw [hparents, hcontent]
      split
      · rfl
      · exact h.parents x n hn
    case mirrored =>
      intro a b m' n' hm' hn'
      obtain ⟨k, hk, -, hchildren, -⟩ := hold hm'
      obtain ⟨n, hn, hparents, -, -⟩ := hold hn'
      rw [hparents, hchildren, mem_relinked]
      by_cases hb : b = id
      · subst hb
        obtain rfl : n₁ = n := Option.some.inj (hid.symm.trans hn)
        have hmirror := h.mirrored a b k n₁ hk hn
        rw [if_pos rfl]
        constructor
        · exact fun ha => .inl ⟨rfl, ha⟩
        · rintro (⟨-, ha⟩ | ⟨hc, ha⟩)
          · exact ha
          · exact ha rfl (hmirror.2 hc)
      · rw [if_neg hb, h.mirrored a b k n hk hn]
        simp [hb]
    case parent =>
      intro x n' p hn' hp
      obtain ⟨n, hn, hparents, -, -⟩ := hold hn'
      rw [hparents] at hp
      split at hp
      · next hx =>
        subst hx
        rw [IdSet.mem_ofList] at hp
        obtain ⟨r, hr, rfl⟩ := List.mem_map.1 hp
        exact (target_of_meaning hm hr).imp_left hlive
      · exact (h.parent x n p hn hp).imp_left hlive
    case child =>
      intro x n' c hn' hc
      obtain ⟨n, hn, -, hchildren, -⟩ := hold hn'
      rw [hchildren, mem_relinked] at hc
      refine hlive ?_
      rcases hc with ⟨rfl, -⟩ | ⟨hc, -⟩
      · exact ⟨n₁, hid⟩
      · exact h.child x n c hn hc

theorem Wired.modify {net : Net} (h : net.Wired) (id : NodeId) {f : Node → Node}
    (hf : ∀ n, (f n).content.targets = n.content.targets ∧ (f n).parents = n.parents ∧
      (f n).children = n.children) : (net.modify id f).Wired := by
  refine h.of_map (f := fun x n => if x = id then f n else n) (fun x => ?_) (fun x n => ?_)
    (fun x n => ?_) fun x n => ?_
  · rw [node?_modify]
    split
    · rfl
    · simp
  · split
    · exact (hf n).1
    · rfl
  · split
    · exact (hf n).2.1
    · rfl
  · split
    · exact (hf n).2.2
    · rfl

theorem kept_wired : Kept (fun _ => True) Wired where
  create _ name x y h := h.create name x y
  move _ id _ h := h.modify id fun _ => ⟨rfl, rfl, rfl⟩
  rename net id name net' _ h hr := by
    obtain ⟨n, -, rfl | ⟨-, -, rfl⟩⟩ := rename_eq_ok hr
    · exact h
    · refine h.of_map (node?_renamed net id n.children name) (fun x m => ?_) (fun _ _ => rfl)
        fun _ _ => rfl
      dsimp only
      split
      · exact m.content.targets_replace _
      · rfl
  remove _ id index _ h := h.remove id index
  markStale _ id h := h.modify id fun _ => ⟨rfl, rfl, rfl⟩
  adopt _ _ _ _ hm h := h.adopt hm

/-! ## Edges after a run -/

theorem toList_input {n : Node} {t : LinkedText} (ht : n.content = .formula t) :
    n.input.toList = t.chars := by
  rw [Node.input, ht]
  exact String.toList_ofList

/-- The input of a node is a formula if its content is. -/
theorem isFormulaText_of_formula {net : Net} (h : net.FormulasSound) {id : NodeId} {n : Node}
    (hn : net.node? id = some n) {t : LinkedText} (ht : n.content = .formula t) :
    IsFormulaText n.input.toList := by
  rw [toList_input ht]
  exact (h id n t hn ht).isFormulaText_chars

/-- The content of a node is a formula if its input is. -/
theorem exists_formula {n : Node} (h : IsFormulaText n.input.toList) : ∃ t, n.content = .formula t := by
  cases hcontent : n.content with
  | formula t => exact ⟨t, rfl⟩
  | number x =>
    have hmem := (List.mem_filter.1 (List.mem_of_mem_head? h)).1
    rw [Node.input, hcontent] at hmem
    exact absurd hmem (Decimal.equals_not_mem_format x)

theorem wired_empty (settings : Settings) : (empty settings).Wired where
  parents _ _ hn := by cases hn
  mirrored _ _ _ _ hm := by cases hm
  parent _ _ _ hn := by cases hn
  child _ _ _ hn := by cases hn

theorem wired_run (settings : Settings) (ops : List Operation) : (run settings ops).Wired :=
  kept_wired.run (wired_empty settings) fun _ _ _ _ => trivial

theorem formulasSound_run (settings : Settings) (ops : List Operation) :
    (run settings ops).FormulasSound := by
  refine kept_formulasSound.run ?_ fun _ _ _ _ => trivial
  intro id n t hn
  cases hn

end Net

end FormulaNet
