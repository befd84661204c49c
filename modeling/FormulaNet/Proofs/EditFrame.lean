import FormulaNet.Proofs.Healing
import FormulaNet.Proofs.Regions
import FormulaNet.Proofs.Rejection

/-!
# What an input leaves alone

An input is stored in one node, if at all, and then formulas are evaluated again.  Where no node has the
name `NA` each of them means what is stored, so that the evaluations change values and nothing else
(`Net.Intact.exists_base`).  So the names, the formulas and the edges of the other nodes stay, apart from
the edges that end in the node with the input, and so do the values of all nodes that are not below it:
`Net.run_framed`.
-/

namespace FormulaNet.Net

/-- A node does not take an input on, because it means nothing. -/
def Rejects (net : Net) (id : NodeId) (text : String) : Prop :=
  ∃ fault, net.meaning id text = .error fault ∧ (net.submit id text false).fault = some fault

/-! ## One node with another content -/

/-- A net in which one node has another formula: the other nodes have the formulas that they had, and
their children are the same but for this node, which is among them if it refers to them. -/
structure EditedAt (old : Net) (id : NodeId) (net : Net) : Prop where
  content : ∀ x n n', x ≠ id → old.node? x = some n → net.node? x = some n' →
    n'.content = n.content ∧ n'.parents = n.parents
  children : ∀ x n n' c, c ≠ id → old.node? x = some n → net.node? x = some n' →
    (c ∈ n'.children ↔ c ∈ n.children)
  linked : ∀ x n n' k k', old.node? x = some n → net.node? x = some n' → old.node? id = some k →
    net.node? id = some k' → (id ∈ n.children ↔ x ∈ k.parents) ∧ (id ∈ n'.children ↔ x ∈ k'.parents)

namespace EditedAt

variable {old net net' : Net} {id : NodeId}

theorem refl (h : net.Wired) : EditedAt net id net where
  content x n n' _ hn hn' := by
    obtain rfl := Option.some.inj (hn.symm.trans hn')
    exact ⟨rfl, rfl⟩
  children x n n' c _ hn hn' := by rw [Option.some.inj (hn.symm.trans hn')]
  linked x n n' k k' hn hn' hk hk' :=
    ⟨(h.mirrored x id n k hn hk).symm, (h.mirrored x id n' k' hn' hk').symm⟩

theorem adopt (h : net.Wired) {n : Node} (hn : net.node? id = some n) {text : String} {m : Meaning}
    (hm : net.meaning id text = .ok m) : EditedAt net id (net.adopt id m) where
  content x k k' hx hk hk' := by
    rw [node?_adopt x hn, hk] at hk'
    cases hk'
    dsimp only
    rw [if_neg hx]
    exact ⟨rfl, rfl⟩
  children x k k' c hc hk hk' := by
    rw [node?_adopt x hn, hk] at hk'
    have hchildren : k'.children =
        relinked id n.parents (.ofList (m.content.refs.map Reference.target)) x k := by
      cases hk'
      dsimp only
      split
      · rfl
      · rfl
    rw [hchildren, mem_relinked]
    simp [hc]
  linked x k k' j j' hk hk' hj hj' :=
    ⟨(h.mirrored x id k j hk hj).symm, ((h.adopt hm).mirrored x id k' j' hk' hj').symm⟩

theorem congr (h : EditedAt old id net) (hnet : net'.withoutResults = net.withoutResults) :
    EditedAt old id net' where
  content x n n' hx hn hn' := by
    obtain ⟨k, hk, hstale⟩ := exists_markStale_eq_of_withoutResults hnet hn'
    have hcontent := congrArg Node.content hstale
    have hparents := congrArg Node.parents hstale
    rw [← show k.content = n'.content from hcontent, ← show k.parents = n'.parents from hparents]
    exact h.content x n k hx hn hk
  children x n n' c hc hn hn' := by
    obtain ⟨k, hk, hstale⟩ := exists_markStale_eq_of_withoutResults hnet hn'
    have hchildren := congrArg Node.children hstale
    rw [← show k.children = n'.children from hchildren]
    exact h.children x n k c hc hn hk
  linked x n n' j j' hn hn' hj hj' := by
    obtain ⟨k, hk, hstale⟩ := exists_markStale_eq_of_withoutResults hnet hn'
    obtain ⟨i, hi, histale⟩ := exists_markStale_eq_of_withoutResults hnet hj'
    have hchildren := congrArg Node.children hstale
    have hparents := congrArg Node.parents histale
    rw [← show k.children = n'.children from hchildren, ← show i.parents = j'.parents from hparents]
    exact h.linked x n k j i hn hk hj hi

end EditedAt

/-! ## The walk after an edit -/

theorem NoneNamedNA.mono {net net' : Net} (h : net.NoneNamedNA) (hdir : net'.directory ⊆ net.directory) :
    net'.NoneNamedNA := by
  intro id n' hn' hkey
  obtain ⟨n, hn, hkey⟩ := mem_directory.1 (hdir (mem_directory.2 ⟨n', hn', hkey⟩))
  exact h id n hn hkey

theorem NoneNamedNA.congr {net net' : Net} (h : net.NoneNamedNA) (hdir : net'.directory = net.directory) :
    net'.NoneNamedNA :=
  h.mono fun _ he => hdir ▸ he

/-- The walk after an edit begins in the net as it was, or in the one where the input is stored.  It changes
values alone, and only those of nodes below the edited one. -/
theorem Intact.exists_base {net : Net} (h : net.Intact) (hna : net.NoneNamedNA) {id : NodeId} {n : Node}
    (hn : net.node? id = some n) (text : String) :
    ∃ base, (base = net ∨ (¬ net.Rejects id text ∧ ∃ m, net.meaning id text = .ok m ∧ base = net.adopt id m)) ∧
      Unaltered base (net.submit id text false).net ∧
      Confined (Relation.ReflTransGen base.ReadBy id) base (net.submit id text false).net := by
  have hrefl : Unaltered net net := .refl h (h.stable_of_unnamed hna)
  have hconfined (base : Net) (hbase : base.Intact) :
      Confined (Relation.ReflTransGen base.ReadBy id) base base := hbase.confined fun _ _ => .tail
  have hadopt {m : Meaning} (hm : net.meaning id text = .ok m) : (net.adopt id m).Intact ∧
      Unaltered (net.adopt id m) (net.adopt id m) := by
    have hintact := kept_intact.adopt net id text m hm h
    exact ⟨hintact, .refl hintact (hintact.stable_of_unnamed (hna.congr (net.directory_adopt id m)))⟩
  have hnot {m : Meaning} (hm : net.meaning id text = .ok m) : ¬ net.Rejects id text := by
    rintro ⟨fault, hfault, -⟩
    cases hm.symm.trans hfault
  rw [submit, if_neg Bool.false_ne_true]
  rcases setContent_cases hn text with
    ⟨-, heq⟩ | ⟨-, ⟨m, hm, -, heq⟩ | ⟨m, hm, -, heq⟩ | ⟨fault, hfault, heq⟩⟩
  · rw [heq]
    exact ⟨net, .inl rfl, hrefl, hconfined net h⟩
  · obtain ⟨hintact, hself⟩ := hadopt hm
    rw [heq]
    exact ⟨_, .inr ⟨hnot hm, m, hm, rfl⟩, (Unaltered.keptByWalks _).walkBelow id hself,
      hintact.confined_walkBelow id⟩
  · obtain ⟨hintact, hself⟩ := hadopt hm
    rw [heq]
    exact ⟨_, .inr ⟨hnot hm, m, hm, rfl⟩, hself, hconfined _ hintact⟩
  · rw [heq]
    exact ⟨net, .inl rfl, (Unaltered.keptByWalks net).walkBelow id (hrefl.markStale id),
      (keptWithin_confined _ net).walkBelow .refl ((hconfined net h).markStale (.inl .refl))⟩

/-- The net in which the walk after an edit begins has the nodes that were there, and but for the edited one
they have the results that they had. -/
theorem exists_node?_base {net base : Net} {id : NodeId} {n : Node} (hn : net.node? id = some n)
    (hbase : base = net ∨ ∃ m, base = net.adopt id m) {x : NodeId} {k : Node} (hk : net.node? x = some k) :
    ∃ k', base.node? x = some k' ∧ k'.name = k.name ∧ k'.position = k.position ∧
      (x ≠ id → k'.result = k.result) := by
  rcases hbase with rfl | ⟨m, rfl⟩
  · exact ⟨k, hk, rfl, rfl, fun _ => rfl⟩
  · rw [node?_adopt x hn, hk]
    refine ⟨_, rfl, ?_⟩
    dsimp only
    split
    · next hx => exact ⟨rfl, rfl, fun hne => absurd hx hne⟩
    · exact ⟨rfl, rfl, fun _ => rfl⟩

/-! ## Frames -/

/-- What an input for a node leaves as it was.  A rejected one changes values alone, and the node loses its
value if it is not below itself; an accepted one changes the formula of the node and the edges to it.  The
nodes that are not below it then keep their results. -/
structure Framed (old : Net) (id : NodeId) (text : String) (net : Net) : Prop where
  indices : net.nodes.ids = old.nodes.ids
  labels : ∀ x n, old.node? x = some n →
    ∃ n', net.node? x = some n' ∧ n'.name = n.name ∧ n'.position = n.position
  rejected : old.Rejects id text → net.withoutResults = old.withoutResults
  stale : old.Rejects id text → ¬ Relation.TransGen old.ReadBy id id →
    ∀ n, net.node? id = some n → n.isStale = true ∧ n.value.isNaN = true
  accepted : ¬ old.Rejects id text → EditedAt old id net
  untouched : ∀ x n n', ¬ Relation.ReflTransGen net.ReadBy id x → old.node? x = some n →
    net.node? x = some n' → n'.result = n.result

/-- A node that rejects an input and is not below itself stays stale. -/
theorem Rejects.stale {net : Net} (h : net.Intact) {id : NodeId} {text : String}
    (hr : net.Rejects id text) (hcycle : ¬ Relation.TransGen net.ReadBy id id) {n' : Node}
    (hn' : (net.submit id text false).net.node? id = some n') :
    n'.isStale = true ∧ n'.value.isNaN = true := by
  obtain ⟨fault, hm, hs⟩ := hr
  obtain ⟨n, hn, hnet⟩ := submit_of_rejected hm hs
  have hconfined := h.confined_walkBelow_markStale id
  rw [← hnet] at hconfined
  have hstale : n'.isStale = true := by
    rw [Node.isStale, hconfined.kept id _ n' hcycle (node?_markStale_self hn) hn']
    rfl
  exact ⟨hstale, isNaN_of_isStale hstale⟩

/-- Where no node has the name `NA`, an input leaves the names, the formulas and the edges of the other nodes
alone, and the values of those that are not below the node. -/
theorem run_framed (settings : Settings) (ops : List Operation) (hna : (run settings ops).NoneNamedNA)
    {id : NodeId} {n : Node} (hn : (run settings ops).node? id = some n) (text : String) :
    Framed (run settings ops) id text ((run settings ops).submit id text false).net := by
  have h := intact_run settings ops
  obtain ⟨base, hbase, hunaltered, hconfined⟩ := h.exists_base hna hn text
  have hadopted : base = run settings ops ∨ ∃ m, base = (run settings ops).adopt id m :=
    hbase.imp_right fun ⟨_, m, _, heq⟩ => ⟨m, heq⟩
  constructor
  case indices =>
    refine (ids_congr (directory_eq_of_withoutResults hunaltered.unchanged)).trans ?_
    rcases hadopted with rfl | ⟨m, rfl⟩
    · rfl
    · exact ids_congr (directory_adopt _ id m)
  case labels =>
    intro x k hk
    obtain ⟨k', hk', hname, hposition, -⟩ := exists_node?_base hn hadopted hk
    obtain ⟨n', hn', hstale⟩ := exists_markStale_eq_of_withoutResults hunaltered.unchanged.symm hk'
    exact ⟨n', hn', (congrArg Node.name hstale).trans hname, (congrArg Node.position hstale).trans hposition⟩
  case rejected =>
    intro hr
    rcases hbase with rfl | ⟨hnot, -⟩
    · exact hunaltered.unchanged
    · exact absurd hr hnot
  case stale => exact fun hr hcycle n' hn' => hr.stale h hcycle hn'
  case accepted =>
    intro _
    refine EditedAt.congr ?_ hunaltered.unchanged
    rcases hbase with rfl | ⟨-, m, hm, rfl⟩
    · exact .refl h.wired
    · exact .adopt h.wired hn hm
  case untouched =>
    intro x k n' hbelow hk hn'
    obtain ⟨k', hk', -, -, hresult⟩ := exists_node?_base hn hadopted hk
    have hother : x ≠ id := by
      rintro rfl
      exact hbelow .refl
    have hbelow' : ¬ Relation.ReflTransGen base.ReadBy id x := fun hpath =>
      hbelow (Relation.ReflTransGen.mono
        (fun _ _ => readBy_of_withoutResults hunaltered.unchanged.symm) id x hpath)
    rw [hconfined.kept x k' n' hbelow' hk' hn', hresult hother]

/-- Formulas that read each other in a chain, and a node that none of them reads. -/
def chaining : List Operation :=
  [.create "A" 0 0, .create "B" 0 0, .create "C" 0 0, .create "D" 0 0, .submit 1 "=@A+1" false,
    .submit 2 "=@B*@A" false]

theorem run_chaining :
    ∃ n, (run .default chaining).NoneNamedNA ∧ (run .default chaining).node? 1 = some n ∧
      (run .default chaining).Rejects 1 "x" ∧ ¬ (run .default chaining).Rejects 1 "=@D" ∧
      Framed (run .default chaining) 1 "x" ((run .default chaining).submit 1 "x" false).net ∧
      Framed (run .default chaining) 1 "=@D" ((run .default chaining).submit 1 "=@D" false).net := by
  have hna : (run .default chaining).NoneNamedNA := by decide +kernel
  obtain ⟨n, hn⟩ : ∃ n, (run .default chaining).node? 1 = some n :=
    Option.isSome_iff_exists.1 (by decide +kernel)
  have hrejects : (run .default chaining).Rejects 1 "x" := ⟨.notANumber "x", rfl, by decide +kernel⟩
  have haccepts : ¬ (run .default chaining).Rejects 1 "=@D" := by
    rintro ⟨fault, -, hs⟩
    have hnone : ((run .default chaining).submit 1 "=@D" false).fault = none := by decide +kernel
    cases hnone.symm.trans hs
  exact ⟨n, hna, hn, hrejects, haccepts, run_framed .default chaining hna hn "x",
    run_framed .default chaining hna hn "=@D"⟩

end FormulaNet.Net
