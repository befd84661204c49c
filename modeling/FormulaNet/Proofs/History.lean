import FormulaNet.Proofs.Breakage
import FormulaNet.Proofs.Healing

/-!
# Values do not depend on the history

While nothing fails, a walk ends only at values that compare as equal to the ones before.  These are the
same doubles, except that one zero may have taken the place of the other (`values_depend_on_history`).
Where this never happens every node has exactly the value of its content for the values that its parents
have (`Net.Exact`), so that the names and the inputs of a net without cycles tell all of its values, by
whatever edits it came about: `Net.run_values_eq`.
-/

namespace FormulaNet

/-- One of two doubles is the positive zero and the other one the negative zero. -/
def OppositeZeros (x y : Float) : Prop :=
  (x = 0 ∧ y = -0) ∨ (x = -0 ∧ y = 0)

instance (x y : Float) : Decidable (OppositeZeros x y) :=
  inferInstanceAs (Decidable (_ ∨ _))

/-- Doubles that compare as equal are identical, the two zeros aside. -/
theorem eq_of_not_bne {x y : Float} (h : (x != y) = false) (hz : ¬ OppositeZeros x y) : x = y := by
  have hbeq : (x == y) = true := by simpa [bne] using h
  obtain ⟨-, -, heq | hzeros⟩ := Float.beq_iff_ne_nan_and_eq.1 hbeq
  · exact heq
  · exact absurd hzeros hz

namespace LinkedText.Yields

variable {t : LinkedText} {read read' : NodeId → Float} {v v' : Float}

/-- The value of a formula depends on the values of the nodes that it reads. -/
theorem congr (h : t.Yields read v) (hread : ∀ p ∈ t.targets, read p = read' p) : t.Yields read' v := by
  obtain ⟨e, he, hrefs, rfl⟩ := h
  exact ⟨e, he, hrefs, (Expr.value_congr fun p hp => hread p (hrefs ▸ hp)).symm⟩

theorem unique (h : t.Yields read v) (h' : t.Yields read v') : v = v' := by
  obtain ⟨e, he, hrefs, rfl⟩ := h
  obtain ⟨e', he', hrefs', rfl⟩ := h'
  rw [he] at he'
  rw [Expr.eq_of_outline_of_refs (Except.ok.inj he') (hrefs.trans hrefs'.symm)]

end LinkedText.Yields

namespace Net

/-! ## Values that operations replace -/

/-- Whether some node reads a node. -/
def isRead (net : Net) (id : NodeId) : Bool :=
  (net.node? id).any fun n => !n.children.toList.isEmpty

theorem not_readBy {net : Net} {id : NodeId} (h : net.isRead id = false) (c : NodeId) :
    ¬ net.ReadBy id c := by
  rintro ⟨n, hn, hc⟩
  rw [isRead, hn, Option.any_some, Bool.not_eq_false', List.isEmpty_iff] at h
  exact List.ne_nil_of_mem hc h

theorem isRead_of_readBy {net : Net} {id c : NodeId} (h : net.ReadBy id c) : net.isRead id = true :=
  Bool.of_not_eq_false fun hread => not_readBy hread c h

/-- The value of a node that is evaluated again and the one that takes its place, if some node reads it. -/
def replacedByRefresh (e : NodeId × Net) : Option (Float × Float) :=
  match e.2.refresh e.1 with
  | .ok net' => if net'.isRead e.1 then some (e.2.valueOf e.1, net'.valueOf e.1) else none
  | .error _ => none

/-- The value of a node that gets a content and the one that takes its place, if some node reads it. -/
def replacedBySetting (net : Net) (id : NodeId) (text : String) : Option (Float × Float) :=
  match net.node id, net.meaning id text with
  | .ok n, .ok m =>
    if n.input = text && !n.isStale then none
    else if (net.adopt id m).isRead id then some (n.value, m.value)
    else none
  | _, _ => none

/-- The values that an operation replaces, each with the one that takes its place, in nodes that others
read. -/
def replaced (net : Net) (op : Operation) : List (Float × Float) :=
  (match op with
    | .submit id text false => (net.replacedBySetting id text).toList
    | _ => []) ++ (net.evaluated op).filterMap replacedByRefresh

/-- No zero is replaced by the other one in a node that others read. -/
def KeepsZeros (net : Net) (op : Operation) : Prop :=
  ∀ r ∈ net.replaced op, ¬ OppositeZeros r.1 r.2

/-- The same for one evaluation. -/
def RefreshKeepsZero (e : NodeId × Net) : Prop :=
  ∀ r ∈ replacedByRefresh e, ¬ OppositeZeros r.1 r.2

instance (e : NodeId × Net) : Decidable (RefreshKeepsZero e) :=
  inferInstanceAs (Decidable (∀ r ∈ replacedByRefresh e, _))

/-- A value that some node reads and that compares as equal to the one before is the one before, if no zero
is replaced by the other one. -/
theorem RefreshKeepsZero.valueOf_eq {net net' : Net} {id : NodeId} (h : RefreshKeepsZero (id, net))
    (hr : net.refresh id = .ok net') (hread : net'.isRead id = true)
    (hsame : (net.valueOf id != net'.valueOf id) = false) : net.valueOf id = net'.valueOf id := by
  refine eq_of_not_bne hsame (h (net.valueOf id, net'.valueOf id) ?_)
  simp [replacedByRefresh, hr, hread]

/-! ## Exact values -/

/-- The formulas of all nodes have their values for the values that the parents have, the dirty nodes
aside. -/
def FormulasYield (dirty : NodeId → Prop) (net : Net) : Prop :=
  ∀ id n t, net.node? id = some n → n.content = .formula t → dirty id ∨ t.Yields net.valueOf n.value

/-- A node takes on its value and is no longer dirty.  The nodes that read it are, unless it has the
value that it had. -/
theorem FormulasYield.adopt {D D' : NodeId → Prop} {net : Net} {id : NodeId} (h : FormulasYield D net)
    (hw : net.Wired) {n : Node} (hn : net.node? id = some n) {text : String} {m : Meaning}
    (hm : net.meaning id text = .ok m) (hD : ∀ c, D c → c ≠ id → D' c)
    (hchange : n.value = m.value ∨ ∀ c, (net.adopt id m).ReadBy id c → D' c) :
    FormulasYield D' (net.adopt id m) := by
  have hw' := hw.adopt hm
  intro x n' t hn' ht
  by_cases hx : x = id
  · subst hx
    obtain ⟨hcontent, hresult⟩ := node?_adopt_self hn hn'
    rw [hcontent] at ht
    rw [Node.value, hresult]
    refine .inr ((yields_of_meaning hm ht).congr fun p hp => ?_)
    obtain ⟨r, hr, rfl⟩ : ∃ r ∈ m.content.refs, r.target = p := by
      rw [ht]
      rw [← t.map_target_refs] at hp
      exact List.mem_map.1 hp
    exact (valueOf_adopt_other hn m (target_of_meaning hm hr).2).symm
  · obtain ⟨k, hk, hcontent, hresult⟩ := node?_adopt_other hn hx hn'
    have hvalue : n'.value = k.value := by rw [Node.value, Node.value, hresult]
    rw [hvalue]
    rcases h x k t hk (hcontent ▸ ht) with hdirty | hyields
    · exact .inl (hD x hdirty hx)
    by_cases hread : id ∈ t.targets
    · rcases hchange with hsame | hall
      · refine .inr (hyields.congr fun p hp => ?_)
        by_cases hp' : p = id
        · rw [hp', valueOf_adopt_self hn, valueOf_of_node? hn, hsame]
        · exact (valueOf_adopt_other hn m hp').symm
      · obtain ⟨j, hj⟩ := (exists_node?_congr (net.directory_adopt id m)).2 ⟨n, hn⟩
        exact .inl (hall x ⟨j, hj, (hw'.mirrored id x j n' hj hn').1
          ((hw'.mem_parents_iff hn' ht).2 hread)⟩)
    · refine .inr (hyields.congr fun p hp => (valueOf_adopt_other hn m ?_).symm)
      rintro rfl
      exact hread hp

/-- No value is lost, and every value is that of the content for the values that the parents have, the
dirty nodes aside. -/
structure Exact (dirty : NodeId → Prop) (net : Net) : Prop where
  fresh : ∀ id n, net.node? id = some n → n.isStale = false
  number : ∀ id n x, net.node? id = some n → n.content = .number x → n.value = x
  formula : ∀ id n t, net.node? id = some n → n.content = .formula t →
    dirty id ∨ t.Yields net.valueOf n.value

namespace Exact

variable {D D' : NodeId → Prop} {net net' : Net} {id : NodeId}

theorem mono (h : Exact D net) (hD : ∀ c, D c → D' c) : Exact D' net :=
  ⟨h.fresh, h.number, fun id n t hn ht => (h.formula id n t hn ht).imp_left (hD id)⟩

theorem create (h : Exact D net) (hw : net.Wired) (name : String) (x y : Float) :
    Exact D (net.create name x y).2 := by
  constructor
  case fresh =>
    intro id n' hn'
    rcases node?_create_cases hn' with ⟨-, rfl⟩ | hn
    · rfl
    · exact h.fresh id n' hn
  case number =>
    intro id n' z hn' hz
    rcases node?_create_cases hn' with ⟨-, rfl⟩ | hn
    · cases hz
      rfl
    · exact h.number id n' z hn hz
  case formula =>
    intro id n' t hn' ht
    rcases node?_create_cases hn' with ⟨-, rfl⟩ | hn
    · cases ht
    · refine (h.formula id n' t hn ht).imp_right fun hyields => hyields.congr fun p hp => ?_
      -- no formula reads the new node
      obtain ⟨⟨m, hm⟩, -⟩ := hw.parent id n' p hn ((hw.mem_parents_iff hn ht).2 hp)
      have hne : p ≠ net.nodes.next := by
        rintro rfl
        rw [node?_next] at hm
        cases hm
      rw [valueOf, valueOf, node?_create, if_neg hne]

theorem adopt (h : Exact D net) (hw : net.Wired) {n : Node} (hn : net.node? id = some n) {text : String}
    {m : Meaning} (hm : net.meaning id text = .ok m) (hD : ∀ c, D c → c ≠ id → D' c)
    (hchange : n.value = m.value ∨ ∀ c, (net.adopt id m).ReadBy id c → D' c) :
    Exact D' (net.adopt id m) := by
  constructor
  case fresh =>
    intro x n' hn'
    rcases node?_adopt_cases hn hn' with ⟨-, -, hresult⟩ | ⟨-, k, hk, -, hresult⟩
    · rw [Node.isStale, hresult, Option.isNone_some]
    · rw [Node.isStale, hresult]
      exact h.fresh x k hk
  case number =>
    intro x n' y hn' hy
    rcases node?_adopt_cases hn hn' with ⟨-, hcontent, hresult⟩ | ⟨-, k, hk, hcontent, hresult⟩
    · rw [Node.value, hresult]
      exact value_of_meaning_number hm (hcontent ▸ hy)
    · rw [Node.value, hresult]
      exact h.number x k y hk (hcontent ▸ hy)
  case formula => exact FormulasYield.adopt h.formula hw hn hm hD hchange

/-! ## Walks without a fault -/

/-- A node that is evaluated again is no longer dirty. -/
theorem refresh {child : NodeId} (h : Exact (fun c => D c ∨ c = child) net) (hw : net.Wired)
    (hr : net.refresh child = .ok net') :
    Exact (fun c => D c ∨ net'.ReadBy child c) net' ∧
      (net.valueOf child = net'.valueOf child → Exact D net') := by
  obtain ⟨n, hn, ⟨x, hx, rfl⟩ | ⟨t, m, -, hm, rfl⟩⟩ := refresh_eq_ok hr
  · have hD : Exact D net' := by
      refine ⟨h.fresh, h.number, fun id k t hk ht => ?_⟩
      refine (h.formula id k t hk ht).imp_left fun hdirty => hdirty.resolve_right ?_
      rintro rfl
      obtain rfl : n = k := Option.some.inj (hn.symm.trans hk)
      rw [hx] at ht
      cases ht
    exact ⟨hD.mono fun _ => .inl, fun _ => hD⟩
  · refine ⟨h.adopt hw hn hm (fun c hc hne => .inl (hc.resolve_right hne)) (.inr fun _ => .inr), ?_⟩
    intro hsame
    rw [valueOf_adopt_self hn, valueOf_of_node? hn] at hsame
    exact h.adopt hw hn hm (fun c hc hne => hc.resolve_right hne) (.inl hsame)

theorem settling : Settling (fun D net => net.Wired ∧ Exact D net) RefreshKeepsZero where
  mono _ _ _ hD h := ⟨h.1, h.2.mono hD⟩
  refresh D child net net' hz hr h := by
    have hw' : net'.Wired := kept_wired.refresh h.1 hr
    obtain ⟨hnew, hsame⟩ := h.2.refresh h.1 hr
    refine ⟨⟨hw', hnew⟩, fun hunchanged => ⟨hw', ?_⟩⟩
    cases hread : net'.isRead child with
    | false => exact hnew.mono fun c hc => hc.resolve_right (not_readBy hread c)
    | true => exact hsame (hz.valueOf_eq hr hread hunchanged)

end Exact

/-! ## Runs that succeed -/

/-- A property of every operation in a sequence, in the net that it comes upon. -/
def Throughout (P : Net → Operation → Prop) : List Operation → Net → Prop
  | [], _ => True
  | op :: ops, net => P net op ∧ Throughout P ops (net.perform op).net

instance Throughout.decidable {P : Net → Operation → Prop} [∀ net op, Decidable (P net op)]
    (ops : List Operation) (net : Net) : Decidable (Throughout P ops net) :=
  match ops with
  | [] => .isTrue trivial
  | op :: ops => @instDecidableAnd _ _ _ (decidable ops (net.perform op).net)

theorem Throughout.foldl {P : Net → Operation → Prop} {I : Net → Prop}
    (hstep : ∀ net op, P net op → I net → I (net.perform op).net) {ops : List Operation} {net : Net}
    (h : Throughout P ops net) (hnet : I net) :
    I (ops.foldl (fun net op => (net.perform op).net) net) := by
  induction ops generalizing net with
  | nil => exact hnet
  | cons op ops ih => exact ih h.2 (hstep net op h.1 hnet)

theorem Throughout.and {P Q : Net → Operation → Prop} {ops : List Operation} {net : Net}
    (hP : Throughout P ops net) (hQ : Throughout Q ops net) :
    Throughout (fun net op => P net op ∧ Q net op) ops net := by
  induction ops generalizing net with
  | nil => trivial
  | cons op ops ih => exact ⟨⟨hP.1, hQ.1⟩, ih hP.2 hQ.2⟩

end Net

/-- Creations with a name, and inputs. -/
def Operation.isEdit : Operation → Bool
  | create .. | submit _ _ false => true
  | _ => false

/-- The name of the node that an operation creates. -/
def Operation.createdName? : Operation → Option String
  | create name _ _ => some name
  | _ => none

namespace Net

/-- An operation creates a node or gives a node its input, and does not fail. -/
def Succeeds (net : Net) (op : Operation) : Prop :=
  op.isEdit = true ∧ (net.perform op).fault = none

instance (net : Net) (op : Operation) : Decidable (net.Succeeds op) :=
  inferInstanceAs (Decidable (_ ∧ _))

instance (net : Net) (op : Operation) : Decidable (net.KeepsZeros op) :=
  inferInstanceAs (Decidable (∀ r ∈ net.replaced op, _))

theorem Succeeds.newName?_eq_none {net : Net} {op : Operation} (h : net.Succeeds op) :
    op.newName? = none := by
  obtain ⟨hedit, -⟩ := h
  cases op with
  | create => rfl
  | submit id text asName =>
    cases asName with
    | false => rfl
    | true => cases hedit
  | createUnnamed | rename | delete | deleteAt | moveTo => cases hedit

theorem evaluatedBySetting_of_changed {net : Net} {id : NodeId} {n : Node} (hn : net.node? id = some n)
    {text : String} {m : Meaning} (hm : net.meaning id text = .ok m)
    (hnew : (n.input = text && !n.isStale) = false) (hchanged : (n.value != m.value) = true) :
    net.evaluatedBySetting id text = (net.adopt id m).walkedBelow id := by
  rw [evaluatedBySetting, node, hn]
  dsimp only
  rw [if_neg (by simp [hnew]), hm]
  dsimp only
  rw [if_pos hchanged]

/-- A net without dirty nodes has none after an operation that succeeds and keeps zeros. -/
theorem Exact.perform {net : Net} (hw : net.Wired) (h : Exact (fun _ => False) net) {op : Operation}
    (hs : net.Succeeds op) (hz : net.KeepsZeros op) : Exact (fun _ => False) (net.perform op).net := by
  obtain ⟨hedit, hf⟩ := hs
  cases op with
  | create name x y => exact h.create hw name x y
  | createUnnamed | rename | delete | deleteAt | moveTo => cases hedit
  | submit id text asName =>
    cases asName with
    | true => cases hedit
    | false =>
      change (net.setContent id text).fault = none at hf
      change Exact _ (net.setContent id text).net
      cases hn : net.node? id with
      | none =>
        rw [setContent_of_none hn] at hf
        cases hf
      | some n =>
        rcases setContent_cases hn text with
          ⟨-, heq⟩ | ⟨hnew, ⟨m, hm, hchanged, heq⟩ | ⟨m, hm, hunchanged, heq⟩ | ⟨fault, -, heq⟩⟩
        · rwa [heq]
        · rw [heq] at hf ⊢
          have hadopt : Exact (fun c => False ∨ (net.adopt id m).ReadBy id c) (net.adopt id m) :=
            h.adopt hw hn hm (fun _ => False.elim) (.inr fun _ => .inr)
          refine (settling.walkBelow id ⟨hw.adopt hm, hadopt⟩ hf fun e he r hr => ?_).2
          refine hz r (List.mem_append_right _ (List.mem_filterMap.2 ⟨e, ?_, hr⟩))
          rwa [evaluated, evaluatedBySetting_of_changed hn hm hnew hchanged]
        · rw [heq]
          refine h.adopt hw hn hm (fun _ => False.elim) ?_
          cases hread : (net.adopt id m).isRead id with
          | false => exact .inr fun c hc => not_readBy hread c hc
          | true =>
            have hreplaced : (n.value, m.value) ∈ net.replaced (.submit id text false) := by
              refine List.mem_append_left _ ?_
              simp [replacedBySetting, node, hn, hm, hnew, hread]
            exact .inl (eq_of_not_bne hunchanged (hz _ hreplaced))
        · rw [heq] at hf
          cases hf

theorem exact_empty (settings : Settings) : Exact (fun _ => False) (empty settings) where
  fresh _ _ hn := by cases hn
  number _ _ _ hn := by cases hn
  formula _ _ _ hn := by cases hn

/-- A run that succeeds and keeps zeros leaves exact values. -/
theorem exact_run {settings : Settings} {ops : List Operation}
    (hs : Throughout Succeeds ops (empty settings)) (hz : Throughout KeepsZeros ops (empty settings)) :
    Exact (fun _ => False) (run settings ops) := by
  refine ((hs.and hz).foldl (I := fun net => net.Wired ∧ Exact (fun _ => False) net) ?_
    ⟨wired_empty settings, exact_empty settings⟩).2
  intro net op hop h
  exact ⟨kept_wired.byOperations.perform h.1 fun _ _ => trivial, h.2.perform h.1 hop.1 hop.2⟩

/-! ## Names and inputs -/

/-- The names that operations give to the nodes that they create, in order. -/
def created (ops : List Operation) : List String :=
  ops.filterMap Operation.createdName?

/-- The inputs of all nodes by index. -/
def inputs (net : Net) : List String :=
  net.nodes.entries.map (·.2.input)

/-- The values of all nodes by index. -/
def values (net : Net) : List Float :=
  net.nodes.entries.map (·.2.value)

/-- The nodes of a net are numbered from 0 on and have these names. -/
structure Named (names : List String) (net : Net) : Prop where
  directory : net.directory = names.zipIdx.map fun e => (e.2, squeeze e.1)
  next : net.nodes.next = names.length

theorem keptByWalks_named (names : List String) : KeptByWalks (Named names) where
  markStale net id h := ⟨(net.directory_markStale id).trans h.directory, h.next⟩
  refresh net id net' hr h := by
    refine ⟨(directory_refresh hr).trans h.directory, ?_⟩
    obtain ⟨n, -, ⟨x, -, rfl⟩ | ⟨t, m, -, -, rfl⟩⟩ := refresh_eq_ok hr
    · exact h.next
    · exact (net.next_adopt id m).trans h.next

theorem Named.perform {names : List String} {net : Net} (h : Named names net) {op : Operation}
    (hs : net.Succeeds op) : Named (names ++ op.createdName?.toList) (net.perform op).net := by
  obtain ⟨hedit, -⟩ := hs
  cases op with
  | create name x y =>
    constructor
    case directory =>
      rw [Net.perform, directory_create, h.directory, h.next, List.zipIdx_append, List.map_append]
      simp [Operation.createdName?]
    case next =>
      change net.nodes.next + 1 = _
      rw [h.next]
      simp [Operation.createdName?]
  | createUnnamed | rename | delete | deleteAt | moveTo => cases hedit
  | submit id text asName =>
    cases asName with
    | true => cases hedit
    | false =>
      have hnames : names ++ (Operation.submit id text false).createdName?.toList = names := by
        simp [Operation.createdName?]
      rw [hnames]
      exact (keptByWalks_named names).setContent id text
        (fun m _ => ⟨(net.directory_adopt id m).trans h.directory, (net.next_adopt id m).trans h.next⟩) h

theorem Named.foldl {names : List String} {ops : List Operation} {net : Net} (h : Named names net)
    (hs : Throughout Succeeds ops net) :
    Named (names ++ created ops) (ops.foldl (fun net op => (net.perform op).net) net) := by
  induction ops generalizing names net with
  | nil => rwa [created, List.filterMap_nil, List.append_nil]
  | cons op ops ih =>
    have hcreated : created (op :: ops) = op.createdName?.toList ++ created ops := by
      rw [created, List.filterMap_cons]
      cases op.createdName? with
      | none | some name => rfl
    rw [hcreated, ← List.append_assoc]
    exact ih (h.perform hs.1) hs.2

theorem named_run {settings : Settings} {ops : List Operation}
    (hs : Throughout Succeeds ops (empty settings)) : Named (created ops) (run settings ops) :=
  @Named.foldl [] ops (empty settings) ⟨rfl, rfl⟩ hs

/-! ## Names and inputs tell the values -/

/-- What is known of a net after a run that succeeds and keeps zeros. -/
structure Settled (net : Net) : Prop where
  wired : net.Wired
  sound : net.FormulasSound
  linked : net.Linked False
  exact : Exact (fun _ => False) net

theorem Throughout.newName?_eq_none {ops : List Operation} {net : Net} (h : Throughout Succeeds ops net) :
    ∀ op ∈ ops, op.newName? = none := by
  induction ops generalizing net with
  | nil => simp
  | cons op ops ih => exact List.forall_mem_cons.2 ⟨h.1.newName?_eq_none, ih h.2⟩

theorem settled_run {settings : Settings} {ops : List Operation}
    (hs : Throughout Succeeds ops (empty settings)) (hz : Throughout KeepsZeros ops (empty settings)) :
    (run settings ops).Settled where
  wired := wired_run settings ops
  sound := formulasSound_run settings ops
  linked := by
    refine @linked_run False (fun _ => False) (fun _ h => h.elim) settings ops fun op hop name hname => ?_
    rw [hs.newName?_eq_none op hop] at hname
    cases hname
  exact := exact_run hs hz

theorem Settled.sound_of_formula {net : Net} (h : net.Settled) {id : NodeId} {n : Node}
    (hn : net.node? id = some n) {t : LinkedText} (ht : n.content = .formula t) : t.Sound False :=
  (h.sound id n t hn ht).mono (by simp [h.exact.fresh id n hn])

/-- In nets with the same directory, the same input is the same content. -/
theorem Settled.content_eq {net net' : Net} (h : net.Settled) (h' : net'.Settled)
    (hdir : net'.directory = net.directory) {id : NodeId} {n n' : Node} (hn : net.node? id = some n)
    (hn' : net'.node? id = some n') (hinput : n.input = n'.input) : n.content = n'.content := by
  cases hc : n.content with
  | number x =>
    cases hc' : n'.content with
    | number x' =>
      rw [Node.input, Node.input, hc, hc'] at hinput
      exact congrArg Content.number (Decimal.format_injective hinput)
    | formula t' =>
      have hf := isFormulaText_of_formula h'.sound hn' hc'
      rw [← hinput] at hf
      obtain ⟨t, ht⟩ := exists_formula hf
      cases hc.symm.trans ht
  | formula t =>
    have hf := isFormulaText_of_formula h.sound hn hc
    rw [hinput] at hf
    obtain ⟨t', hc'⟩ := exists_formula hf
    have hchars : t.chars = t'.chars := by rw [← toList_input hc, ← toList_input hc', hinput]
    have hsound := h.sound_of_formula hn hc
    have hsound' := h'.sound_of_formula hn' hc'
    obtain ⟨e, he, hrefs, -⟩ := hsound.exists_read_eq (h.linked.scope hn hc)
    obtain ⟨e', he', hrefs', -⟩ := hsound'.exists_read_eq (h'.linked.scope hn' hc')
    rw [read_congr hdir, ← hchars, he] at he'
    cases he'
    rw [hc', ← hsound.cut_refs, ← hsound'.cut_refs, hchars, ← hrefs, ← hrefs']

/-- In a net without cycles what holds of a node if it holds of all nodes that it reads, holds of every
node. -/
theorem Acyclic.induction {net : Net} (h : net.Acyclic) (hw : net.Wired) {P : NodeId → Prop}
    (hstep : ∀ id, (∀ p, net.ReadBy p id → P p) → P id) (id : NodeId) : P id := by
  have hlive : ∀ {p c}, net.ReadBy p c → p ∈ net.nodes.ids ∧ c ∈ net.nodes.ids := fun hread =>
    (hw.exists_of_readBy hread).imp mem_ids_iff.2 mem_ids_iff.2
  have hwf : {id | id ∈ net.nodes.ids}.WellFoundedOn (Relation.TransGen net.ReadBy) :=
    have : IsStrictOrder NodeId (Relation.TransGen net.ReadBy) :=
      { irrefl := h, trans := fun _ _ _ => .trans }
    (List.finite_toSet net.nodes.ids).wellFoundedOn
  by_cases hid : id ∈ net.nodes.ids
  · refine hwf.induction hid fun c _ ih => hstep c fun p hread => ?_
    exact ih p (hlive hread).1 (.single hread)
  · exact hstep id fun p hread => absurd (hlive hread).2 hid

/-- Exact values in a net without cycles depend on the contents alone. -/
theorem Exact.valueOf_eq {net net' : Net} (h : Exact (fun _ => False) net) (h' : Exact (fun _ => False) net')
    (hw : net.Wired) (hacyclic : net.Acyclic) (hdir : net'.directory = net.directory)
    (hcontent : ∀ id n n', net.node? id = some n → net'.node? id = some n' → n.content = n'.content)
    (id : NodeId) : net.valueOf id = net'.valueOf id := by
  refine hacyclic.induction (P := fun id => net.valueOf id = net'.valueOf id) hw (fun id ih => ?_) id
  cases hn : net.node? id with
  | none =>
    have hn' : net'.node? id = none := by
      rw [Option.eq_none_iff_forall_ne_some] at hn ⊢
      intro n' hn'
      obtain ⟨n, hlive⟩ := (exists_node?_congr hdir).1 ⟨n', hn'⟩
      exact hn n hlive
    rw [valueOf, valueOf, hn, hn']
  | some n =>
    obtain ⟨n', hn'⟩ := (exists_node?_congr hdir).2 ⟨n, hn⟩
    have hsame := hcontent id n n' hn hn'
    rw [valueOf_of_node? hn, valueOf_of_node? hn']
    cases hc : n.content with
    | number x =>
      rw [h.number id n x hn hc, h'.number id n' x hn' (hsame ▸ hc)]
    | formula t =>
      have hyields := (h.formula id n t hn hc).resolve_left not_false
      have hyields' := (h'.formula id n' t hn' (hsame ▸ hc)).resolve_left not_false
      refine (hyields.congr fun p hp => ih p ?_).unique hyields'
      have hparent := (hw.mem_parents_iff hn hc).2 hp
      obtain ⟨⟨m, hm⟩, -⟩ := hw.parent id n p hn hparent
      exact ⟨m, hm, (hw.mirrored p id m n hm hn).1 hparent⟩

/-- Nets without cycles that have the same directory and the same inputs have the same values. -/
theorem Settled.valueOf_eq {net net' : Net} (h : net.Settled) (h' : net'.Settled) (hacyclic : net.Acyclic)
    (hdir : net'.directory = net.directory)
    (hinput : ∀ id n n', net.node? id = some n → net'.node? id = some n' → n.input = n'.input)
    (id : NodeId) : net.valueOf id = net'.valueOf id :=
  h.exact.valueOf_eq h'.exact h.wired hacyclic hdir
    (fun id n n' hn hn' => h.content_eq h' hdir hn hn' (hinput id n n' hn hn')) id

theorem values_eq (net : Net) : net.values = net.nodes.ids.map net.valueOf := by
  rw [values, Roster.ids, List.map_map]
  refine List.map_congr_left fun e he => ?_
  exact (valueOf_of_node? (Roster.get?_eq_some_iff_mem.2 he)).symm

theorem inputs_eq (net : Net) :
    net.inputs = net.nodes.ids.map fun id => ((net.node? id).map Node.input).getD "" := by
  rw [inputs, Roster.ids, List.map_map]
  refine List.map_congr_left fun e he => ?_
  have hn : net.node? e.1 = some e.2 := Roster.get?_eq_some_iff_mem.2 he
  simp [hn]

/-- Two runs that succeed and keep zeros, create the same names and end with the same inputs end with the
same values, if there are no cycles. -/
theorem run_values_eq {settings settings' : Settings} {ops ops' : List Operation}
    (hs : Throughout Succeeds ops (empty settings)) (hs' : Throughout Succeeds ops' (empty settings'))
    (hz : Throughout KeepsZeros ops (empty settings)) (hz' : Throughout KeepsZeros ops' (empty settings'))
    (hcreated : created ops = created ops')
    (hinputs : (run settings ops).inputs = (run settings' ops').inputs)
    (hacyclic : (run settings ops).Acyclic) : (run settings ops).values = (run settings' ops').values := by
  have hdir : (run settings' ops').directory = (run settings ops).directory := by
    rw [(named_run hs).directory, (named_run hs').directory, hcreated]
  have hids := ids_congr hdir
  rw [inputs_eq, inputs_eq, hids, List.map_inj_left] at hinputs
  rw [values_eq, values_eq, hids, List.map_inj_left]
  intro id _
  refine (settled_run hs hz).valueOf_eq (settled_run hs' hz') hacyclic hdir (fun id n n' hn hn' => ?_) id
  have hinput := hinputs id (mem_ids_iff.2 ⟨n, hn⟩)
  rwa [hn, hn'] at hinput

/-- A zero is replaced by the other one in a node that a formula divides by. -/
def zeroLast : List Operation :=
  [.create "A" 0 0, .create "B" 0 0, .submit 1 "=1/@A" false, .submit 0 "-0.0" false]

/-- The zero is replaced before the formula is there. -/
def zeroFirst : List Operation :=
  [.create "A" 0 0, .create "B" 0 0, .submit 0 "-0.0" false, .submit 1 "=1/@A" false]

/-- A reader of a node does not notice that one zero took the place of the other: the same names and
inputs, and different values. -/
theorem values_depend_on_history :
    (Throughout Succeeds zeroLast (empty .default) ∧ Throughout Succeeds zeroFirst (empty .default) ∧
      created zeroLast = created zeroFirst ∧
      (run .default zeroLast).inputs = (run .default zeroFirst).inputs ∧ (run .default zeroLast).Acyclic) ∧
      (run .default zeroLast).values ≠ (run .default zeroFirst).values := by
  refine ⟨⟨?_, ?_, rfl, ?_, acyclic_of_edges ?_⟩, ?_⟩
  all_goals decide +kernel

/-- Formulas that read a number, one of them directly and by way of the other, and then the number. -/
def formulasFirst : List Operation :=
  [.create "A" 0 0, .create "B" 0 0, .create "C" 0 0, .submit 1 "=@A+1" false,
    .submit 2 "=@A*@B" false, .submit 0 "-2.5" false]

/-- The number and then the formulas, in the other order. -/
def numberFirst : List Operation :=
  [.create "A" 0 0, .create "B" 0 0, .create "C" 0 0, .submit 0 "-2.5" false,
    .submit 2 "=@A*@B" false, .submit 1 "=@A+1" false]

theorem run_values_eq_numberFirst :
    (Throughout Succeeds formulasFirst (empty .default) ∧ Throughout Succeeds numberFirst (empty .default) ∧
      Throughout KeepsZeros formulasFirst (empty .default) ∧
      Throughout KeepsZeros numberFirst (empty .default) ∧ created formulasFirst = created numberFirst ∧
      (run .default formulasFirst).inputs = (run .default numberFirst).inputs ∧
      (run .default formulasFirst).Acyclic) ∧
      (run .default formulasFirst).values = (run .default numberFirst).values := by
  have hs : Throughout Succeeds formulasFirst (empty .default) := by decide +kernel
  have hs' : Throughout Succeeds numberFirst (empty .default) := by decide +kernel
  have hz : Throughout KeepsZeros formulasFirst (empty .default) := by decide +kernel
  have hz' : Throughout KeepsZeros numberFirst (empty .default) := by decide +kernel
  have hinputs : (run .default formulasFirst).inputs = (run .default numberFirst).inputs := by
    decide +kernel
  have hacyclic : (run .default formulasFirst).Acyclic := acyclic_of_edges (by decide +kernel)
  exact ⟨⟨hs, hs', hz, hz', rfl, hinputs, hacyclic⟩, run_values_eq hs hs' hz hz' rfl hinputs hacyclic⟩

end Net

end FormulaNet
