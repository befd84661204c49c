import FormulaNet.Proofs.Edges

/-!
# What is evaluated again

`Net.evaluated` lists the evaluations that an operation makes on its walks, each with the net at that
time.  A walk goes along the edges, so it meets formulas only, whatever it has changed or made stale
before (`Net.Ready.walked`).  `Net.run_edgesAgree` says this and the rest of what edges have to do with
references, for every run.
-/

namespace FormulaNet.Net

/-! ## Evaluations on a walk -/

/-- The evaluations that `visit` makes, where `below` gives those further down. -/
def visited (descend : NodeId → Net → Outcome) (below : NodeId → Net → List (NodeId × Net)) :
    List NodeId → Net → List (NodeId × Net)
  | [], _ => []
  | child :: others, net =>
    (child, net) ::
      match net.refresh child with
      | .error _ => below child (net.markStale child)
      | .ok net' =>
        if net.valueOf child != net'.valueOf child then
          below child net' ++
            match descend child net' with
            | ⟨_, some _⟩ => []
            | ⟨net'', none⟩ => visited descend below others net''
        else visited descend below others net'

/-- The evaluations that `walk` makes. -/
def walked : Nat → NodeId → Net → List (NodeId × Net)
  | 0, _, _ => []
  | room + 1, id, net =>
    match net.node id with
    | .error _ => []
    | .ok n => visited (walk room) (walked room) n.children.toList net

def walkedBelow (net : Net) (id : NodeId) : List (NodeId × Net) :=
  walked (net.settings.depthLimit.toNat + 1) id net

def walkedBelowAll : List NodeId → Net → List (NodeId × Net)
  | [], _ => []
  | id :: ids, net => net.walkedBelow id ++ walkedBelowAll ids (net.walkBelow id).net

/-- The evaluations that follow when a node gets a content. -/
def evaluatedBySetting (net : Net) (id : NodeId) (text : String) : List (NodeId × Net) :=
  match net.node id with
  | .error _ => []
  | .ok n =>
    if n.input = text && !n.isStale then []
    else
      match net.meaning id text with
      | .ok m => if n.value != m.value then (net.adopt id m).walkedBelow id else []
      | .error _ => (net.markStale id).walkedBelow id

/-- The evaluations that follow the removal of a node. -/
def evaluatedByDeletion (net : Net) (id : NodeId) : List (NodeId × Net) :=
  match net.nodes.indexOf? id, net.node? id with
  | some index, some n => walkedBelowAll n.children.toList (net.remove id index)
  | _, _ => []

/-- The nodes that an operation evaluates again, each with the net at that time. -/
def evaluated (net : Net) : Operation → List (NodeId × Net)
  | .submit id text false => net.evaluatedBySetting id text
  | .delete id => net.evaluatedByDeletion id
  | .deleteAt index => ((net.nodes.at? index).map net.evaluatedByDeletion).getD []
  | _ => []

/-! ## Formulas only -/

/-- A net in which some nodes can be evaluated again. -/
structure Ready (ids : List NodeId) (net : Net) : Prop where
  wired : net.Wired
  sound : net.FormulasSound
  formula : ∀ id ∈ ids, ∃ n t, net.node? id = some n ∧ n.content = .formula t

/-- A stored formula that is accepted again is read as a formula. -/
theorem FormulasSound.exists_read {net : Net} (h : net.FormulasSound) {id : NodeId} {n : Node}
    (hn : net.node? id = some n) {t : LinkedText} (ht : n.content = .formula t) {m : Meaning}
    (hm : net.meaning id t.text = .ok m) :
    ∃ e, (net.scope id).read t.chars = .ok e ∧ m.content = .formula (.cut t.chars e.refs) := by
  have hchars : t.text.toList = t.chars := String.toList_ofList
  have hf : IsFormulaText t.text.toList := by
    rw [hchars]
    exact (h id n t hn ht).isFormulaText_chars
  rw [meaning_eq_evaluation net id hf, evaluation_eq, hchars] at hm
  cases he : (net.scope id).read t.chars with
  | ok e =>
    rw [he] at hm
    cases hm
    exact ⟨e, rfl, rfl⟩
  | error fault =>
    rw [he] at hm
    cases hm

namespace Ready

variable {ids : List NodeId} {net : Net}

theorem mono (h : Ready ids net) {ids' : List NodeId} (hids : ∀ id ∈ ids', id ∈ ids) :
    Ready ids' net :=
  ⟨h.wired, h.sound, fun id hid => h.formula id (hids id hid)⟩

/-- The nodes that read a node have formulas. -/
theorem children (h : Ready ids net) {id : NodeId} {n : Node} (hn : net.node? id = some n) :
    Ready n.children.toList net := by
  refine ⟨h.wired, h.sound, fun c hc => ?_⟩
  obtain ⟨m, hm⟩ := h.wired.child id n c hn hc
  have hparent : id ∈ m.content.targets :=
    (h.wired.mem_targets hm).1 ((h.wired.mirrored id c n m hn hm).2 hc)
  cases hcontent : m.content with
  | number x =>
    rw [hcontent] at hparent
    cases hparent
  | formula t => exact ⟨m, t, hm, hcontent⟩

theorem markStale (h : Ready ids net) (id : NodeId) : Ready ids (net.markStale id) := by
  refine ⟨kept_wired.markStale net id h.wired, kept_formulasSound.markStale net id h.sound, ?_⟩
  intro x hx
  obtain ⟨n, t, hn, ht⟩ := h.formula x hx
  rw [node?_markStale, hn]
  split
  · exact ⟨n.markStale, t, rfl, ht⟩
  · exact ⟨n, t, rfl, ht⟩

/-- What is evaluated again remains a formula. -/
theorem refresh (h : Ready ids net) {id : NodeId} {net' : Net} (hr : net.refresh id = .ok net') :
    Ready ids net' := by
  refine ⟨kept_wired.refresh h.wired hr, kept_formulasSound.refresh h.sound hr, ?_⟩
  obtain ⟨n, hn, ⟨x, -, rfl⟩ | ⟨t, m, ht, hm, rfl⟩⟩ := refresh_eq_ok hr
  · exact h.formula
  intro x hx
  obtain ⟨k, s, hk, hs⟩ := h.formula x hx
  rw [node?_adopt x hn, hk]
  by_cases hid : x = id
  · obtain ⟨e, -, hcontent⟩ := h.sound.exists_read hn ht hm
    refine ⟨_, .cut t.chars e.refs, rfl, ?_⟩
    dsimp only
    rw [if_pos hid]
    exact hcontent
  · refine ⟨_, s, rfl, ?_⟩
    dsimp only
    rw [if_neg hid]
    exact hs

theorem keptByWalks (ids : List NodeId) : KeptByWalks (Ready ids) where
  markStale _ id h := h.markStale id
  refresh _ _ _ hr h := h.refresh hr

theorem visited {descend : NodeId → Net → Outcome} {below : NodeId → Net → List (NodeId × Net)}
    (hdescend : ∀ ids id net, Ready ids net → Ready ids (descend id net).net)
    (hbelow : ∀ id net, Ready [] net → ∀ e ∈ below id net, Ready [e.1] e.2) (h : Ready ids net) :
    ∀ e ∈ Net.visited descend below ids net, Ready [e.1] e.2 := by
  induction ids generalizing net with
  | nil => exact fun e he => absurd he List.not_mem_nil
  | cons child others ih =>
    intro e he
    have hothers : ∀ {net'}, Ready (child :: others) net' → Ready others net' := fun h' =>
      h'.mono fun id hid => List.mem_cons_of_mem child hid
    rw [Net.visited, List.mem_cons] at he
    rcases he with rfl | he
    · exact h.mono fun id hid => by simp_all
    split at he
    · exact hbelow child _ ((h.markStale child).mono (by simp)) e he
    · next net' hr =>
      have h' : Ready (child :: others) net' := h.refresh hr
      split at he
      · rcases List.mem_append.1 he with he | he
        · exact hbelow child net' (h'.mono (by simp)) e he
        · have hafter := hdescend _ child net' h'
          split at he
          · cases he
          · next net'' heq =>
            rw [heq] at hafter
            exact ih (hothers hafter) e he
      · exact ih (hothers h') e he

theorem walked (h : Ready ids net) (room : Nat) (id : NodeId) :
    ∀ e ∈ Net.walked room id net, Ready [e.1] e.2 := by
  induction room generalizing ids id net with
  | zero => exact fun e he => absurd he List.not_mem_nil
  | succ room ih =>
    rw [Net.walked]
    cases hid : net.node id with
    | error fault => exact fun e he => absurd he List.not_mem_nil
    | ok n =>
      exact (h.children (node_eq_ok hid)).visited (fun ids id _ h => (keptByWalks ids).walk room id h)
        fun id _ h => ih h id

theorem walkedBelowAll (h : Ready [] net) (ids : List NodeId) :
    ∀ e ∈ Net.walkedBelowAll ids net, Ready [e.1] e.2 := by
  induction ids generalizing net with
  | nil => exact fun e he => absurd he List.not_mem_nil
  | cons id ids ih =>
    intro e he
    rcases List.mem_append.1 he with he | he
    · exact h.walked _ id e he
    · exact ih ((keptByWalks []).walkBelow id h) e he

theorem evaluatedBySetting (h : Ready [] net) (id : NodeId) (text : String) :
    ∀ e ∈ net.evaluatedBySetting id text, Ready [e.1] e.2 := by
  intro e he
  unfold Net.evaluatedBySetting at he
  split at he
  · cases he
  split at he
  · cases he
  split at he
  · next m hm =>
    split at he
    · have hadopt : Ready [] (net.adopt id m) :=
        ⟨kept_wired.adopt net id text m hm h.wired, kept_formulasSound.adopt net id text m hm h.sound,
          by simp⟩
      exact hadopt.walked _ id e he
    · cases he
  · exact (h.markStale id).walked _ id e he

theorem evaluatedByDeletion (h : Ready [] net) (id : NodeId) :
    ∀ e ∈ net.evaluatedByDeletion id, Ready [e.1] e.2 := by
  intro e he
  unfold Net.evaluatedByDeletion at he
  split at he
  · next index n hindex _ =>
    have hremove : Ready [] (net.remove id index) :=
      ⟨kept_wired.remove net id index hindex h.wired,
        kept_formulasSound.remove net id index hindex h.sound, by simp⟩
    exact hremove.walkedBelowAll _ e he
  · cases he

/-- No operation evaluates a number again. -/
theorem evaluated (h : Ready [] net) (op : Operation) : ∀ e ∈ net.evaluated op, Ready [e.1] e.2 := by
  intro e he
  cases op with
  | submit id text asName =>
    cases asName with
    | true => cases he
    | false => exact h.evaluatedBySetting id text e he
  | delete id => exact h.evaluatedByDeletion id e he
  | deleteAt index =>
    rw [Net.evaluated] at he
    cases hat : net.nodes.at? index with
    | none =>
      rw [hat] at he
      cases he
    | some id =>
      rw [hat] at he
      exact h.evaluatedByDeletion id e he
  | create | createUnnamed | rename | moveTo => cases he

end Ready

/-! ## Edges after a run -/

/-- The stored edges agree with each other and with the references, and only formulas have any. -/
structure EdgesAgree (net : Net) : Prop where
  live : ∀ id n x, net.node? id = some n → x ∈ n.parents ∨ x ∈ n.children →
    ∃ m, net.node? x = some m
  mirrored : ∀ a b m n, net.node? a = some m → net.node? b = some n →
    (a ∈ n.parents ↔ b ∈ m.children)
  irreflexive : ∀ id n, net.node? id = some n → id ∉ n.parents ∧ id ∉ n.children
  parents : ∀ id n p, net.node? id = some n →
    (p ∈ n.parents ↔ ∃ r ∈ n.content.refs, r.target = p)
  plain : ∀ id n, net.node? id = some n → ¬ IsFormulaText n.input.toList →
    n.content.refs = [] ∧ n.parents = .empty
  /-- So whatever an operation evaluates again is a formula at that time. -/
  evaluated : ∀ op, ∀ e ∈ net.evaluated op,
    ∃ n t, e.2.node? e.1 = some n ∧ n.content = .formula t ∧ IsFormulaText n.input.toList

theorem edgesAgree_of_wired {net : Net} (h : net.Wired) (hs : net.FormulasSound) :
    net.EdgesAgree := by
  constructor
  case live =>
    rintro id n x hn (hp | hc)
    · exact (h.parent id n x hn hp).1
    · exact h.child id n x hn hc
  case mirrored => exact h.mirrored
  case irreflexive =>
    intro id n hn
    have hparents : id ∉ n.parents := fun hp => (h.parent id n id hn hp).2 rfl
    exact ⟨hparents, fun hc => hparents ((h.mirrored id id n n hn hn).2 hc)⟩
  case parents =>
    intro id n p hn
    rw [h.mem_targets hn]
    exact List.mem_map
  case plain =>
    intro id n hn hplain
    cases hcontent : n.content with
    | formula t => exact absurd (isFormulaText_of_formula hs hn hcontent) hplain
    | number x =>
      refine ⟨rfl, ?_⟩
      rw [h.parents id n hn, hcontent]
      rfl
  case evaluated =>
    intro op e he
    have hready : Ready [e.1] e.2 := Ready.evaluated ⟨h, hs, by simp⟩ op e he
    obtain ⟨n, t, hn, ht⟩ := hready.formula e.1 List.mem_cons_self
    exact ⟨n, t, hn, ht, isFormulaText_of_formula hready.sound hn ht⟩

/-- The edges of a net agree after every run, whether its operations succeed or fail. -/
theorem run_edgesAgree (settings : Settings) (ops : List Operation) :
    (run settings ops).EdgesAgree :=
  edgesAgree_of_wired (wired_run settings ops) (formulasSound_run settings ops)

end FormulaNet.Net
