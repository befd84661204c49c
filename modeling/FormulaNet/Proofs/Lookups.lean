import FormulaNet.Proofs.FaultPaths

/-!
# Lookups that never fail

The operations change nodes one after the other and look each of them up before, by numbers that are
stored in other nodes.  Here they are taken apart into these steps (`Net.perform?`), and there is no result
once a number has no node.  As the stored numbers are those of nodes of the net at all times, there always
is one, and it is that of the operation (`Net.Intact.perform?_eq`).  Hence only the caller can name a node
that does not exist, and an operation that is refused changes nothing: `Net.run_refusing`.
-/

namespace FormulaNet

/-- The node that the caller of an operation names by its number. -/
def Operation.subject? : Operation → Option NodeId
  | submit id _ _ => some id
  | rename id _ => some id
  | delete id => some id
  | moveTo id _ _ => some id
  | _ => none

namespace Net

/-! ## Operations in steps -/

/-- Changes a node that is looked up. -/
def modify? (net : Net) (id : NodeId) (f : Node → Node) : Option Net :=
  (net.node? id).map fun _ => net.modify id f

/-- Changes nodes that are looked up one after the other. -/
def modifyAll? (net : Net) (ids : List NodeId) (f : Node → Node) : Option Net :=
  ids.foldlM (fun net id => net.modify? id f) net

/-- Stores an accepted input in a node, then takes it from the children of its old parents, and then adds it
to those of its new ones. -/
def adopt? (net : Net) (id : NodeId) (m : Meaning) : Option Net := do
  let n ← net.node? id
  let parents := IdSet.ofList (m.content.refs.map Reference.target)
  let stored ← net.modify? id fun n =>
    { n with content := m.content, result := some m.value, parents := parents }
  let unlinked ← stored.modifyAll? n.parents.toList fun p => { p with children := p.children.erase id }
  unlinked.modifyAll? parents.toList fun p => { p with children := p.children.insert id }

def refresh? (net : Net) (id : NodeId) : Option (Except Fault Net) := do
  let n ← net.node? id
  match n.content with
  | .number _ => some (.ok net)
  | .formula t =>
    match net.meaning id t.text with
    | .ok m => (net.adopt? id m).map .ok
    | .error fault => some (.error fault)

def visit? (descend : NodeId → Net → Option Outcome) : List NodeId → Net → Option Outcome
  | [], net => some ⟨net, none⟩
  | child :: others, net => do
    let before ← net.node? child
    match ← net.refresh? child with
    | .error fault =>
      let below ← descend child (← net.modify? child Node.markStale)
      some ⟨below.net, some fault⟩
    | .ok net' =>
      if before.value != net'.valueOf child then
        match ← descend child net' with
        | ⟨net'', some fault⟩ => some ⟨net'', some fault⟩
        | ⟨net'', none⟩ => visit? descend others net''
      else visit? descend others net'

def walk? : Nat → NodeId → Net → Option Outcome
  | 0, id, net => do
    let stale ← net.modify? id Node.markStale
    some ⟨stale, some (.cycle net.settings.depthLimit.toNat)⟩
  | room + 1, id, net => do
    let n ← net.node? id
    match ← visit? (walk? room) n.children.toList net with
    | ⟨net', some fault⟩ => do
      let stale ← net'.modify? id Node.markStale
      some ⟨stale, some fault⟩
    | ⟨net', none⟩ => some ⟨net', none⟩

def walkBelow? (net : Net) (id : NodeId) : Option Outcome :=
  walk? (net.settings.depthLimit.toNat + 1) id net

def walkBelowAll? : List NodeId → Net → Option Outcome
  | [], net => some ⟨net, none⟩
  | id :: ids, net => do
    let first ← net.walkBelow? id
    let others ← walkBelowAll? ids first.net
    some ⟨others.net, first.fault.or others.fault⟩

def setContent? (net : Net) (id : NodeId) (text : String) : Option Outcome :=
  match net.node? id with
  | none => some ⟨net, some (.unknownNode id)⟩
  | some n =>
    if n.input = text && !n.isStale then some ⟨net, none⟩
    else
      match net.meaning id text with
      | .ok m => do
        let net' ← net.adopt? id m
        if n.value != m.value then net'.walkBelow? id else some ⟨net', none⟩
      | .error fault => do
        let below ← (← net.modify? id Node.markStale).walkBelow? id
        some ⟨below.net, some fault⟩

/-- Replaces the tokens of a node in the formulas of its children, and then its name. -/
def renamed? (net : Net) (id : NodeId) (children : IdSet) (name : String) : Option Net := do
  let retokened ← net.modifyAll? children.toList fun m =>
    { m with content := m.content.replace (retoken id (squeeze name)) }
  retokened.modify? id fun m => { m with name := name }

def rename? (net : Net) (id : NodeId) (name : String) : Option Outcome :=
  match net.node? id with
  | none => some ⟨net, some (.unknownNode id)⟩
  | some n =>
    let key := squeeze name
    if n.name = name then some ⟨net, none⟩
    else if !isProperName name then some ⟨net, some (.invalidName .notLetters)⟩
    else if !key.isEmpty && net.nodes.entries.any (fun e => e.1 ≠ id && e.2.key = key) then
      some ⟨net, some (.invalidName (.taken name))⟩
    else (net.renamed? id n.children name).map (⟨·, none⟩)

/-- Removes a node, after it was taken from the children of its parents, and from the formulas and the
parents of its children. -/
def remove? (net : Net) (id : NodeId) (index : Nat) : Option Net := do
  let n ← net.node? id
  let unlinked ← net.modifyAll? n.parents.toList fun p => { p with children := p.children.erase id }
  let detached ← unlinked.modifyAll? n.children.toList fun c =>
    { c with
      content := (c.content.replace (dangle id)).unlink id
      result := none
      parents := c.parents.erase id }
  some { detached with nodes := renumber (detached.nodes.erase id) index }

def delete? (net : Net) (id : NodeId) : Option Outcome :=
  match net.nodes.indexOf? id with
  | none => some ⟨net, some (.unknownNode id)⟩
  | some index => do
    let n ← net.node? id
    let removed ← net.remove? id index
    walkBelowAll? n.children.toList removed

/-- Performs an operation in steps; there is no result if a lookup in it fails. -/
def perform? (net : Net) : Operation → Option Outcome
  | .submit id text asName => if asName then net.rename? id text else net.setContent? id text
  | .rename id name => net.rename? id name
  | .delete id => net.delete? id
  | .deleteAt index =>
    match net.nodes.at? index with
    | some id => net.delete? id
    | none => some ⟨net, some (.reference (.missing (toString index)))⟩
  | op => some (net.perform op)

/-! ## Changes of one node after the other -/

theorem bind_of_eq_some {α β : Type} {x : Option α} {a : α} (h : x = some a) (f : α → Option β) :
    (x >>= f) = f a := by
  rw [h]
  rfl

theorem modify?_eq {net : Net} {id : NodeId} (hid : ∃ n, net.node? id = some n) (f : Node → Node) :
    net.modify? id f = some (net.modify id f) := by
  obtain ⟨n, hn⟩ := hid
  rw [modify?, hn, Option.map_some]

theorem markStale?_eq {net : Net} {id : NodeId} (hid : ∃ n, net.node? id = some n) :
    net.modify? id Node.markStale = some (net.markStale id) :=
  modify?_eq hid _

theorem exists_node?_map {net : Net} {f : NodeId → Node → Node} {x : NodeId} :
    (∃ n, node? { net with nodes := net.nodes.map f } x = some n) ↔ ∃ n, net.node? x = some n := by
  rw [← mem_ids_iff, ← mem_ids_iff, Roster.ids_map]

theorem exists_node?_modify {net : Net} {id : NodeId} {f : Node → Node} {x : NodeId} :
    (∃ n, (net.modify id f).node? x = some n) ↔ ∃ n, net.node? x = some n :=
  exists_node?_map

theorem modifyAll?_eq {net : Net} {ids : List NodeId} (hnodup : ids.Nodup)
    (hids : ∀ id ∈ ids, ∃ n, net.node? id = some n) (f : Node → Node) :
    net.modifyAll? ids f =
      some { net with nodes := net.nodes.map fun id n => if id ∈ ids then f n else n } := by
  induction ids generalizing net with
  | nil =>
    have hnodes : (net.nodes.map fun id n => if id ∈ ([] : List NodeId) then f n else n) = net.nodes := by
      simp [Roster.map_id]
    rw [hnodes]
    rfl
  | cons id ids ih =>
    obtain ⟨hid, hids⟩ := List.forall_mem_cons.1 hids
    obtain ⟨hnot, hnodup⟩ := List.nodup_cons.1 hnodup
    have hrest := ih hnodup fun x hx => (@exists_node?_modify net id f x).2 (hids x hx)
    rw [modifyAll?, List.foldlM_cons, modify?_eq hid]
    refine hrest.trans (congrArg some (congrArg (Net.mk net.settings) ?_))
    rw [modify, Roster.modify, Roster.map_map]
    refine Roster.map_congr fun x n _ => ?_
    by_cases hx : x = id
    · subst hx
      simp [hnot]
    · simp [hx]

section Changes

variable {net : Net} (h : net.Intact) {id : NodeId}

include h

theorem Intact.adopt?_eq (hid : ∃ n, net.node? id = some n) {text : String} {m : Meaning}
    (hm : net.meaning id text = .ok m) : net.adopt? id m = some (net.adopt id m) := by
  obtain ⟨n, hn⟩ := hid
  have hold : ∀ p ∈ n.parents.toList, ∃ k, net.node? p = some k := fun p hp =>
    (h.wired.parent id n p hn hp).1
  have hnew : ∀ p ∈ (IdSet.ofList (m.content.refs.map Reference.target)).toList,
      ∃ k, net.node? p = some k := by
    intro p hp
    obtain ⟨r, hr, rfl⟩ := List.mem_map.1 (IdSet.mem_ofList.1 hp)
    exact (target_of_meaning hm hr).1
  rw [adopt?, bind_of_eq_some hn]
  dsimp only
  rw [bind_of_eq_some (modify?_eq ⟨n, hn⟩ _),
    bind_of_eq_some (modifyAll?_eq (IdSet.nodup_toList _) (fun p hp => exists_node?_modify.2 (hold p hp)) _),
    modifyAll?_eq (IdSet.nodup_toList _)
      (fun p hp => exists_node?_map.2 (exists_node?_modify.2 (hnew p hp))), adopt, hn]
  refine congrArg some (congrArg (Net.mk net.settings) ?_)
  simp only [modify, relink, Roster.modify, Roster.map_map]
  refine Roster.map_congr fun x k _ => ?_
  simp only [IdSet.mem_toList]
  -- the links go in and out of the children, and the input into the other fields
  by_cases hx : x = id
  · by_cases hnew : x ∈ IdSet.ofList (m.content.refs.map Reference.target)
    · by_cases hold : x ∈ n.parents
      · simp only [if_pos hx, if_pos hnew, if_pos hold, IdSet.insert_erase]
      · simp only [if_pos hx, if_pos hnew, if_neg hold]
    · by_cases hold : x ∈ n.parents
      · simp only [if_pos hx, if_neg hnew, if_pos hold]
      · simp only [if_pos hx, if_neg hnew, if_neg hold]
  · by_cases hnew : x ∈ IdSet.ofList (m.content.refs.map Reference.target)
    · by_cases hold : x ∈ n.parents
      · simp only [if_neg hx, if_pos hnew, if_pos hold, IdSet.insert_erase]
      · simp only [if_neg hx, if_pos hnew, if_neg hold]
    · simp only [if_neg hx, if_neg hnew]

theorem Intact.refresh?_eq (hid : ∃ n, net.node? id = some n) : net.refresh? id = some (net.refresh id) := by
  obtain ⟨n, hn⟩ := hid
  rw [refresh?, bind_of_eq_some hn, refresh, node, hn]
  dsimp only [bind, Except.bind]
  cases ht : n.content with
  | number x => rfl
  | formula t =>
    dsimp only
    cases hm : net.meaning id t.text with
    | error fault => rfl
    | ok m =>
      dsimp only
      rw [h.adopt?_eq ⟨n, hn⟩ hm, Option.map_some]

end Changes

/-! ## Walks -/

theorem Grown.exists_node? {old net : Net} (h : Grown old net) {id : NodeId}
    (hid : ∃ n, old.node? id = some n) : ∃ n, net.node? id = some n :=
  (exists_node?_congr h.directory).2 hid

theorem Intact.visit?_eq {descend? : NodeId → Net → Option Outcome} {descend : NodeId → Net → Outcome}
    (hdescend : ∀ id net, net.Intact → (∃ n, net.node? id = some n) →
      descend? id net = some (descend id net))
    (hkeep : ∀ I, KeptByWalks I → ∀ id net, I net → I (descend id net).net) (ids : List NodeId) {net : Net}
    (h : net.Intact) (hids : ∀ id ∈ ids, ∃ n, net.node? id = some n) :
    visit? descend? ids net = some (visit descend ids net) := by
  induction ids generalizing net with
  | nil => rfl
  | cons child others ih =>
    obtain ⟨hchild, hothers⟩ := List.forall_mem_cons.1 hids
    obtain ⟨n, hn⟩ := hchild
    have hlive {net' : Net} (h' : Grown net net') : ∀ id ∈ others, ∃ n, net'.node? id = some n :=
      fun id hid => h'.exists_node? (hothers id hid)
    rw [visit?, visit, bind_of_eq_some hn, bind_of_eq_some (h.refresh?_eq ⟨n, hn⟩), valueOf_of_node? hn]
    cases hr : net.refresh child with
    | error fault =>
      dsimp only
      have hstale := hdescend child (net.markStale child) (kept_intact.markStale net child h)
        ⟨_, node?_markStale_self hn⟩
      rw [bind_of_eq_some (markStale?_eq ⟨n, hn⟩), bind_of_eq_some hstale]
    | ok net' =>
      have hgrown : Grown net net' := (keptByWalks_grown net).refresh net child net' hr h.grown
      dsimp only
      split
      · have hbelow := hkeep _ (keptByWalks_grown net) child net' hgrown
        rw [bind_of_eq_some (hdescend child net' hgrown.intact (hgrown.exists_node? ⟨n, hn⟩))]
        cases hd : descend child net' with
        | mk net'' fault =>
          rw [hd] at hbelow
          cases fault with
          | some fault => rfl
          | none => exact ih hbelow.intact (hlive hbelow)
      · exact ih hgrown.intact (hlive hgrown)

theorem Intact.walk?_eq (room : Nat) {id : NodeId} {net : Net} (h : net.Intact)
    (hid : ∃ n, net.node? id = some n) : walk? room id net = some (walk room id net) := by
  induction room generalizing id net with
  | zero =>
    rw [walk?, bind_of_eq_some (markStale?_eq hid), walk]
  | succ room ih =>
    obtain ⟨n, hn⟩ := hid
    have hvisit := h.visit?_eq (fun id net h hid => ih h hid) (fun I hI id net => hI.walk room id)
      n.children.toList fun c hc => h.wired.child id n c hn hc
    have hgrown := (keptByWalks_grown net).visit (fun c _ => (keptByWalks_grown net).walk room c)
      n.children.toList h.grown
    rw [walk?, walk, bind_of_eq_some hn, bind_of_eq_some hvisit, node, hn]
    dsimp only
    cases hv : visit (walk room) n.children.toList net with
    | mk net' fault =>
      rw [hv] at hgrown
      cases fault with
      | none => rfl
      | some fault =>
        dsimp only
        rw [bind_of_eq_some (markStale?_eq (hgrown.exists_node? ⟨n, hn⟩))]

theorem Intact.walkBelow?_eq {net : Net} (h : net.Intact) {id : NodeId}
    (hid : ∃ n, net.node? id = some n) : net.walkBelow? id = some (net.walkBelow id) :=
  h.walk?_eq _ hid

theorem Intact.walkBelowAll?_eq (ids : List NodeId) {net : Net} (h : net.Intact)
    (hids : ∀ id ∈ ids, ∃ n, net.node? id = some n) :
    walkBelowAll? ids net = some (walkBelowAll ids net) := by
  induction ids generalizing net with
  | nil => rfl
  | cons id ids ih =>
    obtain ⟨hid, hids⟩ := List.forall_mem_cons.1 hids
    have hgrown := (keptByWalks_grown net).walkBelow id h.grown
    rw [walkBelowAll?, bind_of_eq_some (h.walkBelow?_eq hid),
      bind_of_eq_some (ih hgrown.intact fun c hc => hgrown.exists_node? (hids c hc))]
    rfl

/-! ## Operations -/

section Operations

variable {net : Net} (h : net.Intact) (id : NodeId)

include h

theorem Intact.setContent?_eq (text : String) : net.setContent? id text = some (net.setContent id text) := by
  rw [setContent?, setContent, node]
  cases hn : net.node? id with
  | none => rfl
  | some n =>
    dsimp only
    split
    · rfl
    cases hm : net.meaning id text with
    | ok m =>
      have hadopt := kept_intact.adopt net id text m hm h
      have hid := (exists_node?_congr (net.directory_adopt id m)).2 ⟨n, hn⟩
      dsimp only
      rw [bind_of_eq_some (h.adopt?_eq ⟨n, hn⟩ hm)]
      split
      · exact hadopt.walkBelow?_eq hid
      · rfl
    | error fault =>
      have hstale := kept_intact.markStale net id h
      dsimp only
      rw [bind_of_eq_some (markStale?_eq ⟨n, hn⟩),
        bind_of_eq_some (hstale.walkBelow?_eq ⟨_, node?_markStale_self hn⟩)]

theorem Intact.renamed?_eq {n : Node} (hn : net.node? id = some n) (name : String) :
    net.renamed? id n.children name = some (net.renamed id n.children name) := by
  have hchildren := modifyAll?_eq (IdSet.nodup_toList n.children) (h.wired.child id n · hn)
    fun m => { m with content := m.content.replace (retoken id (squeeze name)) }
  rw [renamed?, bind_of_eq_some hchildren, modify?_eq (exists_node?_map.2 ⟨n, hn⟩)]
  refine congrArg some (congrArg (Net.mk net.settings) ?_)
  rw [Roster.modify, Roster.map_map]
  rfl

theorem Intact.rename?_eq (name : String) : net.rename? id name = some (net.outcome (net.rename id name)) := by
  rw [rename?, rename, node]
  cases hn : net.node? id with
  | none => rfl
  | some n =>
    dsimp only
    rw [h.renamed?_eq id hn name]
    dsimp only [bind, Except.bind]
    split
    · rfl
    split
    · rfl
    split
    · rfl
    · rfl

theorem Intact.remove?_eq {n : Node} (hn : net.node? id = some n) (index : Nat) :
    net.remove? id index = some (net.remove id index) := by
  have hparents := modifyAll?_eq (IdSet.nodup_toList n.parents)
    (fun p hp => (h.wired.parent id n p hn hp).1) fun p => { p with children := p.children.erase id }
  rw [remove?, bind_of_eq_some hn, bind_of_eq_some hparents,
    bind_of_eq_some (modifyAll?_eq (IdSet.nodup_toList n.children)
      (fun c hc => exists_node?_map.2 (h.wired.child id n c hn hc)) _), remove]
  refine congrArg (fun nodes => some (Net.mk net.settings (renumber nodes index))) ?_
  rw [Roster.map_map, Roster.erase_map]
  refine Roster.map_congr fun x k hk => ?_
  have hk : net.node? x = some k := Roster.get?_eq_some_iff_mem.2 (Roster.mem_entries_erase.1 hk).1
  -- the removed node is a parent of its children, and a child of its parents
  rw [detach_eq]
  simp only [IdSet.mem_toList, h.wired.mirrored x id k n hk hn, ← h.wired.mirrored id x n k hn hk]
  by_cases hparent : id ∈ k.parents
  · by_cases hchild : id ∈ k.children
    · simp only [if_pos hparent, if_pos hchild]
    · simp only [if_pos hparent, if_neg hchild, IdSet.erase_of_not_mem hchild]
  · by_cases hchild : id ∈ k.children
    · simp only [if_neg hparent, if_pos hchild, IdSet.erase_of_not_mem hparent]
    · simp only [if_neg hparent, if_neg hchild, IdSet.erase_of_not_mem hparent,
        IdSet.erase_of_not_mem hchild]

theorem Intact.delete?_eq : net.delete? id = some (net.delete id) := by
  rw [delete?]
  cases hindex : net.nodes.indexOf? id with
  | none =>
    rw [delete, hindex]
  | some index =>
    obtain ⟨n, hn⟩ := exists_node?_of_indexOf? hindex
    dsimp only
    rw [bind_of_eq_some hn, bind_of_eq_some (h.remove?_eq id hn index), delete_eq hindex hn]
    exact (kept_intact.remove net id index hindex h).walkBelowAll?_eq _ fun c hc =>
      h.wired.exists_node?_remove hn index hc

/-- No lookup in an operation fails. -/
theorem Intact.perform?_eq (op : Operation) : net.perform? op = some (net.perform op) := by
  cases op with
  | create | createUnnamed | moveTo => rfl
  | submit id text asName =>
    cases asName with
    | false => exact h.setContent?_eq id text
    | true =>
      rw [perform_submit_name]
      exact h.rename?_eq id text
  | rename id name => exact h.rename?_eq id name
  | delete id => exact h.delete?_eq id
  | deleteAt index =>
    rw [perform?, perform, deleteAt]
    cases net.nodes.at? index with
    | none => rfl
    | some id => exact h.delete?_eq id

end Operations

/-! ## Refused operations -/

theorem Witnessed.ne_unknownNode {net : Net} {limit edges : Nat} {id : NodeId} {fault : Fault}
    (h : net.Witnessed limit id edges fault) (x : NodeId) : fault ≠ .unknownNode x := by
  rintro rfl
  obtain ⟨path, -, ⟨hcycle, -⟩ | ⟨p, n, -, -, hm⟩⟩ := h
  · cases hcycle
  · exact absurd hm (net.meaning_ne_unknownNode p n.input x)

section Refused

variable {net : Net}

theorem Intact.walkBelowAll_ne_unknownNode (ids : List NodeId) (h : net.Intact)
    (hids : ∀ c ∈ ids, ∃ n, net.node? c = some n) (x : NodeId) :
    (walkBelowAll ids net).fault ≠ some (.unknownNode x) := by
  induction ids generalizing net with
  | nil => exact fun hf => by cases hf
  | cons id ids ih =>
    obtain ⟨hid, hids⟩ := List.forall_mem_cons.1 hids
    have hgrown := (keptByWalks_grown net).walkBelow id h.grown
    rw [walkBelowAll]
    dsimp only
    cases hfirst : (net.walkBelow id).fault with
    | some fault =>
      rw [Option.some_or]
      intro hf
      exact (walkBelow_witnessed h rfl hid hfirst).ne_unknownNode x (Option.some.inj hf)
    | none =>
      rw [Option.none_or]
      exact ih hgrown.intact fun c hc => hgrown.exists_node? (hids c hc)

theorem Intact.delete_ne_unknownNode (h : net.Intact) {id : NodeId} (hid : id ∈ net.nodes.ids) (x : NodeId) :
    (net.delete id).fault ≠ some (.unknownNode x) := by
  obtain ⟨index, hindex⟩ := Roster.exists_indexOf? hid
  obtain ⟨n, hn⟩ := mem_ids_iff.1 hid
  rw [delete_eq hindex hn]
  exact (kept_intact.remove net id index hindex h).walkBelowAll_ne_unknownNode _
    (fun c hc => h.wired.exists_node?_remove hn index hc) x

theorem Intact.setContent_ne_unknownNode (h : net.Intact) {id : NodeId} {n : Node}
    (hn : net.node? id = some n) (text : String) (x : NodeId) :
    (net.setContent id text).fault ≠ some (.unknownNode x) := by
  intro hf
  cases hm : net.meaning id text with
  | ok m => exact (setContent_witnessed h rfl hn hm hf).2.ne_unknownNode x rfl
  | error fault =>
    rcases setContent_cases hn text with
      ⟨-, heq⟩ | ⟨-, ⟨m, hok, -⟩ | ⟨m, hok, -⟩ | ⟨fault', herror, heq⟩⟩
    · rw [heq] at hf
      cases hf
    · cases hm.symm.trans hok
    · cases hm.symm.trans hok
    · rw [heq] at hf
      cases hf
      exact net.meaning_ne_unknownNode id text x herror

theorem rename_fault {id x : NodeId} {name : String}
    (hf : (net.outcome (net.rename id name)).fault = some (.unknownNode x)) :
    x = id ∧ net.node? id = none := by
  rcases net.rename_failsOnly id name _ (outcome_fault hf) with ⟨h, hn⟩ | ⟨cause, h⟩
  · exact ⟨Fault.unknownNode.inj h, hn⟩
  · cases h

theorem perform_of_absent {op : Operation} {id : NodeId} (hop : op.subject? = some id)
    (hn : net.node? id = none) : net.perform op = ⟨net, some (.unknownNode id)⟩ := by
  have hnode : net.node id = .error (.unknownNode id) := by rw [node, hn]
  cases op with
  | create | createUnnamed | deleteAt => cases hop
  | submit id text asName =>
    cases hop
    cases asName with
    | false => exact setContent_of_none hn text
    | true =>
      rw [perform_submit_name, rename, hnode]
      rfl
  | rename id name =>
    cases hop
    rw [perform, rename, hnode]
    rfl
  | delete id =>
    cases hop
    rw [perform, delete, hn]
    cases net.nodes.indexOf? id with
    | none => rfl
    | some index => rfl
  | moveTo id x y =>
    cases hop
    rw [perform, moveTo, hnode]
    rfl

/-- Only the caller names a node that does not exist. -/
theorem Intact.perform_unknownNode (h : net.Intact) {op : Operation} {x : NodeId}
    (hf : (net.perform op).fault = some (.unknownNode x)) : op.subject? = some x ∧ net.node? x = none := by
  cases op with
  | create | createUnnamed => cases hf
  | submit id text asName =>
    cases asName with
    | false =>
      change (net.setContent id text).fault = _ at hf
      cases hn : net.node? id with
      | none =>
        rw [setContent_of_none hn] at hf
        cases hf
        exact ⟨rfl, hn⟩
      | some n => exact absurd hf (h.setContent_ne_unknownNode hn text x)
    | true =>
      rw [perform_submit_name] at hf
      obtain ⟨rfl, hn⟩ := rename_fault hf
      exact ⟨rfl, hn⟩
  | rename id name =>
    obtain ⟨rfl, hn⟩ := rename_fault hf
    exact ⟨rfl, hn⟩
  | delete id =>
    cases hn : net.node? id with
    | none =>
      rw [perform_of_absent rfl hn] at hf
      cases hf
      exact ⟨rfl, hn⟩
    | some n => exact absurd hf (h.delete_ne_unknownNode (mem_ids_iff.2 ⟨n, hn⟩) x)
  | deleteAt index =>
    rw [perform, deleteAt] at hf
    cases hat : net.nodes.at? index with
    | none =>
      rw [hat] at hf
      cases hf
    | some id =>
      rw [hat] at hf
      exact absurd hf (h.delete_ne_unknownNode (Roster.mem_ids_of_at? hat) x)
  | moveTo id a b =>
    obtain ⟨hx, hn⟩ := net.moveTo_failsOnly id a b _ (outcome_fault hf)
    cases hx
    exact ⟨rfl, hn⟩

theorem outcome_net_of_fault {result : Except Fault Net} (hf : (net.outcome result).fault ≠ none) :
    (net.outcome result).net = net := by
  cases result with
  | ok net' => exact absurd rfl hf
  | error fault => rfl

end Refused

/-- What a net refuses leaves it as it is, and a node that does not exist is only looked up if the caller
names it. -/
structure Refusing (net : Net) : Prop where
  lookups : ∀ op, net.perform? op = some (net.perform op)
  /-- Only the caller names a node that does not exist. -/
  unknown : ∀ op id, (net.perform op).fault = some (.unknownNode id) →
    op.subject? = some id ∧ net.node? id = none
  absent : ∀ op id, op.subject? = some id → net.node? id = none →
    net.perform op = ⟨net, some (.unknownNode id)⟩
  name : ∀ op name, op.newName? = some name → (net.perform op).fault ≠ none → (net.perform op).net = net
  index : ∀ index, net.nodes.size ≤ index →
    net.perform (.deleteAt index) = ⟨net, some (.reference (.missing (toString index)))⟩

/-- After every run no lookup fails, and what is refused changes nothing. -/
theorem run_refusing (settings : Settings) (ops : List Operation) : (run settings ops).Refusing := by
  have h := intact_run settings ops
  constructor
  case lookups => exact h.perform?_eq
  case unknown => exact fun op id hf => h.perform_unknownNode hf
  case absent => exact fun op id hop hn => perform_of_absent hop hn
  case name =>
    intro op name hop hf
    cases op with
    | submit id text asName =>
      cases asName with
      | false => cases hop
      | true =>
        rw [perform_submit_name] at hf ⊢
        exact outcome_net_of_fault hf
    | rename id name => exact outcome_net_of_fault hf
    | create | createUnnamed | delete | deleteAt | moveTo => cases hop
  case index =>
    intro index hindex
    have hat : (run settings ops).nodes.at? index = none := by
      rw [Roster.at?, List.getElem?_eq_none_iff, Roster.ids, List.length_map]
      exact hindex
    rw [perform, deleteAt, hat]

end Net

end FormulaNet
