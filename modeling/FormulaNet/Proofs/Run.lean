import FormulaNet.Proofs.Edits

/-!
# Runs

A run is a sequence of operations on an empty net, whether they succeed or fail.  Each of them is made
of few elementary changes, and what all of these keep holds after every run (`Net.Kept.run`).
-/

namespace FormulaNet

/-- An operation that changes a net. -/
inductive Operation
  | create (name : String) (x y : Float)
  | createUnnamed (x y : Float)
  | submit (id : NodeId) (text : String) (asName : Bool)
  | rename (id : NodeId) (name : String)
  | delete (id : NodeId)
  | deleteAt (index : Nat)
  | moveTo (id : NodeId) (x y : Float)

/-- The name that an operation gives to a node that exists. -/
def Operation.newName? : Operation → Option String
  | submit _ text true => some text
  | rename _ name => some name
  | _ => none

namespace Net

/-- The outcome of an operation that leaves the net as it was when it fails. -/
def outcome (net : Net) : Except Fault Net → Outcome
  | .ok net' => ⟨net', none⟩
  | .error fault => ⟨net, some fault⟩

/-- Performs one operation. -/
def perform (net : Net) : Operation → Outcome
  | .create name x y => ⟨(net.create name x y).2, none⟩
  | .createUnnamed x y => ⟨(net.createUnnamed x y).2, none⟩
  | .submit id text asName => net.submit id text asName
  | .rename id name => net.outcome (net.rename id name)
  | .delete id => net.delete id
  | .deleteAt index => net.deleteAt index
  | .moveTo id x y => net.outcome (net.moveTo id x y)

/-- The net after some operations, whatever their outcomes. -/
def run (settings : Settings) (ops : List Operation) : Net :=
  ops.foldl (fun net op => (net.perform op).net) (.empty settings)

theorem outcome_net_of {I : Net → Prop} {net : Net} (h : I net) {result : Except Fault Net}
    (hok : ∀ net', result = .ok net' → I net') : I (net.outcome result).net := by
  cases result with
  | ok net' => exact hok net' rfl
  | error fault => exact h

/-- A node that does not exist cannot be moved. -/
theorem moveTo_eq_ok {net net' : Net} {id : NodeId} {x y : Float} (h : net.moveTo id x y = .ok net') :
    net' = net.modify id fun n => { n with position := (x, y) } := by
  obtain ⟨n, -, hc⟩ := exists_of_bind_eq_ok h
  cases hc
  rfl

theorem perform_submit_name (net : Net) (id : NodeId) (text : String) :
    net.perform (.submit id text true) = net.outcome (net.rename id text) := by
  rw [perform, submit, if_pos rfl]
  cases net.rename id text with
  | ok net' => rfl
  | error fault => rfl

/-- A property of nets that every operation keeps, where nodes get only some names. -/
structure KeptByOperations (allowed : String → Prop) (I : Net → Prop) : Prop where
  create : ∀ net name x y, I net → I (net.create name x y).2
  move : ∀ net id p, I net → I (net.modify id fun n => { n with position := p })
  rename : ∀ net id name net', allowed name → I net → net.rename id name = .ok net' → I net'
  setContent : ∀ net id text, I net → I (net.setContent id text).net
  delete : ∀ net id, I net → I (net.delete id).net

namespace KeptByOperations

variable {allowed : String → Prop} {I : Net → Prop} (hI : KeptByOperations allowed I)

include hI

theorem perform {net : Net} (h : I net) {op : Operation} (hop : ∀ name ∈ op.newName?, allowed name) :
    I (net.perform op).net := by
  cases op with
  | create name x y => exact hI.create net name x y h
  | createUnnamed x y => exact hI.create net _ x y h
  | submit id text asName =>
    cases asName with
    | false => exact hI.setContent net id text h
    | true =>
      rw [perform_submit_name]
      exact outcome_net_of h fun net' hr => hI.rename net id text net' (hop text rfl) h hr
  | rename id name =>
    exact outcome_net_of h fun net' hr => hI.rename net id name net' (hop name rfl) h hr
  | delete id => exact hI.delete net id h
  | deleteAt index =>
    rw [Net.perform, deleteAt]
    split
    · exact hI.delete net _ h
    · exact h
  | moveTo id x y =>
    refine outcome_net_of h fun net' hm => ?_
    rw [moveTo_eq_ok hm]
    exact hI.move net id _ h

/-- What every operation keeps holds after every run. -/
theorem run {settings : Settings} (hempty : I (.empty settings)) {ops : List Operation}
    (hops : ∀ op ∈ ops, ∀ name ∈ op.newName?, allowed name) : I (Net.run settings ops) := by
  rw [Net.run]
  generalize Net.empty settings = net at hempty
  induction ops generalizing net with
  | nil => exact hempty
  | cons op ops ih =>
    exact ih (fun op' hmem => hops op' (List.mem_cons_of_mem _ hmem)) (net.perform op).net
      (hI.perform hempty (hops op List.mem_cons_self))

end KeptByOperations

/-! ## Elementary changes -/

theorem delete_eq {net : Net} {id : NodeId} {index : Nat} {n : Node}
    (hindex : net.nodes.indexOf? id = some index) (hn : net.node? id = some n) :
    net.delete id = walkBelowAll n.children.toList (net.remove id index) := by
  rw [delete, hindex, hn]
  rfl

/-- An operation on a node that does not exist does nothing. -/
theorem delete_net_of {I : Net → Prop} {net : Net} {id : NodeId} (h : I net)
    (hremove : ∀ index n, net.nodes.indexOf? id = some index → net.node? id = some n →
      I (walkBelowAll n.children.toList (net.remove id index)).net) : I (net.delete id).net := by
  cases hindex : net.nodes.indexOf? id with
  | none =>
    rw [delete, hindex]
    exact h
  | some index =>
    cases hn : net.node? id with
    | none =>
      rw [delete, hindex, hn]
      exact h
    | some n =>
      rw [delete_eq hindex hn]
      exact hremove index n hindex hn

/-- A node that exists ignores an input, takes it on, with a walk if its value changed, or rejects it. -/
theorem setContent_cases {net : Net} {id : NodeId} {n : Node} (hn : net.node? id = some n) (text : String) :
    ((n.input = text && !n.isStale) = true ∧ net.setContent id text = ⟨net, none⟩) ∨
      ((n.input = text && !n.isStale) = false ∧
        ((∃ m, net.meaning id text = .ok m ∧ (n.value != m.value) = true ∧
            net.setContent id text = (net.adopt id m).walkBelow id) ∨
          (∃ m, net.meaning id text = .ok m ∧ (n.value != m.value) = false ∧
            net.setContent id text = ⟨net.adopt id m, none⟩) ∨
          ∃ fault, net.meaning id text = .error fault ∧
            net.setContent id text = ⟨((net.markStale id).walkBelow id).net, some fault⟩)) := by
  rw [setContent, node, hn]
  dsimp only
  split
  · next hsame => exact .inl ⟨hsame, rfl⟩
  · next hother =>
    refine .inr ⟨Bool.eq_false_iff.2 hother, ?_⟩
    cases hm : net.meaning id text with
    | error fault => exact .inr (.inr ⟨fault, rfl, rfl⟩)
    | ok m =>
      dsimp only
      split
      · next hchanged => exact .inl ⟨m, rfl, hchanged, rfl⟩
      · next hunchanged => exact .inr (.inl ⟨m, rfl, Bool.eq_false_iff.2 hunchanged, rfl⟩)

/-- An input for a node that does not exist is not looked at. -/
theorem setContent_of_none {net : Net} {id : NodeId} (hn : net.node? id = none) (text : String) :
    net.setContent id text = ⟨net, some (.unknownNode id)⟩ := by
  rw [setContent, node, hn]

/-- A node is evaluated again by taking on what its formula means. -/
theorem refresh_eq_ok {net net' : Net} {id : NodeId} (h : net.refresh id = .ok net') :
    ∃ n, net.node? id = some n ∧
      ((∃ x, n.content = .number x ∧ net' = net) ∨
        ∃ t m, n.content = .formula t ∧ net.meaning id t.text = .ok m ∧ net' = net.adopt id m) := by
  obtain ⟨n, hn, hc⟩ := exists_of_bind_eq_ok h
  refine ⟨n, node_eq_ok hn, ?_⟩
  split at hc
  · next x hx =>
    cases hc
    exact .inl ⟨x, hx, rfl⟩
  · next t ht =>
    obtain ⟨m, hm, hc⟩ := exists_of_bind_eq_ok hc
    cases hc
    exact .inr ⟨t, m, ht, hm, rfl⟩

/-- A property of nets that a walk keeps which stays in a region, where readers are in it too. -/
structure KeptWithin (region : NodeId → Prop) (I : Net → Prop) : Prop where
  closed : ∀ net id n, I net → region id → net.node? id = some n → ∀ c ∈ n.children.toList, region c
  markStale : ∀ net id, region id → I net → I (net.markStale id)
  refresh : ∀ net id net', region id → net.refresh id = .ok net' → I net → I net'

namespace KeptWithin

variable {region : NodeId → Prop} {I : Net → Prop} (hI : KeptWithin region I)

include hI

theorem visit {descend : NodeId → Net → Outcome}
    (hd : ∀ id net, region id → I net → I (descend id net).net) (ids : List NodeId)
    (hids : ∀ id ∈ ids, region id) {net : Net} (h : I net) : I (Net.visit descend ids net).net := by
  induction ids generalizing net with
  | nil => exact h
  | cons child others ih =>
    obtain ⟨hchild, hothers⟩ := List.forall_mem_cons.1 hids
    rw [Net.visit]
    split
    · exact hd child _ hchild (hI.markStale net child hchild h)
    · next net' hr =>
      have h' : I net' := hI.refresh net child net' hchild hr h
      split
      · have hbelow : I (descend child net').net := hd child net' hchild h'
        split
        · next heq => rwa [heq] at hbelow
        · next heq =>
          rw [heq] at hbelow
          exact ih hothers hbelow
      · exact ih hothers h'

/-- A walk from a node whose readers are in the region. -/
theorem walk_succ {room : Nat} (hd : ∀ id net, region id → I net → I (Net.walk room id net).net)
    {id : NodeId} (hmark : ∀ net, I net → I (net.markStale id)) {net : Net}
    (hreaders : ∀ n, net.node? id = some n → ∀ c ∈ n.children.toList, region c) (h : I net) :
    I (Net.walk (room + 1) id net).net := by
  rw [Net.walk]
  split
  · exact h
  · next n hn =>
    have hbelow := hI.visit hd n.children.toList (hreaders n (node_eq_ok hn)) h
    split
    · next heq =>
      rw [heq] at hbelow
      exact hmark _ hbelow
    · next heq => rwa [heq] at hbelow

theorem walk (room : Nat) {id : NodeId} (hid : region id) {net : Net} (h : I net) :
    I (Net.walk room id net).net := by
  induction room generalizing id net with
  | zero => exact hI.markStale net id hid h
  | succ room ih =>
    exact hI.walk_succ (fun id net hid h => ih hid h) (fun net => hI.markStale net id hid)
      (fun n hn => hI.closed net id n h hid hn) h

theorem walkBelow {id : NodeId} (hid : region id) {net : Net} (h : I net) : I (net.walkBelow id).net :=
  hI.walk _ hid h

theorem walkBelowAll (ids : List NodeId) (hids : ∀ id ∈ ids, region id) {net : Net} (h : I net) :
    I (Net.walkBelowAll ids net).net := by
  induction ids generalizing net with
  | nil => exact h
  | cons id ids ih =>
    obtain ⟨hid, hids⟩ := List.forall_mem_cons.1 hids
    exact ih hids (hI.walkBelow hid h)

end KeptWithin

/-- A property of nets that every step of a walk keeps. -/
structure KeptByWalks (I : Net → Prop) : Prop where
  markStale : ∀ net id, I net → I (net.markStale id)
  refresh : ∀ net id net', net.refresh id = .ok net' → I net → I net'

namespace KeptByWalks

variable {I : Net → Prop} (hI : KeptByWalks I)

include hI

theorem anywhere : KeptWithin (fun _ => True) I where
  closed _ _ _ _ _ _ _ _ := trivial
  markStale net id _ := hI.markStale net id
  refresh net id net' _ := hI.refresh net id net'

theorem visit {descend : NodeId → Net → Outcome} (hd : ∀ id net, I net → I (descend id net).net)
    (ids : List NodeId) {net : Net} (h : I net) : I (Net.visit descend ids net).net :=
  hI.anywhere.visit (fun id net _ => hd id net) ids (fun _ _ => trivial) h

theorem walk (room : Nat) (id : NodeId) {net : Net} (h : I net) : I (Net.walk room id net).net :=
  hI.anywhere.walk room trivial h

theorem walkBelow (id : NodeId) {net : Net} (h : I net) : I (net.walkBelow id).net :=
  hI.walk _ id h

theorem walkBelowAll (ids : List NodeId) {net : Net} (h : I net) :
    I (Net.walkBelowAll ids net).net :=
  hI.anywhere.walkBelowAll ids (fun _ _ => trivial) h

/-- What a node keeps that takes on its content is kept when it gets an input. -/
theorem setContent (id : NodeId) (text : String) {net : Net}
    (hadopt : ∀ m, net.meaning id text = .ok m → I (net.adopt id m)) (h : I net) :
    I (net.setContent id text).net := by
  cases hn : net.node? id with
  | none =>
    rw [setContent_of_none hn]
    exact h
  | some n =>
    rcases setContent_cases hn text with
      ⟨-, heq⟩ | ⟨-, ⟨m, hm, -, heq⟩ | ⟨m, hm, -, heq⟩ | ⟨fault, -, heq⟩⟩
    · rw [heq]
      exact h
    · rw [heq]
      exact hI.walkBelow id (hadopt m hm)
    · rw [heq]
      exact hadopt m hm
    · rw [heq]
      exact hI.walkBelow id (hI.markStale net id h)

end KeptByWalks

/-- A property of nets that every elementary change keeps, where nodes get only some names. -/
structure Kept (allowed : String → Prop) (I : Net → Prop) : Prop where
  create : ∀ net name x y, I net → I (net.create name x y).2
  move : ∀ net id p, I net → I (net.modify id fun n => { n with position := p })
  rename : ∀ net id name net', allowed name → I net → net.rename id name = .ok net' → I net'
  remove : ∀ net id index, net.nodes.indexOf? id = some index → I net → I (net.remove id index)
  markStale : ∀ net id, I net → I (net.markStale id)
  adopt : ∀ net id text m, net.meaning id text = .ok m → I net → I (net.adopt id m)

namespace Kept

variable {allowed : String → Prop} {I : Net → Prop} (hI : Kept allowed I)

include hI

theorem refresh {net net' : Net} {id : NodeId} (h : I net) (hr : net.refresh id = .ok net') :
    I net' := by
  obtain ⟨n, -, ⟨x, -, rfl⟩ | ⟨t, m, -, hm, rfl⟩⟩ := refresh_eq_ok hr
  · exact h
  · exact hI.adopt net id _ m hm h

theorem byWalks : KeptByWalks I where
  markStale := hI.markStale
  refresh _ _ _ hr h := hI.refresh h hr

theorem setContent {net : Net} (id : NodeId) (text : String) (h : I net) :
    I (net.setContent id text).net :=
  hI.byWalks.setContent id text (fun m hm => hI.adopt net id text m hm h) h

theorem delete {net : Net} (id : NodeId) (h : I net) : I (net.delete id).net :=
  delete_net_of h fun index _ hindex _ => hI.byWalks.walkBelowAll _ (hI.remove net id index hindex h)

theorem byOperations : KeptByOperations allowed I where
  create := hI.create
  move := hI.move
  rename := hI.rename
  setContent _ id text h := hI.setContent id text h
  delete _ id h := hI.delete id h

/-- What every elementary change keeps holds after every run. -/
theorem run {settings : Settings} (hempty : I (.empty settings)) {ops : List Operation}
    (hops : ∀ op ∈ ops, ∀ name ∈ op.newName?, allowed name) : I (Net.run settings ops) :=
  hI.byOperations.run hempty hops

end Kept

end Net

end FormulaNet
