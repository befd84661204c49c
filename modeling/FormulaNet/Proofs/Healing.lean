import FormulaNet.Proofs.FaultPaths
import FormulaNet.Proofs.RoundTrip

/-!
# Stale nodes are healed by typing their inputs again

Whatever failures a net has been through, the inputs of its nodes mean what is stored, as long as they
are accepted at all and no node has the name `NA` (`Net.Intact.stable_of_unnamed`).  So typing an
input again only gives nodes their values back.  If no path is too deep for a walk then nothing can fail
on the way (`Net.Healable.fault_walkBelow`), and once all stale nodes are typed again no node is stale:
`Net.run_healed`.
-/

namespace FormulaNet.Net

/-! ## Inputs mean what is stored -/

/-- A number is accepted as the double that it spells. -/
theorem meaning_number (net : Net) (host : NodeId) {text : String} {x : Float}
    (h : Decimal.read? (squeeze text).toList = some x) : net.meaning host text = .ok ⟨.number x, x⟩ := by
  rw [toList_squeeze, ← map_char_placed 0] at h
  unfold meaning
  split
  · next hps =>
    rw [hps] at h
    cases h
  · next offset body hps =>
    rw [hps, List.map_cons, Decimal.read?_equals] at h
    cases h
  · rw [h]

/-- A written number is accepted, as the same number. -/
theorem meaning_format (net : Net) (host : NodeId) (x : Float) :
    net.meaning host (Decimal.format x) = .ok ⟨.number x, x⟩ := by
  refine net.meaning_number host ?_
  have hchars : (squeeze (Decimal.format x)).toList = (Decimal.format x).toList := by
    rw [toList_squeeze, List.filter_eq_self]
    intro c hc
    simp [isBlank_eq_false_of_isWritten (Decimal.isWritten_format x c hc)]
  rw [hchars, Decimal.read?_format]

/-- No node has the name that stands for deleted nodes. -/
def NoneNamedNA (net : Net) : Prop :=
  ∀ id n, net.node? id = some n → n.key ≠ danglingToken

instance (net : Net) : Decidable net.NoneNamedNA :=
  decidable_of_iff (∀ e ∈ net.nodes.entries, e.2.key ≠ danglingToken)
    ⟨fun h id n hn => h (id, n) (Roster.get?_eq_some_iff_mem.1 hn),
      fun h e he => h e.1 e.2 (Roster.get?_eq_some_iff_mem.2 he)⟩

theorem NoneNamedNA.resolve {net : Net} (h : net.NoneNamedNA) (host : NodeId) :
    ∃ fault, (net.scope host).resolve .name danglingToken = .error fault := by
  cases hresolve : (net.scope host).resolve .name danglingToken with
  | error fault => exact ⟨fault, rfl⟩
  | ok target =>
    obtain ⟨n, hn, hkey⟩ := mem_directory.1 (resolveName_target hresolve).1
    exact absurd hkey (h target n hn)

/-- An input that is accepted again means what is stored. -/
def Stable (net : Net) : Prop :=
  ∀ id n m, net.node? id = some n → net.meaning id n.input = .ok m → m.content = n.content

/-- Inputs mean what is stored if no formula dangles that is read. -/
theorem Intact.stable_of_sound {net : Net} (h : net.Intact)
    (hsound : ∀ id n t e, net.node? id = some n → n.content = .formula t → t.Linked (net.scope id) →
      (net.scope id).read t.chars = .ok e → t.Sound False) : net.Stable := by
  intro id n m hn hm
  cases hcontent : n.content with
  | number x =>
    rw [Node.input, hcontent, Content.input, meaning_format] at hm
    cases hm
    rfl
  | formula t =>
    rw [Node.input, hcontent, Content.input] at hm
    obtain ⟨e, he, hm⟩ := h.sound.exists_read hn hcontent hm
    have hlinked := h.linked.scope_of_read hn hcontent (h.sound id n t hn hcontent) he
    have hsound := hsound id n t e hn hcontent hlinked he
    obtain ⟨e', he', hrefs, -⟩ := hsound.exists_read_eq hlinked
    rw [he] at he'
    cases he'
    rw [hm, hrefs, hsound.cut_refs]

/-- Where nothing has the name `NA`, what dangles is not read. -/
theorem Intact.stable_of_unnamed {net : Net} (h : net.Intact) (hna : net.NoneNamedNA) : net.Stable := by
  refine h.stable_of_sound fun id n t e hn ht hlinked he => ?_
  obtain ⟨fault, hfault⟩ := hna.resolve id
  exact (h.sound id n t hn ht).of_read hlinked he hfault

/-- Where no node is stale, nothing dangles. -/
theorem Intact.stable_of_fresh {net : Net} (h : net.Intact)
    (hfresh : ∀ id n, net.node? id = some n → n.isStale = false) : net.Stable :=
  h.stable_of_sound fun id n t _ hn ht _ _ => (h.sound id n t hn ht).mono (by simp [hfresh id n hn])

/-! ## All but the values -/

/-- The net with the values of all nodes lost. -/
def withoutResults (net : Net) : Net :=
  { net with nodes := net.nodes.map fun _ => Node.markStale }

theorem withoutResults_modify {net : Net} {id : NodeId} {f : Node → Node}
    (hf : ∀ n, net.node? id = some n → (f n).markStale = n.markStale) :
    (net.modify id f).withoutResults = net.withoutResults := by
  have hnodes : (net.nodes.modify id f).map (fun _ => Node.markStale) =
      net.nodes.map fun _ => Node.markStale := by
    rw [Roster.modify, Roster.map_map]
    refine Roster.map_congr fun x n hx => ?_
    split
    · next hid => exact hf n (hid ▸ Roster.get?_eq_some_iff_mem.2 hx)
    · rfl
  exact congrArg (Net.mk net.settings) hnodes

/-- Linking a node to the parents that it has changes nothing. -/
theorem Wired.relink {net : Net} (h : net.Wired) {id : NodeId} {n : Node} (hn : net.node? id = some n) :
    net.relink id n.parents n.parents = net := by
  have hnodes : (net.nodes.map fun parent k =>
      if parent ∈ n.parents then { k with children := k.children.insert id }
      else if parent ∈ n.parents then { k with children := k.children.erase id }
      else k) = net.nodes := by
    refine (Roster.map_congr fun x k hx => ?_).trans net.nodes.map_id
    split
    · next hparent =>
      have hchild := (h.mirrored x id k n (Roster.get?_eq_some_iff_mem.2 hx) hn).1 hparent
      have hinsert : k.children.insert id = k.children := by
        ext c
        rw [IdSet.mem_insert, or_iff_right_of_imp]
        rintro rfl
        exact hchild
      rw [hinsert]
    · rfl
  exact congrArg (Net.mk net.settings) hnodes

/-- A node that takes on the content that it has only gets a value. -/
theorem Wired.withoutResults_adopt {net : Net} (h : net.Wired) {id : NodeId} {n : Node}
    (hn : net.node? id = some n) {m : Meaning} (hm : m.content = n.content) :
    (net.adopt id m).withoutResults = net.withoutResults := by
  have hparents : IdSet.ofList (m.content.refs.map Reference.target) = n.parents := by
    rw [hm]
    exact (h.parents id n hn).symm
  rw [Net.adopt, hn]
  dsimp only
  rw [hparents, h.relink hn]
  refine withoutResults_modify fun k hk => ?_
  obtain rfl : n = k := Option.some.inj (hn.symm.trans hk)
  rw [hm]
  rfl

theorem node?_withoutResults (net : Net) (id : NodeId) :
    net.withoutResults.node? id = (net.node? id).map Node.markStale :=
  Roster.get?_map _ _ _

section SameButResults

variable {net net' : Net} (h : net'.withoutResults = net.withoutResults)

include h

theorem settings_eq_of_withoutResults : net'.settings = net.settings :=
  (congrArg Net.settings h :)

theorem directory_eq_of_withoutResults : net'.directory = net.directory := by
  have hdir (net : Net) : net.withoutResults.directory = net.directory := directory_map fun _ _ => rfl
  rw [← hdir net', h, hdir net]

/-- A node is in the other net too, with another result perhaps. -/
theorem exists_markStale_eq_of_withoutResults {id : NodeId} {n' : Node} (hn' : net'.node? id = some n') :
    ∃ n, net.node? id = some n ∧ n.markStale = n'.markStale := by
  have hnode : (net'.node? id).map Node.markStale = (net.node? id).map Node.markStale := by
    rw [← node?_withoutResults, h, node?_withoutResults]
  rw [hn', Option.map_some] at hnode
  obtain ⟨n, hn, hstale⟩ := exists_of_map_eq_some hnode.symm
  exact ⟨n, hn, hstale.symm⟩

theorem exists_node?_of_withoutResults {id : NodeId} {n' : Node} (hn' : net'.node? id = some n') :
    ∃ n, net.node? id = some n ∧ n.name = n'.name ∧ n.content = n'.content ∧
      n.children = n'.children := by
  obtain ⟨n, hn, hstale⟩ := exists_markStale_eq_of_withoutResults h hn'
  have hname := congrArg Node.name hstale
  have hcontent := congrArg Node.content hstale
  have hchildren := congrArg Node.children hstale
  exact ⟨n, hn, hname, hcontent, hchildren⟩

theorem readBy_of_withoutResults {a b : NodeId} (hab : net'.ReadBy a b) : net.ReadBy a b := by
  obtain ⟨n', hn', hb⟩ := hab
  obtain ⟨n, hn, -, -, hchildren⟩ := exists_node?_of_withoutResults h hn'
  exact ⟨n, hn, hchildren ▸ hb⟩

end SameButResults

/-- A net that differs from another one in values at most, and whose inputs mean what is stored. -/
structure Unaltered (old net : Net) : Prop where
  intact : net.Intact
  stable : net.Stable
  unchanged : net.withoutResults = old.withoutResults

theorem Stable.congr {net net' : Net} (hnet : net.Stable) (h : net'.withoutResults = net.withoutResults) :
    net'.Stable := by
  intro id n' m' hn' hm'
  obtain ⟨n, hn, -, hcontent, -⟩ := exists_node?_of_withoutResults h hn'
  rw [Node.input, ← hcontent] at hm'
  obtain ⟨m, hm, hsame⟩ := exists_meaning_congr (directory_eq_of_withoutResults h).symm hm'
  rw [← hsame, hnet id n m hn hm, hcontent]

namespace Unaltered

variable {old net : Net}

theorem refl (h : net.Intact) (hstable : net.Stable) : Unaltered net net :=
  ⟨h, hstable, rfl⟩

theorem of_withoutResults {net' : Net} (h : Unaltered old net) (hintact : net'.Intact)
    (hnet' : net'.withoutResults = net.withoutResults) : Unaltered old net' :=
  ⟨hintact, h.stable.congr hnet', hnet'.trans h.unchanged⟩

theorem markStale (h : Unaltered old net) (id : NodeId) : Unaltered old (net.markStale id) :=
  h.of_withoutResults (kept_intact.markStale net id h.intact) (withoutResults_modify fun _ _ => rfl)

/-- A node takes on what its own input means. -/
theorem adopt (h : Unaltered old net) {id : NodeId} {n : Node} (hn : net.node? id = some n) {m : Meaning}
    (hm : net.meaning id n.input = .ok m) : Unaltered old (net.adopt id m) :=
  h.of_withoutResults (kept_intact.adopt net id n.input m hm h.intact)
    (h.intact.wired.withoutResults_adopt hn (h.stable id n m hn hm))

theorem keptByWalks (old : Net) : KeptByWalks (Unaltered old) where
  markStale _ id h := h.markStale id
  refresh net id net' hr h := by
    obtain ⟨n, hn, ⟨x, -, rfl⟩ | ⟨t, m, ht, hm, rfl⟩⟩ := refresh_eq_ok hr
    · exact h
    · refine h.adopt hn ?_
      rw [Node.input, ht]
      exact hm

end Unaltered

/-! ## Nets that can be healed -/

/-- Every input is accepted, and no path is deeper than a walk may go, so that there are no cycles. -/
structure Passable (net : Net) : Prop where
  accepted : ∀ id n, net.node? id = some n → ∃ m, net.meaning id n.input = .ok m
  shallow : ∀ id edges, net.PathDown id edges → edges ≤ net.settings.depthLimit.toNat

theorem Passable.congr {net net' : Net} (hnet : net.Passable)
    (h : net'.withoutResults = net.withoutResults) : net'.Passable where
  accepted id n' hn' := by
    obtain ⟨n, hn, -, hcontent, -⟩ := exists_node?_of_withoutResults h hn'
    obtain ⟨m, hm⟩ := hnet.accepted id n hn
    rw [Node.input, hcontent] at hm
    obtain ⟨m', hm', -⟩ := exists_meaning_congr (directory_eq_of_withoutResults h) hm
    exact ⟨m', hm'⟩
  shallow id edges hpath := by
    obtain ⟨path, hhead, hchain, hlength⟩ := hpath
    rw [settings_eq_of_withoutResults h]
    exact hnet.shallow id edges ⟨path, hhead, hchain.imp fun _ _ => readBy_of_withoutResults h, hlength⟩

/-- No node has the name of a deleted one, every input is accepted, and no path is deeper than a walk
may go, so that there are no cycles. -/
structure Healable (net : Net) : Prop where
  unnamed : net.NoneNamedNA
  accepted : ∀ id n, net.node? id = some n → ∃ m, net.meaning id n.input = .ok m
  shallow : ∀ id edges, net.PathDown id edges → edges ≤ net.settings.depthLimit.toNat

theorem Healable.passable {net : Net} (h : net.Healable) : net.Passable :=
  ⟨h.accepted, h.shallow⟩

/-- A net that has only got or lost values since it was another one, and in which walks do not fail. -/
structure Healing (old net : Net) : Prop extends Unaltered old net where
  passable : net.Passable

namespace Healing

variable {old net : Net} {id : NodeId}

theorem of_unaltered {net' : Net} (h : Healing old net) (h' : Unaltered old net') : Healing old net' :=
  ⟨h', h.passable.congr (h'.unchanged.trans h.unchanged.symm)⟩

theorem markStale (h : Healing old net) (id : NodeId) : Healing old (net.markStale id) :=
  h.of_unaltered (h.toUnaltered.markStale id)

theorem adopt (h : Healing old net) {n : Node} (hn : net.node? id = some n) {m : Meaning}
    (hm : net.meaning id n.input = .ok m) : Healing old (net.adopt id m) :=
  h.of_unaltered (h.toUnaltered.adopt hn hm)

theorem keptByWalks (old : Net) : KeptByWalks (Healing old) where
  markStale _ id h := h.markStale id
  refresh net id net' hr h := h.of_unaltered ((Unaltered.keptByWalks old).refresh net id net' hr h.toUnaltered)

/-- No fault has a cause in a net that can be healed. -/
theorem not_witnessed (h : Healing old net) {fault : Fault} :
    ¬ net.Witnessed net.settings.depthLimit.toNat id (net.settings.depthLimit.toNat + 1) fault := by
  rintro ⟨path, hpath, ⟨-, hlength⟩ | ⟨p, n, -, hn, hm⟩⟩
  · have hle := h.passable.shallow id _ ⟨path, hpath.head, hpath.chain, hlength⟩
    exact absurd hle (Nat.not_succ_le_self _)
  · obtain ⟨m, hm'⟩ := h.passable.accepted p n hn
    rw [hm'] at hm
    cases hm

theorem fault_walkBelow (h : Healing old net) (hid : ∃ n, net.node? id = some n) :
    (net.walkBelow id).fault = none := by
  cases hf : (net.walkBelow id).fault with
  | none => rfl
  | some fault =>
    have hbelow : Healing old (net.walkBelow id).net := (keptByWalks old).walkBelow id h
    have hwitnessed := walkBelow_witnessed h.intact rfl hid hf
    rw [← settings_eq_of_withoutResults (hbelow.unchanged.trans h.unchanged.symm)] at hwitnessed
    exact absurd hwitnessed hbelow.not_witnessed

end Healing

/-! ## Fresh nodes -/

/-- A node has a value that was computed from its content. -/
def Fresh (net : Net) (id : NodeId) : Prop :=
  ∃ n, net.node? id = some n ∧ n.isStale = false

theorem fresh_adopt_self {net : Net} {id : NodeId} {n : Node} (hn : net.node? id = some n) (m : Meaning) :
    (net.adopt id m).Fresh id := by
  obtain ⟨n', hn'⟩ := (exists_node?_congr (net.directory_adopt id m)).2 ⟨n, hn⟩
  refine ⟨n', hn', ?_⟩
  rw [Node.isStale, (node?_adopt_self hn hn').2]
  rfl

theorem Fresh.adopt {net : Net} {id x : NodeId} (h : net.Fresh x) {n : Node} (hn : net.node? id = some n)
    (m : Meaning) : (net.adopt id m).Fresh x := by
  by_cases hx : x = id
  · subst hx
    exact fresh_adopt_self hn m
  · obtain ⟨k, hk, hstale⟩ := h
    obtain ⟨k', hk'⟩ := (exists_node?_congr (net.directory_adopt id m)).2 ⟨k, hk⟩
    obtain ⟨j, hj, -, hresult⟩ := node?_adopt_other hn hx hk'
    obtain rfl : k = j := Option.some.inj (hk.symm.trans hj)
    exact ⟨k', hk', by rwa [Node.isStale, hresult]⟩

theorem Fresh.refresh {net net' : Net} {id x : NodeId} (h : net.Fresh x) (hr : net.refresh id = .ok net') :
    net'.Fresh x := by
  obtain ⟨n, hn, ⟨y, -, rfl⟩ | ⟨t, m, -, -, rfl⟩⟩ := refresh_eq_ok hr
  · exact h
  · exact h.adopt hn m

/-! ## Typing inputs again -/

/-- Submits the input that a node has once more. -/
def retype (net : Net) (id : NodeId) : Outcome :=
  match net.node id with
  | .error fault => ⟨net, some fault⟩
  | .ok n => net.submit id n.input false

/-- Types the inputs of nodes again, one after the other, and gives the first fault. -/
def retypeAll : List NodeId → Net → Outcome
  | [], net => ⟨net, none⟩
  | id :: ids, net =>
    let first := net.retype id
    let others := retypeAll ids first.net
    ⟨others.net, first.fault.or others.fault⟩

namespace Healing

variable {old net : Net} {id : NodeId}

/-- Typing an input again does not fail, gives the node a value and loses none. -/
theorem retype (h : Healing old net) (hid : ∃ n, net.node? id = some n) :
    (net.retype id).fault = none ∧ Healing old (net.retype id).net ∧
      ∀ x, x = id ∨ net.Fresh x → (net.retype id).net.Fresh x := by
  obtain ⟨n, hn⟩ := hid
  obtain ⟨m, hm⟩ := h.passable.accepted id n hn
  have hretype : net.retype id = net.setContent id n.input := by
    rw [Net.retype, node, hn]
    rfl
  have hfresh {m' : Meaning} : ∀ x, x = id ∨ net.Fresh x → (net.adopt id m').Fresh x := by
    rintro x (rfl | hx)
    · exact fresh_adopt_self hn m'
    · exact hx.adopt hn m'
  rw [hretype]
  rcases setContent_cases hn n.input with
    ⟨hskip, heq⟩ | ⟨-, ⟨m', hm', -, heq⟩ | ⟨m', hm', -, heq⟩ | ⟨fault, hfault, -⟩⟩
  · rw [heq]
    refine ⟨rfl, h, ?_⟩
    rintro x (rfl | hx)
    · exact ⟨n, hn, by simpa using hskip⟩
    · exact hx
  · have hadopt := h.adopt hn hm'
    have hf := hadopt.fault_walkBelow ((exists_node?_congr (net.directory_adopt id m')).2 ⟨n, hn⟩)
    rw [heq]
    refine ⟨hf, (keptByWalks old).walkBelow id hadopt, fun x hx => ?_⟩
    exact walkBelow_of_fault_eq_none (I := (Fresh · x)) (fun _ _ _ hr h => h.refresh hr) (hfresh x hx) hf
  · rw [heq]
    exact ⟨rfl, h.adopt hn hm', hfresh⟩
  · cases hm.symm.trans hfault

theorem retypeAll (ids : List NodeId) (h : Healing old net)
    (hids : ∀ id ∈ ids, ∃ n, net.node? id = some n) :
    (Net.retypeAll ids net).fault = none ∧ Healing old (Net.retypeAll ids net).net ∧
      ∀ x, x ∈ ids ∨ net.Fresh x → (Net.retypeAll ids net).net.Fresh x := by
  induction ids generalizing net with
  | nil =>
    refine ⟨rfl, h, ?_⟩
    rintro x (hx | hx)
    · cases hx
    · exact hx
  | cons id ids ih =>
    obtain ⟨hf, h', hfresh⟩ := h.retype (hids id List.mem_cons_self)
    have hdir := directory_eq_of_withoutResults (h'.unchanged.trans h.unchanged.symm)
    obtain ⟨hfs, hs, hfreshs⟩ := ih h' fun c hc =>
      (exists_node?_congr hdir).2 (hids c (List.mem_cons_of_mem id hc))
    refine ⟨by rw [Net.retypeAll, hf, Option.none_or, hfs], hs, fun x hx => hfreshs x ?_⟩
    rw [List.mem_cons, or_assoc] at hx
    rcases hx with rfl | hx | hx
    · exact .inr (hfresh x (.inl rfl))
    · exact .inl hx
    · exact .inr (hfresh x (.inr hx))

end Healing

/-! ## Healed nets -/

theorem KeptByOperations.retypeAll {I : Net → Prop} (hI : KeptByOperations (fun _ => True) I)
    (ids : List NodeId) {net : Net} (h : I net) : I (retypeAll ids net).net := by
  induction ids generalizing net with
  | nil => exact h
  | cons id ids ih =>
    refine ih ?_
    rw [retype]
    split
    · exact h
    · exact hI.setContent net id _ h

/-- Inputs were typed again in a net without a failure: nothing but values changed, no node is stale, and
every value is that of the input, for values of the parents that are the same as those that they show. -/
structure Healed (net : Net) (outcome : Outcome) : Prop where
  succeeded : outcome.fault = none
  unchanged : outcome.net.withoutResults = net.withoutResults
  fresh : ∀ id n, outcome.net.node? id = some n → n.isStale = false
  number : ∀ id n, outcome.net.node? id = some n → ¬ IsFormulaText n.input.toList →
    n.input = Decimal.format n.value
  formula : ∀ id n, outcome.net.node? id = some n → IsFormulaText n.input.toList →
    ∃ read : NodeId → Float, (∀ p ∈ n.parents, Same (read p) (outcome.net.valueOf p)) ∧
      ∃ evaluation, outcome.net.evaluation read id n.input = .ok evaluation ∧ evaluation.value = n.value

theorem exists_evaluation {net : Net} {id : NodeId} {text : String} (hf : IsFormulaText text.toList)
    (h : ∃ m, net.meaning id text = .ok m) :
    ∃ evaluation, net.evaluation net.valueOf id text = .ok evaluation := by
  obtain ⟨m, hm⟩ := h
  rw [meaning_eq_evaluation net id hf] at hm
  cases heval : net.evaluation net.valueOf id text with
  | ok evaluation => exact ⟨evaluation, rfl⟩
  | error fault =>
    rw [heval] at hm
    cases hm

/-- Typing the inputs of some nodes again, all stale ones among them and in any order, heals a net after
any run. -/
theorem run_healed (settings : Settings) (ops : List Operation) (h : (run settings ops).Healable)
    {ids : List NodeId} (hids : ∀ id ∈ ids, ∃ n, (run settings ops).node? id = some n)
    (hstale : ∀ id n, (run settings ops).node? id = some n → n.isStale = true → id ∈ ids) :
    Healed (run settings ops) (retypeAll ids (run settings ops)) := by
  have hintact := intact_run settings ops
  have hhealing : Healing (run settings ops) (run settings ops) :=
    ⟨.refl hintact (hintact.stable_of_unnamed h.unnamed), h.passable⟩
  obtain ⟨hf, hhealed, hfresh⟩ := hhealing.retypeAll ids hids
  obtain ⟨-, hcurrent⟩ := keptByOperations_current.retypeAll ids
    ⟨wired_run settings ops, current_run settings ops⟩
  have hcovers := stalenessCovers_of_current hhealed.intact.wired hhealed.intact.sound
    hhealed.intact.linked hcurrent
  have hall : ∀ id n, (retypeAll ids (run settings ops)).net.node? id = some n → n.isStale = false := by
    intro id n hn
    obtain ⟨k, hk⟩ := (exists_node?_congr (directory_eq_of_withoutResults hhealed.unchanged)).1 ⟨n, hn⟩
    have hid : id ∈ ids ∨ (run settings ops).Fresh id := by
      cases hkstale : k.isStale with
      | true => exact .inl (hstale id k hk hkstale)
      | false => exact .inr ⟨k, hk, hkstale⟩
    obtain ⟨n', hn', hnstale⟩ := hfresh id hid
    obtain rfl : n' = n := Option.some.inj (hn'.symm.trans hn)
    exact hnstale
  constructor
  case succeeded => exact hf
  case unchanged => exact hhealed.unchanged
  case fresh => exact hall
  case number => exact fun id n hn => hcovers.number id n hn (hall id n hn)
  case formula =>
    intro id n hn hformula
    exact hcovers.formula id n hn (hall id n hn) hformula (fun p _ m hm => hall p m hm)
      (exists_evaluation hformula (hhealed.passable.accepted id n hn))

/-- A walk over two formulas fails at the second one, which reads a deleted node, and this one then gets
another formula. -/
def aborting : List Operation :=
  [.create "A" 0 0, .create "B" 0 0, .create "C" 0 0, .create "D" 0 0, .submit 1 "=@A" false,
    .submit 2 "=@B+@D" false, .delete 3, .submit 0 "3" false, .submit 2 "=@B" false]

theorem run_aborting :
    (run .default aborting).Healable ∧
      (∀ id n, (run .default aborting).node? id = some n → (n.isStale = true ↔ id < 2)) ∧
      Healed (run .default aborting) (retypeAll [1, 0] (run .default aborting)) := by
  have hnodes : ∀ e ∈ (run .default aborting).nodes.entries, e.2.key ≠ danglingToken ∧
      ((run .default aborting).meaning e.1 e.2.input).isOk = true ∧ (e.2.isStale = true ↔ e.1 < 2) := by
    decide +kernel
  have hnode : ∀ {id n}, (run .default aborting).node? id = some n → _ := fun {id n} hn =>
    hnodes (id, n) (Roster.get?_eq_some_iff_mem.1 hn)
  have hacyclic : (run .default aborting).Acyclic := acyclic_of_edges (by decide +kernel)
  have hsize : (run .default aborting).nodes.size ≤ Settings.default.depthLimit.toNat + 1 := by
    decide +kernel
  have hhealable : (run .default aborting).Healable := by
    constructor
    case unnamed => exact fun id n hn => (hnode hn).1
    case accepted =>
      intro id n hn
      have hok := (hnode hn).2.1
      cases hm : (run .default aborting).meaning id n.input with
      | ok m => exact ⟨m, rfl⟩
      | error fault =>
        rw [hm] at hok
        cases hok
    case shallow =>
      intro id edges hpath
      rw [settings_run]
      exact hacyclic.pathDown_le (wired_run .default aborting) hsize hpath
  have hstale : ∀ id n, (run .default aborting).node? id = some n → (n.isStale = true ↔ id < 2) :=
    fun id n hn => (hnode hn).2.2
  have hids : ∀ id ∈ [1, 0], ∃ n, (run .default aborting).node? id = some n := by
    have hlive : ∀ id ∈ [1, 0], ((run .default aborting).node? id).isSome = true := by decide +kernel
    exact fun id hid => Option.isSome_iff_exists.1 (hlive id hid)
  refine ⟨hhealable, hstale, run_healed .default aborting hhealable hids fun id n hn h => ?_⟩
  have hsmall : ∀ k < 2, k ∈ [1, 0] := by decide
  exact hsmall id ((hstale id n hn).1 h)

end FormulaNet.Net
