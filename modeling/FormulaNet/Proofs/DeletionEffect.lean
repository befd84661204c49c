import FormulaNet.Proofs.Regions
import FormulaNet.Proofs.Substitution

/-!
# What a deletion changes

A deletion replaces tokens twice, drops links in between, and then evaluates formulas again.  Together the
two passes replace the tokens of the deleted node and the indices behind it, each by what the net as it was
tells (`Net.replaceFrom_renumbering`).  The evaluations store every formula as they find it and keep the
references to the other nodes (`Net.keptByWalks_carried`), and they stay below the deleted node.  All of
this is in `Net.run_deletedFrom`.
-/

namespace FormulaNet

namespace Net

/-! ## The tokens that are replaced -/

/-- The tokens that the deletion of a node with an index replaces: its own, and those by index of the nodes
behind it. -/
def vacated (net : Net) (id : NodeId) (index : Nat) (r : Reference) : Option String :=
  if r.target = id then some danglingToken
  else match r.kind, net.nodes.indexOf? r.target with
    | .index, some j => if index < j then some (toString (j - 1)) else none
    | _, _ => none

section Tokens

variable {net : Net} {id : NodeId} {index : Nat} (hindex : net.nodes.indexOf? id = some index)

include hindex

/-- The nodes behind the deleted one have a new index, which is one less. -/
theorem renumbering_erase {kind : MentionKind} {target : NodeId} (htarget : target ≠ id)
    (span span' : Span) : renumbering (net.nodes.erase id) index ⟨span, kind, target⟩ =
      net.vacated id index ⟨span', kind, target⟩ := by
  simp only [renumbering, vacated, if_neg htarget, Roster.indexOf?_erase hindex htarget]
  cases kind with
  | name => rfl
  | index =>
    cases hj : net.nodes.indexOf? target with
    | none => rfl
    | some j =>
      have hne : j ≠ index := by
        rintro rfl
        exact htarget (Roster.indexOf?_inj hj hindex)
      by_cases hlt : index < j
      · simp only [Option.map_some, if_pos hlt, if_pos (show index ≤ j - 1 by omega)]
      · simp only [Option.map_some, if_neg hlt, if_neg (show ¬ index ≤ j by omega)]

/-- The two passes over a formula, with the links dropped in between, are one. -/
theorem replaceFrom_renumbering (start start' start'' : Nat) (ps : List Piece) :
    LinkedText.replaceFrom (renumbering (net.nodes.erase id) index) start'
        ((LinkedText.replaceFrom (dangle id) start ps).map (LinkedText.unlinkPiece id)) =
      (LinkedText.replaceFrom (net.vacated id index) start'' ps).map (LinkedText.unlinkPiece id) := by
  induction ps generalizing start start' start'' with
  | nil => rfl
  | cons p ps ih =>
    cases p with
    | plain cs => exact congrArg (Piece.plain cs :: ·) (ih _ _ _)
    | link kind target token =>
      by_cases htarget : target = id
      · simp only [LinkedText.replaceFrom, List.map_cons, LinkedText.unlinkPiece, dangle, vacated,
          if_pos htarget, Option.map_some, Option.getD_some]
        exact congrArg _ (ih _ _ _)
      · simp only [LinkedText.replaceFrom, List.map_cons, LinkedText.unlinkPiece, dangle,
          if_neg htarget, Option.map_none, Option.getD_none]
        rw [renumbering_erase hindex htarget]
        exact congrArg _ (ih _ _ _)

theorem replace_renumbering (c : Content) :
    ((c.replace (dangle id)).unlink id).replace (renumbering (net.nodes.erase id) index) =
      (c.replace (net.vacated id index)).unlink id := by
  cases c with
  | number x => rfl
  | formula t =>
    simp only [Content.replace, Content.unlink, LinkedText.replace_eq]
    exact congrArg (fun ps => Content.formula ⟨ps⟩) (replaceFrom_renumbering hindex 0 0 0 t.pieces)

end Tokens

theorem Wired.unlink_dangle {net : Net} (h : net.Wired) {id x : NodeId} {n : Node}
    (hn : net.node? x = some n) (hid : id ∉ n.parents) :
    (n.content.replace (dangle id)).unlink id = n.content := by
  cases ht : n.content with
  | number y => rfl
  | formula t =>
    have hlinks : ∀ kind token, .link kind id token ∉ t.pieces := fun kind token hmem =>
      hid ((h.mem_parents_iff hn ht).2 (LinkedText.mem_targets.2 ⟨kind, token, hmem⟩))
    have hdangle : ∀ r ∈ LinkedText.refsFrom 0 t.pieces, dangle id r = none := by
      intro r hr
      obtain ⟨token, hmem⟩ := LinkedText.exists_link_of_mem_refsFrom hr
      refine if_neg ?_
      rintro rfl
      exact hlinks r.kind token hmem
    have hunlink : t.pieces.map (LinkedText.unlinkPiece id) = t.pieces := by
      refine (List.map_congr_left fun p hp => ?_).trans (List.map_id _)
      cases p with
      | plain cs => rfl
      | link kind target token =>
        refine if_neg ?_
        rintro rfl
        exact hlinks kind token hp
    rw [Content.replace, LinkedText.replace_eq, LinkedText.replaceFrom_eq_self _ hdangle]
    exact congrArg (fun ps => Content.formula ⟨ps⟩) hunlink

/-- The other nodes after the removal of a node, before anything is evaluated again. -/
theorem Wired.node?_remove {net : Net} (h : net.Wired) {id : NodeId} {index : Nat}
    (hindex : net.nodes.indexOf? id = some index) {x : NodeId} (hx : x ≠ id) {n : Node}
    (hn : net.node? x = some n) : (net.remove id index).node? x = some
      { n with
        content := (n.content.replace (net.vacated id index)).unlink id
        result := if id ∈ n.parents then none else n.result
        parents := n.parents.erase id
        children := n.children.erase id } := by
  rw [Net.node?_remove, if_neg hx, hn, Option.map_some, ← replace_renumbering hindex]
  by_cases hid : id ∈ n.parents
  · rw [if_pos hid, if_pos hid]
  · rw [if_neg hid, if_neg hid, h.unlink_dangle hn hid]

end Net

/-! ## Formulas that are evaluated again -/

/-- A node that was evaluated again or has become stale since: it has the input that it had, and the
references of it among others. -/
structure Node.CarriedTo (n n' : Node) : Prop where
  name : n'.name = n.name
  position : n'.position = n.position
  input : n'.input = n.input
  refs : n.content.refs.Sublist n'.content.refs

theorem Node.CarriedTo.trans {n n' n'' : Node} (h : n.CarriedTo n') (h' : n'.CarriedTo n'') :
    n.CarriedTo n'' :=
  ⟨h'.name.trans h.name, h'.position.trans h.position, h'.input.trans h.input, h.refs.trans h'.refs⟩

namespace Net

/-- A formula that is evaluated again is stored as it was, and reads what it is linked to. -/
theorem Intact.exists_carriedTo {net net' : Net} (h : net.Intact) {id : NodeId}
    (hr : net.refresh id = .ok net') {x : NodeId} {n : Node} (hn : net.node? x = some n) :
    ∃ n', net'.node? x = some n' ∧ n.CarriedTo n' := by
  obtain ⟨k, hk, ⟨y, -, rfl⟩ | ⟨t, m, ht, hm, rfl⟩⟩ := refresh_eq_ok hr
  · exact ⟨n, hn, rfl, rfl, rfl, .refl _⟩
  rw [node?_adopt x hk, hn, Option.map_some]
  refine ⟨_, rfl, ?_⟩
  dsimp only
  split
  · next hx =>
    obtain rfl : k = n := Option.some.inj (hk.symm.trans (hx ▸ hn))
    have hsound := h.sound id k t hk ht
    obtain ⟨e, he, hcontent⟩ := h.sound.exists_read hk ht hm
    have hlinked := h.linked.scope_of_read hk ht hsound he
    obtain ⟨-, hchars, hrefs, -⟩ := LinkedText.sound_cut hsound.isFormulaText_chars he
    refine ⟨rfl, rfl, ?_, ?_⟩
    · rw [Node.input, Node.input, hcontent, ht]
      exact congrArg String.ofList hchars
    · rw [hcontent, ht, Content.refs, Content.refs, hrefs]
      exact hsound.sublist_refs hlinked he
  · exact ⟨rfl, rfl, rfl, .refl _⟩

/-- A net after some steps of a walk, in which every node is what it was, results and new references
aside. -/
structure Carried (old net : Net) : Prop where
  intact : net.Intact
  directory : net.directory = old.directory
  nodes : ∀ x n, old.node? x = some n → ∃ n', net.node? x = some n' ∧ n.CarriedTo n'

theorem Intact.carried {net : Net} (h : net.Intact) : Carried net net :=
  ⟨h, rfl, fun _ n hn => ⟨n, hn, rfl, rfl, rfl, .refl _⟩⟩

theorem keptByWalks_carried (old : Net) : KeptByWalks (Carried old) where
  markStale net id h := by
    refine ⟨kept_intact.markStale net id h.intact, (net.directory_markStale id).trans h.directory,
      fun x n hn => ?_⟩
    obtain ⟨k, hk, hcarried⟩ := h.nodes x n hn
    rw [node?_markStale, hk]
    split
    · exact ⟨k.markStale, rfl, hcarried.name, hcarried.position, hcarried.input, hcarried.refs⟩
    · exact ⟨k, rfl, hcarried⟩
  refresh net id net' hr h := by
    refine ⟨kept_intact.refresh h.intact hr, (directory_refresh hr).trans h.directory, fun x n hn => ?_⟩
    obtain ⟨k, hk, hcarried⟩ := h.nodes x n hn
    obtain ⟨n', hn', hcarried'⟩ := h.intact.exists_carriedTo hr hk
    exact ⟨n', hn', hcarried.trans hcarried'⟩

/-! ## The net after a deletion -/

/-- A node that is left after the deletion of a node with an index: other tokens are in its input, the
references to all nodes that are left are still there, and its result is as it was unless it read the deleted
node, directly or by way of others. -/
structure AfterDeletion (old : Net) (id : NodeId) (index : Nat) (x : NodeId) (n n' : Node) : Prop where
  name : n'.name = n.name
  position : n'.position = n.position
  text : ∃ refs, Substitution (old.vacated id index) 0 n.input.toList n.content.refs 0 n'.input.toList refs ∧
    (refs.filter (·.target ≠ id)).Sublist n'.content.refs
  result : ¬ Relation.ReflTransGen old.ReadBy id x → n'.result = n.result

/-- A net after the deletion of a node with an index. -/
structure DeletedFrom (old : Net) (id : NodeId) (index : Nat) (net : Net) : Prop where
  settings : net.settings = old.settings
  gone : net.node? id = none
  indices : net.nodes.ids = old.nodes.ids.erase id
  nodes : ∀ x n, x ≠ id → old.node? x = some n →
    ∃ n', net.node? x = some n' ∧ AfterDeletion old id index x n n'

/-- An edge that is left after a removal was there before. -/
theorem readBy_of_remove {net : Net} {id : NodeId} {index : Nat} {a b : NodeId}
    (h : (net.remove id index).ReadBy a b) : net.ReadBy a b := by
  obtain ⟨n', hn', hb⟩ := h
  rw [node?_remove] at hn'
  split at hn'
  · cases hn'
  · obtain ⟨n, hn, rfl⟩ := exists_of_map_eq_some hn'
    exact ⟨n, hn, (IdSet.mem_erase.1 hb).1⟩

/-- The walks after a removal stay below the removed node. -/
theorem Intact.confined_delete {net : Net} (h : net.Intact) {id : NodeId} {index : Nat}
    (hindex : net.nodes.indexOf? id = some index) {m : Node} (hm : net.node? id = some m) :
    Confined (Relation.ReflTransGen net.ReadBy id) (net.remove id index) (net.delete id).net := by
  rw [delete_eq hindex hm]
  refine (keptWithin_confined _ _).walkBelowAll _ (fun c hc => .single ⟨m, hm, hc⟩) ?_
  exact (kept_intact.remove net id index hindex h).confined fun a b ha hab => ha.tail (readBy_of_remove hab)

theorem Intact.carried_delete {net : Net} (h : net.Intact) {id : NodeId} {index : Nat}
    (hindex : net.nodes.indexOf? id = some index) {m : Node} (hm : net.node? id = some m) :
    Carried (net.remove id index) (net.delete id).net := by
  rw [delete_eq hindex hm]
  exact (keptByWalks_carried _).walkBelowAll _ (kept_intact.remove net id index hindex h).carried

theorem Intact.ids_delete {net : Net} (h : net.Intact) {id : NodeId} {index : Nat}
    (hindex : net.nodes.indexOf? id = some index) :
    (net.delete id).net.nodes.ids = net.nodes.ids.erase id := by
  obtain ⟨m, hm⟩ := exists_node?_of_indexOf? hindex
  rw [ids_congr (h.carried_delete hindex hm).directory, Reaches.ids_remove, Roster.ids_erase]

/-- A deletion replaces the tokens of the node and the indices behind it in all formulas, keeps all
references to other nodes, and changes no result but those of nodes below the deleted one. -/
theorem run_deletedFrom (settings : Settings) (ops : List Operation) {id : NodeId} {index : Nat}
    (hindex : (run settings ops).nodes.indexOf? id = some index) :
    (run settings ops).DeletedFrom id index ((run settings ops).delete id).net := by
  have h := intact_run settings ops
  obtain ⟨m, hm⟩ := exists_node?_of_indexOf? hindex
  have hcarried := h.carried_delete hindex hm
  have hconfined := h.confined_delete hindex hm
  have hids := h.ids_delete hindex
  constructor
  case settings => exact (kept_settings _).delete id rfl
  case gone =>
    cases hgone : ((run settings ops).delete id).net.node? id with
    | none => rfl
    | some n =>
      have hmem := mem_ids_iff.2 ⟨n, hgone⟩
      rw [hids] at hmem
      exact absurd hmem (Roster.nodup_ids _).not_mem_erase
  case indices => exact hids
  case nodes =>
    intro x n hx hn
    have hremoved := h.wired.node?_remove hindex hx hn
    obtain ⟨n', hn', hname, hposition, hinput, hrefs⟩ := hcarried.nodes x _ hremoved
    refine ⟨n', hn', hname, hposition, ?_, fun hbelow => ?_⟩
    · rw [Content.refs_unlink] at hrefs
      refine ⟨(n.content.replace ((run settings ops).vacated id index)).refs, ?_, hrefs⟩
      rw [hinput, Node.input, Node.input, Content.input_unlink]
      exact n.content.substitution_replace _
    · rw [hconfined.kept x _ n' hbelow hremoved hn']
      refine if_neg fun hid => ?_
      exact hbelow (.single ⟨m, hm, (h.wired.mirrored id x m n hm hn).1 hid⟩)

/-- A formula mentions the first node by its name and by its index, and the nodes behind it. -/
def shifting : List Operation :=
  [.create "A" 0 0, .create "B" 0 0, .create "C" 0 0, .create "D" 0 0, .submit 1 "4" false,
    .submit 3 "= @ A*@1 - @2/@B + @0" false]

theorem run_shifting :
    (run .default shifting).nodes.indexOf? 0 = some 0 ∧
      (((run .default shifting).delete 0).net.node? 3).map Node.input = some "= @ NA*@0 - @1/@B + @NA" ∧
      (run .default shifting).DeletedFrom 0 0 ((run .default shifting).delete 0).net := by
  have hindex : (run .default shifting).nodes.indexOf? 0 = some 0 := by decide +kernel
  exact ⟨hindex, by decide +kernel, run_deletedFrom .default shifting hindex⟩

end Net

end FormulaNet
