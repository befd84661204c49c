import FormulaNet.Proofs.EditFrame
import FormulaNet.Proofs.DeletionEffect
import FormulaNet.Proofs.Lookups

/-!
# Deletions in either order

The second of two deletions replaces tokens that the first has already replaced, and indices have changed
in between.  Together they write what can be read off the net as it was (`Net.vacatedBoth`), in which the
order of the two nodes does not matter.  Where no node has the name `NA`, the evaluations in between and
afterwards change values alone, so that the two orders leave the same net, values aside:
`Net.run_delete_comm`.
-/

namespace FormulaNet

namespace Net

/-! ## The tokens that two deletions replace -/

/-- The tokens that the deletions of two nodes replace: their own, and those by index of the nodes whose index
changes. -/
def vacatedBoth (net : Net) (a b : NodeId) (r : Reference) : Option String :=
  if r.target = a ∨ r.target = b then some danglingToken
  else match r.kind, ((net.nodes.erase a).erase b).indexOf? r.target with
    | .index, some j => if net.nodes.indexOf? r.target = some j then none else some (toString j)
    | _, _ => none

theorem vacatedBoth_comm (net : Net) (a b : NodeId) : net.vacatedBoth a b = net.vacatedBoth b a := by
  funext r
  simp only [vacatedBoth, or_comm, Roster.erase_erase_comm net.nodes a b]

section Tokens

variable {net net' : Net} {a b : NodeId} {i j : Nat} (ha : net.nodes.indexOf? a = some i)
  (hids : net'.nodes.ids = net.nodes.ids.erase a) (hb : net'.nodes.indexOf? b = some j)

include ha hids hb

/-- An index that both deletions change is written twice, and the second number stays. -/
theorem getD_vacated (kind : MentionKind) {target : NodeId} (hta : target ≠ a) (htb : target ≠ b)
    (span span' span'' : Span) (token : List Char) :
    ((net'.vacated b j ⟨span', kind, target⟩).map String.toList).getD
        (((net.vacated a i ⟨span, kind, target⟩).map String.toList).getD token) =
      ((net.vacatedBoth a b ⟨span'', kind, target⟩).map String.toList).getD token := by
  rw [← Roster.ids_erase] at hids
  rw [Roster.indexOf?_congr hids] at hb
  simp only [vacated, vacatedBoth, if_neg hta, if_neg htb, if_neg (not_or.2 ⟨hta, htb⟩),
    Roster.indexOf?_congr hids, Roster.indexOf?_erase hb htb, Roster.indexOf?_erase ha hta]
  cases kind with
  | name => rfl
  | index =>
    cases hk : net.nodes.indexOf? target with
    | none => rfl
    | some k =>
      simp only [Option.map_some, Option.some.injEq]
      by_cases hi : i < k
      · by_cases hj : j < k - 1
        · simp only [if_pos hi, if_pos hj, if_neg (show ¬ k = k - 1 - 1 by omega), Option.map_some,
            Option.getD_some]
        · simp only [if_pos hi, if_neg hj, if_neg (show ¬ k = k - 1 by omega), Option.map_some,
            Option.map_none, Option.getD_some, Option.getD_none]
      · by_cases hj : j < k
        · simp only [if_neg hi, if_pos hj, if_neg (show ¬ k = k - 1 by omega), Option.map_some,
            Option.getD_some]
        · simp only [if_neg hi, if_neg hj, if_true, Option.map_none, Option.getD_none]

theorem replaceFrom_vacated (start start' start'' : Nat) (ps : List Piece) :
    (LinkedText.replaceFrom (net'.vacated b j) start'
        ((LinkedText.replaceFrom (net.vacated a i) start ps).map (LinkedText.unlinkPiece a))).map
          (LinkedText.unlinkPiece b) =
      ((LinkedText.replaceFrom (net.vacatedBoth a b) start'' ps).map (LinkedText.unlinkPiece a)).map
        (LinkedText.unlinkPiece b) := by
  induction ps generalizing start start' start'' with
  | nil => rfl
  | cons p ps ih =>
    cases p with
    | plain cs => exact congrArg (Piece.plain cs :: ·) (ih _ _ _)
    | link kind target token =>
      by_cases hta : target = a
      · simp only [LinkedText.replaceFrom, List.map_cons, LinkedText.unlinkPiece, vacated, vacatedBoth,
          if_pos hta, if_pos (Or.inl hta : target = a ∨ target = b), Option.map_some, Option.getD_some]
        exact congrArg _ (ih _ _ _)
      by_cases htb : target = b
      · simp only [LinkedText.replaceFrom, List.map_cons, LinkedText.unlinkPiece, vacated, vacatedBoth,
          if_neg hta, if_pos htb, if_pos (Or.inr htb : target = a ∨ target = b), Option.map_some,
          Option.getD_some]
        exact congrArg _ (ih _ _ _)
      · simp only [LinkedText.replaceFrom, List.map_cons, LinkedText.unlinkPiece, if_neg hta, if_neg htb]
        exact congrArg₂ (Piece.link kind target · :: ·) (getD_vacated ha hids hb kind hta htb _ _ _ token)
          (ih _ _ _)

theorem replace_vacated (c : Content) :
    ((((c.replace (net.vacated a i)).unlink a).replace (net'.vacated b j)).unlink b) =
      ((c.replace (net.vacatedBoth a b)).unlink a).unlink b := by
  cases c with
  | number x => rfl
  | formula t =>
    simp only [Content.replace, Content.unlink, LinkedText.replace_eq]
    exact congrArg (fun ps => Content.formula ⟨ps⟩) (replaceFrom_vacated ha hids hb 0 0 0 t.pieces)

end Tokens

theorem unlink_unlink_comm (c : Content) (a b : NodeId) : (c.unlink a).unlink b = (c.unlink b).unlink a := by
  cases c with
  | number x => rfl
  | formula t =>
    refine congrArg (fun ps => Content.formula ⟨ps⟩) ?_
    change (t.pieces.map (LinkedText.unlinkPiece a)).map (LinkedText.unlinkPiece b) =
      (t.pieces.map (LinkedText.unlinkPiece b)).map (LinkedText.unlinkPiece a)
    rw [List.map_map, List.map_map]
    refine List.map_congr_left fun p _ => ?_
    cases p with
    | plain cs => rfl
    | link kind target token =>
      by_cases hta : target = a
      · by_cases htb : target = b
        · simp only [Function.comp_apply, LinkedText.unlinkPiece, if_pos hta, if_pos htb]
        · simp only [Function.comp_apply, LinkedText.unlinkPiece, if_pos hta, if_neg htb]
      · by_cases htb : target = b
        · simp only [Function.comp_apply, LinkedText.unlinkPiece, if_neg hta, if_pos htb]
        · simp only [Function.comp_apply, LinkedText.unlinkPiece, if_neg hta, if_neg htb]

/-! ## The nodes that two deletions leave -/

/-- A node after the deletion of another one, its value aside. -/
def bereave (net : Net) (id : NodeId) (index : Nat) (n : Node) : Node :=
  { n with
    content := (n.content.replace (net.vacated id index)).unlink id
    result := none
    parents := n.parents.erase id
    children := n.children.erase id }

/-- A node after the deletions of two others, its value aside. -/
def bereaveOfBoth (net : Net) (a b : NodeId) (n : Node) : Node :=
  { n with
    content := ((n.content.replace (net.vacatedBoth a b)).unlink a).unlink b
    result := none
    parents := (n.parents.erase a).erase b
    children := (n.children.erase a).erase b }

theorem bereaveOfBoth_comm (net : Net) (a b : NodeId) : net.bereaveOfBoth a b = net.bereaveOfBoth b a := by
  funext n
  simp only [bereaveOfBoth, net.vacatedBoth_comm a b, unlink_unlink_comm _ a b,
    IdSet.erase_erase_comm _ a b]

theorem NoneNamedNA.remove {net : Net} (h : net.NoneNamedNA) (id : NodeId) (index : Nat) :
    (net.remove id index).NoneNamedNA := by
  refine h.mono ?_
  rw [directory_remove]
  exact List.filter_sublist.subset

section Deletions

variable {net : Net} (h : net.Intact) (hna : net.NoneNamedNA) {a b : NodeId} {i j : Nat}

include h hna

/-- The evaluations after a removal change values alone. -/
theorem Intact.unaltered_delete (ha : net.nodes.indexOf? a = some i) :
    Unaltered (net.remove a i) (net.delete a).net := by
  obtain ⟨n, hn⟩ := exists_node?_of_indexOf? ha
  have hintact : (net.remove a i).Intact := kept_intact.remove net a i ha h
  rw [delete_eq ha hn]
  exact (Unaltered.keptByWalks _).walkBelowAll _ (.refl hintact (hintact.stable_of_unnamed (hna.remove a i)))

theorem Intact.node?_delete (ha : net.nodes.indexOf? a = some i) (x : NodeId) :
    (net.delete a).net.withoutResults.node? x =
      if x = a then none else (net.node? x).map (net.bereave a i) := by
  rw [(h.unaltered_delete hna ha).unchanged, node?_withoutResults]
  by_cases hx : x = a
  · rw [if_pos hx, node?_remove, if_pos hx, Option.map_none]
  · rw [if_neg hx]
    cases hn : net.node? x with
    | none => rw [node?_remove, if_neg hx, hn, Option.map_none, Option.map_none, Option.map_none]
    | some n =>
      rw [h.wired.node?_remove ha hx hn]
      rfl

theorem Intact.next_delete (ha : net.nodes.indexOf? a = some i) :
    (net.delete a).net.nodes.next = net.nodes.next :=
  (congrArg (fun net => net.nodes.next) (h.unaltered_delete hna ha).unchanged :)

theorem Intact.node?_delete_delete (ha : net.nodes.indexOf? a = some i)
    (hb : (net.delete a).net.nodes.indexOf? b = some j) (x : NodeId) :
    ((net.delete a).net.delete b).net.withoutResults.node? x =
      if x = a ∨ x = b then none else (net.node? x).map (net.bereaveOfBoth a b) := by
  have hfirst := h.unaltered_delete hna ha
  have hunnamed : (net.delete a).net.NoneNamedNA :=
    (hna.remove a i).congr (directory_eq_of_withoutResults hfirst.unchanged)
  have hkept : ((net.delete a).net.node? x).map ((net.delete a).net.bereave b j) =
      ((net.delete a).net.withoutResults.node? x).map ((net.delete a).net.bereave b j) := by
    rw [node?_withoutResults, Option.map_map]
    rfl
  rw [hfirst.intact.node?_delete hunnamed hb, hkept, h.node?_delete hna ha]
  by_cases hxb : x = b
  · rw [if_pos hxb, if_pos (.inr hxb)]
  by_cases hxa : x = a
  · rw [if_neg hxb, if_pos hxa, if_pos (.inl hxa), Option.map_none]
  · rw [if_neg hxb, if_neg hxa, if_neg (not_or.2 ⟨hxa, hxb⟩), Option.map_map]
    refine congrArg (Option.map · _) (funext fun n => ?_)
    rw [Function.comp_apply, bereave, bereave, bereaveOfBoth]
    dsimp only
    rw [replace_vacated ha (h.ids_delete ha) hb]

end Deletions

/-- A net is told by the numbers in it and their nodes. -/
theorem eq_of_node?_eq {net net' : Net} (hsettings : net'.settings = net.settings)
    (hids : net'.nodes.ids = net.nodes.ids) (hnext : net'.nodes.next = net.nodes.next)
    (hnodes : ∀ x, net'.node? x = net.node? x) : net' = net := by
  have hroster : net'.nodes = net.nodes := Roster.eq_of_get?_eq hids hnext hnodes
  cases net
  cases net'
  congr

/-- Two nodes are deleted one after the other.  Both are found, so that only the evaluations can fail, and the
nodes that are left are told by the net as it was, values aside. -/
structure DeletesBoth (net : Net) (a b : NodeId) : Prop where
  first : ∀ x, (net.delete a).fault ≠ some (.unknownNode x)
  second : ∀ x, ((net.delete a).net.delete b).fault ≠ some (.unknownNode x)
  settings : ((net.delete a).net.delete b).net.settings = net.settings
  next : ((net.delete a).net.delete b).net.nodes.next = net.nodes.next
  indices : ((net.delete a).net.delete b).net.nodes.ids = (net.nodes.ids.erase a).erase b
  nodes : ∀ x, ((net.delete a).net.delete b).net.withoutResults.node? x =
    if x = a ∨ x = b then none else (net.node? x).map (net.bereaveOfBoth a b)

section Orders

variable {net : Net} {a b : NodeId}

theorem Intact.deletesBoth (h : net.Intact) (hna : net.NoneNamedNA) (ha : a ∈ net.nodes.ids)
    (hb : b ∈ net.nodes.ids) (hab : a ≠ b) : net.DeletesBoth a b := by
  obtain ⟨i, hi⟩ := Roster.exists_indexOf? ha
  have hfirst := h.unaltered_delete hna hi
  have hunnamed : (net.delete a).net.NoneNamedNA :=
    (hna.remove a i).congr (directory_eq_of_withoutResults hfirst.unchanged)
  have hids := h.ids_delete hi
  have hb' : b ∈ (net.delete a).net.nodes.ids := by
    rw [hids]
    exact (List.mem_erase_of_ne hab.symm).2 hb
  obtain ⟨j, hj⟩ := Roster.exists_indexOf? hb'
  constructor
  case first => exact h.delete_ne_unknownNode ha
  case second => exact hfirst.intact.delete_ne_unknownNode hb'
  case settings => exact (kept_settings _).delete b ((kept_settings _).delete a rfl)
  case next => rw [hfirst.intact.next_delete hunnamed hj, h.next_delete hna hi]
  case indices => rw [hfirst.intact.ids_delete hj, hids]
  case nodes => exact h.node?_delete_delete hna hi hj

theorem DeletesBoth.withoutResults_eq (hab : net.DeletesBoth a b) (hba : net.DeletesBoth b a) :
    ((net.delete a).net.delete b).net.withoutResults = ((net.delete b).net.delete a).net.withoutResults := by
  have hids (net : Net) : net.withoutResults.nodes.ids = net.nodes.ids := Roster.ids_map _ _
  refine eq_of_node?_eq (hab.settings.trans hba.settings.symm) ?_ (hab.next.trans hba.next.symm) fun x => ?_
  · rw [hids, hids, hab.indices, hba.indices, List.erase_comm]
  · simp only [hab.nodes x, hba.nodes x, or_comm, net.bereaveOfBoth_comm a b]

end Orders

/-- Where no node has the name `NA`, the order in which two nodes are deleted makes a difference to values
alone. -/
theorem run_delete_comm (settings : Settings) (ops : List Operation) (hna : (run settings ops).NoneNamedNA)
    {a b : NodeId} (ha : a ∈ (run settings ops).nodes.ids) (hb : b ∈ (run settings ops).nodes.ids)
    (hab : a ≠ b) :
    (run settings ops).DeletesBoth a b ∧ (run settings ops).DeletesBoth b a ∧
      (((run settings ops).delete a).net.delete b).net.withoutResults =
        (((run settings ops).delete b).net.delete a).net.withoutResults := by
  have h := intact_run settings ops
  have hboth := h.deletesBoth hna ha hb hab
  have hboth' := h.deletesBoth hna hb ha hab.symm
  exact ⟨hboth, hboth', hboth.withoutResults_eq hboth'⟩

/-- A formula mentions two nodes, and nodes in front of them, between them and behind them. -/
def surrounding : List Operation :=
  [.create "A" 0 0, .create "B" 0 0, .create "C" 0 0, .create "D" 0 0, .create "E" 0 0, .create "F" 0 0,
    .submit 5 "=@0+@ 1*@B - @02/@C+@3*@D-@ 4" false, .submit 1 "=@3+@C" false]

theorem run_surrounding :
    (run .default surrounding).NoneNamedNA ∧
      ((((run .default surrounding).delete 1).net.delete 3).net.node? 5).map Node.input =
        some "=@0+@ NA*@NA - @1/@C+@NA*@NA-@ 2" ∧
      (run .default surrounding).DeletesBoth 1 3 ∧ (run .default surrounding).DeletesBoth 3 1 ∧
      (((run .default surrounding).delete 1).net.delete 3).net.withoutResults =
        (((run .default surrounding).delete 3).net.delete 1).net.withoutResults := by
  have hna : (run .default surrounding).NoneNamedNA := by decide +kernel
  exact ⟨hna, by decide +kernel,
    run_delete_comm .default surrounding hna (by decide +kernel) (by decide +kernel) (by decide)⟩

end Net

end FormulaNet
