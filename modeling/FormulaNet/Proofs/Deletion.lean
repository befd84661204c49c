import FormulaNet.Proofs.Breakage
import FormulaNet.Proofs.FaultPaths

/-!
# Formulas of a deleted node's readers

The formulas that read a deleted node dangle (`Fits.not_fits_of_unlinked`), and a formula that dangles
cannot be evaluated where nothing has the name `NA` (`Net.Intact.failing_of_dangling`).  The walks that
follow do not change this: `Net.run_brokenByDeletion`.  A node that is named `NA` takes the place of the
deleted one: `Net.deletion_rebinds`.
-/

namespace FormulaNet

/-- Pieces from which the links to a node were dropped dangle, whatever their other tokens are. -/
theorem Fits.not_fits_of_unlinked {d : Prop} {ps : List Piece} (h : Fits d ps) {kind : MentionKind}
    {target : NodeId} {token : List Char} (hmem : .link kind target token ∈ ps)
    (replacement : Reference → Option String) (start : Nat) :
    ¬ Fits False (LinkedText.replaceFrom replacement start (ps.map (LinkedText.unlinkPiece target))) := by
  induction h generalizing start with
  | last => simp at hmem
  | @link before after token' kind' other ps hb ha hr ih =>
    by_cases hother : other = target
    · simp only [List.map_cons, LinkedText.unlinkPiece, if_pos hother, LinkedText.replaceFrom]
      intro h
      cases h with
      | dangling hd => exact hd
    · have hrest : .link kind target token ∈ .plain after :: ps := by
        rcases List.mem_cons.1 ((List.mem_cons.1 hmem).resolve_left (by simp)) with h | h
        · cases h
          exact absurd rfl hother
        · exact h
      simp only [List.map_cons, LinkedText.unlinkPiece, if_neg hother, LinkedText.replaceFrom] at ih ⊢
      intro h
      cases h with
      | link _ _ h => exact ih hrest _ h
  | @dangling before after ps hd hb ha hr ih =>
    simp only [List.map_cons, LinkedText.unlinkPiece, LinkedText.replaceFrom]
    intro h
    cases h with
    | dangling hd => exact hd

namespace Net

/-- A stale formula that dangles cannot be evaluated where its node finds no other one named `NA`. -/
theorem Intact.failing_of_dangling {net : Net} (h : net.Intact) {id : NodeId} {n : Node} {t : LinkedText}
    (hn : net.node? id = some n) (ht : n.content = .formula t) (hstale : n.isStale = true)
    (hdangles : ¬ Fits False t.pieces) {fault : Fault}
    (hna : (net.scope id).resolve .name danglingToken = .error fault) :
    ∃ cause, net.Failing id (.reference cause) := by
  have hsound := h.sound id n t hn ht
  obtain ⟨cause, hread⟩ : ∃ cause, (net.scope id).read t.chars = .error (.reference cause) := by
    have hlinks : ∀ kind target token, .link kind target token ∈ t.pieces → token = [] ∨
        (IsToken kind token ∧ (net.scope id).resolve kind (squeeze (.ofList token)) = .ok target) := by
      intro kind target token hmem
      cases h.linked id n t hn ht kind target token hmem with
      | token htoken hresolve => exact .inr ⟨htoken, hresolve⟩
      | blank => exact .inl rfl
    have hfollows := LinkedText.follows_read_of_reached hsound.isFormulaText_chars hsound.fits hlinks
    obtain ⟨k, hk⟩ := hsound.reads
    cases hread : (net.scope id).read t.chars with
    | ok e =>
      have hlinked := h.linked.scope_of_read hn ht hsound hread
      exact absurd (hsound.of_read hlinked hread hna).fits hdangles
    | error fault' =>
      rw [hk, hread] at hfollows
      cases hfollows with
      | fault hfault =>
        rcases hfault with ⟨-, hna'⟩ | ⟨-, rfl⟩
        · rcases resolveName_eq_error hna' with rfl | rfl
          · exact ⟨_, rfl⟩
          · exact ⟨_, rfl⟩
        · exact ⟨_, rfl⟩
  refine ⟨cause, n, t, hn, hstale, ht, ?_⟩
  have hchars : t.text.toList = t.chars := String.toList_ofList
  have hf : IsFormulaText t.text.toList := by
    rw [hchars]
    exact hsound.isFormulaText_chars
  rw [← hchars] at hread
  rw [meaning_eq_evaluation net id hf, evaluation_eq_error_iff.2 hread]
  rfl

/-- The formula of a reader of a removed node dangles, and the reader is stale. -/
theorem Intact.dangles_of_remove {net : Net} (h : net.Intact) {id c : NodeId} (hc : net.ReadBy id c)
    (index : Nat) : ∃ n t, (net.remove id index).node? c = some n ∧ n.content = .formula t ∧
      n.isStale = true ∧ ¬ Fits False t.pieces := by
  obtain ⟨m, hm, hmem⟩ := hc
  obtain ⟨n, hn⟩ := h.wired.child id m c hm hmem
  have hparent : id ∈ n.parents := (h.wired.mirrored id c m n hm hn).2 hmem
  have hne : c ≠ id := fun hid => (h.wired.parent c n id hn hparent).2 hid.symm
  have htarget := (h.wired.mem_targets hn).1 hparent
  cases hcontent : n.content with
  | number x =>
    rw [hcontent] at htarget
    cases htarget
  | formula t =>
    rw [hcontent, Content.targets_formula, ← t.targets_replace (dangle id)] at htarget
    obtain ⟨kind, token, hlink⟩ := LinkedText.mem_targets.1 htarget
    have hfits := ((h.sound c n t hn hcontent).replace (dangle id)).fits
    rw [node?_remove, if_neg hne, hn]
    refine ⟨_, ((t.replace (dangle id)).unlink id).replace (renumbering (net.nodes.erase id) index), rfl,
      ?_, ?_, ?_⟩
    · simp only [hcontent, if_pos hparent]
      rfl
    · simp [Node.isStale, hparent]
    · rw [LinkedText.replace_eq]
      exact hfits.not_fits_of_unlinked hlink _ 0

/-- A node whose formula reads a node that does not exist: it is stale, and the formula cannot be
evaluated. -/
def Broken (net : Net) (id : NodeId) : Prop :=
  ∃ n cause, net.node? id = some n ∧ n.isStale = true ∧ n.value.isNaN = true ∧
    net.evaluation net.valueOf id n.input = .error (.reference cause)

theorem Failing.broken {net : Net} (hs : net.FormulasSound) {id : NodeId} {cause : ReferenceFault}
    (h : net.Failing id (.reference cause)) : net.Broken id := by
  obtain ⟨n, t, hn, hstale, ht, hm⟩ := h
  have hf := isFormulaText_of_formula hs hn ht
  have hinput : n.input = t.text := by rw [Node.input, ht, Content.input]
  rw [← hinput, meaning_eq_evaluation net id hf] at hm
  refine ⟨n, cause, hn, hstale, isNaN_of_isStale hstale, ?_⟩
  cases heval : net.evaluation net.valueOf id n.input with
  | ok evaluation =>
    rw [heval] at hm
    cases hm
  | error fault =>
    rw [heval] at hm
    cases hm
    rfl

/-- The deletion of a node breaks every formula that reads it, if no other node has the name `NA`, that
of the formula aside. -/
theorem run_brokenByDeletion (settings : Settings) (ops : List Operation) {id c : NodeId}
    (hc : (run settings ops).ReadBy id c)
    (hna : ∀ other m, (run settings ops).node? other = some m → other ≠ id → other ≠ c →
      m.key ≠ danglingToken) : ((run settings ops).delete id).net.Broken c := by
  have h := intact_run settings ops
  obtain ⟨⟨m, hm⟩, -⟩ := h.wired.exists_of_readBy hc
  obtain ⟨index, hindex⟩ := Roster.exists_indexOf? (mem_ids_iff.2 ⟨m, hm⟩)
  have hremoved := kept_intact.remove _ id index hindex h
  obtain ⟨n, t, hn, ht, hstale, hdangles⟩ := h.dangles_of_remove hc index
  obtain ⟨fault, hfault⟩ : ∃ fault,
      (((run settings ops).remove id index).scope c).resolve .name danglingToken = .error fault := by
    cases hresolve : (((run settings ops).remove id index).scope c).resolve .name danglingToken with
    | error fault => exact ⟨fault, rfl⟩
    | ok target =>
      obtain ⟨hmem, hne⟩ := resolveName_target hresolve
      rw [directory_remove, List.mem_filter, mem_directory] at hmem
      obtain ⟨⟨k, hk, hkey⟩, hid⟩ := hmem
      exact absurd hkey (hna target k hk (by simpa using hid) hne)
  obtain ⟨cause, hfailing⟩ := hremoved.failing_of_dangling hn ht hstale hdangles hfault
  rw [delete_eq hindex hm]
  exact Failing.broken (kept_intact.byWalks.walkBelowAll _ hremoved).sound
    ((keptByWalks_failing c (.reference cause)).walkBelowAll _ hfailing)

/-- A formula reads another node, and its own is named `NA`. -/
def severing : List Operation :=
  [.create "A" 0 0, .create "NA" 0 0, .submit 1 "=2*@A" false]

theorem run_severing :
    (run .default severing).ReadBy 0 1 ∧
      (∀ other m, (run .default severing).node? other = some m → other ≠ 0 → other ≠ 1 →
        m.key ≠ danglingToken) ∧ ((run .default severing).delete 0).net.Broken 1 := by
  have hread : (run .default severing).ReadBy 0 1 := mem_edges.1 (by decide +kernel)
  have hentries : ∀ e ∈ (run .default severing).nodes.entries, e.1 ≠ 0 → e.1 ≠ 1 →
      e.2.key ≠ danglingToken := by decide +kernel
  have hna : ∀ other m, (run .default severing).node? other = some m → other ≠ 0 → other ≠ 1 →
      m.key ≠ danglingToken := fun other m hm => hentries (other, m) (Roster.get?_eq_some_iff_mem.1 hm)
  exact ⟨hread, hna, run_brokenByDeletion .default severing hread hna⟩

/-- A formula reads another node than one that is named `NA`. -/
def rebinding : List Operation :=
  [.create "A" 0 0, .create "NA" 0 0, .create "B" 0 0, .submit 2 "=@A" false]

/-- Once the node is deleted that it reads, the formula reads the node that is named `NA`. -/
theorem deletion_rebinds :
    (run .default rebinding).ReadBy 0 2 ∧ ¬ ((run .default rebinding).delete 0).net.Broken 2 := by
  refine ⟨mem_edges.1 (by decide +kernel), ?_⟩
  rintro ⟨n, cause, hn, -, -, hfault⟩
  have haccepted : ∀ n ∈ ((run .default rebinding).delete 0).net.node? 2,
      (((run .default rebinding).delete 0).net.evaluation ((run .default rebinding).delete 0).net.valueOf 2
        n.input).isOk = true := by decide +kernel
  have hok := haccepted n hn
  rw [hfault] at hok
  cases hok

end Net

end FormulaNet
