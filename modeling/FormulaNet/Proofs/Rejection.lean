import FormulaNet.Proofs.FaultPaths
import FormulaNet.Proofs.History

/-!
# What a rejected input does to the readers of a node

A node that rejects an input is stale, and a walk tells its readers.  If the walk meets no failure, every
reader has the value of its input, up to the signs of zeros (`Net.Intact.upToDate_walkBelow`) and exactly
if no zero was replaced by the other one (`Net.Intact.upToDate_walkBelow_eq`).  A walk that fails stops at a
child that it leaves stale (`Net.Intact.exists_walkStops`), and the readers that it has reached are stale or
were evaluated after the input was rejected (`Net.Traced`).  `Net.run_rejectionTold` has both, and
`Net.rejection_stops` shows a reader that is left out.
-/

namespace FormulaNet.Net

def Stale (net : Net) (id : NodeId) : Prop :=
  ∃ n, net.node? id = some n ∧ n.isStale = true

/-- A node has the value of its input and the references in it, where each parent is read as some value that
is related to the one that it shows. -/
def UpToDate (R : Float → Float → Prop) (net : Net) (id : NodeId) : Prop :=
  ∃ n read evaluation, net.node? id = some n ∧ (∀ p ∈ n.parents, R (read p) (net.valueOf p)) ∧
    net.evaluation read id n.input = .ok evaluation ∧ n.content.refs = evaluation.refs ∧
    n.value = evaluation.value

theorem evaluation_congr {net net' : Net} (h : net'.directory = net.directory) (read : NodeId → Float)
    (host : NodeId) (text : String) : net'.evaluation read host text = net.evaluation read host text := by
  rw [evaluation_eq, evaluation_eq, read_congr h]

/-- An evaluation depends on the values of the nodes that the formula refers to. -/
theorem evaluation_eq_of_refs {net : Net} {read read' : NodeId → Float} {host : NodeId} {text : String}
    {evaluation : Evaluation} (h : net.evaluation read host text = .ok evaluation)
    (hread : ∀ r ∈ evaluation.refs, read r.target = read' r.target) :
    net.evaluation read' host text = .ok evaluation := by
  rw [evaluation_eq] at h
  obtain ⟨e, he, hc⟩ := exists_of_bind_eq_ok h
  cases hc
  rw [evaluation_eq_of_ok he, Expr.value_congr hread]

/-- A node that is up to date with the very values that its parents show has the value of its input. -/
theorem UpToDate.exists_evaluation {net : Net} (hw : net.Wired) {id : NodeId}
    (h : net.UpToDate Eq id) : ∃ n evaluation, net.node? id = some n ∧
      net.evaluation net.valueOf id n.input = .ok evaluation ∧ n.value = evaluation.value := by
  obtain ⟨n, read, evaluation, hn, hread, heval, hrefs, hvalue⟩ := h
  refine ⟨n, evaluation, hn, evaluation_eq_of_refs heval fun r hr => hread _ ?_, hvalue⟩
  exact (hw.mem_targets hn).2 (List.mem_map.2 ⟨r, hrefs ▸ hr, rfl⟩)

theorem Stale.markStale {net : Net} {id : NodeId} (h : net.Stale id) (x : NodeId) :
    (net.markStale x).Stale id := by
  obtain ⟨n, hn, hstale⟩ := h
  obtain ⟨n', hn', -, hstale'⟩ := exists_node?_markStale hn x
  exact ⟨n', hn', hstale' hstale⟩

theorem Witnessed.stale {net : Net} {limit edges : Nat} {id : NodeId} {fault : Fault}
    (h : net.Witnessed limit id edges fault) : net.Stale id := by
  obtain ⟨path, hpath, -⟩ := h
  obtain ⟨n, hn, hstale, -⟩ := hpath.lost id (List.mem_of_mem_head? hpath.head)
  exact ⟨n, hn, hstale⟩

/-! ## One evaluation -/

section Refresh

variable {net net' : Net} {id : NodeId} (h : net.Intact) (hr : net.refresh id = .ok net')

include h hr

/-- A formula that is evaluated again has the value of its input, and the references in it. -/
theorem Intact.evaluated_refresh {a : NodeId} (hread : net.ReadBy a id ∨ net'.ReadBy a id) :
    ∃ n' evaluation, net'.node? id = some n' ∧
      net.evaluation net.valueOf id n'.input = .ok evaluation ∧ n'.content.refs = evaluation.refs ∧
      n'.result = some evaluation.value := by
  obtain ⟨n, hn, ⟨x, hx, rfl⟩ | ⟨t, m, ht, hm, rfl⟩⟩ := refresh_eq_ok hr
  · rw [or_self, h.wired.readBy_iff hn, h.wired.mem_targets hn, hx] at hread
    cases hread
  · obtain ⟨n', hn'⟩ := (exists_node?_congr (net.directory_adopt id m)).2 ⟨n, hn⟩
    obtain ⟨hcontent, hresult⟩ := node?_adopt_self hn hn'
    obtain ⟨_, -, hformula⟩ := h.sound.exists_read hn ht hm
    rcases meaning_cases hm with ⟨x, rfl⟩ | ⟨hf, e, he, rfl⟩
    · cases hformula
    obtain ⟨-, hchars, hrefs, -⟩ := LinkedText.sound_cut hf he
    refine ⟨n', _, hn', evaluation_eq_of_ok ?_ net.valueOf, ?_, hresult⟩
    · rwa [toList_input hcontent, hchars]
    · rw [hcontent]
      exact hrefs

variable {R : Float → Float → Prop} (hR : Equivalence R)

include hR

/-- A formula that is evaluated again is up to date. -/
theorem Intact.upToDate_refresh {a : NodeId} (hread : net.ReadBy a id ∨ net'.ReadBy a id) :
    net'.UpToDate R id := by
  have h' := kept_intact.refresh h hr
  obtain ⟨n', evaluation, hn', heval, hrefs, hresult⟩ := h.evaluated_refresh hr hread
  refine ⟨n', net.valueOf, evaluation, hn', fun p hp => ?_, ?_, hrefs, ?_⟩
  · rw [h.valueOf_refresh hr (h'.wired.parent id n' p hn' hp).2]
    exact hR.refl _
  · rwa [evaluation_congr (directory_refresh hr)]
  · rw [Node.value, hresult]
    rfl

/-- A node stays up to date when another one is evaluated again, if it does not read that or the value
there is related to the one before. -/
theorem Intact.upToDate_refresh_other {x : NodeId} (hx : x ≠ id) (hup : net.UpToDate R x)
    (hsame : net'.ReadBy id x → R (net.valueOf id) (net'.valueOf id)) : net'.UpToDate R x := by
  obtain ⟨n, read, evaluation, hn, hread, heval, hrefs, hvalue⟩ := hup
  obtain ⟨n', hn'⟩ := (exists_node?_congr (directory_refresh hr)).2 ⟨n, hn⟩
  obtain ⟨k, hk, hcontent, hresult, hparents⟩ := h.exists_node?_refresh hr hx hn'
  obtain rfl : k = n := Option.some.inj (hk.symm.trans hn)
  have hinput : n'.input = k.input := by rw [Node.input, hcontent, Node.input]
  refine ⟨n', read, evaluation, hn', fun p hp => ?_, ?_, by rw [hcontent, hrefs], ?_⟩
  · rw [hparents] at hp
    by_cases hpid : p = id
    · subst hpid
      refine hR.trans (hread p hp) (hsame ?_)
      exact ((kept_intact.refresh h hr).wired.readBy_iff hn').2 (hparents ▸ hp)
    · rw [h.valueOf_refresh hr hpid]
      exact hread p hp
  · rw [evaluation_congr (directory_refresh hr), hinput, heval]
  · rw [← hvalue, Node.value, Node.value, hresult]

end Refresh

/-! ## Walks without a failure -/

/-- The readers of a node are up to date, those aside that are due, as long as the values that a walk takes
for unchanged are related. -/
theorem settling_upToDate {R : Float → Float → Prop} (hR : Equivalence R) {Q : NodeId × Net → Prop}
    (hQ : ∀ child c net net', Q (child, net) → net.refresh child = .ok net' → net'.ReadBy child c →
      (net.valueOf child != net'.valueOf child) = false → R (net.valueOf child) (net'.valueOf child))
    (id : NodeId) : Settling (fun D net => net.Intact ∧
      ∀ c, net.ReadBy id c → D c ∨ net.UpToDate R c) Q where
  mono D D' net hD h := ⟨h.1, fun c hc => (h.2 c hc).imp_left (hD c)⟩
  refresh D child net net' hchild hr h := by
    obtain ⟨hintact, hup⟩ := h
    have hintact' := kept_intact.refresh hintact hr
    have hold {c : NodeId} (hc : net'.ReadBy id c) :
        net'.UpToDate R c ∨ D c ∨ (c ≠ child ∧ net.UpToDate R c) := by
      by_cases hne : c = child
      · subst hne
        exact .inl (hintact.upToDate_refresh hr hR (.inr hc))
      · rcases hup c (hintact.readBy_of_refresh hr hne hc) with (hD | rfl) | hup
        · exact .inr (.inl hD)
        · exact absurd rfl hne
        · exact .inr (.inr ⟨hne, hup⟩)
    refine ⟨⟨hintact', fun c hc => ?_⟩, fun hsame => ⟨hintact', fun c hc => ?_⟩⟩
    · rcases hold hc with hup | hD | ⟨hne, hup⟩
      · exact .inr hup
      · exact .inl (.inl hD)
      · by_cases hread : net'.ReadBy child c
        · exact .inl (.inr hread)
        · exact .inr (hintact.upToDate_refresh_other hr hR hne hup fun h => absurd h hread)
    · rcases hold hc with hup | hD | ⟨hne, hup⟩
      · exact .inr hup
      · exact .inl hD
      · exact .inr (hintact.upToDate_refresh_other hr hR hne hup fun hread =>
          hQ child c net net' hchild hr hread hsame)

section Complete

variable {net : Net} (h : net.Intact) {id : NodeId} (hf : (net.walkBelow id).fault = none)
  {c : NodeId} (hc : (net.walkBelow id).net.ReadBy id c)

include h hf hc

/-- After a walk without a failure the readers of the node where it began are up to date, up to the signs
of zeros. -/
theorem Intact.upToDate_walkBelow : (net.walkBelow id).net.UpToDate Same c := by
  have hsettling := settling_upToDate Same.equivalence (Q := fun _ => True)
    (fun _ _ _ _ _ _ _ hsame => (same_of_not_bne (Bool.eq_false_iff.1 hsame)).2) id
  have hdone := hsettling.walkBelow (D := fun _ => False) id ⟨h, fun c hc => .inl (.inr hc)⟩ hf
    fun _ _ => trivial
  exact (hdone.2 c hc).resolve_left not_false

/-- They are up to date with the very values, if no zero was replaced by the other one. -/
theorem Intact.upToDate_walkBelow_eq (hz : ∀ e ∈ net.walkedBelow id, RefreshKeepsZero e) :
    (net.walkBelow id).net.UpToDate Eq c := by
  have hsettling := settling_upToDate eq_equivalence (Q := RefreshKeepsZero)
    (fun child _ _ _ hchild hr hread hsame => hchild.valueOf_eq hr (isRead_of_readBy hread) hsame) id
  have hdone := hsettling.walkBelow (D := fun _ => False) id ⟨h, fun c hc => .inl (.inr hc)⟩ hf hz
  exact (hdone.2 c hc).resolve_left not_false

end Complete

/-! ## Walks that fail -/

/-- A property of the evaluations that were made so far and of the net, which every step of a walk
keeps. -/
structure KeptWithLog (I : List (NodeId × Net) → Net → Prop) : Prop where
  markStale : ∀ log net id, I log net → I log (net.markStale id)
  refresh : ∀ log net id net', net.refresh id = .ok net' → I log net → I (log ++ [(id, net)]) net'
  fail : ∀ log net id fault, net.refresh id = .error fault → I log net →
    I (log ++ [(id, net)]) (net.markStale id)

namespace KeptWithLog

variable {I : List (NodeId × Net) → Net → Prop} (hI : KeptWithLog I)

include hI

theorem visit {descend : NodeId → Net → Outcome} {below : NodeId → Net → List (NodeId × Net)}
    (hdescend : ∀ log id net, I log net → I (log ++ below id net) (descend id net).net)
    (ids : List NodeId) {log : List (NodeId × Net)} {net : Net} (h : I log net) :
    I (log ++ visited descend below ids net) (Net.visit descend ids net).net := by
  induction ids generalizing log net with
  | nil =>
    rw [visited, List.append_nil]
    exact h
  | cons child others ih =>
    rw [Net.visit, visited, List.append_cons]
    cases hr : net.refresh child with
    | error fault => exact hdescend _ child _ (hI.fail log net child fault hr h)
    | ok net' =>
      have h' := hI.refresh log net child net' hr h
      dsimp only
      split
      · have hbelow := hdescend _ child net' h'
        rw [← List.append_assoc]
        cases hd : descend child net' with
        | mk net'' fault =>
          rw [hd] at hbelow
          cases fault with
          | some fault =>
            rw [List.append_nil]
            exact hbelow
          | none => exact ih hbelow
      · exact ih h'

theorem walk (room : Nat) (id : NodeId) {log : List (NodeId × Net)} {net : Net} (h : I log net) :
    I (log ++ walked room id net) (Net.walk room id net).net := by
  induction room generalizing id log net with
  | zero =>
    rw [walked, List.append_nil]
    exact hI.markStale log net id h
  | succ room ih =>
    rw [Net.walk, walked]
    cases hid : net.node id with
    | error fault =>
      rw [List.append_nil]
      exact h
    | ok n =>
      have hbelow := hI.visit (fun _ id _ h => ih id h) n.children.toList h
      dsimp only
      split
      · next heq =>
        rw [heq] at hbelow
        exact hI.markStale _ _ id hbelow
      · next heq => rwa [heq] at hbelow

end KeptWithLog

/-- The value of a node was computed from its input in the course of a walk, at a time when the node where
the walk began was stale or had itself been evaluated again. -/
def EvaluatedOn (log : List (NodeId × Net)) (edited : NodeId) (net : Net) (id : NodeId) : Prop :=
  ∃ n k evaluation, net.node? id = some n ∧ (id, k) ∈ log ∧
    k.evaluation k.valueOf id n.input = .ok evaluation ∧ n.result = some evaluation.value ∧
    (k.Stale edited ∨ ∃ j, (edited, j) ∈ log)

/-- A net in the course of a walk, where the readers of the node at which the walk began are those from
before or were evaluated again, and those that were evaluated again are stale or have their value from
there. -/
structure Traced (old : Net) (edited : NodeId) (log : List (NodeId × Net)) (net : Net) : Prop where
  intact : net.Intact
  begun : net.Stale edited ∨ ∃ j, (edited, j) ∈ log
  reader : ∀ c, net.ReadBy edited c → old.ReadBy edited c ∨ ∃ k, (c, k) ∈ log
  value : ∀ c k, (c, k) ∈ log → net.ReadBy edited c → net.Stale c ∨ net.EvaluatedOn log edited c

theorem EvaluatedOn.mono {log log' : List (NodeId × Net)} (hlog : ∀ e ∈ log, e ∈ log') {edited id : NodeId}
    {net net' : Net} (h : net.EvaluatedOn log edited id)
    (hnode : ∀ n, net.node? id = some n →
      ∃ n', net'.node? id = some n' ∧ n'.content = n.content ∧ n'.result = n.result) :
    net'.EvaluatedOn log' edited id := by
  obtain ⟨n, k, evaluation, hn, hmem, heval, hresult, hedited⟩ := h
  obtain ⟨n', hn', hcontent, hresult'⟩ := hnode n hn
  refine ⟨n', k, evaluation, hn', hlog _ hmem, ?_, hresult'.trans hresult, ?_⟩
  · rw [Node.input, hcontent]
    exact heval
  · exact hedited.imp_right (Exists.imp fun _ => hlog _)

namespace Traced

variable {old net : Net} {edited : NodeId} {log : List (NodeId × Net)}

theorem markStale (h : Traced old edited log net) (id : NodeId) :
    Traced old edited log (net.markStale id) where
  intact := kept_intact.markStale net id h.intact
  begun := h.begun.imp_left fun hstale => hstale.markStale id
  reader c hc := h.reader c (readBy_markStale.1 hc)
  value c k hck hc := by
    have hc := readBy_markStale.1 hc
    obtain ⟨-, n, hn⟩ := h.intact.wired.exists_of_readBy hc
    by_cases hid : c = id
    · subst hid
      exact .inl ⟨n.markStale, node?_markStale_self hn, rfl⟩
    · refine (h.value c k hck hc).imp (fun hstale => hstale.markStale id) fun heval => ?_
      refine heval.mono (fun _ he => he) fun n hn => ⟨n, ?_, rfl, rfl⟩
      rw [node?_markStale, if_neg hid, hn]

theorem refresh (h : Traced old edited log net) {id : NodeId} {net' : Net} (hr : net.refresh id = .ok net') :
    Traced old edited (log ++ [(id, net)]) net' := by
  have hlog : ∀ e ∈ log, e ∈ log ++ [(id, net)] := fun e he => List.mem_append_left _ he
  have hlast : (id, net) ∈ log ++ [(id, net)] := by simp
  constructor
  case intact => exact kept_intact.refresh h.intact hr
  case begun =>
    rcases h.begun with ⟨n, hn, hstale⟩ | ⟨j, hj⟩
    · by_cases hid : edited = id
      · exact .inr ⟨net, hid ▸ hlast⟩
      · obtain ⟨n', hn', -, hresult⟩ := node?_refresh_other hr hid hn
        exact .inl ⟨n', hn', by rwa [Node.isStale, hresult]⟩
    · exact .inr ⟨j, hlog _ hj⟩
  case reader =>
    intro c hc
    by_cases hid : c = id
    · exact .inr ⟨net, hid ▸ hlast⟩
    · exact (h.reader c (h.intact.readBy_of_refresh hr hid hc)).imp_right (Exists.imp fun _ => hlog _)
  case value =>
    intro c k hck hc
    by_cases hid : c = id
    · subst hid
      obtain ⟨n', evaluation, hn', heval, -, hresult⟩ := h.intact.evaluated_refresh hr (.inr hc)
      exact .inr ⟨n', net, evaluation, hn', hlast, heval, hresult,
        h.begun.imp_right (Exists.imp fun _ => hlog _)⟩
    · have hck : (c, k) ∈ log := by simpa [hid] using hck
      refine (h.value c k hck (h.intact.readBy_of_refresh hr hid hc)).imp ?_ fun heval => ?_
      · rintro ⟨n, hn, hstale⟩
        obtain ⟨n', hn', -, hresult⟩ := node?_refresh_other hr hid hn
        exact ⟨n', hn', by rwa [Node.isStale, hresult]⟩
      · exact heval.mono hlog fun n hn => node?_refresh_other hr hid hn

/-- A formula that cannot be evaluated is made stale. -/
theorem fail (h : Traced old edited log net) (id : NodeId) :
    Traced old edited (log ++ [(id, net)]) (net.markStale id) := by
  have hlog : ∀ e ∈ log, e ∈ log ++ [(id, net)] := fun e he => List.mem_append_left _ he
  have h' := h.markStale id
  constructor
  case intact => exact h'.intact
  case begun => exact h'.begun.imp_right (Exists.imp fun _ => hlog _)
  case reader => exact fun c hc => (h'.reader c hc).imp_right (Exists.imp fun _ => hlog _)
  case value =>
    intro c k hck hc
    by_cases hid : c = id
    · subst hid
      obtain ⟨-, n, hn⟩ := h.intact.wired.exists_of_readBy (readBy_markStale.1 hc)
      exact .inl ⟨n.markStale, node?_markStale_self hn, rfl⟩
    · have hck : (c, k) ∈ log := by simpa [hid] using hck
      exact (h'.value c k hck hc).imp_right fun heval => heval.mono hlog fun n hn => ⟨n, hn, rfl, rfl⟩

theorem kept (old : Net) (edited : NodeId) : KeptWithLog (Traced old edited) where
  markStale _ _ id h := h.markStale id
  refresh _ _ _ _ hr h := h.refresh hr
  fail _ _ id _ _ h := h.fail id

end Traced

/-- A walk below a node gets through some of the children and fails at the next one.  It visits each of
these and no others: the evaluations and the net afterwards are those of a visit of these alone. -/
structure WalkStops (net : Net) (id : NodeId) (earlier : List NodeId) (child : NodeId) (fault : Fault) :
    Prop where
  stops : StopsAt (walk net.settings.depthLimit.toNat) net earlier child fault
  evaluations : net.walkedBelow id = visited (walk net.settings.depthLimit.toNat)
    (walked net.settings.depthLimit.toNat) (earlier ++ [child]) net
  reached : ∀ c ∈ earlier ++ [child], ∃ k, (c, k) ∈ net.walkedBelow id
  after : (net.walkBelow id).net =
    (visit (walk net.settings.depthLimit.toNat) (earlier ++ [child]) net).net.markStale id

/-- A walk that fails stops at a child that is stale. -/
theorem Intact.exists_walkStops {net : Net} (h : net.Intact) {id : NodeId} {n : Node}
    (hn : net.node? id = some n) {fault : Fault} (hf : (net.walkBelow id).fault = some fault) :
    ∃ earlier child later, n.children.toList = earlier ++ child :: later ∧
      WalkStops net id earlier child fault ∧ (net.walkBelow id).net.Stale child := by
  obtain ⟨earlier, child, later, hsplit, hstops, hnet⟩ := walk_stops hn hf
  have hwalked : net.walkedBelow id = visited (walk net.settings.depthLimit.toNat)
      (walked net.settings.depthLimit.toNat) (earlier ++ child :: later) net := by
    rw [walkedBelow, walked, node, hn, ← hsplit]
  refine ⟨earlier, child, later, hsplit, ⟨hstops, ?_, fun c hc => ?_, ?_⟩, ?_⟩
  · rw [hwalked, hstops.visited_eq]
  · rw [hwalked]
    exact hstops.exists_mem_visited _ later hc
  · rw [walkBelow, hnet, hsplit, hstops.visit_eq, hstops.visit_eq]
  · obtain ⟨-, hw⟩ := hstops.witnessed (walksWitnessed _ _ fault) h rfl hn hsplit
    rw [walkBelow, hnet]
    exact hw.stale.markStale id

/-- What a rejected input does to the readers of a node. -/
structure RejectionTold (old : Net) (id : NodeId) (net : Net) : Prop where
  /-- A walk without a failure leaves them up to date, up to the signs of zeros. -/
  complete : ((old.markStale id).walkBelow id).fault = none → ∀ c, net.ReadBy id c → net.UpToDate Same c
  /-- They have the values of their inputs if such a walk replaces no zero by the other one. -/
  exact : ((old.markStale id).walkBelow id).fault = none →
    (∀ e ∈ (old.markStale id).walkedBelow id, RefreshKeepsZero e) → ∀ c, net.ReadBy id c →
      ∃ n evaluation, net.node? c = some n ∧ net.evaluation net.valueOf c n.input = .ok evaluation ∧
        n.value = evaluation.value
  /-- A walk that fails stops at a child, which is stale.  Of the readers only children behind that one are
  not reached; the others are stale or were evaluated once the input was rejected. -/
  stopped : ∀ fault, ((old.markStale id).walkBelow id).fault = some fault →
    ∃ n earlier child later, old.node? id = some n ∧ n.children.toList = earlier ++ child :: later ∧
      (old.markStale id).WalkStops id earlier child fault ∧ net.Stale child ∧
      ∀ c, net.ReadBy id c →
        net.Stale c ∨ net.EvaluatedOn ((old.markStale id).walkedBelow id) id c ∨
          (c ∈ later ∧ ∀ k, (c, k) ∉ (old.markStale id).walkedBelow id)

/-- A node that rejects an input is made stale, and a walk below it follows. -/
theorem submit_of_rejected {net : Net} {id : NodeId} {text : String} {fault : Fault}
    (hm : net.meaning id text = .error fault) (hs : (net.submit id text false).fault = some fault) :
    ∃ n, net.node? id = some n ∧
      (net.submit id text false).net = ((net.markStale id).walkBelow id).net := by
  rw [submit, if_neg Bool.false_ne_true] at hs ⊢
  cases hn : net.node? id with
  | none =>
    rw [setContent_of_none hn] at hs
    cases hs
    rcases net.meaning_failsOnly id text _ hm with h | h
    · cases h
    · cases h
  | some n =>
    refine ⟨n, rfl, ?_⟩
    rcases setContent_cases hn text with
      ⟨-, heq⟩ | ⟨-, ⟨m, hm', -, -⟩ | ⟨m, hm', -, -⟩ | ⟨fault', -, heq⟩⟩
    · rw [heq] at hs
      cases hs
    · cases hm.symm.trans hm'
    · cases hm.symm.trans hm'
    · rw [heq]

theorem Intact.traced {net : Net} (h : net.Intact) {id : NodeId} {n : Node} (hn : net.node? id = some n) :
    Traced net id [] (net.markStale id) where
  intact := kept_intact.markStale net id h
  begun := .inl ⟨n.markStale, node?_markStale_self hn, rfl⟩
  reader _ hc := .inl (readBy_markStale.1 hc)
  value _ _ hck := absurd hck List.not_mem_nil

/-- A rejected input reaches the readers of a node as far as the walk gets. -/
theorem run_rejectionTold (settings : Settings) (ops : List Operation) {id : NodeId} {text : String}
    {fault : Fault} (hm : (run settings ops).meaning id text = .error fault)
    (hs : ((run settings ops).submit id text false).fault = some fault) :
    RejectionTold (run settings ops) id ((run settings ops).submit id text false).net := by
  have h := intact_run settings ops
  obtain ⟨n, hn, hnet⟩ := submit_of_rejected hm hs
  have hstale := kept_intact.markStale _ id h
  rw [hnet]
  constructor
  case complete => exact fun hf c hc => hstale.upToDate_walkBelow hf hc
  case exact =>
    intro hf hz c hc
    have hwired := (kept_intact.byWalks.walkBelow id hstale).wired
    exact (hstale.upToDate_walkBelow_eq hf hc hz).exists_evaluation hwired
  case stopped =>
    intro cause hf
    obtain ⟨earlier, child, later, hsplit, hstops, hchild⟩ :=
      hstale.exists_walkStops (node?_markStale_self hn) hf
    have htraced := (Traced.kept (run settings ops) id).walk
      ((run settings ops).settings.depthLimit.toNat + 1) id (h.traced hn)
    refine ⟨n, earlier, child, later, hn, hsplit, hstops, hchild, fun c hc => ?_⟩
    by_cases hlog : ∃ k, (c, k) ∈ ((run settings ops).markStale id).walkedBelow id
    · obtain ⟨k, hk⟩ := hlog
      exact (htraced.value c k hk hc).imp_right .inl
    · refine .inr (.inr ⟨?_, not_exists.1 hlog⟩)
      obtain ⟨n', hn', hmem⟩ := (htraced.reader c hc).resolve_right hlog
      obtain rfl : n' = n := Option.some.inj (hn'.symm.trans hn)
      have hmem : c ∈ earlier ++ child :: later := hsplit ▸ hmem
      rw [List.append_cons] at hmem
      exact (List.mem_append.1 hmem).resolve_left fun hc => hlog (hstops.reached c hc)

/-- Two formulas read a node, and the first of them also reads another one. -/
def reading : List Operation :=
  [.create "A" 0 0, .create "B" 0 0, .create "C" 0 0, .create "D" 0 0, .submit 1 "3" false,
    .submit 2 "=@A+@B" false, .submit 3 "=@B*2" false]

/-- The other one is deleted. -/
def rejecting : List Operation :=
  reading ++ [.delete 0]

/-- Before the deletion the walk meets no failure and keeps zeros. -/
theorem run_rejecting :
    (((run .default reading).meaning 1 "x" = .error (.notANumber "x") ∧
        ((run .default reading).submit 1 "x" false).fault = some (.notANumber "x")) ∧
      (((run .default reading).markStale 1).walkBelow 1).fault = none ∧
      (∀ e ∈ ((run .default reading).markStale 1).walkedBelow 1, RefreshKeepsZero e) ∧
      RejectionTold (run .default reading) 1 ((run .default reading).submit 1 "x" false).net) ∧
    ((run .default rejecting).meaning 1 "x" = .error (.notANumber "x") ∧
        ((run .default rejecting).submit 1 "x" false).fault = some (.notANumber "x")) ∧
      RejectionTold (run .default rejecting) 1 ((run .default rejecting).submit 1 "x" false).net := by
  have hm : (run .default reading).meaning 1 "x" = .error (.notANumber "x") := rfl
  have hs : ((run .default reading).submit 1 "x" false).fault = some (.notANumber "x") := by
    decide +kernel
  have hm' : (run .default rejecting).meaning 1 "x" = .error (.notANumber "x") := rfl
  have hs' : ((run .default rejecting).submit 1 "x" false).fault = some (.notANumber "x") := by
    decide +kernel
  have hf : (((run .default reading).markStale 1).walkBelow 1).fault = none := by decide +kernel
  have hz : ∀ e ∈ ((run .default reading).markStale 1).walkedBelow 1, RefreshKeepsZero e := by
    decide +kernel
  exact ⟨⟨⟨hm, hs⟩, hf, hz, run_rejectionTold .default reading hm hs⟩, ⟨hm', hs'⟩,
    run_rejectionTold .default rejecting hm' hs'⟩

/-- The net once the node has rejected an input. -/
def rejected : Net :=
  ((run .default rejecting).submit 1 "x" false).net

/-- The first formula fails, and the second one keeps the value from before the input was rejected: it is
not stale, and its input is worth something else. -/
theorem rejection_stops :
    (run .default rejecting).meaning 1 "x" = .error (.notANumber "x") ∧
      ((run .default rejecting).submit 1 "x" false).fault = some (.notANumber "x") ∧
      rejected.ReadBy 1 3 ∧ ¬ rejected.Stale 3 ∧
      ∃ n evaluation, rejected.node? 3 = some n ∧
        rejected.evaluation rejected.valueOf 3 n.input = .ok evaluation ∧
        ¬ Same evaluation.value n.value := by
  have hfresh : ∀ n ∈ rejected.node? 3, n.isStale = false := by decide +kernel
  have haccepted : ∀ n ∈ rejected.node? 3,
      (rejected.evaluation rejected.valueOf 3 n.input).isOk = true := by decide +kernel
  have hother : ∀ n ∈ rejected.node? 3,
      ∀ evaluation ∈ (rejected.evaluation rejected.valueOf 3 n.input).toOption,
        ¬ Same evaluation.value n.value := by decide +kernel
  obtain ⟨n, hn⟩ : ∃ n, rejected.node? 3 = some n := Option.isSome_iff_exists.1 (by decide +kernel)
  obtain ⟨evaluation, heval⟩ := exists_of_isOk (haccepted n hn)
  refine ⟨rfl, by decide +kernel, mem_edges.1 (by decide +kernel), ?_, n, evaluation, hn, heval,
    hother n hn evaluation (by rw [heval]; rfl)⟩
  rintro ⟨k, hk, hstale⟩
  rw [hfresh k hk] at hstale
  cases hstale

end FormulaNet.Net
