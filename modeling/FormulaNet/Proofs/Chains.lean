import FormulaNet.Proofs.Healing

/-!
# Chains of references

In a chain every node but the first reads the one before it by its index.  A change of the first node
goes down the chain one node at a time, and the walk has room for as many steps as the settings allow
and one more (`Net.Front.walk_within`).  If the chain is longer then the nodes that the walk has come to
are lost and the others stay as they were (`Net.Front.walk_beyond`).  So the limit is exact:
`Net.run_chained`.
-/

namespace FormulaNet

/-! ## Formulas that only mention a node -/

section Tokens

variable {ρ : Type} {resolve : Mention → Except Fault ρ} {kind : MentionKind} {run : Run} {r : ρ}

theorem Grammar.factor_mention (h : resolve ⟨kind, run.spell, run.span⟩ = .ok r) (depth : Nat) :
    Grammar.factor resolve (depth + 1) [.mention kind run] = .ok (.ref r, []) := by
  simp only [Grammar.factor, Grammar.primary, h]
  rfl

theorem Expr.ofTokens_mention (h : resolve ⟨kind, run.spell, run.span⟩ = .ok r) :
    Expr.ofTokens resolve [.mention kind run] = .ok (.ref r) := by
  simp only [Expr.ofTokens, Grammar.expression, Grammar.chain, Grammar.term, nestingLimit,
    Grammar.factor_mention h]
  rfl

end Tokens

/-- The formula that is a mention and nothing else. -/
def LinkedText.mention (kind : MentionKind) (target : NodeId) (token : String) : LinkedText where
  pieces := [.plain ['=', '@'], .link kind target token.toList, .plain []]

theorem LinkedText.text_mention (kind : MentionKind) (target : NodeId) (token : String) :
    (LinkedText.mention kind target token).text = "=@" ++ token := by
  refine String.ext ?_
  simp [LinkedText.mention, LinkedText.text, LinkedText.chars, Piece.chars]

theorem LinkedText.cut_mention (kind : MentionKind) (target : NodeId) (token : String) :
    LinkedText.cut ("=@" ++ token).toList [⟨⟨2, 2 + byteSize token.toList⟩, kind, target⟩] =
      .mention kind target token := by
  have hfits : Fits False (LinkedText.mention kind target token).pieces :=
    .link ⟨['='], [], rfl, by simp, by simp⟩ (by simp [Apart]) (.last (by simp))
  have hchars : ("=@" ++ token).toList =
      writtenAs Piece.chars (LinkedText.mention kind target token).pieces := by
    simp [LinkedText.mention, writtenAs, Piece.chars]
  rw [LinkedText.cut, hchars]
  exact congrArg LinkedText.mk (cutFrom_refsFrom hfits 0)

namespace Net

/-- A formula that only mentions a node means the value of this node. -/
theorem meaning_mention {net : Net} {host target : NodeId} {kind : MentionKind} {token : String}
    (ht : IsToken kind token.toList) (h : (net.scope host).resolve kind (squeeze token) = .ok target) :
    net.meaning host ("=@" ++ token) = .ok ⟨.formula (.mention kind target token), net.valueOf target⟩ := by
  have hchars : ("=@" ++ token).toList = '=' :: '@' :: token.toList := by simp
  have hapart : Apart [] := by simp [Apart]
  have hblank : ∀ c ∈ ([] : List Char), isBlank c := List.forall_mem_nil _
  obtain ⟨run, hrun, htokens⟩ := tokens_append_mention ht hapart hblank [] 1
  have hreference : (net.scope host).reference ⟨kind, run.spell, run.span⟩ =
      .ok ⟨⟨2, 2 + byteSize token.toList⟩, kind, target⟩ := by
    rw [hrun]
    exact Scope.reference_mentionAt (by simpa using h) _
  have hread : (net.scope host).read ("=@" ++ token).toList =
      .ok (.ref ⟨⟨2, 2 + byteSize token.toList⟩, kind, target⟩) := by
    rw [Scope.read, ← Expr.ofTokens_mention hreference]
    refine congrArg _ ?_
    rw [hchars, bodyTokens, placed_cons_of_not_blank (by decide)]
    refine Eq.trans ?_ htokens
    rw [List.append_nil]
    rfl
  have hformula : IsFormulaText ("=@" ++ token).toList := by
    rw [hchars]
    rfl
  rw [meaning_eq_evaluation net host hformula, evaluation_eq_of_ok hread, ← LinkedText.cut_mention]
  rfl

/-! ## Results -/

/-- The result of a node, which is missing if the node is stale. -/
def result? (net : Net) (id : NodeId) : Option Float :=
  (net.node? id).bind Node.result

theorem valueOf_of_result? {net : Net} {id : NodeId} {x : Float} (h : net.result? id = some x) :
    net.valueOf id = x := by
  obtain ⟨n, hn, hx⟩ := Option.bind_eq_some_iff.1 h
  exact valueOf_of_result hn hx

theorem result?_markStale (net : Net) (id x : NodeId) :
    (net.markStale id).result? x = if x = id then none else net.result? x := by
  rw [result?, node?_markStale]
  split
  · cases net.node? x with
    | none => rfl
    | some n => rfl
  · rfl

theorem result?_adopt {net : Net} {id : NodeId} {n : Node} (hn : net.node? id = some n) (m : Meaning)
    (x : NodeId) : (net.adopt id m).result? x = if x = id then some m.value else net.result? x := by
  rw [result?, result?, node?_adopt x hn]
  by_cases hx : x = id
  · rw [if_pos hx, hx, hn, Option.map_some, Option.bind_some]
    dsimp only
    rw [if_pos rfl]
  · rw [if_neg hx]
    cases net.node? x with
    | none => rfl
    | some k =>
      rw [Option.map_some, Option.bind_some]
      dsimp only
      rw [if_neg hx]
      rfl

/-! ## Chains -/

/-- The formula that reads the node at an index. -/
def indexFormula (i : Nat) : Content :=
  .formula (.mention .index i (toString i))

theorem targets_indexFormula (i : Nat) : (indexFormula i).targets = [i] :=
  rfl

theorem meaning_index {net : Net} {n i : Nat} {host : NodeId} (hids : net.nodes.ids = List.range n)
    (hi : i < n) (hne : i ≠ host) :
    net.meaning host ("=@" ++ toString i) = .ok ⟨indexFormula i, net.valueOf i⟩ := by
  have hat : net.nodes.at? i = some i := by
    rw [Roster.at?, hids, List.getElem?_range hi]
  refine meaning_mention (isToken_toString i) (resolveIndex_eq_ok_iff.2 ⟨?_, hne⟩)
  have hsqueeze : squeeze (toString i) = toString i := by
    rw [← squeeze_toString i, String.ofList_toList, squeeze_squeeze]
  rw [hsqueeze, natural_toString, hat]

theorem exists_node?_iff_lt {net : Net} {n i : Nat} (hids : net.nodes.ids = List.range n) :
    (∃ k, net.node? i = some k) ↔ i < n := by
  rw [← mem_ids_iff, hids, List.mem_range]

/-- The nodes up to a number, of which each but the first reads the one before it. -/
structure Chain (n : Nat) (net : Net) : Prop where
  intact : net.Intact
  indices : net.nodes.ids = List.range n
  first : ∀ k, net.node? 0 = some k → ∃ x, k.content = .number x
  later : ∀ i k, net.node? (i + 1) = some k → k.content = indexFormula i

namespace Chain

variable {n i : Nat} {net : Net} (h : Chain n net)

include h

theorem exists_node? : (∃ k, net.node? i = some k) ↔ i < n :=
  exists_node?_iff_lt h.indices

theorem mem_parents {c : Nat} {m : Node} (hm : net.node? c = some m) : i ∈ m.parents ↔ c = i + 1 := by
  rw [h.intact.wired.parents c m hm, IdSet.mem_ofList]
  cases c with
  | zero =>
    obtain ⟨x, hx⟩ := h.first m hm
    rw [hx]
    exact iff_of_false List.not_mem_nil (Nat.succ_ne_zero i).symm
  | succ c =>
    rw [h.later c m hm, targets_indexFormula, List.mem_singleton, Nat.add_right_cancel_iff, eq_comm]

theorem mem_children {k : Node} (hk : net.node? i = some k) {c : Nat} :
    c ∈ k.children ↔ c = i + 1 ∧ c < n := by
  constructor
  · intro hc
    obtain ⟨m, hm⟩ := h.intact.wired.child i k c hk hc
    exact ⟨(h.mem_parents hm).1 ((h.intact.wired.mirrored i c k m hk hm).2 hc), h.exists_node?.1 ⟨m, hm⟩⟩
  · rintro ⟨hc, hlt⟩
    obtain ⟨m, hm⟩ := h.exists_node?.2 hlt
    exact (h.intact.wired.mirrored i c k m hk hm).1 ((h.mem_parents hm).2 hc)

/-- Every node but the last is read by the next one alone. -/
theorem children {k : Node} (hk : net.node? i = some k) :
    k.children.toList = if i + 1 < n then [i + 1] else [] := by
  have hset : k.children = .ofList (if i + 1 < n then [i + 1] else []) := by
    ext c
    rw [h.mem_children hk, IdSet.mem_ofList]
    split
    · next hlt => rw [List.mem_singleton, and_iff_left_of_imp (fun hc => hc ▸ hlt)]
    · next hlt => exact iff_of_false (fun hc => hlt (hc.1 ▸ hc.2)) List.not_mem_nil
  rw [hset]
  split
  · rfl
  · rfl

theorem refresh (hi : i + 1 < n) :
    net.refresh (i + 1) = .ok (net.adopt (i + 1) ⟨indexFormula i, net.valueOf i⟩) := by
  obtain ⟨k, hk⟩ := h.exists_node?.2 hi
  have hm : net.meaning (i + 1) ("=@" ++ toString i) = .ok ⟨indexFormula i, net.valueOf i⟩ :=
    meaning_index h.indices (by omega) (by omega)
  rw [Net.refresh, node, hk]
  simp only [bind, Except.bind, h.later i k hk, indexFormula, LinkedText.text_mention, hm]

theorem adopt (hi : i + 1 < n) {x : Float} (hx : net.valueOf i = x) :
    Chain n (net.adopt (i + 1) ⟨indexFormula i, x⟩) where
  intact := by
    subst hx
    exact kept_intact.refresh h.intact (h.refresh hi)
  indices := (ids_congr (net.directory_adopt _ _)).trans h.indices
  first k hk := by
    obtain ⟨m, hm⟩ := h.exists_node?.2 hi
    obtain ⟨k', hk', hcontent, -⟩ := node?_adopt_other hm (Nat.succ_ne_zero i).symm hk
    rw [hcontent]
    exact h.first k' hk'
  later j k hk := by
    obtain ⟨m, hm⟩ := h.exists_node?.2 hi
    rcases node?_adopt_cases hm hk with ⟨hj, hcontent, -⟩ | ⟨-, k', hk', hcontent, -⟩
    · cases hj
      exact hcontent
    · rw [hcontent, h.later j k' hk']

end Chain

/-! ## A change that goes down a chain -/

/-- A chain in which a change has come to a node, and not to those behind it. -/
structure Front (n : Nat) (v : Float) (i : Nat) (net : Net) : Prop where
  chain : Chain n net
  reached : net.result? i = some v
  ahead : ∀ j : Nat, i < j → j < n → net.result? j = some 0

namespace Front

variable {n i : Nat} {v : Float} {net : Net} (h : Front n v i net)

include h

theorem next (hi : i + 1 < n) : Front n v (i + 1) (net.adopt (i + 1) ⟨indexFormula i, v⟩) := by
  obtain ⟨k, hk⟩ := h.chain.exists_node?.2 hi
  refine ⟨h.chain.adopt hi (valueOf_of_result? h.reached), ?_, fun j hj hjn => ?_⟩
  · rw [result?_adopt hk, if_pos rfl]
  · rw [result?_adopt hk, if_neg (Nat.ne_of_gt hj), h.ahead j (by omega) hjn]

/-- The walk ends at the last node. -/
theorem walk_last (hi : i + 1 = n) (room : Nat) : walk (room + 1) i net = ⟨net, none⟩ := by
  obtain ⟨k, hk⟩ := h.chain.exists_node?.2 (show i < n by omega)
  rw [walk, node, hk]
  dsimp only
  rw [h.chain.children hk, if_neg (by omega), visit]

/-- The walk goes on at the next node. -/
theorem walk_next (hv : ((0 : Float) != v) = true) (hi : i + 1 < n) (room : Nat) :
    walk (room + 1) i net =
      match walk room (i + 1) (net.adopt (i + 1) ⟨indexFormula i, v⟩) with
      | ⟨net', some fault⟩ => ⟨net'.markStale i, some fault⟩
      | ⟨net', none⟩ => ⟨net', none⟩ := by
  obtain ⟨k, hk⟩ := h.chain.exists_node?.2 (show i < n by omega)
  have hchanged : (net.valueOf (i + 1) !=
      (net.adopt (i + 1) ⟨indexFormula i, v⟩).valueOf (i + 1)) = true := by
    rw [valueOf_of_result? (h.ahead (i + 1) (by omega) hi), valueOf_of_result? (h.next hi).reached, hv]
  rw [walk, node, hk]
  dsimp only
  rw [h.chain.children hk, if_pos hi, visit, h.chain.refresh hi, valueOf_of_result? h.reached]
  dsimp only
  rw [if_pos hchanged]
  cases walk room (i + 1) (net.adopt (i + 1) ⟨indexFormula i, v⟩) with
  | mk net' fault =>
    cases fault with
    | none => rfl
    | some fault => rfl

/-- With room for the rest of the chain, all nodes of it get the value. -/
theorem walk_within (hv : ((0 : Float) != v) = true) (room : Nat) (hi : i < n) (hroom : n ≤ i + room) :
    (walk room i net).fault = none ∧
      ∀ j : Nat, (walk room i net).net.result? j = if i ≤ j ∧ j < n then some v else net.result? j := by
  induction room generalizing i net with
  | zero => omega
  | succ room ih =>
    by_cases hlast : i + 1 = n
    · rw [h.walk_last hlast]
      refine ⟨rfl, fun j => ?_⟩
      split
      · next hj => rw [show j = i by omega, h.reached]
      · rfl
    · have hnext : i + 1 < n := by omega
      obtain ⟨k, hk⟩ := h.chain.exists_node?.2 hnext
      obtain ⟨hfault, hresults⟩ := ih (h.next hnext) hnext (by omega)
      rw [h.walk_next hv hnext]
      cases hw : walk room (i + 1) (net.adopt (i + 1) ⟨indexFormula i, v⟩) with
      | mk net' fault =>
        rw [hw] at hfault hresults
        cases hfault
        refine ⟨rfl, fun j => (hresults j).trans ?_⟩
        rw [result?_adopt hk]
        rcases Nat.lt_trichotomy j i with hj | rfl | hj
        · rw [if_neg (by omega), if_neg (Nat.ne_of_lt (by omega)), if_neg (by omega)]
        · rw [if_neg (by omega), if_neg (Nat.ne_of_lt (by omega)), if_pos (by omega), h.reached]
        · by_cases hjn : j < n
          · rw [if_pos (by omega), if_pos (by omega)]
          · rw [if_neg (by omega), if_neg (Nat.ne_of_gt (by omega)), if_neg (by omega)]

/-- In a longer chain the nodes that the walk comes to are lost, and those behind them stay as they are. -/
theorem walk_beyond (hv : ((0 : Float) != v) = true) (room : Nat) (hroom : i + room < n) :
    (walk room i net).fault = some (.cycle net.settings.depthLimit.toNat) ∧
      ∀ j : Nat, (walk room i net).net.result? j = if i ≤ j ∧ j ≤ i + room then none else net.result? j := by
  induction room generalizing i net with
  | zero =>
    refine ⟨rfl, fun j => ?_⟩
    rw [walk, result?_markStale]
    exact if_congr (show j = i ↔ i ≤ j ∧ j ≤ i + 0 by omega) rfl rfl
  | succ room ih =>
    have hnext : i + 1 < n := by omega
    obtain ⟨k, hk⟩ := h.chain.exists_node?.2 hnext
    obtain ⟨hfault, hresults⟩ := ih (h.next hnext) (by omega)
    rw [h.walk_next hv hnext]
    cases hw : walk room (i + 1) (net.adopt (i + 1) ⟨indexFormula i, v⟩) with
    | mk net' fault =>
      rw [hw] at hfault hresults
      cases hfault
      refine ⟨by rw [settings_adopt], fun j => ?_⟩
      rw [result?_markStale, hresults j, result?_adopt hk]
      rcases Nat.lt_trichotomy j i with hj | rfl | hj
      · rw [if_neg (Nat.ne_of_lt hj), if_neg (by omega), if_neg (Nat.ne_of_lt (by omega)), if_neg (by omega)]
      · rw [if_pos rfl, if_pos (by omega)]
      · by_cases hjr : j ≤ i + (room + 1)
        · rw [if_neg (Nat.ne_of_gt hj), if_pos (by omega), if_pos (by omega)]
        · rw [if_neg (Nat.ne_of_gt hj), if_neg (by omega), if_neg (Nat.ne_of_gt (by omega)), if_neg (by omega)]

end Front

/-! ## Building a chain -/

/-- The operations that make nodes with names and positions, and then let each of some nodes read the one
before it. -/
def chainOf (nodes : List (String × Float × Float)) (order : List Nat) : List Operation :=
  nodes.map (fun e => .create e.1 e.2.1 e.2.2) ++
    order.map fun i => .submit i ("=@" ++ toString (i - 1)) false

/-- A net on the way to a chain, in which some nodes read the one before them and the others are new. -/
structure Linking (n : Nat) (done : Nat → Prop) (net : Net) : Prop where
  indices : net.nodes.ids = List.range n
  result : ∀ i k, net.node? i = some k → k.result = some 0
  initial : ∀ i k, net.node? i = some k → ¬ done i → k.content = .initial
  linked : ∀ i k, net.node? (i + 1) = some k → done (i + 1) → k.content = indexFormula i

theorem run_append (settings : Settings) (ops ops' : List Operation) :
    run settings (ops ++ ops') = ops'.foldl (fun net op => (net.perform op).net) (run settings ops) :=
  List.foldl_append

theorem linking_create (settings : Settings) (nodes : List (String × Float × Float)) :
    let net := run settings (nodes.map fun e => .create e.1 e.2.1 e.2.2)
    net.nodes.next = nodes.length ∧ Linking nodes.length (fun _ => False) net := by
  induction nodes using List.reverseRecOn with
  | nil =>
    refine ⟨rfl, rfl, ?_, ?_, fun _ _ _ hdone => hdone.elim⟩
    · intro i k hk
      cases hk
    · intro i k hk
      cases hk
  | append_singleton nodes e ih =>
    obtain ⟨hnext, h⟩ := ih
    rw [List.map_append, run_append, List.length_append]
    generalize run settings (nodes.map fun e => .create e.1 e.2.1 e.2.2) = net at hnext h ⊢
    refine ⟨congrArg (· + 1) hnext, ?_, ?_, ?_, fun _ _ _ hdone => hdone.elim⟩
    · refine (Roster.ids_push _ _).trans ?_
      rw [h.indices, hnext]
      exact List.range_succ.symm
    · intro i k hk
      rcases node?_create_cases hk with ⟨-, rfl⟩ | hk
      · rfl
      · exact h.result i k hk
    · intro i k hk
      rcases node?_create_cases hk with ⟨-, rfl⟩ | hk
      · exact fun _ => rfl
      · exact h.initial i k hk

namespace Linking

variable {n : Nat} {done : Nat → Prop} {net : Net} (h : Linking n done net)

include h

theorem exists_node? {i : Nat} : (∃ k, net.node? i = some k) ↔ i < n :=
  exists_node?_iff_lt h.indices

theorem adopt {i : Nat} (hi : i + 1 < n) :
    Linking n (fun x => x = i + 1 ∨ done x) (net.adopt (i + 1) ⟨indexFormula i, 0⟩) := by
  obtain ⟨m, hm⟩ := h.exists_node?.2 hi
  constructor
  case indices => exact (ids_congr (net.directory_adopt _ _)).trans h.indices
  case result =>
    intro x k hk
    rcases node?_adopt_cases hm hk with ⟨-, -, hresult⟩ | ⟨-, k', hk', -, hresult⟩
    · exact hresult
    · rw [hresult, h.result x k' hk']
  case initial =>
    intro x k hk hnot
    obtain ⟨hx, hdone⟩ := not_or.1 hnot
    obtain ⟨k', hk', hcontent, -⟩ := node?_adopt_other hm hx hk
    rw [hcontent, h.initial x k' hk' hdone]
  case linked =>
    intro x k hk hdone
    rcases node?_adopt_cases hm hk with ⟨hx, hcontent, -⟩ | ⟨hx, k', hk', hcontent, -⟩
    · cases hx
      exact hcontent
    · rw [hcontent, h.linked x k' hk' (hdone.resolve_left hx)]

/-- The value stays zero, so that no walk begins. -/
theorem submit {i : Nat} (hi : i + 1 < n) :
    Linking n (fun x => x = i + 1 ∨ done x) (net.setContent (i + 1) ("=@" ++ toString i)).net := by
  obtain ⟨k, hk⟩ := h.exists_node?.2 hi
  obtain ⟨k', hk'⟩ := h.exists_node?.2 (show i < n by omega)
  have hm : net.meaning (i + 1) ("=@" ++ toString i) = .ok ⟨indexFormula i, 0⟩ := by
    rw [meaning_index h.indices (by omega) (by omega), valueOf_of_result hk' (h.result i k' hk')]
  rcases setContent_cases hk ("=@" ++ toString i) with
    ⟨hsame, heq⟩ | ⟨-, ⟨m, hok, hchanged, -⟩ | ⟨m, hok, -, heq⟩ | ⟨fault, herror, -⟩⟩
  · -- the node has the formula already, as no number is written with an `=`
    have hinput : k.input = "=@" ++ toString i := by simpa using (Bool.and_eq_true_iff.1 hsame).1
    have hdone : done (i + 1) := by
      by_contra hnot
      rw [Node.input, h.initial (i + 1) k hk hnot] at hinput
      refine Decimal.equals_not_mem_format 0 ?_
      rw [show Decimal.format 0 = "=@" ++ toString i from hinput]
      simp
    have hsame : (fun x => x = i + 1 ∨ done x) = done :=
      funext fun x => propext (or_iff_right_of_imp fun hx => hx ▸ hdone)
    rw [heq, hsame]
    exact h
  · cases hm.symm.trans hok
    rw [Node.value, h.result (i + 1) k hk] at hchanged
    exact absurd hchanged (show ¬ ((0 : Float) != 0) = true by decide)
  · cases hm.symm.trans hok
    rw [heq]
    exact h.adopt hi
  · cases hm.symm.trans herror

theorem submits (order : List Nat) (horder : ∀ i ∈ order, 0 < i ∧ i < n) :
    Linking n (fun i => i ∈ order ∨ done i)
      ((order.map fun i => Operation.submit i ("=@" ++ toString (i - 1)) false).foldl
        (fun net op => (net.perform op).net) net) := by
  induction order generalizing done net with
  | nil => simpa using h
  | cons i order ih =>
    obtain ⟨⟨hpos, hi⟩, hrest⟩ := List.forall_mem_cons.1 horder
    obtain ⟨i, rfl⟩ := Nat.exists_eq_add_one_of_ne_zero hpos.ne'
    have hsame : (fun x => x ∈ (i + 1) :: order ∨ done x) = fun x => x ∈ order ∨ x = i + 1 ∨ done x :=
      funext fun x => by rw [List.mem_cons, or_left_comm, or_assoc]
    rw [hsame]
    exact ih (h.submit hi) hrest

/-- Once all nodes but the first read the one before them, the net is a chain. -/
theorem front (hintact : net.Intact) (hdone : ∀ i, done i ↔ 0 < i ∧ i < n) (hn : 0 < n) {text : String}
    {v : Float} (hm : net.meaning 0 text = .ok ⟨.number v, v⟩) :
    Front n v 0 (net.adopt 0 ⟨.number v, v⟩) := by
  obtain ⟨m, hm0⟩ := h.exists_node?.2 hn
  refine ⟨⟨kept_intact.adopt net 0 text _ hm hintact, ?_, ?_, ?_⟩, ?_, ?_⟩
  · exact (ids_congr (net.directory_adopt _ _)).trans h.indices
  · exact fun k hk => ⟨v, (node?_adopt_self hm0 hk).1⟩
  · intro i k hk
    obtain ⟨k', hk', hcontent, -⟩ := node?_adopt_other hm0 (Nat.succ_ne_zero i) hk
    rw [hcontent, h.linked i k' hk' ((hdone (i + 1)).2 ⟨Nat.succ_pos i, h.exists_node?.1 ⟨k', hk'⟩⟩)]
  · rw [result?_adopt hm0, if_pos rfl]
  · intro j hj hjn
    obtain ⟨k, hk⟩ := h.exists_node?.2 hjn
    rw [result?_adopt hm0, if_neg (Nat.ne_of_gt hj), result?, hk, Option.bind_some, h.result j k hk]

/-- The first node takes the new number on, which is not the zero that it had. -/
theorem submit_first (hdone : ¬ done 0) (hn : 0 < n) {text : String} {v : Float}
    (hm : net.meaning 0 text = .ok ⟨.number v, v⟩) (hv : ((0 : Float) != v) = true) :
    net.submit 0 text false = (net.adopt 0 ⟨.number v, v⟩).walkBelow 0 := by
  obtain ⟨k, hk⟩ := h.exists_node?.2 hn
  rw [Net.submit, if_neg Bool.false_ne_true]
  rcases setContent_cases hk text with
    ⟨hsame, -⟩ | ⟨-, ⟨m, hok, -, heq⟩ | ⟨m, hok, hunchanged, -⟩ | ⟨fault, herror, -⟩⟩
  · -- the text of the node would be that of the zero
    have hinput : k.input = text := by simpa using (Bool.and_eq_true_iff.1 hsame).1
    rw [← hinput, Node.input, h.initial 0 k hk hdone, Content.initial, Content.input, meaning_format] at hm
    cases hm
    exact absurd hv (by decide)
  · cases hm.symm.trans hok
    exact heq
  · cases hm.symm.trans hok
    rw [Node.value, h.result 0 k hk, Option.getD_some, hv] at hunchanged
    cases hunchanged
  · cases hm.symm.trans herror

end Linking

/-! ## The limit -/

/-- The outcome of an edit of the first node in a chain, whose new number is not zero.  A chain that has at
most one node more than the limit takes the number on.  In a longer one the edit is a cycle, the nodes up to
the one behind the limit are lost, and the others stay as they were. -/
structure ChainEdited (limit n : Nat) (v : Float) (old : Net) (out : Outcome) : Prop where
  indices : out.net.nodes.ids = List.range n
  input : ∃ k, out.net.node? 0 = some k ∧ k.input = Decimal.format v
  ok_iff : out.fault = none ↔ n ≤ limit + 1
  within : n ≤ limit + 1 → ∀ i < n, ∃ k, out.net.node? i = some k ∧ k.value = v ∧ k.isStale = false
  fault : limit + 1 < n → out.fault = some (.cycle limit)
  lost : limit + 1 < n → ∀ i ≤ limit + 1,
    ∃ k, out.net.node? i = some k ∧ k.value.isNaN = true ∧ k.isStale = true
  kept : limit + 1 < n → ∀ i, limit + 1 < i → i < n → ∃ k k', old.node? i = some k ∧
    out.net.node? i = some k' ∧ k'.value = k.value ∧ k'.isStale = false

/-- The walk below the first node of a chain, which has got another number. -/
theorem Front.chainEdited {n : Nat} {v : Float} (net : Net) {base : Net} (h : Front n v 0 base)
    (hv : ((0 : Float) != v) = true) (hn : 0 < n)
    (hbase : ∀ i : Nat, 0 < i → base.result? i = net.result? i)
    (hinput : ∃ k, (base.walkBelow 0).net.node? 0 = some k ∧ k.content = .number v) :
    ChainEdited base.settings.depthLimit.toNat n v net (base.walkBelow 0) := by
  have hgrown := (keptByWalks_grown base).walkBelow 0 h.chain.intact.grown
  have hids : (base.walkBelow 0).net.nodes.ids = List.range n :=
    (ids_congr hgrown.directory).trans h.chain.indices
  have hlive {i : Nat} (hi : i < n) : ∃ k, (base.walkBelow 0).net.node? i = some k :=
    (exists_node?_iff_lt hids).2 hi
  have hwithin := h.walk_within hv (base.settings.depthLimit.toNat + 1) hn
  have hbeyond := h.walk_beyond hv (base.settings.depthLimit.toNat + 1)
  rw [← walkBelow, Nat.zero_add] at hwithin hbeyond
  constructor
  case indices => exact hids
  case input =>
    obtain ⟨k, hk, hcontent⟩ := hinput
    exact ⟨k, hk, by rw [Node.input, hcontent]; rfl⟩
  case ok_iff =>
    refine ⟨fun hf => ?_, fun hle => (hwithin hle).1⟩
    by_contra hlt
    rw [(hbeyond (by omega)).1] at hf
    cases hf
  case within =>
    intro hle i hi
    obtain ⟨k, hk⟩ := hlive hi
    have hresult := (hwithin hle).2 i
    rw [if_pos ⟨Nat.zero_le i, hi⟩, result?, hk, Option.bind_some] at hresult
    refine ⟨k, hk, ?_, ?_⟩
    · rw [Node.value, hresult, Option.getD_some]
    · rw [Node.isStale, hresult, Option.isNone_some]
  case fault => exact fun hlt => (hbeyond hlt).1
  case lost =>
    intro hlt i hi
    obtain ⟨k, hk⟩ := hlive (show i < n by omega)
    have hresult := (hbeyond hlt).2 i
    rw [if_pos ⟨Nat.zero_le i, hi⟩, result?, hk, Option.bind_some] at hresult
    have hstale : k.isStale = true := by rw [Node.isStale, hresult, Option.isNone_none]
    exact ⟨k, hk, isNaN_of_isStale hstale, hstale⟩
  case kept =>
    intro hlt i hi hin
    obtain ⟨k, hk⟩ := hlive hin
    have hresult := (hbeyond hlt).2 i
    have hzero := h.ahead i (by omega) hin
    rw [if_neg (by omega), hzero, result?, hk, Option.bind_some] at hresult
    rw [hbase i (by omega)] at hzero
    obtain ⟨k₀, hk₀, hresult₀⟩ := Option.bind_eq_some_iff.1 hzero
    refine ⟨k₀, k, hk₀, hk, ?_, ?_⟩
    · rw [Node.value, Node.value, hresult, hresult₀]
    · rw [Node.isStale, hresult, Option.isNone_some]

/-- After every build of a chain, the limit of the settings is exact for an edit of its first node. -/
theorem run_chained (settings : Settings) (nodes : List (String × Float × Float)) (hnodes : nodes ≠ [])
    (order : List Nat) (horder : ∀ i, i ∈ order ↔ 0 < i ∧ i < nodes.length) {text : String} {v : Float}
    (hread : Decimal.read? (squeeze text).toList = some v) (hv : (v != 0) = true) :
    ChainEdited settings.depthLimit.toNat nodes.length v (run settings (chainOf nodes order))
      ((run settings (chainOf nodes order)).submit 0 text false) := by
  have hn : 0 < nodes.length := List.length_pos_iff.2 hnodes
  have hv' : ((0 : Float) != v) = true := by rwa [bne_comm]
  have hlinking := (linking_create settings nodes).2.submits order fun i hi => (horder i).1 hi
  rw [← run_append] at hlinking
  change Linking _ _ (run settings (chainOf nodes order)) at hlinking
  have hintact := intact_run settings (chainOf nodes order)
  have hlimit : (run settings (chainOf nodes order)).settings = settings := settings_run _ _
  generalize run settings (chainOf nodes order) = net at hlinking hintact hlimit ⊢
  have hdone : ∀ i, i ∈ order ∨ False ↔ 0 < i ∧ i < nodes.length := fun i => by rw [or_false, horder]
  have hm := net.meaning_number 0 hread
  have hfront := hlinking.front hintact hdone hn hm
  obtain ⟨k, hk⟩ := hlinking.exists_node?.2 hn
  have hcontent : ∃ k, (net.adopt 0 ⟨.number v, v⟩).node? 0 = some k ∧ k.content = .number v := by
    obtain ⟨k', hk'⟩ := hfront.chain.exists_node?.2 hn
    exact ⟨k', hk', (node?_adopt_self hk hk').1⟩
  have hedited := hfront.chainEdited net hv' hn
    (fun i hi => by rw [result?_adopt hk, if_neg (Nat.ne_of_gt hi)])
    ((keptByWalks_content hm).walkBelow 0 ⟨net.directory_adopt 0 _, hcontent⟩).2
  rw [settings_adopt, hlimit] at hedited
  rw [hlinking.submit_first (fun h => Nat.lt_irrefl 0 ((hdone 0).1 h).1) hn hm hv']
  exact hedited

/-- A chain of four nodes is longer than a limit of one allows, whatever the order of its formulas. -/
theorem run_chained_four :
    let settings := { Settings.default with depthLimit := 1 }
    let ops := chainOf [("A", 0, 0), ("B", 0, 0), ("C", 0, 0), ("D", 0, 0)] [2, 1, 3]
    ((run settings ops).submit 0 " 7" false).fault = some (.cycle 1) ∧
      ChainEdited 1 4 7 (run settings ops) ((run settings ops).submit 0 " 7" false) := by
  have horder : ∀ i, i ∈ [2, 1, 3] ↔ 0 < i ∧ i < 4 := by
    intro i
    simp only [List.mem_cons, List.not_mem_nil, or_false]
    omega
  have hread : Decimal.read? (squeeze " 7").toList = some 7 := by decide +kernel
  have hedited := run_chained { Settings.default with depthLimit := 1 }
    [("A", 0, 0), ("B", 0, 0), ("C", 0, 0), ("D", 0, 0)] (by decide) [2, 1, 3] horder hread (by decide)
  exact ⟨hedited.fault (by decide), hedited⟩

end Net

end FormulaNet
