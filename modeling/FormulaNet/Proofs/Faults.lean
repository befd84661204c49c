import FormulaNet.Proofs.Directory

/-!
# How a formula fails

A formula fails for its syntax, for a function that is not known or for a mention without a target
(`evaluatePlaced_failsOnly`), so that an input never means a cycle: only walks report one.
-/

namespace FormulaNet

/-- A computation that fails with some faults only. -/
def FailsOnly (P : Fault → Prop) {α : Type} (x : Except Fault α) : Prop :=
  ∀ fault, x = .error fault → P fault

section Generic

variable {P : Fault → Prop} {α β : Type}

theorem failsOnly_ok (a : α) : FailsOnly P (.ok a : Except Fault α) := by
  intro fault h
  cases h

theorem failsOnly_error {fault : Fault} (h : P fault) : FailsOnly P (.error fault : Except Fault α) := by
  intro fault' h'
  cases h'
  exact h

theorem FailsOnly.bind {x : Except Fault α} {f : α → Except Fault β} (hx : FailsOnly P x)
    (hf : ∀ a, FailsOnly P (f a)) : FailsOnly P (x >>= f) := by
  cases x with
  | ok a => exact hf a
  | error fault => exact failsOnly_error (hx fault rfl)

end Generic

/-- The faults of a formula. -/
inductive Fault.OfFormula : Fault → Prop
  | syntactic (cause : SyntaxFault) : OfFormula (.syntactic cause)
  | reference (cause : ReferenceFault) : OfFormula (.reference cause)
  | unknownFunction (name : String) : OfFormula (.unknownFunction name)

namespace Grammar

variable {ρ : Type}

/-- A rule that fails with the faults of a formula only. -/
def RuleFails (rule : Rule ρ) : Prop :=
  ∀ ts, FailsOnly Fault.OfFormula (rule ts)

theorem chainFrom_fails {joins : Operator → Bool} {link : Rule ρ} (hlink : RuleFails link)
    (links : Nat) (e : Expr ρ) : RuleFails (chainFrom joins link links e) := by
  induction links generalizing e with
  | zero =>
    intro ts
    simp only [chainFrom]
    exact failsOnly_ok _
  | succ links ih =>
    intro ts
    cases ts with
    | nil => exact failsOnly_ok _
    | cons t ts =>
      cases t with
      | operator op =>
        simp only [chainFrom]
        split
        · exact (hlink ts).bind fun read => ih _ read.2
        · exact failsOnly_ok _
      | number | word | mention | opening | closing | stray => exact failsOnly_ok _

theorem chain_fails {joins : Operator → Bool} {link : Rule ρ} (hlink : RuleFails link) :
    RuleFails (chain joins link) :=
  fun ts => (hlink ts).bind fun read => chainFrom_fails hlink _ read.1 read.2

variable {factor : Rule ρ}

theorem expression_fails (hfactor : RuleFails factor) : RuleFails (expression factor) :=
  chain_fails (chain_fails hfactor)

theorem closed_fails (hfactor : RuleFails factor) (missing : SyntaxFault) :
    RuleFails (closed factor missing) := by
  refine fun ts => (expression_fails hfactor ts).bind fun read => ?_
  dsimp only
  split
  · exact failsOnly_ok _
  · exact failsOnly_error (.syntactic _)

theorem argument_fails (hfactor : RuleFails factor) (name : String) :
    RuleFails (argument factor name) := by
  intro ts
  unfold argument
  split
  · exact closed_fails hfactor _ _
  · exact hfactor _

theorem primary_fails {resolve : Mention → Except Fault ρ}
    (hresolve : ∀ m, FailsOnly Fault.OfFormula (resolve m)) (hfactor : RuleFails factor) :
    RuleFails (primary resolve factor) := by
  intro ts
  unfold primary
  split
  · exact failsOnly_error (.syntactic _)
  · exact closed_fails hfactor _ _
  · split
    · exact failsOnly_ok _
    · exact failsOnly_error (.syntactic _)
  · refine (argument_fails hfactor _ _).bind fun read => ?_
    dsimp only
    split
    · exact failsOnly_ok _
    · exact failsOnly_error (.unknownFunction _)
  · exact (hresolve _).bind fun r => failsOnly_ok _
  · exact failsOnly_error (.reference _)
  · exact failsOnly_error (.syntactic _)

theorem power_fails (hfactor : RuleFails factor) (e : Expr ρ) : RuleFails (power factor e) := by
  intro ts
  unfold power
  split
  · exact (hfactor _).bind fun read => failsOnly_ok _
  · exact failsOnly_ok _

theorem factor_fails {resolve : Mention → Except Fault ρ}
    (hresolve : ∀ m, FailsOnly Fault.OfFormula (resolve m)) (depth : Nat) :
    RuleFails (Grammar.factor resolve depth) := by
  induction depth with
  | zero => exact fun ts => failsOnly_error (.syntactic _)
  | succ depth ih =>
    intro ts
    have unsigned (ts : List Token) : FailsOnly Fault.OfFormula
        (primary resolve (Grammar.factor resolve depth) ts >>= fun read =>
          power (Grammar.factor resolve depth) read.1 read.2) :=
      (primary_fails hresolve ih ts).bind fun read => power_fails ih read.1 read.2
    cases ts with
    | nil => exact unsigned []
    | cons t ts =>
      cases t with
      | operator op =>
        cases op with
        | add => exact ih ts
        | sub => exact (ih ts).bind fun read => failsOnly_ok _
        | mul | div | pow => exact unsigned _
      | number | word | mention | opening | closing | stray => exact unsigned _

end Grammar

theorem Expr.ofTokens_failsOnly {ρ : Type} {resolve : Mention → Except Fault ρ}
    (hresolve : ∀ m, FailsOnly Fault.OfFormula (resolve m)) (ts : List Token) :
    FailsOnly Fault.OfFormula (Expr.ofTokens resolve ts) := by
  refine (Grammar.expression_fails (Grammar.factor_fails hresolve nestingLimit) ts).bind fun read => ?_
  dsimp only
  split
  · exact failsOnly_ok _
  · exact failsOnly_error (.syntactic _)

theorem evaluatePlaced_failsOnly {scope : Scope}
    (hscope : ∀ kind token, FailsOnly Fault.OfFormula (scope.resolve kind token)) (ps : List Placed) :
    FailsOnly Fault.OfFormula (evaluatePlaced scope ps) :=
  (Expr.ofTokens_failsOnly (fun m => (hscope m.kind m.token).bind fun _ => failsOnly_ok _) _).bind
    fun _ => failsOnly_ok _

namespace Net

theorem resolve_failsOnly (net : Net) (host : NodeId) (kind : MentionKind) (token : String) :
    FailsOnly Fault.OfFormula ((net.scope host).resolve kind token) := by
  cases kind with
  | name =>
    change FailsOnly _ (net.resolveName host token)
    unfold resolveName
    dsimp only
    split
    · exact failsOnly_ok _
    split
    · exact failsOnly_error (.reference _)
    · exact failsOnly_error (.reference _)
  | index =>
    change FailsOnly _ (net.resolveIndex host token)
    unfold resolveIndex
    split
    · exact failsOnly_error (.reference _)
    split
    · exact failsOnly_error (.reference _)
    · exact failsOnly_ok _

/-- An input that is not accepted is no number, or a formula that fails. -/
theorem meaning_failsOnly (net : Net) (host : NodeId) (text : String) :
    FailsOnly (fun fault => fault.OfFormula ∨ fault = .notANumber text) (net.meaning host text) := by
  unfold meaning
  split
  · exact failsOnly_ok _
  · refine FailsOnly.bind ?_ fun _ => failsOnly_ok _
    exact fun fault h => .inl (evaluatePlaced_failsOnly (net.resolve_failsOnly host) _ fault h)
  · split
    · exact failsOnly_ok _
    · exact failsOnly_error (.inr rfl)

theorem meaning_ne_cycle (net : Net) (host : NodeId) (text : String) (limit : Nat) :
    net.meaning host text ≠ .error (.cycle limit) := by
  intro h
  rcases net.meaning_failsOnly host text _ h with h | h
  · cases h
  · cases h

theorem meaning_ne_unknownNode (net : Net) (host : NodeId) (text : String) (id : NodeId) :
    net.meaning host text ≠ .error (.unknownNode id) := by
  intro h
  rcases net.meaning_failsOnly host text _ h with h | h
  · cases h
  · cases h

/-! ## Other operations -/

/-- Only a node that does not exist is not found. -/
theorem node_failsOnly (net : Net) (id : NodeId) :
    FailsOnly (fun fault => fault = .unknownNode id ∧ net.node? id = none) (net.node id) := by
  unfold node
  split
  · exact failsOnly_ok _
  · next hn => exact failsOnly_error ⟨rfl, hn⟩

theorem rename_failsOnly (net : Net) (id : NodeId) (name : String) :
    FailsOnly (fun fault => (fault = .unknownNode id ∧ net.node? id = none) ∨
      ∃ cause, fault = .invalidName cause) (net.rename id name) := by
  refine FailsOnly.bind (fun fault h => .inl (net.node_failsOnly id fault h)) fun n => ?_
  dsimp only
  split
  · exact failsOnly_ok _
  split
  · exact failsOnly_error (.inr ⟨_, rfl⟩)
  split
  · exact failsOnly_error (.inr ⟨_, rfl⟩)
  · exact failsOnly_ok _

theorem moveTo_failsOnly (net : Net) (id : NodeId) (x y : Float) :
    FailsOnly (fun fault => fault = .unknownNode id ∧ net.node? id = none) (net.moveTo id x y) :=
  (net.node_failsOnly id).bind fun _ => failsOnly_ok _

end Net

end FormulaNet
