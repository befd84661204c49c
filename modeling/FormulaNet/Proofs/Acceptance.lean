import FormulaNet.Proofs.Soundness
import Mathlib.Data.Countable.Basic
import Mathlib.Logic.Equiv.List

/-!
# What is accepted as a formula

A rule of the grammar finds every derivation whose factors are nested as deep as it allows
(`factor_complete`), so a text is accepted if it has a derivation, and then its value is that of the
derivation: `evaluate_eq_ok_iff`.
-/

namespace FormulaNet

namespace Grammar

open Token FormulaNet.Derivation

variable {scope : Scope} {depth : Nat} {factor : Rule Reference}

/-! ## Every derivation is read -/

/-- A rule reads the text `cs` up to `rest` if it has the property `P`, with the value that `P` says.
Only those `rest` count that may follow. -/
def RuleComplete (scope : Scope) (follows : List Char → Prop)
    (P : List Char → List Char → Float → Prop) (rule : Rule Reference) : Prop :=
  ∀ ⦃ps ts rest x⦄, Spells ps ts → P (charsOf ps) rest x → follows rest →
    ∃ e qs ts', rule ts = .ok (e, ts') ∧ Spells qs ts' ∧ charsOf qs = rest ∧ scope.worth e = x

/-- No operator that joins a chain comes next. -/
def Ends (joins : Operator → Bool) (rest : List Char) : Prop :=
  ∀ op, joins op = true → rest.head? ≠ some op.char

/-- A rule does not leave more tokens than there were. -/
def Shrinks {ρ : Type} (rule : Rule ρ) : Prop :=
  ∀ ⦃ts e rest⦄, rule ts = .ok (e, rest) → rest.length ≤ ts.length

theorem RuleConsumes.shrinks {ρ : Type} {resolve : Mention → Except Fault ρ} {rule : Rule ρ}
    (h : RuleConsumes resolve rule) : Shrinks rule := by
  intro ts e rest hrule
  obtain ⟨used, rfl, -⟩ := h hrule
  simp

section Chains

variable {ρ : Type} {joins : Operator → Bool} {link : Rule ρ} {ts rest : List Token} {e e' : Expr ρ}

/-- A chain comes to the expression `e` with `rest` still to be read. -/
def ChainReaches (joins : Operator → Bool) (link : Rule ρ) (ts : List Token) (e : Expr ρ)
    (rest : List Token) : Prop :=
  ∃ links, rest.length ≤ links ∧ chain joins link ts = chainFrom joins link links e rest

theorem ChainReaches.first (h : link ts = .ok (e, rest)) : ChainReaches joins link ts e rest :=
  ⟨rest.length, Nat.le_refl _, by rw [chain, h]; rfl⟩

theorem ChainReaches.next {op : Operator} {mid : List Token} (hlink : Shrinks link)
    (hop : joins op = true) (h : ChainReaches joins link ts e (.operator op :: mid))
    (hmid : link mid = .ok (e', rest)) : ChainReaches joins link ts (.binary op e e') rest := by
  obtain ⟨links, hle, heq⟩ := h
  obtain ⟨links, rfl⟩ := Nat.exists_eq_succ_of_ne_zero (Nat.ne_of_gt (Nat.zero_lt_of_lt hle))
  refine ⟨links, (hlink hmid).trans (Nat.le_of_succ_le_succ hle), ?_⟩
  rw [heq, chainFrom, if_pos hop, hmid]
  rfl

/-- A chain ends where no operator joins it. -/
theorem ChainReaches.stop (h : ChainReaches joins link ts e rest)
    (hrest : ∀ op, joins op = true → rest.head? ≠ some (.operator op)) :
    chain joins link ts = .ok (e, rest) := by
  obtain ⟨links, -, heq⟩ := h
  rw [heq]
  cases links with
  | zero => rfl
  | succ links =>
    cases rest with
    | nil => rfl
    | cons t rest =>
      cases t with
      | operator op =>
        rw [chainFrom, if_neg fun hop => hrest op hop rfl]
      | number | word | mention | opening | closing | stray => rfl

end Chains

section Chains

variable {joins : Operator → Bool} {follows : List Char → Prop}
  {L : List Char → List Char → Float → Prop} {link : Rule Reference}

theorem chain_reaches (hlink : RuleComplete scope follows L link) (hshrinks : Shrinks link)
    (hfollows : ∀ op rest, joins op = true → follows (op.char :: rest)) {ps : List Placed}
    {ts : List Token} (hs : Spells ps ts) {cs rest : List Char} {x : Float}
    (h : Chained joins L cs rest x) (hcs : charsOf ps = cs) (hrest : follows rest) :
    ∃ e qs ts', ChainReaches joins link ts e ts' ∧ Spells qs ts' ∧ charsOf qs = rest ∧
      scope.worth e = x := by
  induction h with
  | first h =>
    subst hcs
    obtain ⟨e, qs, ts', hread, hqs, hrest, hx⟩ := hlink hs h hrest
    exact ⟨e, qs, ts', .first hread, hqs, hrest, hx⟩
  | next hop hchain hL ih =>
    obtain ⟨e, qs, ts₁, hreach, hqs, hchars, rfl⟩ := ih hcs (hfollows _ _ hop)
    obtain ⟨qs, ts₁, rfl, hqs, rfl⟩ := hqs.exists_operator _ hchars
    obtain ⟨e', qs', ts₂, hread, hqs', hchars', rfl⟩ := hlink hqs hL hrest
    exact ⟨.binary _ e e', qs', ts₂, hreach.next hshrinks hop hread, hqs', hchars', rfl⟩

theorem chain_complete (hlink : RuleComplete scope follows L link) (hshrinks : Shrinks link)
    (hfollows : ∀ op rest, joins op = true → follows (op.char :: rest)) :
    RuleComplete scope (fun rest => follows rest ∧ Ends joins rest) (Chained joins L)
      (chain joins link) := by
  intro ps ts rest x hs h ⟨hrest, hends⟩
  obtain ⟨e, qs, ts', hreach, hqs, rfl, hx⟩ := chain_reaches hlink hshrinks hfollows hs h rfl hrest
  refine ⟨e, qs, ts', hreach.stop fun op hop hhead => ?_, hqs, rfl, hx⟩
  exact hends op hop (hqs.head?_charsOf hhead)

end Chains

/-- What can come behind a term. -/
abbrev FollowsTerm (rest : List Char) : Prop :=
  True ∧ Ends (fun op => op == .mul || op == .div) rest

/-- What can come behind an expression. -/
abbrev FollowsExpression (rest : List Char) : Prop :=
  FollowsTerm rest ∧ Ends (fun op => op == .add || op == .sub) rest

theorem followsExpression_of_head? {rest : List Char} (h : ∀ op : Operator, rest.head? ≠ some op.char) :
    FollowsExpression rest :=
  ⟨⟨trivial, fun op _ => h op⟩, fun op _ => h op⟩

theorem term_complete
    (hfactor : RuleComplete scope (fun _ => True) (Derivable scope depth .factor) factor)
    (hshrinks : Shrinks factor) :
    RuleComplete scope FollowsTerm (Derivable scope depth .term) (term factor) := by
  intro ps ts rest x hs h hrest
  exact chain_complete hfactor hshrinks (fun _ _ _ => trivial) hs (derivable_term_iff.1 h) hrest

theorem expression_complete
    (hfactor : RuleComplete scope (fun _ => True) (Derivable scope depth .factor) factor)
    (hconsumes : RuleConsumes scope.reference factor) :
    RuleComplete scope FollowsExpression (Derivable scope depth .expression) (expression factor) := by
  intro ps ts rest x hs h hrest
  refine chain_complete (term_complete hfactor hconsumes.shrinks)
    (chain_consumes hconsumes).shrinks (fun op rest hop => ⟨trivial, fun op' hop' hhead => ?_⟩) hs
    (derivable_expression_iff.1 h) hrest
  -- Neither `+` nor `-` joins a term.
  have hchar : op.char = op'.char := Option.some.inj hhead
  have : op = op' := Option.some.inj (by
    rw [← Operator.ofChar?_char op, ← Operator.ofChar?_char op', hchar])
  subst this
  cases op with
  | add | sub | pow => simp at hop'
  | mul | div => simp at hop

theorem closed_complete
    (hfactor : RuleComplete scope (fun _ => True) (Derivable scope depth .factor) factor)
    (hconsumes : RuleConsumes scope.reference factor) (missing : SyntaxFault) :
    RuleComplete scope (fun _ => True)
      (fun cs rest x => Derivable scope depth .expression cs (')' :: rest) x)
      (closed factor missing) := by
  intro ps ts rest x hs h _
  have hfollows : FollowsExpression (')' :: rest) := by
    refine followsExpression_of_head? fun op => ?_
    cases op with
    | add | sub | mul | div | pow => simp [Operator.char]
  obtain ⟨e, qs, ts', hread, hqs, hchars, rfl⟩ := expression_complete hfactor hconsumes hs h hfollows
  obtain ⟨qs, ts', rfl, hqs, rfl⟩ := hqs.exists_closing hchars
  refine ⟨e, qs, ts', ?_, hqs, rfl, rfl⟩
  rw [closed, hread]
  rfl

theorem argument_of_not_opening {ρ : Type} {factor : Rule ρ} {name : String} {ts : List Token}
    (h : ts.head? ≠ some .opening) : argument factor name ts = factor ts := by
  cases ts with
  | nil => rfl
  | cons t ts =>
    cases t with
    | opening => exact absurd rfl h
    | number | word | mention | operator | closing | stray => rfl

theorem power_of_not_pow {ρ : Type} {factor : Rule ρ} {e : Expr ρ} {ts : List Token}
    (h : ts.head? ≠ some (.operator .pow)) : power factor e ts = .ok (e, ts) := by
  cases ts with
  | nil => rfl
  | cons t ts =>
    cases t with
    | operator op =>
      cases op with
      | pow => exact absurd rfl h
      | add | sub | mul | div => rfl
    | number | word | mention | opening | closing | stray => rfl

/-- A factor that begins with a primary has no sign. -/
theorem factor_of_primary {ρ : Type} {resolve : Mention → Except Fault ρ} {ts rest : List Token}
    {e : Expr ρ} (h : primary resolve (Grammar.factor resolve depth) ts = .ok (e, rest)) :
    Grammar.factor resolve (depth + 1) ts = power (Grammar.factor resolve depth) e rest := by
  have unsigned : (primary resolve (Grammar.factor resolve depth) ts >>= fun read =>
      power (Grammar.factor resolve depth) read.1 read.2) =
        power (Grammar.factor resolve depth) e rest := by
    rw [h]
    rfl
  cases ts with
  | nil => cases h
  | cons t ts =>
    cases t with
    | operator op => cases h
    | number | word | mention | opening | closing | stray => exact unsigned

theorem primary_complete
    (hfactor : RuleComplete scope (fun _ => True) (Derivable scope depth .factor) factor)
    (hconsumes : RuleConsumes scope.reference factor) :
    RuleComplete scope (fun _ => True) (Derivable scope depth .primary)
      (primary scope.reference factor) := by
  rintro ps ts rest x hs ⟨p, hp⟩ _
  cases p with
  | group e =>
    obtain ⟨mid, hps, he⟩ := Derives.group_iff.1 hp
    obtain ⟨qs, ts, rfl, hqs, rfl⟩ := hs.exists_opening hps
    exact closed_complete hfactor hconsumes _ hqs ⟨e, he⟩ trivial
  | number literal =>
    obtain ⟨htext, hrun, -, hliteral, rfl⟩ := hp
    obtain ⟨run, qs, ts, rfl, rfl, hqs, rfl⟩ := hs.exists_number hrun htext
    have hread := (Decimal.read?_eq_some_iff hrun.run).2 ⟨hliteral, rfl⟩
    refine ⟨.number (literalValue (charsOf run.toList)), qs, ts, ?_, hqs, rfl, rfl⟩
    rw [primary, Run.spell, String.toList_ofList]
    rw [charsOf] at hread
    rw [hread]
    rfl
  | call name e =>
    obtain ⟨mid, a, htext, hrun, hname, he, rfl⟩ := Derives.call_iff.1 hp
    obtain ⟨run, qs, ts, rfl, rfl, hqs, hmid⟩ := hs.exists_word hrun htext
    obtain ⟨qs, ts, rfl, hqs, rfl⟩ := hqs.exists_opening hmid
    obtain ⟨f, hf⟩ := (Builtin.exists_ofName?_iff _).2 hname
    have hspell : Builtin.ofName? run.spell = some f := hf
    obtain ⟨e, qs', ts', hread, hqs', hchars, rfl⟩ :=
      closed_complete hfactor hconsumes (.unclosedArgument run.spell) hqs ⟨e, he⟩ trivial
    refine ⟨.call f e, qs', ts', ?_, hqs', hchars, (functionValue_eq hf _).symm⟩
    change (closed factor _ ts >>= _) = _
    rw [hread]
    simp only [bind, Except.bind, hspell]
  | apply name d =>
    obtain ⟨mid, a, htext, hrun, hmid, hname, hd, rfl⟩ := Derives.apply_iff.1 hp
    obtain ⟨run, qs, ts, rfl, rfl, hqs, rfl⟩ := hs.exists_word hrun htext
    obtain ⟨f, hf⟩ := (Builtin.exists_ofName?_iff _).2 hname
    have hspell : Builtin.ofName? run.spell = some f := hf
    obtain ⟨e, qs', ts', hread, hqs', hchars, rfl⟩ := hfactor hqs ⟨d, hd⟩ trivial
    refine ⟨.call f e, qs', ts', ?_, hqs', hchars, (functionValue_eq hf _).symm⟩
    rw [primary, argument_of_not_opening fun hhead => hmid (hqs.head?_charsOf hhead), hread]
    simp only [bind, Except.bind, hspell]
  | mention kind token =>
    obtain ⟨htext, hrun, -, ⟨target, htarget⟩, rfl⟩ := hp
    obtain ⟨run, qs, ts, rfl, rfl, hqs, rfl⟩ := hs.exists_mention hrun htext
    refine ⟨.ref ⟨run.span, kind, target⟩, qs, ts, ?_, hqs, rfl,
      (Scope.mentioned_eq htarget).symm⟩
    rw [primary, Scope.reference, Run.spell, ← charsOf, htarget]
    rfl

theorem factor_complete (depth : Nat) :
    RuleComplete scope (fun _ => True) (Derivable scope depth .factor)
      (Grammar.factor scope.reference depth) := by
  induction depth with
  | zero =>
    rintro ps ts rest x - ⟨d, hd⟩ -
    -- A factor is nested in itself, so its nesting is not zero.
    have hnesting := hd.nesting
    cases d with
    | plus | minus | primary | power => exact absurd hnesting (by simp [Derivation.nesting])
  | succ depth ih =>
    rintro ps ts rest x hs ⟨d, hd⟩ -
    have hprimary := primary_complete ih (factor_consumes depth)
    cases d with
    | plus d =>
      obtain ⟨mid, hps, hd⟩ := Derives.plus_iff.1 hd
      obtain ⟨qs, ts, rfl, hqs, rfl⟩ := hs.exists_operator .add hps
      exact ih hqs ⟨d, hd⟩ trivial
    | minus d =>
      obtain ⟨mid, a, hps, hd, rfl⟩ := Derives.minus_iff.1 hd
      obtain ⟨qs, ts, rfl, hqs, rfl⟩ := hs.exists_operator .sub hps
      obtain ⟨e, qs', ts', hread, hqs', hchars, rfl⟩ := ih hqs ⟨d, hd⟩ trivial
      refine ⟨.negate e, qs', ts', ?_, hqs', hchars, rfl⟩
      rw [Grammar.factor, hread]
      rfl
    | primary p =>
      obtain ⟨hp, hrest⟩ := Derives.primary_iff.1 hd
      obtain ⟨e, qs, ts', hread, hqs, rfl, rfl⟩ := hprimary hs ⟨p, hp⟩ trivial
      refine ⟨e, qs, ts', ?_, hqs, rfl, rfl⟩
      rw [factor_of_primary hread]
      exact power_of_not_pow fun hhead => hrest (hqs.head?_charsOf hhead)
    | power p d =>
      obtain ⟨mid, a, b, hp, hd, rfl⟩ := Derives.power_iff.1 hd
      obtain ⟨e, qs, ts', hread, hqs, hchars, rfl⟩ := hprimary hs ⟨p, hp⟩ trivial
      obtain ⟨qs, ts', rfl, hqs, rfl⟩ := hqs.exists_operator .pow hchars
      obtain ⟨e', qs', ts₂, hread', hqs', hchars', rfl⟩ := ih hqs ⟨d, hd⟩ trivial
      refine ⟨.binary .pow e e', qs', ts₂, ?_, hqs', hchars', rfl⟩
      rw [factor_of_primary hread, power, hread']
      rfl

end Grammar

/-! ## Whole formulas -/

open Grammar Token

/-- The tokens of a text are read into an expression just if the text has a derivation. -/
theorem Expr.exists_ofTokens_eq_ok_iff (scope : Scope) {ps : List Placed} {ts : List Token}
    (hs : Spells ps ts) (x : Float) :
    (∃ e, Expr.ofTokens scope.reference ts = .ok e ∧ scope.worth e = x) ↔
      Derivable scope nestingLimit .expression (charsOf ps) [] x := by
  constructor
  · rintro ⟨e, he, rfl⟩
    obtain ⟨⟨e', rest⟩, he', hc⟩ := exists_of_bind_eq_ok he
    obtain ⟨qs, hqs, hd⟩ := expression_sound (factor_sound nestingLimit) hs he'
    dsimp only at hc
    split at hc
    · cases hc
      cases hqs
      exact hd
    · cases hc
  · intro hd
    have hfollows : FollowsExpression [] :=
      followsExpression_of_head? fun op => by simp
    obtain ⟨e, qs, ts', hread, hqs, hchars, rfl⟩ :=
      expression_complete (factor_complete nestingLimit) (factor_consumes _) hs hd hfollows
    obtain rfl := List.map_eq_nil_iff.1 hchars
    cases hqs
    exact ⟨e, by rw [Expr.ofTokens, hread]; rfl, rfl⟩

/-- A text is evaluated just if, blanks removed, it has a derivation with at most 256 factors nested in
one another, in which every number is well-formed, every function known and every mention resolved.
The value is then that of the derivation. -/
theorem evaluate_eq_ok_iff (scope : Scope) (text : String) (x : Float) :
    (∃ refs, evaluate scope text = .ok ⟨x, refs⟩) ↔
      ∃ d : Derivation .expression, d.text = (squeeze text).toList ∧ d.Greedy [] ∧ d.nesting ≤ 256 ∧
        d.Meaningful scope ∧ d.value scope = x := by
  have hchars : charsOf (placed 0 text.toList) = (squeeze text).toList := by
    rw [toList_squeeze, charsOf, map_char_placed]
  have hread := Expr.exists_ofTokens_eq_ok_iff scope (spells_ofPlaced (placed 0 text.toList)) x
  rw [hchars] at hread
  calc (∃ refs, evaluate scope text = .ok ⟨x, refs⟩)
      ↔ ∃ e, Expr.ofTokens scope.reference (ofPlaced (placed 0 text.toList)) = .ok e ∧
          scope.worth e = x := by
        constructor
        · rintro ⟨refs, h⟩
          obtain ⟨e, he, hc⟩ := exists_of_bind_eq_ok h
          cases hc
          exact ⟨e, he, rfl⟩
        · rintro ⟨e, he, rfl⟩
          exact ⟨e.refs, by rw [evaluate, evaluatePlaced, he]; rfl⟩
    _ ↔ Derivable scope nestingLimit .expression (squeeze text).toList [] x := hread
    _ ↔ _ := by
        constructor
        · rintro ⟨d, htext, hgreedy, hnesting, hmeaningful, hvalue⟩
          exact ⟨d, by rw [htext, List.append_nil], hgreedy, hnesting, hmeaningful, hvalue⟩
        · rintro ⟨d, htext, hgreedy, hnesting, hmeaningful, hvalue⟩
          exact ⟨d, by rw [htext, List.append_nil], hgreedy, hnesting, hmeaningful, hvalue⟩

/-- Scopes leave out no way to read mentions: some scope gives every mention its value or its fault. -/
theorem Scope.exists_reading (read : MentionKind → String → Except Fault Float) :
    ∃ scope : Scope, ∀ kind token, (scope.resolve kind token).map scope.value = read kind token := by
  -- A scope knows nodes by their numbers, so every mention gets a number of its own.
  obtain ⟨number, hnumber⟩ : ∃ number : MentionKind × String → NodeId, number.Injective := by
    have hspell : Function.Injective fun m : MentionKind × String =>
        (decide (m.1 = .name), m.2.toList.map Char.toNat) := by
      rintro ⟨kind, token⟩ ⟨kind', token'⟩ h
      obtain ⟨hkind, htoken⟩ := Prod.mk.inj h
      obtain rfl : token = token' := String.toList_injective
        (List.map_injective_iff.2 (fun _ _ => Char.toNat_inj.1) htoken)
      cases kind with
      | name | index => cases kind' with
        | name | index => first | rfl | simp at hkind
    have := hspell.countable
    exact exists_injective_nat _
  have : Nonempty (MentionKind × String) := ⟨(.name, "")⟩
  refine ⟨⟨fun kind token => (read kind token).map fun _ => number (kind, token), fun id =>
    ((read (Function.invFun number id).1 (Function.invFun number id).2).toOption).getD 0⟩, ?_⟩
  intro kind token
  cases h : read kind token with
  | error fault => simp [Except.map, h]
  | ok x => simp [Except.map, Function.leftInverse_invFun hnumber (kind, token), h, Except.toOption]

end FormulaNet
