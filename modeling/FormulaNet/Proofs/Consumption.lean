import FormulaNet.Formula.Grammar
import FormulaNet.Proofs.Tokens
import FormulaNet.Result
import Mathlib.Data.List.Chain

/-!
# What a rule reads

A rule that succeeds reads the first of its tokens.  The mentions among them, resolved from left to
right, are the references of the expression; no stray character is among them, and a mention is
followed by an operator or a closing parenthesis if it is followed by anything.
`Expr.ofTokens_consumes` says so of a whole formula.
-/

namespace FormulaNet

namespace Token

/-- A token that can stand behind a complete operand. -/
def isJoint : Token → Bool
  | operator _ | closing => true
  | _ => false

/-- Tokens of a formula: none is stray, and a mention is followed by a joint alone. -/
def Legible (ts : List Token) : Prop :=
  (∀ c, stray c ∉ ts) ∧ ts.IsChain fun t t' => t.mention?.isSome → t'.isJoint

theorem isRun_eq_false_of_isJoint {t : Token} (h : t.isJoint) : t.isRun = false := by
  cases t with
  | operator | closing => rfl
  | number | word | mention | opening | stray => exact absurd h Bool.false_ne_true

theorem mention?_eq_none_of_isJoint {t : Token} (h : t.isJoint) : t.mention? = none := by
  cases t with
  | operator | closing => rfl
  | number | word | mention | opening | stray => exact absurd h Bool.false_ne_true

theorem Legible.append_joint {xs ys : List Token} {t : Token} (hx : Legible xs)
    (ht : t.isJoint) (hy : Legible ys) : Legible (xs ++ t :: ys) := by
  have hmention := mention?_eq_none_of_isJoint ht
  have hstray : ∀ c, stray c ≠ t := by
    rintro c rfl
    exact absurd ht Bool.false_ne_true
  refine ⟨fun c => by simpa [hstray c] using ⟨hx.1 c, hy.1 c⟩, ?_⟩
  refine List.isChain_split.2 ⟨?_, ?_⟩
  · refine List.isChain_append.2 ⟨hx.2, .singleton t, fun _ _ t' ht' _ => ?_⟩
    obtain rfl := Option.some.inj ht'
    exact ht
  · exact List.isChain_cons.2 ⟨fun t' _ hm => by simp [hmention] at hm, hy.2⟩

theorem Legible.cons {t : Token} {ts : List Token} (h : Legible ts) (hmention : t.mention? = none)
    (hstray : ∀ c, t ≠ stray c) : Legible (t :: ts) :=
  ⟨fun c => by simpa [(hstray c).symm] using h.1 c,
    List.isChain_cons.2 ⟨fun t' _ hm => by simp [hmention] at hm, h.2⟩⟩

theorem legible_nil : Legible [] :=
  ⟨fun _ => List.not_mem_nil, .nil⟩

theorem legible_singleton {t : Token} (hstray : ∀ c, t ≠ stray c) : Legible [t] :=
  ⟨fun c => by simpa using (hstray c).symm, .singleton t⟩

/-- Nothing apart from a joint follows a mention. -/
theorem Legible.isRun_head {kind : MentionKind} {run : Run} {ts : List Token}
    (h : Legible (mention kind run :: ts)) : ∀ t ∈ ts.head?, t.isRun = false := by
  intro t ht
  exact isRun_eq_false_of_isJoint ((List.isChain_cons.1 h.2).1 t ht rfl)

theorem Legible.tail {t : Token} {ts : List Token} (h : Legible (t :: ts)) : Legible ts :=
  ⟨fun c hc => h.1 c (List.mem_cons_of_mem _ hc), h.2.tail⟩

theorem mentions_append (ts ts' : List Token) : mentions (ts ++ ts') = mentions ts ++ mentions ts' :=
  List.filterMap_append

end Token

namespace Grammar

open Token

variable {ρ : Type} (resolve : Mention → Except Fault ρ)

/-- The tokens are those of the expression. -/
structure Spelled (used : List Token) (e : Expr ρ) : Prop where
  legible : Legible used
  resolved : List.Forall₂ (fun m r => resolve m = .ok r) (mentions used) e.refs

/-- A rule reads the tokens of the expression that it gives. -/
def RuleConsumes (rule : Rule ρ) : Prop :=
  ∀ ⦃ts e rest⦄, rule ts = .ok (e, rest) → ∃ used, ts = used ++ rest ∧ Spelled resolve used e

variable {resolve}

theorem Spelled.binary {xs ys : List Token} {a b : Expr ρ} (ha : Spelled resolve xs a)
    (hb : Spelled resolve ys b) (op op' : Operator) :
    Spelled resolve (xs ++ operator op :: ys) (.binary op' a b) where
  legible := ha.legible.append_joint rfl hb.legible
  resolved := by
    rw [mentions_append]
    exact List.rel_append ha.resolved hb.resolved

theorem spelled_of_stop {e₀ e : Expr ρ} {ts rest : List Token}
    (h : (Except.ok (e₀, ts) : Except Fault (Expr ρ × List Token)) = .ok (e, rest)) :
    ∃ used, ts = used ++ rest ∧
      ∀ used₀, Spelled resolve used₀ e₀ → Spelled resolve (used₀ ++ used) e := by
  cases h
  exact ⟨[], rfl, fun used₀ h₀ => by rwa [List.append_nil]⟩

theorem chainFrom_consumes {joins : Operator → Bool} {link : Rule ρ}
    (hlink : RuleConsumes resolve link) (links : Nat) {e₀ e : Expr ρ} {ts rest : List Token}
    (h : chainFrom joins link links e₀ ts = .ok (e, rest)) :
    ∃ used, ts = used ++ rest ∧
      ∀ used₀, Spelled resolve used₀ e₀ → Spelled resolve (used₀ ++ used) e := by
  induction links generalizing e₀ ts with
  | zero =>
    simp only [chainFrom] at h
    exact spelled_of_stop h
  | succ links ih =>
    cases ts with
    | nil => exact spelled_of_stop h
    | cons t ts =>
      cases t with
      | operator op =>
        simp only [chainFrom] at h
        split at h
        · obtain ⟨⟨e', rest'⟩, hl, hf⟩ := exists_of_bind_eq_ok h
          obtain ⟨used, hts, hused⟩ := hlink hl
          obtain ⟨used', hrest, hused'⟩ := ih hf
          refine ⟨operator op :: used ++ used', ?_, fun used₀ h₀ => ?_⟩
          · rw [hts, show rest' = used' ++ rest from hrest]
            simp
          · simpa using hused' _ (h₀.binary hused op op)
        · exact spelled_of_stop h
      | number | word | mention | opening | closing | stray => exact spelled_of_stop h

theorem chain_consumes {joins : Operator → Bool} {link : Rule ρ}
    (hlink : RuleConsumes resolve link) : RuleConsumes resolve (chain joins link) := by
  intro ts e rest h
  obtain ⟨⟨e₀, rest₀⟩, hl, hf⟩ := exists_of_bind_eq_ok h
  obtain ⟨used₀, hts, h₀⟩ := hlink hl
  obtain ⟨used, hrest, hused⟩ := chainFrom_consumes hlink _ hf
  exact ⟨used₀ ++ used, by simp [hts, hrest], hused _ h₀⟩

variable {factor : Rule ρ}

theorem expression_consumes (hfactor : RuleConsumes resolve factor) :
    RuleConsumes resolve (expression factor) :=
  chain_consumes (chain_consumes hfactor)

theorem closed_consumes (hfactor : RuleConsumes resolve factor) (missing : SyntaxFault) :
    RuleConsumes resolve (closed factor missing) := by
  intro ts e rest h
  obtain ⟨⟨e₀, rest₀⟩, he, hc⟩ := exists_of_bind_eq_ok h
  obtain ⟨used, rfl, hused⟩ := expression_consumes hfactor he
  dsimp only at hc
  split at hc
  · cases hc
    refine ⟨used ++ [closing], by simp, hused.legible.append_joint rfl legible_nil, ?_⟩
    rw [mentions_append, show mentions [closing] = [] from rfl, List.append_nil]
    exact hused.resolved
  · cases hc

theorem Spelled.cons {t : Token} {used : List Token} {e : Expr ρ} (h : Spelled resolve used e)
    (hmention : t.mention? = none) (hstray : ∀ c, t ≠ stray c) : Spelled resolve (t :: used) e where
  legible := h.legible.cons hmention hstray
  resolved := by
    rw [mentions, List.filterMap_cons_none hmention]
    exact h.resolved

theorem argument_consumes (hfactor : RuleConsumes resolve factor) (name : String) :
    RuleConsumes resolve (argument factor name) := by
  intro ts e rest h
  unfold argument at h
  split at h
  · obtain ⟨used, rfl, hused⟩ := closed_consumes hfactor _ h
    exact ⟨opening :: used, rfl, hused.cons rfl (by simp)⟩
  · exact hfactor h

theorem primary_consumes (hfactor : RuleConsumes resolve factor) :
    RuleConsumes resolve (primary resolve factor) := by
  intro ts e rest h
  unfold primary at h
  split at h
  · cases h
  · obtain ⟨used, rfl, hused⟩ := closed_consumes hfactor _ h
    exact ⟨opening :: used, rfl, hused.cons rfl (by simp)⟩
  · next run ts =>
    split at h
    · cases h
      exact ⟨[.number run], rfl, legible_singleton (by simp), .nil⟩
    · cases h
  · next run ts =>
    obtain ⟨⟨e₀, rest₀⟩, ha, hc⟩ := exists_of_bind_eq_ok h
    obtain ⟨used, rfl, hused⟩ := argument_consumes hfactor _ ha
    dsimp only at hc
    split at hc
    · cases hc
      exact ⟨.word run :: used, rfl, (hused.cons rfl (by simp)).legible, hused.resolved⟩
    · cases hc
  · next kind run ts =>
    obtain ⟨r, hr, hc⟩ := exists_of_bind_eq_ok h
    cases hc
    exact ⟨[.mention kind run], rfl, legible_singleton (by simp), .cons hr .nil⟩
  · cases h
  · cases h

theorem power_consumes (hfactor : RuleConsumes resolve factor) {e₀ e : Expr ρ}
    {ts rest used₀ : List Token} (h₀ : Spelled resolve used₀ e₀)
    (h : power factor e₀ ts = .ok (e, rest)) :
    ∃ used, ts = used ++ rest ∧ Spelled resolve (used₀ ++ used) e := by
  unfold power at h
  split at h
  · obtain ⟨⟨e', rest'⟩, hf, hc⟩ := exists_of_bind_eq_ok h
    cases hc
    obtain ⟨used, rfl, hused⟩ := hfactor hf
    exact ⟨operator .pow :: used, rfl, h₀.binary hused .pow .pow⟩
  · cases h
    exact ⟨[], rfl, by rwa [List.append_nil]⟩

theorem factor_consumes (depth : Nat) : RuleConsumes resolve (Grammar.factor resolve depth) := by
  induction depth with
  | zero =>
    intro ts e rest h
    cases h
  | succ depth ih =>
    intro ts e rest h
    have unsigned {ts : List Token}
        (h : (primary resolve (Grammar.factor resolve depth) ts >>= fun read =>
          power (Grammar.factor resolve depth) read.1 read.2) = .ok (e, rest)) :
        ∃ used, ts = used ++ rest ∧ Spelled resolve used e := by
      obtain ⟨⟨e', rest'⟩, hp, hc⟩ := exists_of_bind_eq_ok h
      dsimp only at hc
      obtain ⟨used, hts, hused⟩ := primary_consumes ih hp
      obtain ⟨used', hrest, hused'⟩ := power_consumes ih hused hc
      exact ⟨used ++ used', by simp [hts, hrest], hused'⟩
    cases ts with
    | nil => exact unsigned h
    | cons t ts =>
      cases t with
      | operator op =>
        cases op with
        | add =>
          obtain ⟨used, rfl, hused⟩ := ih h
          exact ⟨operator .add :: used, rfl, hused.cons rfl (by simp)⟩
        | sub =>
          obtain ⟨⟨e', rest'⟩, hf, hc⟩ := exists_of_bind_eq_ok h
          cases hc
          obtain ⟨used, rfl, hused⟩ := ih hf
          exact ⟨operator .sub :: used, rfl, (hused.cons rfl (by simp)).legible, hused.resolved⟩
        | mul | div | pow => exact unsigned h
      | number | word | mention | opening | closing | stray => exact unsigned h

end Grammar

/-- A formula reads all of its tokens. -/
theorem Expr.ofTokens_consumes {ρ : Type} {resolve : Mention → Except Fault ρ} {ts : List Token}
    {e : Expr ρ} (h : Expr.ofTokens resolve ts = .ok e) : Grammar.Spelled resolve ts e := by
  obtain ⟨⟨e', rest⟩, he, hc⟩ := exists_of_bind_eq_ok h
  obtain ⟨used, rfl, hused⟩ := Grammar.expression_consumes (Grammar.factor_consumes _) he
  dsimp only at hc
  split at hc
  · cases hc
    rwa [List.append_nil]
  · cases hc

end FormulaNet
