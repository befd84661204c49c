import FormulaNet.Proofs.Renaming
import FormulaNet.Proofs.Spans

/-!
# Blanks do not count in formulas

Texts that are equal without their blanks are cut into tokens that differ in the places of their characters
alone (`alike_ofPlaced`).  So they are read alike, with the same faults, and mean the same in every scope:
`evaluate_unplaced_congr`.
-/

namespace FormulaNet

/-! ## Tokens without places -/

/-- A mention that is there, and says the same as another one. -/
def Mention.SaysSame (m : Mention) (m' : Option Mention) : Prop :=
  ∃ n ∈ m', n.kind = m.kind ∧ n.token = m.token

/-- Runs of the same characters are the same up to where a run of digits ends in them. -/
theorem Run.chars_takeWhile {run run' : Run} (h : run.chars = run'.chars) (p : Char → Bool) :
    Run.chars ⟨run.head, run.tail.takeWhile (p ·.char)⟩ =
      Run.chars ⟨run'.head, run'.tail.takeWhile (p ·.char)⟩ := by
  obtain ⟨hhead, htail⟩ := List.cons.inj h
  have htake := congrArg (List.takeWhile p) htail
  rw [List.takeWhile_map, List.takeWhile_map] at htake
  exact congrArg₂ List.cons hhead htake

section Cutting

variable {M : Mention → Option Mention → Prop}
  (hM : ∀ (kind : MentionKind) (run run' : Run), run.chars = run'.chars →
    M ⟨kind, run.spell, run.span⟩ (some ⟨kind, run'.spell, run'.span⟩))

include hM

/-- An `@` is put before alike tokens alike, if mentions of the same characters are. -/
theorem alike_pushAt {ts ts' : List Token} (h : AlikeTokens M ts ts') :
    AlikeTokens M (Token.pushAt ts) (Token.pushAt ts') := by
  cases h with
  | nil => exact .cons (.stray '@') .nil
  | cons ht hts =>
    cases ht with
    | word hr => exact .cons (.mention (hM .name _ _ hr)) hts
    | @number run run' hr =>
      simp only [Token.pushAt, ← Run.head_char_eq hr]
      split
      · refine .cons (.mention (hM .index _ _ (Run.chars_takeWhile hr Char.isDigit))) ?_
        have hdrop := congrArg (List.dropWhile Char.isDigit) (List.cons.inj hr).2
        rw [List.dropWhile_map, List.dropWhile_map] at hdrop
        change (run.tail.dropWhile (·.char.isDigit)).map Placed.char =
          (run'.tail.dropWhile (·.char.isDigit)).map Placed.char at hdrop
        generalize run.tail.dropWhile (·.char.isDigit) = qs at hdrop
        generalize run'.tail.dropWhile (·.char.isDigit) = qs' at hdrop
        cases qs with
        | nil =>
          obtain rfl := List.map_eq_nil_iff.1 hdrop.symm
          exact hts
        | cons q qs =>
          obtain ⟨q', qs', rfl, -, -⟩ := List.map_eq_cons_iff.1 hdrop.symm
          exact .cons (.number hdrop) hts
      · exact .cons (.stray '@') (.cons (.number hr) hts)
    | mention hm => exact .cons (.stray '@') (.cons (.mention hm) hts)
    | lone hm => exact .cons (.stray '@') (.cons (.lone hm) hts)
    | operator op => exact .cons (.stray '@') (.cons (.operator op) hts)
    | opening => exact .cons (.stray '@') (.cons .opening hts)
    | closing => exact .cons (.stray '@') (.cons .closing hts)
    | stray c => exact .cons (.stray '@') (.cons (.stray c) hts)

/-- The same characters are cut into alike tokens, whatever their places are. -/
theorem alike_ofPlaced {ps ps' : List Placed} (h : ps.map Placed.char = ps'.map Placed.char) :
    AlikeTokens M (Token.ofPlaced ps) (Token.ofPlaced ps') := by
  induction ps generalizing ps' with
  | nil =>
    obtain rfl := List.map_eq_nil_iff.1 h.symm
    exact .nil
  | cons p ps ih =>
    obtain ⟨p', ps', rfl, hp, hps⟩ := List.map_eq_cons_iff.1 h.symm
    have ih := ih hps.symm
    by_cases hat : p.char = '@'
    · simp only [Token.ofPlaced, List.foldr_cons, Token.push_of_eq_at hat, Token.push_of_eq_at (hp.trans hat)]
      exact alike_pushAt hM ih
    · exact alike_push hp.symm hat ih

end Cutting

/-! ## Evaluations without places -/

/-- A computation that follows another one, with no faults of its own, has the same outcome if the two are
seen through functions that agree on related results. -/
theorem Follows.map_eq {α β γ : Type} {R : α → β → Prop} {x : Except Fault α} {y : Except Fault β}
    (h : Follows (fun _ => False) R x y) {f : α → γ} {g : β → γ} (hfg : ∀ a b, R a b → f a = g b) :
    x.map f = y.map g := by
  cases h with
  | ok h => exact congrArg Except.ok (hfg _ _ h)
  | error fault => rfl
  | fault h => exact h.elim

/-- References that differ in their places at most. -/
def Reference.SaysSame (r r' : Reference) : Prop :=
  r.kind = r'.kind ∧ r.target = r'.target

/-- A scope resolves mentions without a look at their places. -/
theorem Scope.reference_follows (scope : Scope) (m : Mention) (m' : Option Mention) (h : m.SaysSame m') :
    Follows (fun _ => False) Reference.SaysSame (scope.reference m)
      (Grammar.resolvePlace scope.reference m') := by
  obtain ⟨n, rfl, hkind, htoken⟩ := h
  rw [Grammar.resolvePlace, Scope.reference, Scope.reference, hkind, htoken]
  cases scope.resolve m.kind m.token with
  | ok target => exact .ok ⟨rfl, rfl⟩
  | error fault => exact .error fault

/-- What an evaluation gives, the places of the references aside. -/
def Evaluation.unplaced (evaluation : Evaluation) : Float × List (MentionKind × NodeId) :=
  (evaluation.value, evaluation.refs.map fun r => (r.kind, r.target))

/-- Texts that are equal without their blanks are evaluated to the same value and the same kinds and targets
of references, or have the same fault. -/
theorem evaluate_unplaced_congr (scope : Scope) {text text' : String} (h : squeeze text = squeeze text') :
    (evaluate scope text).map Evaluation.unplaced = (evaluate scope text').map Evaluation.unplaced := by
  have hchars : (placed 0 text.toList).map Placed.char = (placed 0 text'.toList).map Placed.char := by
    rw [map_char_placed, map_char_placed, ← toList_squeeze, ← toList_squeeze, h]
  have halike := alike_ofPlaced (M := Mention.SaysSame) (fun kind run run' hrun =>
    ⟨⟨kind, run'.spell, run'.span⟩, rfl, rfl, (Run.spell_eq hrun).symm⟩) hchars
  have hfollows := Expr.ofTokens_follows scope.reference_follows halike
  refine (hfollows.bind (S := fun a b => a.unplaced = b.unplaced) fun e e' he => .ok ?_).map_eq
    fun _ _ => id
  have hvalue : (e.value fun r => scope.value r.target) = e'.value fun r => scope.value r.target :=
    he.value_eq fun r r' hr => congrArg scope.value hr.2
  have hrefs : List.Forall₂ (· = ·) (e.refs.map fun r => (r.kind, r.target))
      (e'.refs.map fun r => (r.kind, r.target)) :=
    List.forall₂_map_left_iff.2 (List.forall₂_map_right_iff.2
      (he.refs.imp fun r r' hr => Prod.ext hr.1 hr.2))
  exact Prod.ext hvalue (List.forall₂_eq_eq_eq ▸ hrefs)

theorem evaluate_unplaced_respaced :
    squeeze " 2*@ Grö ße - sqrt@1 2" = squeeze "2 * @Größe-s q r t @12" ∧
      (evaluate twoNodes " 2*@ Grö ße - sqrt@1 2").isOk = true ∧
      (evaluate twoNodes " 2*@ Grö ße - sqrt@1 2").map Evaluation.unplaced =
        (evaluate twoNodes "2 * @Größe-s q r t @12").map Evaluation.unplaced := by
  have hsqueeze : squeeze " 2*@ Grö ße - sqrt@1 2" = squeeze "2 * @Größe-s q r t @12" := by decide +kernel
  exact ⟨hsqueeze, by decide +kernel, evaluate_unplaced_congr twoNodes hsqueeze⟩

end FormulaNet
