import FormulaNet.Formula.Grammar
import FormulaNet.Proofs.Tokens

/-!
# Alike tokens are read alike

Two lists of tokens are alike if they differ in the places of their characters and in what their
mentions say only, where the second may have an `@` alone in the place of a mention.  The grammar reads
both in the same way: `Expr.ofTokens_follows` compares the two readings, where the second may also end in
a fault of its own scope.
-/

namespace FormulaNet

/-- The characters of a run. -/
def Run.chars (run : Run) : List Char :=
  run.toList.map Placed.char

/-! ## Alike tokens -/

/-- Tokens that are equal up to the places of their characters and, for mentions, up to `M`, which also
says where an `@` alone may stand in the place of a mention. -/
inductive Token.Alike (M : Mention → Option Mention → Prop) : Token → Token → Prop
  | number {run run' : Run} (h : run.chars = run'.chars) : Alike M (.number run) (.number run')
  | word {run run' : Run} (h : run.chars = run'.chars) : Alike M (.word run) (.word run')
  | mention {kind kind' : MentionKind} {run run' : Run}
      (h : M ⟨kind, run.spell, run.span⟩ (some ⟨kind', run'.spell, run'.span⟩)) :
      Alike M (.mention kind run) (.mention kind' run')
  | lone {kind : MentionKind} {run : Run} (h : M ⟨kind, run.spell, run.span⟩ none) :
      Alike M (.mention kind run) (.stray '@')
  | operator (op : Operator) : Alike M (.operator op) (.operator op)
  | opening : Alike M .opening .opening
  | closing : Alike M .closing .closing
  | stray (c : Char) : Alike M (.stray c) (.stray c)

theorem Run.head_char_eq {run run' : Run} (h : run.chars = run'.chars) :
    run.head.char = run'.head.char :=
  (List.cons.inj h).1

theorem Token.Alike.first_eq {M : Mention → Option Mention → Prop} {t t' : Token} (h : t.Alike M t') :
    t.first = t'.first := by
  cases h with
  | number hr | word hr => exact Run.head_char_eq hr
  | mention | lone | operator | opening | closing | stray => rfl

/-- Tokens are alike one by one. -/
abbrev AlikeTokens (M : Mention → Option Mention → Prop) : List Token → List Token → Prop :=
  List.Forall₂ (Token.Alike M)

section Cutting

variable {M : Mention → Option Mention → Prop}

theorem Run.chars_push {run run' : Run} {p p' : Placed} (hp : p.char = p'.char)
    (h : run.chars = run'.chars) : (run.push p).chars = (run'.push p').chars := by
  simp only [chars, push, toList, List.map_cons] at h ⊢
  rw [hp, h]

theorem Run.spell_eq {run run' : Run} (h : run.chars = run'.chars) : run.spell = run'.spell :=
  congrArg String.ofList h

theorem alike_pushNumeric {p p' : Placed} {ts ts' : List Token} (hp : p.char = p'.char)
    (h : AlikeTokens M ts ts') : AlikeTokens M (Token.pushNumeric p ts) (Token.pushNumeric p' ts') := by
  have single : Run.chars ⟨p, []⟩ = Run.chars ⟨p', []⟩ := by simp [Run.chars, Run.toList, hp]
  cases h with
  | nil => exact .cons (.number single) .nil
  | cons ht hts =>
    cases ht with
    | number hr => exact .cons (.number (Run.chars_push hp hr)) hts
    | word hr => exact .cons (.number single) (.cons (.word hr) hts)
    | mention hm => exact .cons (.number single) (.cons (.mention hm) hts)
    | lone hm => exact .cons (.number single) (.cons (.lone hm) hts)
    | operator op => exact .cons (.number single) (.cons (.operator op) hts)
    | opening => exact .cons (.number single) (.cons .opening hts)
    | closing => exact .cons (.number single) (.cons .closing hts)
    | stray c => exact .cons (.number single) (.cons (.stray c) hts)

theorem alike_pushLetter {p p' : Placed} {ts ts' : List Token} (hp : p.char = p'.char)
    (h : AlikeTokens M ts ts') : AlikeTokens M (Token.pushLetter p ts) (Token.pushLetter p' ts') := by
  have single : Run.chars ⟨p, []⟩ = Run.chars ⟨p', []⟩ := by simp [Run.chars, Run.toList, hp]
  cases h with
  | nil => exact .cons (.word single) .nil
  | cons ht hts =>
    cases ht with
    | word hr => exact .cons (.word (Run.chars_push hp hr)) hts
    | number hr => exact .cons (.word single) (.cons (.number hr) hts)
    | mention hm => exact .cons (.word single) (.cons (.mention hm) hts)
    | lone hm => exact .cons (.word single) (.cons (.lone hm) hts)
    | operator op => exact .cons (.word single) (.cons (.operator op) hts)
    | opening => exact .cons (.word single) (.cons .opening hts)
    | closing => exact .cons (.word single) (.cons .closing hts)
    | stray c => exact .cons (.word single) (.cons (.stray c) hts)

/-- A character that makes no mention is put before alike tokens alike. -/
theorem alike_push {p p' : Placed} {ts ts' : List Token} (hp : p.char = p'.char)
    (hat : p.char ≠ '@') (h : AlikeTokens M ts ts') :
    AlikeTokens M (Token.push p ts) (Token.push p' ts') := by
  unfold Token.push
  rw [← hp]
  split
  · exact alike_pushNumeric hp h
  split
  · exact alike_pushLetter hp h
  split
  · exact .cons .opening h
  split
  · exact .cons .closing h
  split
  · exact .cons (.operator _) h
  · exact .cons (.stray _) h

/-- The characters of a text without an `@` are put before alike tokens alike, wherever the text
stands. -/
theorem alike_foldr_push {cs : List Char} (hat : '@' ∉ cs) (start start' : Nat)
    {ts ts' : List Token} (h : AlikeTokens M ts ts') :
    AlikeTokens M ((placed start cs).foldr Token.push ts) ((placed start' cs).foldr Token.push ts') := by
  induction cs generalizing start start' with
  | nil => exact h
  | cons c cs ih =>
    have ih := ih (fun hmem => hat (List.mem_cons_of_mem _ hmem))
    simp only [placed]
    split
    · exact ih _ _
    · exact alike_push rfl (fun hc => hat (hc ▸ List.mem_cons_self)) (ih _ _)

end Cutting

/-! ## Readings that follow each other -/

/-- A computation that does what another does, up to `R` for their results, unless it ends in a fault
of its own with the property `P`. -/
inductive Follows (P : Fault → Prop) {α β : Type} (R : α → β → Prop) :
    Except Fault α → Except Fault β → Prop
  | ok {a : α} {b : β} (h : R a b) : Follows P R (.ok a) (.ok b)
  | error (fault : Fault) : Follows P R (.error fault) (.error fault)
  | fault {x : Except Fault α} {fault : Fault} (h : P fault) : Follows P R x (.error fault)

theorem Follows.bind {P : Fault → Prop} {α β α' β' : Type} {R : α → β → Prop} {S : α' → β' → Prop}
    {x : Except Fault α} {y : Except Fault β} {f : α → Except Fault α'} {g : β → Except Fault β'}
    (h : Follows P R x y) (hf : ∀ a b, R a b → Follows P S (f a) (g b)) :
    Follows P S (x >>= f) (y >>= g) := by
  cases h with
  | ok h => exact hf _ _ h
  | error fault => exact .error fault
  | fault h => exact .fault h

theorem Follows.mono {P P' : Fault → Prop} {α β : Type} {R R' : α → β → Prop} {x : Except Fault α}
    {y : Except Fault β} (h : Follows P R x y) (hP : ∀ fault, P fault → P' fault)
    (hR : ∀ a b, R a b → R' a b) : Follows P' R' x y := by
  cases h with
  | ok h => exact .ok (hR _ _ h)
  | error fault => exact .error fault
  | fault h => exact .fault (hP _ h)

/-- Expressions that are equal up to `S` for their references. -/
inductive Expr.Alike {ρ σ : Type} (S : ρ → σ → Prop) : Expr ρ → Expr σ → Prop
  | number (x : Float) : Alike S (.number x) (.number x)
  | ref {r : ρ} {s : σ} (h : S r s) : Alike S (.ref r) (.ref s)
  | negate {e : Expr ρ} {e' : Expr σ} (h : Alike S e e') : Alike S (.negate e) (.negate e')
  | call (f : Builtin) {e : Expr ρ} {e' : Expr σ} (h : Alike S e e') :
      Alike S (.call f e) (.call f e')
  | binary (op : Operator) {a b : Expr ρ} {a' b' : Expr σ} (ha : Alike S a a') (hb : Alike S b b') :
      Alike S (.binary op a b) (.binary op a' b')

namespace Expr

variable {ρ σ : Type} {S : ρ → σ → Prop} {e : Expr ρ} {e' : Expr σ}

/-- What an expression is, its references aside. -/
def outline (e : Expr ρ) : Expr Unit :=
  e.map fun _ => ()

theorem Alike.outline (h : e.Alike S e') : e.outline = e'.outline := by
  induction h with
  | number | ref => rfl
  | negate _ ih => exact congrArg Expr.negate ih
  | call f _ ih => exact congrArg (Expr.call f) ih
  | binary op _ _ iha ihb => exact congr (congrArg (Expr.binary op) iha) ihb

end Expr

namespace Grammar

variable {ρ σ : Type} (P : Fault → Prop) (M : Mention → Option Mention → Prop) (S : ρ → σ → Prop)

/-- Alike expressions, read from tokens whose rests are alike. -/
def Read (a : Expr ρ × List Token) (b : Expr σ × List Token) : Prop :=
  a.1.Alike S b.1 ∧ AlikeTokens M a.2 b.2

/-- A rule that follows another one on alike tokens. -/
def RuleFollows (rule : Rule ρ) (rule' : Rule σ) : Prop :=
  ∀ ts ts', AlikeTokens M ts ts' → Follows P (Read M S) (rule ts) (rule' ts')

variable {P M S}

theorem chainFrom_follows {joins : Operator → Bool} {link : Rule ρ} {link' : Rule σ}
    (hlink : RuleFollows P M S link link') (links : Nat) {e : Expr ρ} {e' : Expr σ}
    (he : e.Alike S e') :
    RuleFollows P M S (chainFrom joins link links e) (chainFrom joins link' links e') := by
  induction links generalizing e e' with
  | zero =>
    intro ts ts' h
    simp only [chainFrom]
    exact .ok ⟨he, h⟩
  | succ links ih =>
    intro ts ts' h
    cases h with
    | nil => exact .ok ⟨he, .nil⟩
    | cons ht hts =>
      cases ht with
      | operator op =>
        simp only [chainFrom]
        split
        · exact (hlink _ _ hts).bind fun a b hab => ih (.binary op he hab.1) _ _ hab.2
        · exact .ok ⟨he, .cons (.operator op) hts⟩
      | number hr => exact .ok ⟨he, .cons (.number hr) hts⟩
      | word hr => exact .ok ⟨he, .cons (.word hr) hts⟩
      | mention hm => exact .ok ⟨he, .cons (.mention hm) hts⟩
      | lone hm => exact .ok ⟨he, .cons (.lone hm) hts⟩
      | opening => exact .ok ⟨he, .cons .opening hts⟩
      | closing => exact .ok ⟨he, .cons .closing hts⟩
      | stray c => exact .ok ⟨he, .cons (.stray c) hts⟩

theorem chain_follows (joins : Operator → Bool) {link : Rule ρ} {link' : Rule σ}
    (hlink : RuleFollows P M S link link') :
    RuleFollows P M S (chain joins link) (chain joins link') := by
  intro ts ts' h
  refine (hlink _ _ h).bind fun a b hab => ?_
  obtain ⟨e, rest⟩ := a
  obtain ⟨e', rest'⟩ := b
  have hlen : rest.length = rest'.length := hab.2.length_eq
  simp only [hlen]
  exact chainFrom_follows hlink _ hab.1 _ _ hab.2

variable {factor : Rule ρ} {factor' : Rule σ}

theorem expression_follows (hfactor : RuleFollows P M S factor factor') :
    RuleFollows P M S (expression factor) (expression factor') :=
  chain_follows _ (chain_follows _ hfactor)

theorem closed_follows (hfactor : RuleFollows P M S factor factor') (missing : SyntaxFault) :
    RuleFollows P M S (closed factor missing) (closed factor' missing) := by
  intro ts ts' h
  refine (expression_follows hfactor _ _ h).bind fun a b hab => ?_
  obtain ⟨e, rest⟩ := a
  obtain ⟨e', rest'⟩ := b
  obtain ⟨he, hrest⟩ := hab
  cases hrest with
  | nil => exact .error _
  | cons ht hts =>
    cases ht with
    | closing => exact .ok ⟨he, hts⟩
    | number | word | mention | lone | operator | opening | stray => exact .error _

theorem argument_follows (hfactor : RuleFollows P M S factor factor') (name : String) :
    RuleFollows P M S (argument factor name) (argument factor' name) := by
  intro ts ts' h
  cases h with
  | nil => exact hfactor _ _ .nil
  | cons ht hts =>
    cases ht with
    | opening => exact closed_follows hfactor _ _ _ hts
    | number hr => exact hfactor _ _ (.cons (.number hr) hts)
    | word hr => exact hfactor _ _ (.cons (.word hr) hts)
    | mention hm => exact hfactor _ _ (.cons (.mention hm) hts)
    | lone hm => exact hfactor _ _ (.cons (.lone hm) hts)
    | operator op => exact hfactor _ _ (.cons (.operator op) hts)
    | closing => exact hfactor _ _ (.cons .closing hts)
    | stray c => exact hfactor _ _ (.cons (.stray c) hts)

/-- Resolves what stands in the place of a mention, which is `none` for an `@` alone. -/
def resolvePlace (resolve : Mention → Except Fault ρ) : Option Mention → Except Fault ρ
  | some m => resolve m
  | none => .error (.reference .malformed)

variable {resolve : Mention → Except Fault ρ} {resolve' : Mention → Except Fault σ}

theorem primary_stray (resolve : Mention → Except Fault ρ) (factor : Rule ρ) (c : Char)
    (ts : List Token) :
    primary resolve factor (.stray c :: ts) =
      .error (if c = '@' then .reference .malformed else .syntactic (.unexpected c)) := by
  by_cases hc : c = '@'
  · subst hc
    rfl
  · simp [primary, hc, Token.first]

theorem primary_follows (hresolve : ∀ m m', M m m' → Follows P S (resolve m) (resolvePlace resolve' m'))
    (hfactor : RuleFollows P M S factor factor') :
    RuleFollows P M S (primary resolve factor) (primary resolve' factor') := by
  intro ts ts' h
  cases h with
  | nil => exact .error _
  | @cons _ _ ts ts' ht hts =>
    cases ht with
    | number hr =>
      simp only [primary, Run.spell_eq hr]
      split
      · exact .ok ⟨.number _, hts⟩
      · exact .error _
    | word hr =>
      simp only [primary, Run.spell_eq hr]
      refine (argument_follows hfactor _ _ _ hts).bind fun a b hab => ?_
      split
      · exact .ok ⟨.call _ hab.1, hab.2⟩
      · exact .error _
    | mention hm =>
      exact (hresolve _ _ hm).bind fun r s hrs => .ok ⟨.ref hrs, hts⟩
    | lone hm =>
      -- an `@` alone ends the reading as its resolution does, whatever would follow
      exact (hresolve _ none hm).bind (g := fun s => .ok (.ref s, ts')) fun r s hrs =>
        .ok ⟨.ref hrs, hts⟩
    | opening => exact closed_follows hfactor _ _ _ hts
    | operator op => exact .error _
    | closing => exact .error _
    | stray c =>
      rw [primary_stray, primary_stray]
      exact .error _

theorem power_follows (hfactor : RuleFollows P M S factor factor') {e : Expr ρ} {e' : Expr σ}
    (he : e.Alike S e') : RuleFollows P M S (power factor e) (power factor' e') := by
  intro ts ts' h
  cases h with
  | nil => exact .ok ⟨he, .nil⟩
  | cons ht hts =>
    cases ht with
    | operator op =>
      cases op with
      | pow => exact (hfactor _ _ hts).bind fun a b hab => .ok ⟨.binary .pow he hab.1, hab.2⟩
      | add | sub | mul | div => exact .ok ⟨he, .cons (.operator _) hts⟩
    | number hr => exact .ok ⟨he, .cons (.number hr) hts⟩
    | word hr => exact .ok ⟨he, .cons (.word hr) hts⟩
    | mention hm => exact .ok ⟨he, .cons (.mention hm) hts⟩
    | lone hm => exact .ok ⟨he, .cons (.lone hm) hts⟩
    | opening => exact .ok ⟨he, .cons .opening hts⟩
    | closing => exact .ok ⟨he, .cons .closing hts⟩
    | stray c => exact .ok ⟨he, .cons (.stray c) hts⟩

theorem factor_follows (hresolve : ∀ m m', M m m' → Follows P S (resolve m) (resolvePlace resolve' m'))
    (depth : Nat) : RuleFollows P M S (Grammar.factor resolve depth) (Grammar.factor resolve' depth) := by
  induction depth with
  | zero => exact fun ts ts' _ => .error _
  | succ depth ih =>
    intro ts ts' h
    have unsigned : ∀ {ts ts'}, AlikeTokens M ts ts' → Follows P (Read M S)
        (primary resolve (Grammar.factor resolve depth) ts >>= fun read =>
          power (Grammar.factor resolve depth) read.1 read.2)
        (primary resolve' (Grammar.factor resolve' depth) ts' >>= fun read =>
          power (Grammar.factor resolve' depth) read.1 read.2) := fun h =>
      (primary_follows hresolve ih _ _ h).bind fun a b hab => power_follows ih hab.1 _ _ hab.2
    cases h with
    | nil => exact unsigned .nil
    | cons ht hts =>
      cases ht with
      | operator op =>
        cases op with
        | add => exact ih _ _ hts
        | sub => exact (ih _ _ hts).bind fun a b hab => .ok ⟨.negate hab.1, hab.2⟩
        | mul | div | pow => exact unsigned (.cons (.operator _) hts)
      | number hr => exact unsigned (.cons (.number hr) hts)
      | word hr => exact unsigned (.cons (.word hr) hts)
      | mention hm => exact unsigned (.cons (.mention hm) hts)
      | lone hm => exact unsigned (.cons (.lone hm) hts)
      | opening => exact unsigned (.cons .opening hts)
      | closing => exact unsigned (.cons .closing hts)
      | stray c => exact unsigned (.cons (.stray c) hts)

end Grammar

/-- Formulas of alike tokens are read alike. -/
theorem Expr.ofTokens_follows {ρ σ : Type} {P : Fault → Prop} {M : Mention → Option Mention → Prop}
    {S : ρ → σ → Prop} {resolve : Mention → Except Fault ρ} {resolve' : Mention → Except Fault σ}
    (hresolve : ∀ m m', M m m' → Follows P S (resolve m) (Grammar.resolvePlace resolve' m')) {ts ts' : List Token}
    (h : AlikeTokens M ts ts') :
    Follows P (Expr.Alike S) (Expr.ofTokens resolve ts) (Expr.ofTokens resolve' ts') := by
  refine (Grammar.expression_follows (Grammar.factor_follows hresolve nestingLimit) _ _ h).bind
    fun a b hab => ?_
  obtain ⟨e, rest⟩ := a
  obtain ⟨e', rest'⟩ := b
  obtain ⟨he, hrest⟩ := hab
  cases hrest with
  | nil => exact .ok he
  | cons ht hts =>
    simp only [ht.first_eq]
    exact .error _

end FormulaNet
