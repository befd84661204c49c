import FormulaNet.Decimal.Numeral
import FormulaNet.Formula.Evaluation
import FormulaNet.Proofs.Tokens

/-!
# Derivations

The grammar of formulas over the characters that are not blank:

    expression := term (('+' | '-') term)*
    term       := factor (('*' | '/') factor)*
    factor     := ('+' | '-') factor | primary ('^' factor)?
    primary    := '(' expression ')' | NUMBER | IDENT '(' expression ')' | IDENT factor
                | '@' (LETTERS | DIGITS)

A `Derivation` is a tree of these productions.  Its text, the depth to which its factors are nested and
its value are read off the tree, without regard to how a parser would find it.  `Derivable` is what the
productions say about a text and the text behind it, and each of them is one of its rules.
-/

namespace FormulaNet

/-- What the grammar has productions for. -/
inductive Symbol
  | expression
  | term
  | factor
  | primary

/-- A derivation in the grammar.  A chain of operands grows at its right end. -/
inductive Derivation : Symbol → Type
  | term (t : Derivation .term) : Derivation .expression
  | sum (e : Derivation .expression) (op : Operator) (hop : op = .add ∨ op = .sub)
      (t : Derivation .term) : Derivation .expression
  | factor (f : Derivation .factor) : Derivation .term
  | product (t : Derivation .term) (op : Operator) (hop : op = .mul ∨ op = .div)
      (f : Derivation .factor) : Derivation .term
  | plus (f : Derivation .factor) : Derivation .factor
  | minus (f : Derivation .factor) : Derivation .factor
  | primary (p : Derivation .primary) : Derivation .factor
  | power (p : Derivation .primary) (f : Derivation .factor) : Derivation .factor
  | group (e : Derivation .expression) : Derivation .primary
  | number (literal : List Char) : Derivation .primary
  | call (name : List Char) (e : Derivation .expression) : Derivation .primary
  | apply (name : List Char) (f : Derivation .factor) : Derivation .primary
  | mention (kind : MentionKind) (token : List Char) : Derivation .primary

/-- A maximal run of characters of a class, where `rest` comes behind it. -/
structure IsMaximalRun (admits : Char → Bool) (cs rest : List Char) : Prop where
  ne_nil : cs ≠ []
  run : ∀ c ∈ cs, admits c = true
  stop : ∀ c ∈ rest.head?, admits c = false

/-- The double that a run of digits and points stands for. -/
def literalValue (literal : List Char) : Float :=
  Decimal.signed false <| Decimal.ofDecimal (Decimal.natural (literal.filter Char.isDigit))
    (-(literal.dropWhile (· ≠ '.')).tail.length)

/-- The function with a name; a name without a function gives NaN. -/
def functionValue (name : List Char) (x : Float) : Float :=
  match Builtin.ofName? (.ofList name) with
  | some f => f.apply x
  | none => 0 / 0

/-- The value of the node that a mention reaches, and NaN if there is none. -/
def Scope.mentioned (scope : Scope) (kind : MentionKind) (token : List Char) : Float :=
  match scope.resolve kind (.ofList token) with
  | .ok target => scope.value target
  | .error _ => 0 / 0

namespace Derivation

def text {s : Symbol} : Derivation s → List Char
  | term t => t.text
  | sum e op _ t => e.text ++ op.char :: t.text
  | factor f => f.text
  | product t op _ f => t.text ++ op.char :: f.text
  | plus f => '+' :: f.text
  | minus f => '-' :: f.text
  | primary p => p.text
  | power p f => p.text ++ '^' :: f.text
  | group e => '(' :: (e.text ++ [')'])
  | number literal => literal
  | call name e => name ++ '(' :: (e.text ++ [')'])
  | apply name f => name ++ f.text
  | mention _ token => '@' :: token

/-- How many factors are nested in one another. -/
def nesting {s : Symbol} : Derivation s → Nat
  | term t => t.nesting
  | sum e _ _ t => max e.nesting t.nesting
  | factor f => f.nesting
  | product t _ _ f => max t.nesting f.nesting
  | plus f => f.nesting + 1
  | minus f => f.nesting + 1
  | primary p => p.nesting + 1
  | power p f => max p.nesting f.nesting + 1
  | group e => e.nesting
  | number _ => 0
  | call _ e => e.nesting
  | apply _ f => f.nesting
  | mention _ _ => 0

/-- With `rest` behind it, every run is maximal, an argument without parentheses does not begin with
one, and a `^` is taken by the innermost primary that is open. -/
def Greedy {s : Symbol} : Derivation s → List Char → Prop
  | term t, rest => t.Greedy rest
  | sum e op _ t, rest => e.Greedy (op.char :: (t.text ++ rest)) ∧ t.Greedy rest
  | factor f, rest => f.Greedy rest
  | product t op _ f, rest => t.Greedy (op.char :: (f.text ++ rest)) ∧ f.Greedy rest
  | plus f, rest => f.Greedy rest
  | minus f, rest => f.Greedy rest
  | primary p, rest => p.Greedy rest ∧ rest.head? ≠ some '^'
  | power p f, rest => p.Greedy ('^' :: (f.text ++ rest)) ∧ f.Greedy rest
  | group e, rest => e.Greedy (')' :: rest)
  | number literal, rest => IsMaximalRun Token.isNumeric literal rest
  | call name e, rest =>
    IsMaximalRun isLetter name ('(' :: (e.text ++ ')' :: rest)) ∧ e.Greedy (')' :: rest)
  | apply name f, rest =>
    IsMaximalRun isLetter name (f.text ++ rest) ∧ (f.text ++ rest).head? ≠ some '(' ∧ f.Greedy rest
  | mention kind token, rest => IsMaximalRun kind.admits token rest

/-- Every number has a digit and at most one point, every function is known, and every mention is
resolved. -/
def Meaningful (scope : Scope) {s : Symbol} : Derivation s → Prop
  | term t => t.Meaningful scope
  | sum e _ _ t => e.Meaningful scope ∧ t.Meaningful scope
  | factor f => f.Meaningful scope
  | product t _ _ f => t.Meaningful scope ∧ f.Meaningful scope
  | plus f => f.Meaningful scope
  | minus f => f.Meaningful scope
  | primary p => p.Meaningful scope
  | power p f => p.Meaningful scope ∧ f.Meaningful scope
  | group e => e.Meaningful scope
  | number literal => (∃ c ∈ literal, c.isDigit = true) ∧ literal.count '.' ≤ 1
  | call name e => String.ofList name ∈ ["sqrt", "sin", "cos", "tan"] ∧ e.Meaningful scope
  | apply name f => String.ofList name ∈ ["sqrt", "sin", "cos", "tan"] ∧ f.Meaningful scope
  | mention kind token => ∃ target, scope.resolve kind (.ofList token) = .ok target

def value (scope : Scope) {s : Symbol} : Derivation s → Float
  | term t => t.value scope
  | sum e op _ t => op.apply (e.value scope) (t.value scope)
  | factor f => f.value scope
  | product t op _ f => op.apply (t.value scope) (f.value scope)
  | plus f => f.value scope
  | minus f => -f.value scope
  | primary p => p.value scope
  | power p f => (p.value scope).pow (f.value scope)
  | group e => e.value scope
  | number literal => literalValue literal
  | call name e => functionValue name (e.value scope)
  | apply name f => functionValue name (f.value scope)
  | mention kind token => scope.mentioned kind token

/-- A derivation of the text `cs` up to `rest`, with factors nested at most `depth` deep, that has the
value `x`. -/
structure Derives (scope : Scope) (depth : Nat) {s : Symbol} (d : Derivation s) (cs rest : List Char)
    (x : Float) : Prop where
  text : cs = d.text ++ rest
  greedy : d.Greedy rest
  nesting : d.nesting ≤ depth
  meaningful : d.Meaningful scope
  value : d.value scope = x

namespace Derives

variable {scope : Scope} {depth : Nat} {cs rest : List Char} {x : Float}

/-! ## One production -/

theorem term_iff {t : Derivation .term} :
    (Derivation.term t).Derives scope depth cs rest x ↔ t.Derives scope depth cs rest x :=
  ⟨fun ⟨ht, hg, hn, hm, hv⟩ => ⟨ht, hg, hn, hm, hv⟩, fun ⟨ht, hg, hn, hm, hv⟩ => ⟨ht, hg, hn, hm, hv⟩⟩

theorem factor_iff {f : Derivation .factor} :
    (Derivation.factor f).Derives scope depth cs rest x ↔ f.Derives scope depth cs rest x :=
  ⟨fun ⟨ht, hg, hn, hm, hv⟩ => ⟨ht, hg, hn, hm, hv⟩, fun ⟨ht, hg, hn, hm, hv⟩ => ⟨ht, hg, hn, hm, hv⟩⟩

theorem sum_iff {e : Derivation .expression} {op : Operator} {hop : op = .add ∨ op = .sub}
    {t : Derivation .term} : (sum e op hop t).Derives scope depth cs rest x ↔
      ∃ mid a b, e.Derives scope depth cs (op.char :: mid) a ∧ t.Derives scope depth mid rest b ∧
        op.apply a b = x := by
  constructor
  · rintro ⟨rfl, ⟨hge, hgt⟩, hn, ⟨hme, hmt⟩, rfl⟩
    obtain ⟨hne, hnt⟩ := Nat.max_le.1 hn
    exact ⟨_, _, _, ⟨by simp [Derivation.text], hge, hne, hme, rfl⟩, ⟨rfl, hgt, hnt, hmt, rfl⟩, rfl⟩
  · rintro ⟨mid, a, b, ⟨rfl, hge, hne, hme, rfl⟩, ⟨rfl, hgt, hnt, hmt, rfl⟩, rfl⟩
    exact ⟨by simp [Derivation.text], ⟨hge, hgt⟩, Nat.max_le.2 ⟨hne, hnt⟩, ⟨hme, hmt⟩, rfl⟩

theorem product_iff {t : Derivation .term} {op : Operator} {hop : op = .mul ∨ op = .div}
    {f : Derivation .factor} : (product t op hop f).Derives scope depth cs rest x ↔
      ∃ mid a b, t.Derives scope depth cs (op.char :: mid) a ∧ f.Derives scope depth mid rest b ∧
        op.apply a b = x := by
  constructor
  · rintro ⟨rfl, ⟨hgt, hgf⟩, hn, ⟨hmt, hmf⟩, rfl⟩
    obtain ⟨hnt, hnf⟩ := Nat.max_le.1 hn
    exact ⟨_, _, _, ⟨by simp [Derivation.text], hgt, hnt, hmt, rfl⟩, ⟨rfl, hgf, hnf, hmf, rfl⟩, rfl⟩
  · rintro ⟨mid, a, b, ⟨rfl, hgt, hnt, hmt, rfl⟩, ⟨rfl, hgf, hnf, hmf, rfl⟩, rfl⟩
    exact ⟨by simp [Derivation.text], ⟨hgt, hgf⟩, Nat.max_le.2 ⟨hnt, hnf⟩, ⟨hmt, hmf⟩, rfl⟩

theorem plus_iff {f : Derivation .factor} :
    (plus f).Derives scope (depth + 1) cs rest x ↔
      ∃ mid, cs = '+' :: mid ∧ f.Derives scope depth mid rest x := by
  constructor
  · rintro ⟨rfl, hg, hn, hm, rfl⟩
    exact ⟨_, rfl, rfl, hg, Nat.le_of_succ_le_succ hn, hm, rfl⟩
  · rintro ⟨mid, rfl, rfl, hg, hn, hm, rfl⟩
    exact ⟨rfl, hg, Nat.succ_le_succ hn, hm, rfl⟩

theorem minus_iff {f : Derivation .factor} :
    (minus f).Derives scope (depth + 1) cs rest x ↔
      ∃ mid a, cs = '-' :: mid ∧ f.Derives scope depth mid rest a ∧ -a = x := by
  constructor
  · rintro ⟨rfl, hg, hn, hm, rfl⟩
    exact ⟨_, _, rfl, ⟨rfl, hg, Nat.le_of_succ_le_succ hn, hm, rfl⟩, rfl⟩
  · rintro ⟨mid, a, rfl, ⟨rfl, hg, hn, hm, rfl⟩, rfl⟩
    exact ⟨rfl, hg, Nat.succ_le_succ hn, hm, rfl⟩

theorem primary_iff {p : Derivation .primary} :
    (Derivation.primary p).Derives scope (depth + 1) cs rest x ↔
      p.Derives scope depth cs rest x ∧ rest.head? ≠ some '^' := by
  constructor
  · rintro ⟨rfl, ⟨hg, hrest⟩, hn, hm, rfl⟩
    exact ⟨⟨rfl, hg, Nat.le_of_succ_le_succ hn, hm, rfl⟩, hrest⟩
  · rintro ⟨⟨rfl, hg, hn, hm, rfl⟩, hrest⟩
    exact ⟨rfl, ⟨hg, hrest⟩, Nat.succ_le_succ hn, hm, rfl⟩

theorem power_iff {p : Derivation .primary} {f : Derivation .factor} :
    (power p f).Derives scope (depth + 1) cs rest x ↔
      ∃ mid a b, p.Derives scope depth cs ('^' :: mid) a ∧ f.Derives scope depth mid rest b ∧
        a.pow b = x := by
  constructor
  · rintro ⟨rfl, ⟨hgp, hgf⟩, hn, ⟨hmp, hmf⟩, rfl⟩
    obtain ⟨hnp, hnf⟩ := Nat.max_le.1 (Nat.le_of_succ_le_succ hn)
    exact ⟨_, _, _, ⟨by simp [Derivation.text], hgp, hnp, hmp, rfl⟩, ⟨rfl, hgf, hnf, hmf, rfl⟩, rfl⟩
  · rintro ⟨mid, a, b, ⟨rfl, hgp, hnp, hmp, rfl⟩, ⟨rfl, hgf, hnf, hmf, rfl⟩, rfl⟩
    exact ⟨by simp [Derivation.text], ⟨hgp, hgf⟩, Nat.succ_le_succ (Nat.max_le.2 ⟨hnp, hnf⟩),
      ⟨hmp, hmf⟩, rfl⟩

theorem group_iff {e : Derivation .expression} :
    (group e).Derives scope depth cs rest x ↔
      ∃ mid, cs = '(' :: mid ∧ e.Derives scope depth mid (')' :: rest) x := by
  constructor
  · rintro ⟨rfl, hg, hn, hm, rfl⟩
    exact ⟨_, rfl, by simp, hg, hn, hm, rfl⟩
  · rintro ⟨mid, rfl, rfl, hg, hn, hm, rfl⟩
    exact ⟨by simp [Derivation.text], hg, hn, hm, rfl⟩

theorem call_iff {name : List Char} {e : Derivation .expression} :
    (call name e).Derives scope depth cs rest x ↔
      ∃ mid a, cs = name ++ '(' :: mid ∧ IsMaximalRun isLetter name ('(' :: mid) ∧
        String.ofList name ∈ ["sqrt", "sin", "cos", "tan"] ∧
        e.Derives scope depth mid (')' :: rest) a ∧ functionValue name a = x := by
  constructor
  · rintro ⟨rfl, ⟨hrun, hg⟩, hn, ⟨hname, hm⟩, rfl⟩
    exact ⟨_, _, by simp [Derivation.text], hrun, hname, ⟨rfl, hg, hn, hm, rfl⟩, rfl⟩
  · rintro ⟨mid, a, rfl, hrun, hname, ⟨rfl, hg, hn, hm, rfl⟩, rfl⟩
    exact ⟨by simp [Derivation.text], ⟨hrun, hg⟩, hn, ⟨hname, hm⟩, rfl⟩

theorem apply_iff {name : List Char} {f : Derivation .factor} :
    (apply name f).Derives scope depth cs rest x ↔
      ∃ mid a, cs = name ++ mid ∧ IsMaximalRun isLetter name mid ∧ mid.head? ≠ some '(' ∧
        String.ofList name ∈ ["sqrt", "sin", "cos", "tan"] ∧
        f.Derives scope depth mid rest a ∧ functionValue name a = x := by
  constructor
  · rintro ⟨rfl, ⟨hrun, hne, hg⟩, hn, ⟨hname, hm⟩, rfl⟩
    exact ⟨_, _, by simp [Derivation.text], hrun, hne, hname, ⟨rfl, hg, hn, hm, rfl⟩, rfl⟩
  · rintro ⟨mid, a, rfl, hrun, hne, hname, ⟨rfl, hg, hn, hm, rfl⟩, rfl⟩
    exact ⟨by simp [Derivation.text], ⟨hrun, hne, hg⟩, hn, ⟨hname, hm⟩, rfl⟩

end Derives

end Derivation

/-- Some derivation derives the text `cs` up to `rest`. -/
def Derivable (scope : Scope) (depth : Nat) (s : Symbol) (cs rest : List Char) (x : Float) : Prop :=
  ∃ d : Derivation s, d.Derives scope depth cs rest x

/-! ## Chains -/

/-- One or more links, read by `link`, with joining operators between them, folded to the left. -/
inductive Chained (joins : Operator → Bool) (link : List Char → List Char → Float → Prop) :
    List Char → List Char → Float → Prop
  | first {cs rest : List Char} {x : Float} (h : link cs rest x) : Chained joins link cs rest x
  | next {op : Operator} {cs mid rest : List Char} {a b : Float} (hop : joins op = true)
      (hchain : Chained joins link cs (op.char :: mid) a) (hlink : link mid rest b) :
      Chained joins link cs rest (op.apply a b)

section Chains

open FormulaNet.Derivation

variable {scope : Scope} {depth : Nat} {cs rest : List Char} {x : Float}

theorem Derivation.Derives.chained_term {cs rest : List Char} {x : Float} : {t : Derivation .term} →
    t.Derives scope depth cs rest x →
    Chained (fun op => op == .mul || op == .div) (Derivable scope depth .factor) cs rest x
  | .factor f, h => .first ⟨f, Derives.factor_iff.1 h⟩
  | .product t op hop f, h => by
    obtain ⟨mid, a, b, ht, hf, rfl⟩ := Derives.product_iff.1 h
    exact .next (by simpa using hop) ht.chained_term ⟨f, hf⟩

theorem Derivation.Derives.chained_expression {cs rest : List Char} {x : Float} :
    {e : Derivation .expression} → e.Derives scope depth cs rest x →
    Chained (fun op => op == .add || op == .sub) (Derivable scope depth .term) cs rest x
  | .term t, h => .first ⟨t, Derives.term_iff.1 h⟩
  | .sum e op hop t, h => by
    obtain ⟨mid, a, b, he, ht, rfl⟩ := Derives.sum_iff.1 h
    exact .next (by simpa using hop) he.chained_expression ⟨t, ht⟩

/-- A term is a chain of factors. -/
theorem derivable_term_iff : Derivable scope depth .term cs rest x ↔
    Chained (fun op => op == .mul || op == .div) (Derivable scope depth .factor) cs rest x := by
  refine ⟨fun ⟨t, ht⟩ => ht.chained_term, fun h => ?_⟩
  induction h with
  | first h =>
    obtain ⟨f, hf⟩ := h
    exact ⟨.factor f, Derives.factor_iff.2 hf⟩
  | @next op _ _ _ _ _ hop _ hlink ih =>
    obtain ⟨t, ht⟩ := ih
    obtain ⟨f, hf⟩ := hlink
    exact ⟨.product t op (by simpa using hop) f, Derives.product_iff.2 ⟨_, _, _, ht, hf, rfl⟩⟩

/-- An expression is a chain of terms. -/
theorem derivable_expression_iff : Derivable scope depth .expression cs rest x ↔
    Chained (fun op => op == .add || op == .sub) (Derivable scope depth .term) cs rest x := by
  refine ⟨fun ⟨e, he⟩ => he.chained_expression, fun h => ?_⟩
  induction h with
  | first h =>
    obtain ⟨t, ht⟩ := h
    exact ⟨.term t, Derives.term_iff.2 ht⟩
  | @next op _ _ _ _ _ hop _ hlink ih =>
    obtain ⟨e, he⟩ := ih
    obtain ⟨t, ht⟩ := hlink
    exact ⟨.sum e op (by simpa using hop) t, Derives.sum_iff.2 ⟨_, _, _, he, ht, rfl⟩⟩

end Chains

end FormulaNet
