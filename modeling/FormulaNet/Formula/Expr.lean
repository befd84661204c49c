import FormulaNet.Formula.Builtin
import FormulaNet.Formula.Token

/-!
# Expressions

What a formula says, once it is read: a tree over numbers and references.  `Expr.value` is its
value, given one for each reference, and `Expr.refs` are its references from left to right.
-/

namespace FormulaNet

def Operator.apply : Operator → Float → Float → Float
  | add, x, y => x + y
  | sub, x, y => x - y
  | mul, x, y => x * y
  | div, x, y => x / y
  | pow, x, y => x.pow y

inductive Expr (ρ : Type)
  | number (x : Float)
  | ref (r : ρ)
  | negate (e : Expr ρ)
  | call (f : Builtin) (e : Expr ρ)
  | binary (op : Operator) (a b : Expr ρ)

namespace Expr

variable {ρ σ : Type}

def value (read : ρ → Float) : Expr ρ → Float
  | number x => x
  | ref r => read r
  | negate e => -e.value read
  | call f e => f.apply (e.value read)
  | binary op a b => op.apply (a.value read) (b.value read)

def refs : Expr ρ → List ρ
  | number _ => []
  | ref r => [r]
  | negate e => e.refs
  | call _ e => e.refs
  | binary _ a b => a.refs ++ b.refs

def map (f : ρ → σ) : Expr ρ → Expr σ
  | number x => number x
  | ref r => ref (f r)
  | negate e => negate (e.map f)
  | call g e => call g (e.map f)
  | binary op a b => binary op (a.map f) (b.map f)

theorem value_map (f : ρ → σ) (read : σ → Float) (e : Expr ρ) :
    (e.map f).value read = e.value (read ∘ f) := by
  induction e with
  | number | ref => rfl
  | negate e ih | call _ e ih => simp [map, value, ih]
  | binary op a b iha ihb => simp [map, value, iha, ihb]

theorem refs_map (f : ρ → σ) (e : Expr ρ) : (e.map f).refs = e.refs.map f := by
  induction e with
  | number | ref => rfl
  | negate e ih | call _ e ih => simp [map, refs, ih]
  | binary op a b iha ihb => simp [map, refs, iha, ihb]

/-- The value depends on the references that occur alone. -/
theorem value_congr {read read' : ρ → Float} {e : Expr ρ} (h : ∀ r ∈ e.refs, read r = read' r) :
    e.value read = e.value read' := by
  induction e with
  | number => rfl
  | ref r => exact h r (by simp [refs])
  | negate e ih | call _ e ih => simp only [value, ih h]
  | binary op a b iha ihb =>
    simp only [value, iha fun r hr => h r (List.mem_append_left _ hr),
      ihb fun r hr => h r (List.mem_append_right _ hr)]

end Expr

end FormulaNet
