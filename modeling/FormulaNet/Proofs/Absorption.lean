import FormulaNet.Proofs.Staleness

/-!
# Formulas in which a value is lost

A value `Fades` into NaN, or it stays.  An operation absorbs NaN if its result fades when one of its operands
is replaced by NaN: the sum, the difference, the product, the quotient and the square root give NaN then
(`Operator.absorbsNaN`), while a power may stay, as `x^0` does.  The value of a formula that is made of such
operations fades when values that it reads fade (`LinkedText.Yields.fades`).
-/

namespace FormulaNet

/-- A double is NaN in the end, or it is what it was. -/
def Fades (x x' : Float) : Prop :=
  x'.isNaN = true ∨ x' = x

namespace Fades

variable {x y z : Float}

theorem refl (x : Float) : Fades x x :=
  .inr rfl

theorem trans (h : Fades x y) (h' : Fades y z) : Fades x z := by
  rcases h' with hz | rfl
  · exact .inl hz
  · exact h

/-- Of two doubles that a double fades into, neither has changed if they compare as equal. -/
theorem eq_of_not_bne (h : Fades x y) (h' : Fades x z) (hsame : (y != z) = false) : y = z := by
  have hbeq : (y == z) = true := by simpa [bne] using hsame
  obtain ⟨hy, hz⟩ := isNaN_eq_false_of_beq hbeq
  rw [h.resolve_left (Bool.eq_false_iff.1 hy), h'.resolve_left (Bool.eq_false_iff.1 hz)]

end Fades

/-! ## Operations -/

/-- NaN in the place of an operand gives NaN or the same result. -/
def Operator.AbsorbsNaN (op : Operator) : Prop :=
  ∀ x y z : Float, z.isNaN = true →
    Fades (op.apply x y) (op.apply z y) ∧ Fades (op.apply x y) (op.apply x z)

/-- NaN in the place of the argument gives NaN or the same result. -/
def Builtin.AbsorbsNaN (f : Builtin) : Prop :=
  ∀ x z : Float, z.isNaN = true → Fades (f.apply x) (f.apply z)

theorem Operator.AbsorbsNaN.fades {op : Operator} (h : op.AbsorbsNaN) {x x' y y' : Float}
    (hx : Fades x x') (hy : Fades y y') : Fades (op.apply x y) (op.apply x' y') := by
  have hleft : Fades (op.apply x y) (op.apply x' y) := by
    rcases hx with hx | rfl
    · exact (h x y x' hx).1
    · exact .refl _
  have hright : Fades (op.apply x' y) (op.apply x' y') := by
    rcases hy with hy | rfl
    · exact (h x' y y' hy).2
    · exact .refl _
  exact hleft.trans hright

theorem Builtin.AbsorbsNaN.fades {f : Builtin} (h : f.AbsorbsNaN) {x x' : Float} (hx : Fades x x') :
    Fades (f.apply x) (f.apply x') := by
  rcases hx with hx | rfl
  · exact h x x' hx
  · exact .refl _

section Doubles

open Float.Model

theorem unpack_of_isNaN {z : Float} (hz : z.isNaN = true) : z.toModel.unpack = .notANumber := by
  change z.toModel.unpack.isNaN = true at hz
  cases hunpack : z.toModel.unpack with
  | notANumber => rfl
  | infinity | zero | finite =>
    rw [hunpack] at hz
    cases hz

theorem isNaN_notANumber : (Float.ofModel (pack .notANumber)).isNaN = true := by
  decide

/-- An operation on unpacked doubles that keeps NaN. -/
theorem isNaN_of_unpacked {g : UnpackedFloat → UnpackedFloat → UnpackedFloat}
    (hl : ∀ u, g .notANumber u = .notANumber) (hr : ∀ u, g u .notANumber = .notANumber) {z : Float}
    (hz : z.isNaN = true) (x : Float) :
    (Float.ofModel (pack (g z.toModel.unpack x.toModel.unpack))).isNaN = true ∧
      (Float.ofModel (pack (g x.toModel.unpack z.toModel.unpack))).isNaN = true := by
  rw [unpack_of_isNaN hz, hl, hr]
  exact ⟨isNaN_notANumber, isNaN_notANumber⟩

theorem isNaN_neg {z : Float} (hz : z.isNaN = true) : (-z).isNaN = true := by
  change (Float.ofModel (pack z.toModel.unpack.neg)).isNaN = true
  rw [unpack_of_isNaN hz]
  exact isNaN_notANumber

theorem isNaN_sqrt {z : Float} (hz : z.isNaN = true) : z.sqrt.isNaN = true := by
  change (Float.ofModel (pack (UnpackedFloat.sqrt _ z.toModel.unpack))).isNaN = true
  rw [unpack_of_isNaN hz]
  exact isNaN_notANumber

/-- The operators besides the power give NaN if one of their operands is NaN. -/
theorem Operator.isNaN_apply {op : Operator} (hop : op ≠ .pow) {z : Float} (hz : z.isNaN = true) (x : Float) :
    (op.apply z x).isNaN = true ∧ (op.apply x z).isNaN = true := by
  cases op with
  | add => exact isNaN_of_unpacked (g := UnpackedFloat.add _) (fun _ => rfl) (fun u => by cases u <;> rfl) hz x
  | sub => exact isNaN_of_unpacked (g := UnpackedFloat.sub _) (fun _ => rfl) (fun u => by cases u <;> rfl) hz x
  | mul => exact isNaN_of_unpacked (g := UnpackedFloat.mul _) (fun _ => rfl) (fun u => by cases u <;> rfl) hz x
  | div => exact isNaN_of_unpacked (g := UnpackedFloat.div _) (fun _ => rfl) (fun u => by cases u <;> rfl) hz x
  | pow => exact absurd rfl hop

end Doubles

theorem Operator.absorbsNaN {op : Operator} (hop : op ≠ .pow) : op.AbsorbsNaN := fun x y _ hz =>
  ⟨.inl (op.isNaN_apply hop hz y).1, .inl (op.isNaN_apply hop hz x).2⟩

theorem Builtin.absorbsNaN_sqrt : sqrt.AbsorbsNaN := fun _ _ hz => .inl (isNaN_sqrt hz)

theorem Fades.neg {x x' : Float} (h : Fades x x') : Fades (-x) (-x') := by
  rcases h with h | rfl
  · exact .inl (isNaN_neg h)
  · exact .refl _

/-! ## Expressions -/

namespace Expr

variable {ρ σ : Type}

/-- Every operation in the expression absorbs NaN. -/
def AbsorbsNaN : Expr ρ → Prop
  | number _ | ref _ => True
  | negate e => e.AbsorbsNaN
  | call f e => f.AbsorbsNaN ∧ e.AbsorbsNaN
  | binary op a b => op.AbsorbsNaN ∧ a.AbsorbsNaN ∧ b.AbsorbsNaN

theorem absorbsNaN_map (f : ρ → σ) (e : Expr ρ) : (e.map f).AbsorbsNaN ↔ e.AbsorbsNaN := by
  induction e with
  | number | ref => exact Iff.rfl
  | negate e ih => exact ih
  | call g e ih => exact and_congr_right fun _ => ih
  | binary op a b iha ihb => exact and_congr_right fun _ => and_congr iha ihb

/-- The value of an expression fades when values that it reads do. -/
theorem AbsorbsNaN.fades {e : Expr ρ} (h : e.AbsorbsNaN) {read read' : ρ → Float}
    (hread : ∀ r ∈ e.refs, Fades (read r) (read' r)) : Fades (e.value read) (e.value read') := by
  induction e with
  | number x => exact .refl x
  | ref r => exact hread r List.mem_cons_self
  | negate e ih => exact (ih h hread).neg
  | call f e ih => exact h.1.fades (ih h.2 hread)
  | binary op a b iha ihb =>
    obtain ⟨hop, ha, hb⟩ := h
    exact hop.fades (iha ha fun r hr => hread r (List.mem_append_left _ hr))
      (ihb hb fun r hr => hread r (List.mem_append_right _ hr))

/-- Whether an expression does without powers and angles. -/
def isAlgebraic : Expr ρ → Bool
  | number _ | ref _ => true
  | negate e => e.isAlgebraic
  | call f e => f = .sqrt && e.isAlgebraic
  | binary op a b => op ≠ .pow && (a.isAlgebraic && b.isAlgebraic)

theorem absorbsNaN_of_isAlgebraic {e : Expr ρ} (h : e.isAlgebraic = true) : e.AbsorbsNaN := by
  induction e with
  | number | ref => trivial
  | negate e ih => exact ih h
  | call f e ih =>
    obtain ⟨hf, he⟩ := Bool.and_eq_true_iff.1 h
    obtain rfl : f = .sqrt := of_decide_eq_true hf
    exact ⟨Builtin.absorbsNaN_sqrt, ih he⟩
  | binary op a b iha ihb =>
    obtain ⟨hop, hab⟩ := Bool.and_eq_true_iff.1 h
    obtain ⟨ha, hb⟩ := Bool.and_eq_true_iff.1 hab
    exact ⟨Operator.absorbsNaN (of_decide_eq_true hop), iha ha, ihb hb⟩

end Expr

namespace LinkedText

/-- Every operation in a formula absorbs NaN. -/
def AbsorbsNaN (t : LinkedText) : Prop :=
  ∀ e, t.outline = .ok e → e.AbsorbsNaN

/-- The value of a formula fades when values that it reads do. -/
theorem Yields.fades {t : LinkedText} (habsorbs : t.AbsorbsNaN) {read read' : NodeId → Float}
    {v v' : Float} (h : t.Yields read v) (h' : t.Yields read' v')
    (hread : ∀ p ∈ t.targets, Fades (read p) (read' p)) : Fades v v' := by
  obtain ⟨e, he, hrefs, rfl⟩ := h
  obtain ⟨e', he', hrefs', rfl⟩ := h'
  have hsame : e.outline = e'.outline := Except.ok.inj (he.symm.trans he')
  obtain rfl : e = e' := Expr.eq_of_outline_of_refs hsame (hrefs.trans hrefs'.symm)
  have hexpr : e.AbsorbsNaN := (Expr.absorbsNaN_map _ e).1 (habsorbs _ he)
  exact hexpr.fades fun p hp => hread p (hrefs ▸ hp)

end LinkedText

end FormulaNet
