import FormulaNet.Proofs.Derivation
import FormulaNet.Proofs.Marking

/-!
# Spans of the tokens as typed

A formula is read from its characters without the blanks, and its references still point into the text as
it was typed.  `PointsAt` says so of a text and its references: there is one for each `@`, whose span is
that of the letters or the digits behind it, blanks among them included.  It holds of every formula that is
evaluated: `evaluate_pointsAt`.
-/

namespace FormulaNet

/-- The references are those of the `@`s in a text that begins at a byte offset, in order.  Behind each `@`
come blanks, and then the token up to where a character that is not blank does not belong to it. -/
inductive PointsAt (scope : Scope) : Nat → List Char → List Reference → Prop
  | last {start : Nat} {cs : List Char} (hcs : '@' ∉ cs) : PointsAt scope start cs []
  | token {start : Nat} {before blanks token rest : List Char} {r : Reference} {rs : List Reference}
      (hbefore : '@' ∉ before) (hblanks : ∀ c ∈ blanks, isBlank c) (htrimmed : Trimmed token)
      (hspan : r.span = ⟨start + byteSize (before ++ '@' :: blanks),
        start + byteSize (before ++ '@' :: blanks) + byteSize token⟩)
      (hrun : IsMaximalRun r.kind.admits (token.filter (!isBlank ·)) (rest.filter (!isBlank ·)))
      (htarget : scope.resolve r.kind (squeeze (.ofList token)) = .ok r.target)
      (hrest : PointsAt scope r.span.stop rest rs) :
      PointsAt scope start (before ++ '@' :: blanks ++ (token ++ rest)) (r :: rs)

theorem MentionKind.admits_at (kind : MentionKind) : kind.admits '@' = false :=
  admits_eq_false_of_isApart (by decide) kind

theorem at_not_mem_of_forall_isBlank {blanks : List Char} (h : ∀ c ∈ blanks, isBlank c) :
    '@' ∉ blanks :=
  fun hmem => not_blank_at (h _ hmem) rfl

/-- There is no `@` in a token. -/
theorem IsMaximalRun.at_not_mem {kind : MentionKind} {token rest : List Char}
    (h : IsMaximalRun kind.admits (token.filter (!isBlank ·)) rest) : '@' ∉ token := by
  intro hmem
  have hat := h.run '@' (List.mem_filter.2 ⟨hmem, by decide⟩)
  rw [kind.admits_at] at hat
  cases hat

/-- There are as many references as `@`s. -/
theorem PointsAt.length_eq {scope : Scope} {start : Nat} {cs : List Char} {rs : List Reference}
    (h : PointsAt scope start cs rs) : rs.length = cs.count '@' := by
  induction h with
  | last hcs => exact (List.count_eq_zero.2 hcs).symm
  | token hbefore hblanks _ _ hrun _ _ ih =>
    rw [List.count_append, List.count_append, List.count_append, List.count_cons_self,
      List.count_eq_zero.2 hbefore, List.count_eq_zero.2 (at_not_mem_of_forall_isBlank hblanks),
      List.count_eq_zero.2 hrun.at_not_mem, List.length_cons, ih]
    omega

/-- A token and what is apart from it. -/
theorem IsToken.isMaximalRun {kind : MentionKind} {token rest : List Char} (ht : IsToken kind token)
    (ha : Apart rest) :
    IsMaximalRun kind.admits (token.filter (!isBlank ·)) (rest.filter (!isBlank ·)) where
  ne_nil := ht.filter_ne_nil
  run c hc := by
    obtain ⟨hmem, hnb⟩ := List.mem_filter.1 hc
    exact ht.admits c hmem (by simpa using hnb)
  stop c hc := admits_eq_false_of_isApart (ha c hc) kind

/-- What the mentions of a text are resolved to points at their tokens. -/
theorem Marked.pointsAt {scope : Scope} {start : Nat} {cs : List Char} {ms : List Mention}
    (h : Marked start cs ms) {rs : List Reference}
    (hrs : List.Forall₂ (fun m r => scope.reference m = .ok r) ms rs) : PointsAt scope start cs rs := by
  induction h generalizing rs with
  | last hcs =>
    cases hrs
    exact .last hcs
  | mention hb ht ha _ ih =>
    obtain ⟨before, blanks, rfl, hbefore, hblanks⟩ := hb
    cases hrs with
    | cons hr hrs =>
      obtain ⟨target, htarget, hr⟩ := exists_of_bind_eq_ok hr
      cases hr
      exact .token hbefore hblanks ht.trimmed rfl (ht.isMaximalRun ha) htarget (ih hrs)

/-- The references of a formula that is evaluated correspond to the `@`s in it, and point at the tokens that
were resolved to their targets. -/
theorem evaluate_pointsAt {scope : Scope} {text : String} {evaluation : Evaluation}
    (h : evaluate scope text = .ok evaluation) :
    PointsAt scope 0 text.toList evaluation.refs ∧
      evaluation.refs.length = text.toList.count '@' := by
  obtain ⟨e, he, hc⟩ := exists_of_bind_eq_ok h
  cases hc
  have hspelled := Expr.ofTokens_consumes he
  have hmarked := marked_of_legible (Token.spells_ofPlaced _) hspelled.legible rfl
  have hpoints := hmarked.pointsAt hspelled.resolved
  exact ⟨hpoints, hpoints.length_eq⟩

/-- Two nodes, of which one has a name with letters of two bytes. -/
def twoNodes : Scope where
  resolve
    | .name, token => if token = "Größe" then .ok 4 else .error (.reference (.missing token))
    | .index, token => if token = "12" then .ok 7 else .error (.reference (.missing token))
  value id := .ofNat id

theorem evaluate_pointsAt_blanks :
    ∃ evaluation, evaluate twoNodes " 2*@ Grö ße - sqrt@1 2" = .ok evaluation ∧
      evaluation.refs = [⟨⟨5, 13⟩, .name, 4⟩, ⟨⟨21, 24⟩, .index, 7⟩] ∧
      PointsAt twoNodes 0 " 2*@ Grö ße - sqrt@1 2".toList evaluation.refs ∧
      evaluation.refs.length = 2 := by
  obtain ⟨evaluation, h⟩ := exists_of_isOk (x := evaluate twoNodes " 2*@ Grö ße - sqrt@1 2")
    (by decide +kernel)
  have hrefs : ∀ evaluation ∈ (evaluate twoNodes " 2*@ Grö ße - sqrt@1 2").toOption,
      evaluation.refs = [⟨⟨5, 13⟩, .name, 4⟩, ⟨⟨21, 24⟩, .index, 7⟩] := by decide +kernel
  obtain ⟨hpoints, hlength⟩ := evaluate_pointsAt h
  exact ⟨evaluation, h, hrefs evaluation (by rw [h]; rfl), hpoints, hlength⟩

end FormulaNet
