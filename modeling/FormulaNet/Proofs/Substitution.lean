import FormulaNet.Proofs.Rewriting

/-!
# Texts with other tokens

`Substitution` says what it means that some references of a text have other tokens: everything else in
the text is as before, and every reference is still there, with a span that holds its token.  The
replacement of tokens in a content is such a substitution (`Content.substitution_replace`).
-/

namespace FormulaNet

/-- A text that begins at a byte offset and its references, and the text and the references that take
their places once every reference with a replacement has got it as its token. -/
inductive Substitution (replacement : Reference → Option String) :
    Nat → List Char → List Reference → Nat → List Char → List Reference → Prop
  | last (start start' : Nat) (cs : List Char) : Substitution replacement start cs [] start' cs []
  | token {start start' : Nat} {before token token' rest rest' : List Char} {r r' : Reference}
      {rs rs' : List Reference}
      (hspan : r.span = ⟨start + byteSize before, start + byteSize before + byteSize token⟩)
      (hspan' : r'.span = ⟨start' + byteSize before, start' + byteSize before + byteSize token'⟩)
      (hkind : r'.kind = r.kind) (htarget : r'.target = r.target)
      (htoken : token' = ((replacement r).map String.toList).getD token)
      (hrest : Substitution replacement r.span.stop rest rs r'.span.stop rest' rs') :
      Substitution replacement start (before ++ (token ++ rest)) (r :: rs)
        start' (before ++ (token' ++ rest')) (r' :: rs')

/-- A text without references can be put before both texts. -/
theorem Substitution.prepend {replacement : Reference → Option String} {start start' : Nat}
    {cs cs' : List Char} {rs rs' : List Reference} (before : List Char)
    (h : Substitution replacement (start + byteSize before) cs rs (start' + byteSize before) cs' rs') :
    Substitution replacement start (before ++ cs) rs start' (before ++ cs') rs' := by
  generalize hs : start + byteSize before = at₀, hs' : start' + byteSize before = at₁ at h
  cases h with
  | last => exact .last _ _ _
  | @token _ _ before' token token' rest rest' r r' rs rs' hspan hspan' hkind htarget htoken hrest =>
    rw [← hs, Nat.add_assoc, ← byteSize_append] at hspan
    rw [← hs', Nat.add_assoc, ← byteSize_append] at hspan'
    rw [← List.append_assoc before, ← List.append_assoc before]
    exact .token hspan hspan' hkind htarget htoken hrest

/-- Pieces with other tokens. -/
theorem LinkedText.substitution_replaceFrom (replacement : Reference → Option String)
    (start start' : Nat) (ps : List Piece) :
    Substitution replacement start (writtenAs Piece.chars ps) (refsFrom start ps) start'
      (writtenAs Piece.chars (replaceFrom replacement start ps))
      (refsFrom start' (replaceFrom replacement start ps)) := by
  induction ps generalizing start start' with
  | nil => exact .last _ _ _
  | cons p ps ih =>
    cases p with
    | plain cs => exact .prepend cs (ih _ _)
    | link kind target token =>
      exact @Substitution.token replacement start start' [] token _ _ _ _ _ _ _ rfl rfl rfl rfl rfl (ih _ _)

namespace Content

/-- Dropped links leave the text alone. -/
theorem input_unlink (c : Content) (id : NodeId) : (c.unlink id).input = c.input := by
  cases c with
  | number x => rfl
  | formula t => exact congrArg String.ofList (LinkedText.writtenAs_chars_unlink t.pieces)

theorem refs_unlink (c : Content) (id : NodeId) :
    (c.unlink id).refs = c.refs.filter (·.target ≠ id) := by
  cases c with
  | number x => rfl
  | formula t => exact LinkedText.refsFrom_unlink 0 t.pieces

theorem substitution_replace (c : Content) (replacement : Reference → Option String) :
    Substitution replacement 0 c.input.toList c.refs 0 (c.replace replacement).input.toList
      (c.replace replacement).refs := by
  cases c with
  | number x => exact .last _ _ _
  | formula t =>
    have h := LinkedText.substitution_replaceFrom replacement 0 0 t.pieces
    rw [replace, LinkedText.replace_eq, input, input, LinkedText.text, LinkedText.text,
      String.toList_ofList, String.toList_ofList]
    exact h

end Content

end FormulaNet
