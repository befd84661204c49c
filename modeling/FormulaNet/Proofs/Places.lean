import FormulaNet.Formula.Placed
import FormulaNet.Text.Bytes

/-!
# Places of characters

A row of characters that are not blank stands in one part of the text, which begins with the first
and ends with the last of them.  `exists_part_of_placed` finds this part, with the blanks before it
and the rest of the text behind it, and `exists_run_of_trimmed` reads a part as a run whose span is
the place of the part.
-/

namespace FormulaNet

theorem placed_append (start : Nat) (as bs : List Char) :
    placed start (as ++ bs) = placed start as ++ placed (start + byteSize as) bs := by
  induction as generalizing start with
  | nil => rfl
  | cons a as ih =>
    simp only [List.cons_append, placed, byteSize_cons, ih, ← Nat.add_assoc]
    split <;> rfl

theorem placed_cons_of_not_blank {c : Char} (h : isBlank c = false) (start : Nat) (cs : List Char) :
    placed start (c :: cs) = ⟨start, c⟩ :: placed (start + c.utf8Size) cs := by
  simp [placed, h]

theorem placed_eq_nil {cs : List Char} (h : ∀ c ∈ cs, isBlank c) (start : Nat) :
    placed start cs = [] := by
  induction cs generalizing start with
  | nil => rfl
  | cons c cs ih =>
    rw [placed, if_pos (h c (by simp))]
    exact ih (fun c' hc' => h c' (by simp [hc'])) _

/-- The first character that is not blank comes after blanks. -/
theorem exists_blanks_of_placed_eq_cons {start : Nat} {cs : List Char} {p : Placed}
    {ps : List Placed} (h : placed start cs = p :: ps) :
    ∃ blanks rest, cs = blanks ++ p.char :: rest ∧ (∀ c ∈ blanks, isBlank c) ∧
      isBlank p.char = false ∧ start + byteSize blanks = p.offset ∧ placed p.stop rest = ps := by
  induction cs generalizing start with
  | nil => simp [placed] at h
  | cons c cs ih =>
    unfold placed at h
    split at h
    · next hc =>
      obtain ⟨blanks, rest, rfl, hb, hp, ho, hr⟩ := ih h
      refine ⟨c :: blanks, rest, rfl, ?_, hp, ?_, hr⟩
      · simpa [hc] using hb
      · rw [byteSize_cons, ← ho, Nat.add_assoc]
    · next hc =>
      obtain ⟨rfl, rfl⟩ := List.cons.inj h
      exact ⟨[], cs, rfl, by simp, by simpa using hc, rfl, rfl⟩

namespace Run

theorem getLast?_toList (run : Run) : run.toList.getLast? = some run.last := by
  rw [toList, last, List.getLast?_cons, List.getLastD_eq_getLast?]

end Run

/-- A text that neither begins nor ends with a blank. -/
def Trimmed (cs : List Char) : Prop :=
  (∀ c ∈ cs.head?, isBlank c = false) ∧ ∀ c ∈ cs.getLast?, isBlank c = false

theorem trimmed_of_forall {cs : List Char} (h : ∀ c ∈ cs, isBlank c = false) : Trimmed cs :=
  ⟨fun c hc => h c (List.mem_of_mem_head? hc), fun c hc => h c (List.mem_of_mem_getLast? hc)⟩

theorem getLast?_placed {cs : List Char} (hne : cs ≠ [])
    (h : ∀ c ∈ cs.getLast?, isBlank c = false) (start : Nat) :
    ∃ p, (placed start cs).getLast? = some p ∧ p.stop = start + byteSize cs := by
  obtain ⟨init, c, rfl⟩ : ∃ init c, cs = init ++ [c] := 
    ⟨cs.dropLast, cs.getLast hne, (List.dropLast_concat_getLast hne).symm⟩
  have hc : isBlank c = false := h c (by simp)
  refine ⟨⟨start + byteSize init, c⟩, ?_, ?_⟩
  · simp [placed_append, placed, hc]
  · simp [Placed.stop, Nat.add_assoc]

/-- A trimmed text is a run whose span is the place of the text. -/
theorem exists_run_of_trimmed {token : List Char} (hne : token ≠ []) (h : Trimmed token)
    (start : Nat) :
    ∃ run : Run, placed start token = run.toList ∧
      run.span = ⟨start, start + byteSize token⟩ := by
  obtain ⟨p, hlast, hstop⟩ := getLast?_placed hne h.2 start
  cases token with
  | nil => exact absurd rfl hne
  | cons c cs =>
    have hc : isBlank c = false := h.1 c (by simp)
    refine ⟨⟨⟨start, c⟩, placed (start + c.utf8Size) cs⟩, placed_cons_of_not_blank hc _ _, ?_⟩
    have hp : some p = some (Run.last ⟨⟨start, c⟩, placed (start + c.utf8Size) cs⟩) := by
      rw [← hlast, ← Run.getLast?_toList, placed_cons_of_not_blank hc, Run.toList]
    simp only [Run.span, ← Option.some.inj hp, hstop]

/-- A row of characters stands in a part of the text that ends with the last of them. -/
theorem exists_part_of_placed_append {start : Nat} {cs : List Char} {ps qs : List Placed}
    (h : placed start cs = ps ++ qs) :
    ∃ part rest, cs = part ++ rest ∧ placed start part = ps ∧
      placed (start + byteSize part) rest = qs ∧ ∀ c ∈ part.getLast?, isBlank c = false := by
  induction ps generalizing start cs with
  | nil => exact ⟨[], cs, rfl, rfl, h, by simp⟩
  | cons p ps ih =>
    obtain ⟨blanks, rest, rfl, hb, hc, ho, hr⟩ := exists_blanks_of_placed_eq_cons h
    obtain ⟨part, rest, rfl, hp, hq, hl⟩ := ih hr
    refine ⟨blanks ++ p.char :: part, rest, by simp, ?_, ?_, ?_⟩
    · rw [placed_append, placed_eq_nil hb, placed_cons_of_not_blank hc, ho]
      exact congrArg (p :: ·) hp
    · rw [← hq, Placed.stop, ← ho, byteSize_append, byteSize_cons]
      simp only [Nat.add_assoc]
    · intro c hmem
      cases part with
      | nil =>
        obtain rfl : p.char = c := by simpa using hmem
        exact hc
      | cons d part => exact hl c (by simpa [List.getLast?_append] using hmem)

/-- A run stands in a trimmed part of the text, which comes after blanks. -/
theorem exists_part_of_placed {start : Nat} {cs : List Char} {run : Run} {ps : List Placed}
    (h : placed start cs = run.toList ++ ps) :
    ∃ blanks token rest, cs = blanks ++ (token ++ rest) ∧ (∀ c ∈ blanks, isBlank c) ∧
      token ≠ [] ∧ Trimmed token ∧ placed run.span.start token = run.toList ∧
      run.span = ⟨start + byteSize blanks, start + byteSize blanks + byteSize token⟩ ∧
      placed run.span.stop rest = ps := by
  obtain ⟨blanks, rest, rfl, hb, hc, ho, hr⟩ := exists_blanks_of_placed_eq_cons h
  obtain ⟨part, rest, rfl, hp, hq, hl⟩ := exists_part_of_placed_append hr
  have ht : Trimmed (run.head.char :: part) := by
    refine ⟨by simpa using hc, fun c hmem => ?_⟩
    cases part with
    | nil =>
      obtain rfl : run.head.char = c := by simpa using hmem
      exact hc
    | cons d part => exact hl c (by simpa using hmem)
  have hrun : placed run.span.start (run.head.char :: part) = run.toList := by
    rw [placed_cons_of_not_blank hc]
    exact congrArg (run.head :: ·) hp
  have hspan : run.span = ⟨start + byteSize blanks,
      start + byteSize blanks + byteSize (run.head.char :: part)⟩ := by
    obtain ⟨p, hlast, hstop⟩ := getLast?_placed (by simp) ht.2 run.span.start
    rw [hrun, Run.getLast?_toList] at hlast
    obtain rfl : run.last = p := Option.some.inj hlast
    rw [ho]
    exact congrArg (Span.mk run.head.offset) hstop
  refine ⟨blanks, run.head.char :: part, rest, by simp, hb, by simp, ht, hrun, hspan, ?_⟩
  rw [← hq, hspan, ho, byteSize_cons, Placed.stop, ← Nat.add_assoc]

end FormulaNet
