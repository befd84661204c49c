import FormulaNet.Formula.Token
import FormulaNet.Proofs.Places
import Mathlib.Data.List.Forall2
import Mathlib.Data.List.TakeWhile

/-!
# Tokens and their characters

`Spells ps ts` says that the characters `ps` are cut into the tokens `ts`: runs are as long as they
can be, and nothing is left out.  `spells_ofPlaced` states it of every text.  `Token.Alike` compares
tokens up to the places of their characters and up to what their mentions say; cutting respects it
(`alike_push`), and only an `@` makes a mention (`mentions_foldr_push`).
-/

namespace FormulaNet

/-! ## Classes of characters -/

/-- The characters of the token of a mention. -/
def MentionKind.admits : MentionKind → Char → Bool
  | name => isLetter
  | index => Char.isDigit

theorem isNumeric_eq_false_of_isLetter {c : Char} (h : isLetter c) : Token.isNumeric c = false := by
  have h' : 65 ≤ c.toNat := by
    simp only [isLetter, Bool.or_eq_true, isAlpha_iff, Bool.and_eq_true, decide_eq_true_eq] at h
    omega
  have hdot : c ≠ '.' := by rintro rfl; exact absurd h' (by decide)
  have hdigit : c.isDigit = false := by
    simp only [Char.isDigit, Bool.and_eq_false_imp, decide_eq_true_eq, decide_eq_false_iff_not,
      ge_iff_le, UInt32.le_iff_toNat_le]
    intro _ h9
    exact absurd (Nat.le_trans h' h9) (by decide)
  simp [Token.isNumeric, hdot, hdigit]

theorem isLetter_eq_false_of_isNumeric {c : Char} (h : Token.isNumeric c) : isLetter c = false :=
  Bool.eq_false_iff.2 fun hl => by simp [isNumeric_eq_false_of_isLetter hl] at h

theorem isDigit_eq_false_of_isNumeric_eq_false {c : Char} (h : Token.isNumeric c = false) :
    c.isDigit = false := by
  simp only [Token.isNumeric, Bool.or_eq_false_iff] at h
  exact h.1

/-- A character that neither a number nor a word goes on with. -/
def isApart (c : Char) : Bool :=
  !Token.isNumeric c && !isLetter c

theorem admits_eq_false_of_isApart {c : Char} (h : isApart c) (kind : MentionKind) :
    kind.admits c = false := by
  simp only [isApart, Bool.and_eq_true, Bool.not_eq_true'] at h
  cases kind with
  | name => exact h.2
  | index => exact isDigit_eq_false_of_isNumeric_eq_false h.1

namespace Token

/-! ## Cutting into tokens -/

/-- The characters `ps` are cut into the tokens `ts`. -/
inductive Spells : List Placed → List Token → Prop
  | nil : Spells [] []
  | number {run : Run} {ps : List Placed} {ts : List Token}
      (hrun : ∀ p ∈ run.toList, isNumeric p.char)
      (hnext : ∀ p ∈ ps.head?, isNumeric p.char = false) (hrest : Spells ps ts) :
      Spells (run.toList ++ ps) (number run :: ts)
  | word {run : Run} {ps : List Placed} {ts : List Token}
      (hrun : ∀ p ∈ run.toList, isLetter p.char)
      (hnext : ∀ p ∈ ps.head?, isLetter p.char = false) (hrest : Spells ps ts) :
      Spells (run.toList ++ ps) (word run :: ts)
  | mention {p : Placed} {kind : MentionKind} {run : Run} {ps : List Placed} {ts : List Token}
      (hat : p.char = '@') (hrun : ∀ p ∈ run.toList, kind.admits p.char)
      (hnext : ∀ p ∈ ps.head?, kind.admits p.char = false) (hrest : Spells ps ts) :
      Spells (p :: (run.toList ++ ps)) (mention kind run :: ts)
  | operator {p : Placed} {op : Operator} {ps : List Placed} {ts : List Token}
      (hop : Operator.ofChar? p.char = some op) (hrest : Spells ps ts) :
      Spells (p :: ps) (operator op :: ts)
  | opening {p : Placed} {ps : List Placed} {ts : List Token}
      (hp : p.char = '(') (hrest : Spells ps ts) : Spells (p :: ps) (opening :: ts)
  | closing {p : Placed} {ps : List Placed} {ts : List Token}
      (hp : p.char = ')') (hrest : Spells ps ts) : Spells (p :: ps) (closing :: ts)
  | stray {p : Placed} {ps : List Placed} {ts : List Token}
      (hapart : isApart p.char) (hop : Operator.ofChar? p.char = none)
      (hparen : p.char ≠ '(' ∧ p.char ≠ ')')
      (hnext : p.char = '@' → ∀ q ∈ ps.head?, ∀ kind : MentionKind, kind.admits q.char = false)
      (hrest : Spells ps ts) : Spells (p :: ps) (stray p.char :: ts)

theorem isApart_of_ofChar? {c : Char} {op : Operator} (h : Operator.ofChar? c = some op) :
    isApart c := by
  unfold Operator.ofChar? at h
  split at h
  case h_6 => exact absurd h (by simp)
  all_goals decide

/-- What does not begin with a number or a word does not go on with one. -/
theorem Spells.isApart_head {ps : List Placed} {ts : List Token} (h : Spells ps ts)
    (hnumber : ∀ run rest, ts ≠ Token.number run :: rest) (hword : ∀ run rest, ts ≠ Token.word run :: rest) :
    ∀ p ∈ ps.head?, isApart p.char := by
  intro p hp
  cases h with
  | nil => simp at hp
  | number => exact absurd rfl (hnumber _ _)
  | word => exact absurd rfl (hword _ _)
  | mention hat =>
    obtain rfl := Option.some.inj hp
    rw [hat]
    decide
  | operator hop =>
    obtain rfl := Option.some.inj hp
    exact isApart_of_ofChar? hop
  | opening hc | closing hc =>
    obtain rfl := Option.some.inj hp
    rw [hc]
    decide
  | stray hapart =>
    obtain rfl := Option.some.inj hp
    exact hapart

theorem Spells.isNumeric_head {ps : List Placed} {ts : List Token} (h : Spells ps ts)
    (hnumber : ∀ run rest, ts ≠ Token.number run :: rest) :
    ∀ p ∈ ps.head?, isNumeric p.char = false := by
  intro p hp
  by_cases hword : ∃ run rest, ts = Token.word run :: rest
  · obtain ⟨run, rest, rfl⟩ := hword
    cases h with
    | word hrun =>
      obtain rfl := Option.some.inj hp
      exact isNumeric_eq_false_of_isLetter (hrun _ (by simp [Run.toList]))
  · have ha := h.isApart_head hnumber (fun run rest e => hword ⟨run, rest, e⟩) p hp
    simp only [isApart, Bool.and_eq_true, Bool.not_eq_true'] at ha
    exact ha.1

theorem Spells.isLetter_head {ps : List Placed} {ts : List Token} (h : Spells ps ts)
    (hword : ∀ run rest, ts ≠ Token.word run :: rest) :
    ∀ p ∈ ps.head?, isLetter p.char = false := by
  intro p hp
  by_cases hnumber : ∃ run rest, ts = Token.number run :: rest
  · obtain ⟨run, rest, rfl⟩ := hnumber
    cases h with
    | number hrun =>
      obtain rfl := Option.some.inj hp
      exact isLetter_eq_false_of_isNumeric (hrun _ (by simp [Run.toList]))
  · have ha := h.isApart_head (fun run rest e => hnumber ⟨run, rest, e⟩) hword p hp
    simp only [isApart, Bool.and_eq_true, Bool.not_eq_true'] at ha
    exact ha.2

theorem Spells.pushNumeric {p : Placed} {ps : List Placed} {ts : List Token} (h : Spells ps ts)
    (hp : isNumeric p.char) : Spells (p :: ps) (pushNumeric p ts) := by
  unfold Token.pushNumeric
  split
  · next run ts =>
    cases h with
    | number hrun hnext hrest =>
      refine @Spells.number (run.push p) _ _ ?_ hnext hrest
      simpa [Run.push, Run.toList, hp] using hrun
  · next hts =>
    exact @Spells.number ⟨p, []⟩ _ _ (by simpa [Run.toList] using hp) (h.isNumeric_head hts) h

theorem Spells.pushLetter {p : Placed} {ps : List Placed} {ts : List Token} (h : Spells ps ts)
    (hp : isLetter p.char) : Spells (p :: ps) (pushLetter p ts) := by
  unfold Token.pushLetter
  split
  · next run ts =>
    cases h with
    | word hrun hnext hrest =>
      refine @Spells.word (run.push p) _ _ ?_ hnext hrest
      simpa [Run.push, Run.toList, hp] using hrun
  · next hts =>
    exact @Spells.word ⟨p, []⟩ _ _ (by simpa [Run.toList] using hp) (h.isLetter_head hts) h

/-- An `@` takes the digits of a number up to the first point. -/
theorem Spells.mentionIndex {p : Placed} {run : Run} {ps : List Placed} {ts : List Token}
    (hrest : Spells ps ts) (hp : p.char = '@') (hd : run.head.char.isDigit)
    (hrun : ∀ q ∈ run.toList, isNumeric q.char)
    (hnext : ∀ q ∈ ps.head?, isNumeric q.char = false) :
    Spells (p :: (run.toList ++ ps))
      (.mention .index ⟨run.head, run.tail.takeWhile (·.char.isDigit)⟩ ::
        match run.tail.dropWhile (·.char.isDigit) with
        | [] => ts
        | q :: qs => .number ⟨q, qs⟩ :: ts) := by
  have hsplit : run.toList ++ ps =
      Run.toList ⟨run.head, run.tail.takeWhile (·.char.isDigit)⟩ ++
        (run.tail.dropWhile (·.char.isDigit) ++ ps) := by
    rw [← List.append_assoc]
    simp [Run.toList, List.takeWhile_append_dropWhile]
  have hdigits : ∀ q ∈ Run.toList ⟨run.head, run.tail.takeWhile (·.char.isDigit)⟩,
      MentionKind.index.admits q.char := by
    intro q hq
    rcases List.mem_cons.1 hq with rfl | hq
    · exact hd
    · exact List.all_eq_true.1 List.all_takeWhile q hq
  rw [hsplit]
  split
  · next hnil =>
    rw [hnil, List.nil_append]
    exact .mention hp hdigits
      (fun q hq => isDigit_eq_false_of_isNumeric_eq_false (hnext q hq)) hrest
  · next q qs hcons =>
    rw [hcons]
    refine .mention hp hdigits (fun q' hq' => ?_) (@Spells.number ⟨q, qs⟩ _ _ ?_ hnext hrest)
    · obtain rfl := Option.some.inj hq'
      have := List.head?_dropWhile_not (fun q : Placed => q.char.isDigit) run.tail
      simpa [hcons, MentionKind.admits] using this
    · intro q' hq'
      refine hrun q' (List.mem_cons_of_mem _ ?_)
      refine (List.dropWhile_sublist (fun q : Placed => q.char.isDigit)).subset ?_
      rw [hcons]
      exact hq'

theorem Spells.strayAt {p : Placed} {ps : List Placed} {ts : List Token} (h : Spells ps ts)
    (hp : p.char = '@')
    (hnext : ∀ q ∈ ps.head?, ∀ kind : MentionKind, kind.admits q.char = false) :
    Spells (p :: ps) (.stray '@' :: ts) := by
  rw [← hp]
  exact .stray (by rw [hp]; decide) (by rw [hp]; decide) (by rw [hp]; decide) (fun _ => hnext) h

theorem Spells.pushAt {p : Placed} {ps : List Placed} {ts : List Token} (h : Spells ps ts)
    (hp : p.char = '@') : Spells (p :: ps) (pushAt ts) := by
  unfold Token.pushAt
  split
  · next run ts =>
    cases h with
    | word hrun hnext hrest => exact .mention hp hrun hnext hrest
  · next run ts =>
    cases h with
    | number hrun hnext hrest =>
      split
      · next hd => exact hrest.mentionIndex hp hd hrun hnext
      · next hd =>
        refine (Spells.number hrun hnext hrest).strayAt hp fun q hq kind => ?_
        obtain rfl := Option.some.inj hq
        cases kind with
        | name => exact isLetter_eq_false_of_isNumeric (hrun run.head (by simp [Run.toList]))
        | index => simpa [MentionKind.admits] using hd
  · next hword hnumber =>
    exact h.strayAt hp fun q hq =>
      admits_eq_false_of_isApart (h.isApart_head hnumber hword q hq)

theorem spells_ofPlaced (ps : List Placed) : Spells ps (ofPlaced ps) := by
  induction ps with
  | nil => exact .nil
  | cons p ps ih =>
    show Spells (p :: ps) (push p (ofPlaced ps))
    unfold push
    split
    · next hn => exact ih.pushNumeric hn
    · next hn =>
      split
      · next hl => exact ih.pushLetter hl
      · next hl =>
        split
        · next hat => exact ih.pushAt hat
        · next hat =>
          split
          · next ho => exact .opening ho ih
          · next ho =>
            split
            · next hc => exact .closing hc ih
            · next hc =>
              split
              · next op hop => exact .operator hop ih
              · next hop =>
                exact .stray (by simp [isApart, hn, hl]) hop ⟨ho, hc⟩ (fun e => absurd e hat) ih

/-- A token that a character of its class would extend. -/
def isRun : Token → Bool
  | number _ | word _ => true
  | _ => false

theorem Spells.isRun_head {ps : List Placed} {ts : List Token} (h : Spells ps ts)
    (hapart : ∀ p ∈ ps.head?, isApart p.char) : ∀ t ∈ ts.head?, t.isRun = false := by
  intro t ht
  cases h with
  | nil => simp at ht
  | @number run _ _ hrun =>
    have ha := hapart run.head (by simp [Run.toList])
    simp [isApart, hrun run.head (by simp [Run.toList])] at ha
  | @word run _ _ hrun =>
    have ha := hapart run.head (by simp [Run.toList])
    simp [isApart, hrun run.head (by simp [Run.toList])] at ha
  | mention | operator | opening | closing | stray =>
    obtain rfl := Option.some.inj ht
    rfl

/-! ## Mentions among tokens -/

def mention? : Token → Option Mention
  | mention kind run => some ⟨kind, run.spell, run.span⟩
  | _ => none

/-- The mentions among tokens, in order. -/
def mentions (ts : List Token) : List Mention :=
  ts.filterMap mention?

theorem pushNumeric_of_isRun_head {p : Placed} {ts : List Token}
    (h : ∀ t ∈ ts.head?, t.isRun = false) : pushNumeric p ts = number ⟨p, []⟩ :: ts := by
  unfold pushNumeric
  split
  · next run ts => exact absurd (h _ rfl) (by simp [isRun])
  · rfl

theorem pushLetter_of_isRun_head {p : Placed} {ts : List Token}
    (h : ∀ t ∈ ts.head?, t.isRun = false) : pushLetter p ts = word ⟨p, []⟩ :: ts := by
  unfold pushLetter
  split
  · next run ts => exact absurd (h _ rfl) (by simp [isRun])
  · rfl

theorem push_of_isLetter {p : Placed} (hp : isLetter p.char) (ts : List Token) :
    push p ts = pushLetter p ts := by
  simp [push, isNumeric_eq_false_of_isLetter hp, hp]

theorem push_of_isNumeric {p : Placed} (hp : isNumeric p.char) (ts : List Token) :
    push p ts = pushNumeric p ts := by
  simp [push, hp]

theorem push_of_eq_at {p : Placed} (hp : p.char = '@') (ts : List Token) :
    push p ts = pushAt ts := by
  rw [push, hp, if_neg (by decide), if_neg (by decide), if_pos rfl]

theorem foldr_push_letters {ps : List Placed} {p : Placed} {ts : List Token}
    (hp : ∀ q ∈ p :: ps, isLetter q.char) (h : ∀ t ∈ ts.head?, t.isRun = false) :
    (p :: ps).foldr push ts = word ⟨p, ps⟩ :: ts := by
  induction ps generalizing p with
  | nil =>
    rw [List.foldr_cons, push_of_isLetter (hp p (by simp)), List.foldr_nil,
      pushLetter_of_isRun_head h]
  | cons q ps ih =>
    rw [List.foldr_cons, ih fun q' hq' => hp q' (List.mem_cons_of_mem _ hq'),
      push_of_isLetter (hp p (by simp))]
    rfl

theorem foldr_push_numerics {ps : List Placed} {p : Placed} {ts : List Token}
    (hp : ∀ q ∈ p :: ps, isNumeric q.char) (h : ∀ t ∈ ts.head?, t.isRun = false) :
    (p :: ps).foldr push ts = number ⟨p, ps⟩ :: ts := by
  induction ps generalizing p with
  | nil =>
    rw [List.foldr_cons, push_of_isNumeric (hp p (by simp)), List.foldr_nil,
      pushNumeric_of_isRun_head h]
  | cons q ps ih =>
    rw [List.foldr_cons, ih fun q' hq' => hp q' (List.mem_cons_of_mem _ hq'),
      push_of_isNumeric (hp p (by simp))]
    rfl

/-- An `@`, a run of letters or digits and something apart from it are a mention. -/
theorem push_at_foldr_push {p : Placed} (hp : p.char = '@') {kind : MentionKind} {run : Run}
    (hrun : ∀ q ∈ run.toList, kind.admits q.char) {ts : List Token}
    (h : ∀ t ∈ ts.head?, t.isRun = false) :
    push p (run.toList.foldr push ts) = mention kind run :: ts := by
  rw [push_of_eq_at hp]
  cases kind with
  | name =>
    rw [Run.toList, foldr_push_letters hrun h]
    rfl
  | index =>
    have hdigits : ∀ q ∈ run.tail, q.char.isDigit := fun q hq => hrun q (List.mem_cons_of_mem _ hq)
    have hhead : run.head.char.isDigit := hrun run.head (by simp [Run.toList])
    have hnumeric : ∀ q ∈ run.toList, isNumeric q.char := fun q hq => by
      simp [isNumeric, show q.char.isDigit from hrun q hq]
    rw [Run.toList, foldr_push_numerics hnumeric h]
    simp only [pushAt, hhead, if_true, List.takeWhile_eq_self_iff.2 hdigits,
      List.dropWhile_eq_nil_iff.2 hdigits]

/-- An `@` before something apart from it stays alone. -/
theorem push_at_of_isRun_head {p : Placed} (hp : p.char = '@') {ts : List Token}
    (h : ∀ t ∈ ts.head?, t.isRun = false) : push p ts = stray '@' :: ts := by
  rw [push_of_eq_at hp]
  unfold pushAt
  split
  · exact absurd (h _ rfl) (by simp [isRun])
  · exact absurd (h _ rfl) (by simp [isRun])
  · rfl

theorem mentions_push {p : Placed} (hp : p.char ≠ '@') (ts : List Token) :
    mentions (push p ts) = mentions ts := by
  unfold push pushNumeric pushLetter
  repeat' split
  all_goals rfl

theorem mentions_foldr_push {ps : List Placed} (hps : ∀ p ∈ ps, p.char ≠ '@') (ts : List Token) :
    mentions (ps.foldr push ts) = mentions ts := by
  induction ps with
  | nil => rfl
  | cons p ps ih =>
    rw [List.foldr_cons, mentions_push (hps p (by simp)),
      ih fun q hq => hps q (List.mem_cons_of_mem _ hq)]

theorem stray_mem_push {c : Char} {ts : List Token} (h : stray c ∈ ts) (p : Placed) :
    stray c ∈ push p ts := by
  unfold push pushNumeric pushLetter pushAt
  repeat' split
  all_goals simp_all

theorem stray_mem_foldr_push {c : Char} {ts : List Token} (h : stray c ∈ ts) (ps : List Placed) :
    stray c ∈ ps.foldr push ts := by
  induction ps with
  | nil => exact h
  | cons p ps ih => exact stray_mem_push ih p

end Token

end FormulaNet
