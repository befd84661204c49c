import FormulaNet.Proofs.Consumption
import FormulaNet.Proofs.Literals

/-!
# What is read has a derivation

The rules of the grammar read tokens, and a derivation is a tree over characters.  A rule that succeeds
has found a derivation of what it read, with the value of its expression: `factor_sound`, and
`expression_sound` for a whole formula.
-/

namespace FormulaNet

/-- The characters of a row, their places aside. -/
def charsOf (ps : List Placed) : List Char :=
  ps.map Placed.char

@[simp] theorem charsOf_cons (p : Placed) (ps : List Placed) :
    charsOf (p :: ps) = p.char :: charsOf ps :=
  rfl

@[simp] theorem charsOf_append (ps qs : List Placed) : charsOf (ps ++ qs) = charsOf ps ++ charsOf qs :=
  List.map_append

theorem Builtin.exists_ofName?_iff (name : String) :
    (∃ f, Builtin.ofName? name = some f) ↔ name ∈ ["sqrt", "sin", "cos", "tan"] := by
  constructor
  · rintro ⟨f, hf⟩
    unfold Builtin.ofName? at hf
    split at hf
    case h_5 => cases hf
    all_goals simp
  · intro h
    simp only [List.mem_cons, List.not_mem_nil, or_false] at h
    rcases h with rfl | rfl | rfl | rfl
    all_goals exact ⟨_, rfl⟩

theorem functionValue_eq {name : List Char} {f : Builtin} (h : Builtin.ofName? (.ofList name) = some f)
    (x : Float) : functionValue name x = f.apply x := by
  rw [functionValue, h]

theorem Scope.mentioned_eq {scope : Scope} {kind : MentionKind} {token : List Char} {target : NodeId}
    (h : scope.resolve kind (.ofList token) = .ok target) :
    scope.mentioned kind token = scope.value target := by
  rw [Scope.mentioned, h]

/-! ## The token that a text begins with -/

theorem IsMaximalRun.eq_of_append {admits : Char → Bool} {cs cs' rest rest' : List Char}
    (h : IsMaximalRun admits cs rest) (h' : IsMaximalRun admits cs' rest')
    (heq : cs ++ rest = cs' ++ rest') : cs = cs' ∧ rest = rest' := by
  have htake : ∀ {cs rest : List Char}, IsMaximalRun admits cs rest →
      (cs ++ rest).takeWhile admits = cs := by
    intro cs rest h
    rw [List.takeWhile_append_of_pos h.run]
    cases rest with
    | nil => simp
    | cons c rest => rw [List.takeWhile_cons_of_neg (by simp [h.stop c rfl]), List.append_nil]
  have hcs : cs = cs' := by rw [← htake h, heq, htake h']
  exact ⟨hcs, List.append_cancel_left (hcs ▸ heq)⟩

theorem Run.isMaximalRun {run : Run} {ps : List Placed} {admits : Char → Bool}
    (hrun : ∀ p ∈ run.toList, admits p.char = true)
    (hnext : ∀ p ∈ ps.head?, admits p.char = false) :
    IsMaximalRun admits (charsOf run.toList) (charsOf ps) where
  ne_nil := by simp [Run.toList]
  run := by simpa [charsOf] using hrun
  stop := by simpa [charsOf] using hnext

theorem Operator.ofChar?_char (op : Operator) : Operator.ofChar? op.char = some op := by
  cases op with
  | add | sub | mul | div | pow => rfl

theorem Operator.char_eq_of_ofChar? {c : Char} {op : Operator} (h : Operator.ofChar? c = some op) :
    c = op.char := by
  unfold Operator.ofChar? at h
  split at h
  case h_6 => cases h
  all_goals
    cases h
    rfl

/-- No character belongs to the tokens of both kinds of mentions. -/
theorem MentionKind.eq_of_admits {kind kind' : MentionKind} {c : Char} (h : kind.admits c = true)
    (h' : kind'.admits c = true) : kind = kind' := by
  have hapart : isLetter c = true → c.isDigit = true → False := fun hletter hdigit => by
    rw [isDigit_eq_false_of_isNumeric_eq_false (isNumeric_eq_false_of_isLetter hletter)] at hdigit
    cases hdigit
  cases kind with
  | name =>
    cases kind' with
    | name => rfl
    | index => exact (hapart h h').elim
  | index =>
    cases kind' with
    | name => exact (hapart h' h).elim
    | index => rfl

namespace Token.Spells

variable {ps : List Placed} {ts : List Token} {cs rest : List Char}

/-- A text that begins with a run of digits and points begins with a number. -/
theorem exists_number (h : Spells ps ts) (hcs : IsMaximalRun isNumeric cs rest)
    (hps : charsOf ps = cs ++ rest) :
    ∃ run qs ts', ts = .number run :: ts' ∧ charsOf run.toList = cs ∧ Spells qs ts' ∧
      charsOf qs = rest := by
  obtain ⟨run, ts', rfl⟩ : ∃ run ts', ts = .number run :: ts' := by
    by_contra hnot
    have hhead := h.isNumeric_head fun run ts' hts => hnot ⟨run, ts', hts⟩
    obtain ⟨c, cs, rfl⟩ := List.exists_cons_of_ne_nil hcs.ne_nil
    obtain ⟨p, ps, rfl, rfl, -⟩ := List.map_eq_cons_iff.1 hps
    have hc := hhead p rfl
    rw [hcs.run p.char List.mem_cons_self] at hc
    cases hc
  cases h with
  | @number _ qs _ hrun hnext hrest =>
    rw [charsOf_append] at hps
    obtain ⟨hrunchars, hqs⟩ := (Run.isMaximalRun hrun hnext).eq_of_append hcs hps
    exact ⟨run, qs, ts', rfl, hrunchars, hrest, hqs⟩

/-- A text that begins with a run of letters begins with a word. -/
theorem exists_word (h : Spells ps ts) (hcs : IsMaximalRun isLetter cs rest)
    (hps : charsOf ps = cs ++ rest) :
    ∃ run qs ts', ts = .word run :: ts' ∧ charsOf run.toList = cs ∧ Spells qs ts' ∧
      charsOf qs = rest := by
  obtain ⟨run, ts', rfl⟩ : ∃ run ts', ts = .word run :: ts' := by
    by_contra hnot
    have hhead := h.isLetter_head fun run ts' hts => hnot ⟨run, ts', hts⟩
    obtain ⟨c, cs, rfl⟩ := List.exists_cons_of_ne_nil hcs.ne_nil
    obtain ⟨p, ps, rfl, rfl, -⟩ := List.map_eq_cons_iff.1 hps
    have hc := hhead p rfl
    rw [hcs.run p.char List.mem_cons_self] at hc
    cases hc
  cases h with
  | @word _ qs _ hrun hnext hrest =>
    rw [charsOf_append] at hps
    obtain ⟨hrunchars, hqs⟩ := (Run.isMaximalRun hrun hnext).eq_of_append hcs hps
    exact ⟨run, qs, ts', rfl, hrunchars, hrest, hqs⟩

/-- Neither a number nor a word begins with a character apart from both. -/
theorem not_isRun_of_isApart {p : Placed} (h : Spells (p :: ps) ts) (hp : isApart p.char = true)
    {t : Token} (ht : t ∈ ts.head?) : t.isRun = false :=
  h.isRun_head (by simpa using hp) t ht

/-- A text that begins with an `@` and a run of its characters begins with a mention. -/
theorem exists_mention (h : Spells ps ts) {kind : MentionKind} (hcs : IsMaximalRun kind.admits cs rest)
    (hps : charsOf ps = '@' :: (cs ++ rest)) :
    ∃ run qs ts', ts = .mention kind run :: ts' ∧ charsOf run.toList = cs ∧ Spells qs ts' ∧
      charsOf qs = rest := by
  obtain ⟨p, ps, rfl, hp, hps⟩ := List.map_eq_cons_iff.1 hps
  change charsOf ps = cs ++ rest at hps
  have hrun : ∀ t ∈ ts.head?, t.isRun = false := fun t =>
    h.not_isRun_of_isApart (by rw [hp]; decide)
  obtain ⟨c, cs', hcs'⟩ := List.exists_cons_of_ne_nil hcs.ne_nil
  have hadmits : kind.admits c = true := hcs.run c (hcs' ▸ List.mem_cons_self)
  cases h with
  | number | word => exact absurd (hrun _ rfl) (by simp [isRun])
  | operator hop =>
    rw [hp] at hop
    cases hop
  | opening hp' | closing hp' => exact absurd (hp.symm.trans hp') (by decide)
  | stray _ _ _ hnext =>
    rw [hcs'] at hps
    obtain ⟨q, qs, rfl, rfl, -⟩ := List.map_eq_cons_iff.1 hps
    exact absurd hadmits (by simp [hnext hp q rfl kind])
  | @mention _ kind' run qs ts' _ hrun' hnext hrest =>
    rw [charsOf_append] at hps
    obtain rfl : kind' = kind := by
      have hhead : run.head.char = c := by
        rw [hcs'] at hps
        exact (List.cons.inj hps).1
      exact MentionKind.eq_of_admits (hhead ▸ hrun' run.head List.mem_cons_self) hadmits
    obtain ⟨hchars, hqs⟩ := (Run.isMaximalRun hrun' hnext).eq_of_append hcs hps
    exact ⟨run, qs, ts', rfl, hchars, hrest, hqs⟩

theorem exists_operator (h : Spells ps ts) (op : Operator) (hps : charsOf ps = op.char :: rest) :
    ∃ qs ts', ts = .operator op :: ts' ∧ Spells qs ts' ∧ charsOf qs = rest := by
  obtain ⟨p, ps, rfl, hp, hrest⟩ := List.map_eq_cons_iff.1 hps
  have hop : Operator.ofChar? p.char = some op := by rw [hp, Operator.ofChar?_char]
  have hrun : ∀ t ∈ ts.head?, t.isRun = false := fun t =>
    h.not_isRun_of_isApart (isApart_of_ofChar? hop)
  cases h with
  | number | word => exact absurd (hrun _ rfl) (by simp [isRun])
  | mention hat =>
    rw [hat] at hop
    cases hop
  | opening hp' | closing hp' =>
    rw [hp'] at hop
    cases hop
  | stray _ hnone =>
    rw [hop] at hnone
    cases hnone
  | operator hop' hspells =>
    obtain rfl := Option.some.inj (hop'.symm.trans hop)
    exact ⟨_, _, rfl, hspells, hrest⟩

theorem exists_opening (h : Spells ps ts) (hps : charsOf ps = '(' :: rest) :
    ∃ qs ts', ts = .opening :: ts' ∧ Spells qs ts' ∧ charsOf qs = rest := by
  obtain ⟨p, ps, rfl, hp, hps⟩ := List.map_eq_cons_iff.1 hps
  have hrun : ∀ t ∈ ts.head?, t.isRun = false := fun t =>
    h.not_isRun_of_isApart (by rw [hp]; decide)
  cases h with
  | number | word => exact absurd (hrun _ rfl) (by simp [isRun])
  | mention hp' | closing hp' => exact absurd (hp.symm.trans hp') (by decide)
  | operator hop =>
    rw [hp] at hop
    cases hop
  | stray _ _ hparen => exact absurd hp hparen.1
  | opening _ hrest => exact ⟨_, _, rfl, hrest, hps⟩

theorem exists_closing (h : Spells ps ts) (hps : charsOf ps = ')' :: rest) :
    ∃ qs ts', ts = .closing :: ts' ∧ Spells qs ts' ∧ charsOf qs = rest := by
  obtain ⟨p, ps, rfl, hp, hps⟩ := List.map_eq_cons_iff.1 hps
  have hrun : ∀ t ∈ ts.head?, t.isRun = false := fun t =>
    h.not_isRun_of_isApart (by rw [hp]; decide)
  cases h with
  | number | word => exact absurd (hrun _ rfl) (by simp [isRun])
  | mention hp' | opening hp' => exact absurd (hp.symm.trans hp') (by decide)
  | operator hop =>
    rw [hp] at hop
    cases hop
  | stray _ _ hparen => exact absurd hp hparen.2
  | closing _ hrest => exact ⟨_, _, rfl, hrest, hps⟩

/-- The first character of an operator, a parenthesis or a mention is that of the text. -/
theorem head?_charsOf (h : Spells ps ts) {t : Token} (ht : t ∈ ts.head?) :
    (charsOf ps).head? = some t.first := by
  cases h with
  | nil => cases ht
  | number | word =>
    obtain rfl := Option.some.inj ht
    rfl
  | mention hp | opening hp | closing hp =>
    obtain rfl := Option.some.inj ht
    exact congrArg some hp
  | operator hop =>
    obtain rfl := Option.some.inj ht
    exact congrArg some (Operator.char_eq_of_ofChar? hop)
  | stray =>
    obtain rfl := Option.some.inj ht
    rfl

end Token.Spells

/-- The value of an expression whose references are read in a scope. -/
def Scope.worth (scope : Scope) (e : Expr Reference) : Float :=
  e.value fun r => scope.value r.target

namespace Grammar

open Token FormulaNet.Derivation

variable {scope : Scope} {depth : Nat} {factor : Rule Reference}

/-! ## What is read has a derivation -/

/-- What a rule reads, up to what it leaves, has the property `P` with the value of the expression. -/
def RuleSound (scope : Scope) (P : List Char → List Char → Float → Prop) (rule : Rule Reference) :
    Prop :=
  ∀ ⦃ps ts e rest⦄, Spells ps ts → rule ts = .ok (e, rest) →
    ∃ qs, Spells qs rest ∧ P (charsOf ps) (charsOf qs) (scope.worth e)

section Chains

variable {link : Rule Reference} {L : List Char → List Char → Float → Prop} {joins : Operator → Bool}

theorem chainFrom_sound (hlink : RuleSound scope L link) (links : Nat) {e e' : Expr Reference}
    {cs : List Char} {ps : List Placed} {ts rest : List Token} (hs : Spells ps ts)
    (he : Chained joins L cs (charsOf ps) (scope.worth e))
    (h : chainFrom joins link links e ts = .ok (e', rest)) :
    ∃ qs, Spells qs rest ∧ Chained joins L cs (charsOf qs) (scope.worth e') := by
  have stop {e : Expr Reference} {ps : List Placed} {ts : List Token} (hs : Spells ps ts)
      (he : Chained joins L cs (charsOf ps) (scope.worth e))
      (h : (Except.ok (e, ts) : Except Fault (Expr Reference × List Token)) = .ok (e', rest)) :
      ∃ qs, Spells qs rest ∧ Chained joins L cs (charsOf qs) (scope.worth e') := by
    cases h
    exact ⟨ps, hs, he⟩
  induction links generalizing e ps ts with
  | zero =>
    simp only [chainFrom] at h
    exact stop hs he h
  | succ links ih =>
    cases ts with
    | nil => exact stop hs he h
    | cons t ts =>
      cases t with
      | operator op =>
        simp only [chainFrom] at h
        split at h
        · next hjoins =>
          obtain ⟨⟨e₁, rest₁⟩, hl, hf⟩ := exists_of_bind_eq_ok h
          cases hs with
          | operator hop hrest =>
            obtain ⟨qs, hqs, hL⟩ := hlink hrest hl
            rw [charsOf_cons, Operator.char_eq_of_ofChar? hop] at he
            exact ih (e := .binary op e e₁) hqs (.next hjoins he hL) hf
        · exact stop hs he h
      | number | word | mention | opening | closing | stray => exact stop hs he h

theorem chain_sound (hlink : RuleSound scope L link) :
    RuleSound scope (Chained joins L) (chain joins link) := by
  intro ps ts e rest hs h
  obtain ⟨⟨e₁, rest₁⟩, hl, hf⟩ := exists_of_bind_eq_ok h
  obtain ⟨qs, hqs, hL⟩ := hlink hs hl
  exact chainFrom_sound hlink _ hqs (.first hL) hf

end Chains

theorem term_sound (hfactor : RuleSound scope (Derivable scope depth .factor) factor) :
    RuleSound scope (Derivable scope depth .term) (term factor) := by
  intro ps ts e rest hs h
  obtain ⟨qs, hqs, hchain⟩ := chain_sound hfactor hs h
  exact ⟨qs, hqs, derivable_term_iff.2 hchain⟩

theorem expression_sound (hfactor : RuleSound scope (Derivable scope depth .factor) factor) :
    RuleSound scope (Derivable scope depth .expression) (expression factor) := by
  intro ps ts e rest hs h
  obtain ⟨qs, hqs, hchain⟩ := chain_sound (term_sound hfactor) hs h
  exact ⟨qs, hqs, derivable_expression_iff.2 hchain⟩

theorem closed_sound (hfactor : RuleSound scope (Derivable scope depth .factor) factor)
    (missing : SyntaxFault) : RuleSound scope
      (fun cs rest x => Derivable scope depth .expression cs (')' :: rest) x)
      (closed factor missing) := by
  intro ps ts e rest hs h
  obtain ⟨⟨e₁, rest₁⟩, he, hc⟩ := exists_of_bind_eq_ok h
  obtain ⟨qs, hqs, hd⟩ := expression_sound hfactor hs he
  dsimp only at hc
  split at hc
  · cases hc
    cases hqs with
    | @closing p qs _ hp hrest =>
      rw [charsOf_cons, hp] at hd
      exact ⟨qs, hrest, hd⟩
  · cases hc

theorem argument_sound (hfactor : RuleSound scope (Derivable scope depth .factor) factor)
    {run : Run} {ps : List Placed} {ts : List Token} (hs : Spells ps (.word run :: ts))
    {f : Builtin} (hf : Builtin.ofName? run.spell = some f) {e : Expr Reference} {rest : List Token}
    (h : argument factor run.spell ts = .ok (e, rest)) :
    ∃ qs, Spells qs rest ∧
      Derivable scope depth .primary (charsOf ps) (charsOf qs) (f.apply (scope.worth e)) := by
  cases hs with
  | @word _ ps _ hrun hnext hrest =>
    have hmaximal := Run.isMaximalRun hrun hnext
    have hname := (Builtin.exists_ofName?_iff run.spell).1 ⟨f, hf⟩
    rw [charsOf_append]
    unfold argument at h
    split at h
    · next ts =>
      cases hrest with
      | @opening p ps _ hp hrest =>
        obtain ⟨qs, hqs, d, hd⟩ := closed_sound hfactor _ hrest h
        rw [charsOf_cons, hp] at hmaximal
        refine ⟨qs, hqs, .call (charsOf run.toList) d, Derives.call_iff.2 ?_⟩
        exact ⟨charsOf ps, scope.worth e, by rw [charsOf_cons, hp], hmaximal, hname, hd,
          functionValue_eq hf _⟩
    · next hopening =>
      obtain ⟨qs, hqs, d, hd⟩ := hfactor hrest h
      refine ⟨qs, hqs, .apply (charsOf run.toList) d, Derives.apply_iff.2 ?_⟩
      refine ⟨charsOf ps, scope.worth e, rfl, hmaximal, fun hhead => ?_, hname, hd,
        functionValue_eq hf _⟩
      obtain ⟨cs, hcs⟩ := List.head?_eq_some_iff.1 hhead
      obtain ⟨-, ts', rfl, -, -⟩ := hrest.exists_opening hcs
      exact hopening ts' rfl

theorem primary_sound (hfactor : RuleSound scope (Derivable scope depth .factor) factor) :
    RuleSound scope (Derivable scope depth .primary) (primary scope.reference factor) := by
  intro ps ts e rest hs h
  unfold primary at h
  split at h
  · cases h
  · cases hs with
    | @opening p ps _ hp hrest =>
      obtain ⟨qs, hqs, d, hd⟩ := closed_sound hfactor _ hrest h
      refine ⟨qs, hqs, .group d, Derives.group_iff.2 ⟨charsOf ps, ?_, hd⟩⟩
      rw [charsOf_cons, hp]
  · next run ts =>
    split at h
    · next x hx =>
      cases h
      cases hs with
      | @number _ qs _ hrun hnext hrest =>
        rw [Run.spell, String.toList_ofList] at hx
        have hnumeric : ∀ c ∈ charsOf run.toList, isNumeric c = true := by
          simpa [charsOf] using hrun
        obtain ⟨hliteral, hvalue⟩ := (Decimal.read?_eq_some_iff hnumeric).1 hx
        refine ⟨qs, hrest, .number (charsOf run.toList), ?_⟩
        exact ⟨charsOf_append _ _, Run.isMaximalRun hrun hnext, Nat.zero_le _, hliteral, hvalue⟩
    · cases h
  · next run ts =>
    obtain ⟨⟨e₁, rest₁⟩, ha, hc⟩ := exists_of_bind_eq_ok h
    dsimp only at hc
    split at hc
    · next f hf =>
      cases hc
      exact argument_sound hfactor hs hf ha
    · cases hc
  · next kind run ts =>
    obtain ⟨r, hr, hc⟩ := exists_of_bind_eq_ok h
    cases hc
    obtain ⟨target, htarget, hr⟩ := exists_of_bind_eq_ok hr
    cases hr
    cases hs with
    | @mention p _ _ qs _ hp hrun hnext hrest =>
      refine ⟨qs, hrest, .mention kind (charsOf run.toList), ?_⟩
      refine ⟨?_, Run.isMaximalRun hrun hnext, Nat.zero_le _, ⟨target, htarget⟩,
        Scope.mentioned_eq htarget⟩
      rw [charsOf_cons, charsOf_append, hp]
      rfl
  · cases h
  · cases h

theorem factor_sound (depth : Nat) :
    RuleSound scope (Derivable scope depth .factor) (Grammar.factor scope.reference depth) := by
  induction depth with
  | zero =>
    intro ps ts e rest hs h
    cases h
  | succ depth ih =>
    intro ps ts e rest hs h
    have unsigned {ts : List Token} (hs : Spells ps ts)
        (h : (primary scope.reference (Grammar.factor scope.reference depth) ts >>= fun read =>
          power (Grammar.factor scope.reference depth) read.1 read.2) = .ok (e, rest)) :
        ∃ qs, Spells qs rest ∧
          Derivable scope (depth + 1) .factor (charsOf ps) (charsOf qs) (scope.worth e) := by
      obtain ⟨⟨e₁, rest₁⟩, hp, hc⟩ := exists_of_bind_eq_ok h
      obtain ⟨qs, hqs, d, hd⟩ := primary_sound ih hs hp
      dsimp only at hc
      unfold power at hc
      split at hc
      · obtain ⟨⟨e₂, rest₂⟩, hf, hc⟩ := exists_of_bind_eq_ok hc
        cases hc
        cases hqs with
        | @operator p _ qs _ hop hrest =>
          rw [charsOf_cons, Operator.char_eq_of_ofChar? hop] at hd
          obtain ⟨qs', hqs', d', hd'⟩ := ih hrest hf
          exact ⟨qs', hqs', .power d d', Derives.power_iff.2 ⟨_, _, _, hd, hd', rfl⟩⟩
      · next hpow =>
        cases hc
        refine ⟨qs, hqs, .primary d, Derives.primary_iff.2 ⟨hd, fun hhead => ?_⟩⟩
        obtain ⟨cs, hcs⟩ := List.head?_eq_some_iff.1 hhead
        obtain ⟨-, ts', rfl, -, -⟩ := hqs.exists_operator .pow hcs
        exact hpow ts' rfl
    cases ts with
    | nil => exact unsigned hs h
    | cons t ts =>
      cases t with
      | operator op =>
        cases op with
        | add =>
          cases hs with
          | @operator p _ ps _ hop hrest =>
            obtain ⟨qs, hqs, d, hd⟩ := ih hrest h
            refine ⟨qs, hqs, .plus d, Derives.plus_iff.2 ⟨charsOf ps, ?_, hd⟩⟩
            rw [charsOf_cons, Operator.char_eq_of_ofChar? hop]
            rfl
        | sub =>
          obtain ⟨⟨e₁, rest₁⟩, hf, hc⟩ := exists_of_bind_eq_ok h
          cases hc
          cases hs with
          | @operator p _ ps _ hop hrest =>
            obtain ⟨qs, hqs, d, hd⟩ := ih hrest hf
            refine ⟨qs, hqs, .minus d, Derives.minus_iff.2 ⟨charsOf ps, _, ?_, hd, rfl⟩⟩
            rw [charsOf_cons, Operator.char_eq_of_ofChar? hop]
            rfl
        | mul | div | pow => exact unsigned hs h
      | number | word | mention | opening | closing | stray => exact unsigned hs h

end Grammar

end FormulaNet
