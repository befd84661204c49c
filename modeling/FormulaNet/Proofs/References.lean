import FormulaNet.Proofs.Links

/-!
# References that stay faithful

The references of a node point at tokens in its input, one behind the other, and each token names the
target as it is found from this node in the net as it is.  `Net.run_referencesFaithful` says so for
every run, whether the formula of the node can still be evaluated or not.
-/

namespace FormulaNet

theorem Announces.byteSize_pos {before : List Char} (h : Announces before) : 0 < byteSize before := by
  obtain ⟨cs, blanks, rfl, -, -⟩ := h
  rw [byteSize_append, byteSize_cons]
  have := Char.utf8Size_pos '@'
  omega

/-- Every reference is behind the one before it, with an `@` between them. -/
theorem Fits.pairwise_refsFrom {d : Prop} {ps : List Piece} (h : Fits d ps) (start : Nat) :
    (∀ r ∈ LinkedText.refsFrom start ps, start < r.span.start) ∧
      (LinkedText.refsFrom start ps).Pairwise fun r s => r.span.stop < s.span.start := by
  induction h generalizing start with
  | last => exact ⟨fun r hr => absurd hr List.not_mem_nil, .nil⟩
  | @link before after token kind target ps hb ha hr ih =>
    have hpos := hb.byteSize_pos
    obtain ⟨hbehind, hpairwise⟩ := ih (start + byteSize before + byteSize token)
    rw [LinkedText.refsFrom, LinkedText.refsFrom]
    refine ⟨fun r hr => ?_, List.pairwise_cons.2 ⟨hbehind, hpairwise⟩⟩
    rcases List.mem_cons.1 hr with rfl | hr
    · exact Nat.lt_add_of_pos_right hpos
    · have := hbehind r hr
      omega
  | @dangling before after ps hd hb ha hr ih =>
    have hpos := hb.byteSize_pos
    obtain ⟨hbehind, hpairwise⟩ :=
      ih (start + byteSize before + byteSize danglingToken.toList)
    rw [LinkedText.refsFrom, LinkedText.refsFrom]
    refine ⟨fun r hr => ?_, hpairwise⟩
    have := hbehind r hr
    omega

namespace Net

/-- A token, blanks removed, names a node as it is found from a host: its name is that of the node, no
other node before it has the name unless that is empty, and a number is its index. -/
def Names (net : Net) (host : NodeId) (target : NodeId) (token : String) : MentionKind → Prop
  | .name => (∃ m, net.node? target = some m ∧ m.key = token) ∧
      (token ≠ "" → ∃ i, net.nodes.at? i = some target ∧
        ∀ j < i, ∀ other m, net.nodes.at? j = some other → net.node? other = some m →
          m.key = token → other = host)
  | .index => token ≠ "" ∧ (∀ c ∈ token.toList, c.isDigit = true) ∧
      net.nodes.at? (Decimal.natural token.toList) = some target

/-- A reference points at a token in the input of its host, which names its target. -/
structure Faithful (net : Net) (host : NodeId) (n : Node) (r : Reference) : Prop where
  live : ∃ m, net.node? r.target = some m
  other : r.target ≠ host
  token : ∃ before token after, n.input.toList = before ++ (token ++ after) ∧
    r.span.start = byteSize before ∧ r.span.stop = byteSize before + byteSize token ∧
    net.Names host r.target (squeeze (.ofList token)) r.kind

/-- The references of all nodes are apart, in the order of the text, and faithful. -/
structure ReferencesFaithful (net : Net) : Prop where
  apart : ∀ id n, net.node? id = some n →
    n.content.refs.Pairwise fun r s => r.span.stop < s.span.start
  faithful : ∀ id n r, net.node? id = some n → r ∈ n.content.refs → net.Faithful id n r

/-- A name reaches the first of the nodes that have it, the host aside. -/
theorem first_of_resolveName {net : Net} {host target : NodeId} {key : String}
    (h : net.resolveName host key = .ok target) :
    ∃ i, net.nodes.at? i = some target ∧
      ∀ j < i, ∀ other m, net.nodes.at? j = some other → net.node? other = some m →
        m.key = key → other = host := by
  obtain ⟨hc, i, hi, hget, hbefore⟩ := List.find?_eq_some_iff_getElem.1 (resolveName_eq_ok_iff.1 h)
  have hat : ∀ k, net.nodes.at? k = net.directory[k]?.map Prod.fst := by
    intro k
    rw [Roster.at?, ← map_fst_directory, List.getElem?_map]
  refine ⟨i, by rw [hat, List.getElem?_eq_getElem hi, hget]; rfl, ?_⟩
  intro j hj other m hother hm hkey
  have hlt : j < net.directory.length := Nat.lt_trans hj hi
  rw [hat, List.getElem?_eq_getElem hlt, Option.map_some, Option.some.injEq] at hother
  have hnot := hbefore j hj
  have hmem : net.directory[j] ∈ net.directory := List.getElem_mem hlt
  generalize net.directory[j] = e at hother hnot hmem
  obtain ⟨other', key'⟩ := e
  obtain rfl : other' = other := hother
  obtain ⟨m', hm', rfl⟩ := mem_directory.1 hmem
  obtain rfl : m = m' := Option.some.inj (hm.symm.trans hm')
  simpa [candidate, hkey] using hnot

theorem names_of_reaches {blanks : Prop} {net : Net} {host target : NodeId} {kind : MentionKind}
    {token : List Char} (h : net.Reaches blanks host kind target token) :
    net.Names host target (squeeze (.ofList token)) kind := by
  cases h with
  | blank hblanks htarget hne =>
    exact ⟨mem_directory.1 htarget, fun htoken => absurd rfl htoken⟩
  | token ht hr =>
    cases kind with
    | name => exact ⟨mem_directory.1 (resolveName_target hr).1, fun _ => first_of_resolveName hr⟩
    | index =>
      refine ⟨ht.squeeze_ne_empty, fun c hc => ?_, (resolveIndex_eq_ok_iff.1 hr).1⟩
      rw [squeeze_ofList, String.toList_ofList] at hc
      obtain ⟨hmem, hnb⟩ := List.mem_filter.1 hc
      exact ht.admits c hmem (by simpa using hnb)

theorem target_of_reaches {blanks : Prop} {net : Net} {host target : NodeId} {kind : MentionKind}
    {token : List Char} (h : net.Reaches blanks host kind target token) :
    (∃ m, net.node? target = some m) ∧ target ≠ host := by
  cases h with
  | token ht hr => exact resolve_target hr
  | blank hblanks htarget hne =>
    obtain ⟨m, hm, -⟩ := mem_directory.1 htarget
    exact ⟨⟨m, hm⟩, hne⟩

/-- References stay faithful to the text and to the net in every run. -/
theorem run_referencesFaithful (settings : Settings) (ops : List Operation) :
    (run settings ops).ReferencesFaithful := by
  have hsound := formulasSound_run settings ops
  have hlinked : (run settings ops).Linked True :=
    @linked_run True (fun _ => True) (fun _ _ _ => trivial) settings ops fun _ _ _ _ => trivial
  constructor
  case apart =>
    intro id n hn
    cases hcontent : n.content with
    | number x => exact .nil
    | formula t => exact ((hsound id n t hn hcontent).fits.pairwise_refsFrom 0).2
  case faithful =>
    intro id n r hn hr
    cases hcontent : n.content with
    | number x =>
      rw [hcontent] at hr
      cases hr
    | formula t =>
      rw [hcontent] at hr
      obtain ⟨ps₁, token, ps₂, hpieces, hstart, hstop⟩ :=
        LinkedText.exists_split_of_mem_refsFrom hr
      have hreach := hlinked id n t hn hcontent r.kind r.target token (by simp [hpieces])
      obtain ⟨hlive, hother⟩ := target_of_reaches hreach
      refine ⟨hlive, hother, writtenAs Piece.chars ps₁, token, writtenAs Piece.chars ps₂, ?_, ?_, ?_,
        names_of_reaches hreach⟩
      · rw [Node.input, hcontent, Content.input, LinkedText.text, String.toList_ofList,
          LinkedText.chars, hpieces, List.flatMap_append, List.flatMap_cons]
        rfl
      · rw [hstart, Nat.zero_add]
      · rw [hstop, hstart, Nat.zero_add]

end Net

end FormulaNet
