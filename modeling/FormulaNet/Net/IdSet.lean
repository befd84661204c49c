import FormulaNet.Formula.Mention

/-!
# Sets of nodes

A set of node numbers is their strictly ascending list.  Two sets with the same members are equal.
-/

namespace FormulaNet

structure IdSet where
  toList : List NodeId
  ascending : toList.Pairwise (· < ·)
  deriving DecidableEq

namespace IdSet

instance : Membership NodeId IdSet :=
  ⟨fun s id => id ∈ s.toList⟩

instance (id : NodeId) (s : IdSet) : Decidable (id ∈ s) :=
  inferInstanceAs (Decidable (id ∈ s.toList))

def empty : IdSet :=
  ⟨[], .nil⟩

/-- Puts a number into an ascending list, unless it is there. -/
def insertAscending (id : NodeId) : List NodeId → List NodeId
  | [] => [id]
  | x :: xs =>
    if id < x then id :: x :: xs
    else if id = x then x :: xs
    else x :: insertAscending id xs

theorem mem_insertAscending {id x : NodeId} {xs : List NodeId} :
    x ∈ insertAscending id xs ↔ x = id ∨ x ∈ xs := by
  induction xs with
  | nil => simp [insertAscending]
  | cons y ys ih =>
    unfold insertAscending
    split
    · simp
    · split
      · simp_all
      · simp only [List.mem_cons, ih]
        exact or_left_comm

theorem pairwise_insertAscending {id : NodeId} {xs : List NodeId} (h : xs.Pairwise (· < ·)) :
    (insertAscending id xs).Pairwise (· < ·) := by
  induction xs with
  | nil => simp [insertAscending]
  | cons y ys ih =>
    obtain ⟨hy, hys⟩ := List.pairwise_cons.1 h
    unfold insertAscending
    split
    · next hlt =>
      refine List.pairwise_cons.2 ⟨fun x hx => ?_, h⟩
      rcases List.mem_cons.1 hx with rfl | hx
      · exact hlt
      · exact Nat.lt_trans hlt (hy x hx)
    · split
      · exact h
      · next hlt hne =>
        refine List.pairwise_cons.2 ⟨fun x hx => ?_, ih hys⟩
        rcases mem_insertAscending.1 hx with rfl | hx
        · exact Nat.lt_of_le_of_ne (Nat.not_lt.1 hlt) (Ne.symm hne)
        · exact hy x hx

def insert (id : NodeId) (s : IdSet) : IdSet where
  toList := insertAscending id s.toList
  ascending := pairwise_insertAscending s.ascending

def erase (id : NodeId) (s : IdSet) : IdSet where
  toList := s.toList.filter (· ≠ id)
  ascending := s.ascending.filter _

def ofList (ids : List NodeId) : IdSet :=
  ids.foldr insert empty

theorem mem_toList {id : NodeId} {s : IdSet} : id ∈ s.toList ↔ id ∈ s :=
  Iff.rfl

@[simp] theorem not_mem_empty (id : NodeId) : id ∉ empty :=
  List.not_mem_nil

@[simp] theorem mem_insert {id x : NodeId} {s : IdSet} : x ∈ s.insert id ↔ x = id ∨ x ∈ s :=
  mem_insertAscending

@[simp] theorem mem_erase {id x : NodeId} {s : IdSet} : x ∈ s.erase id ↔ x ∈ s ∧ x ≠ id := by
  simp [← mem_toList, erase]

@[simp] theorem mem_ofList {x : NodeId} {ids : List NodeId} : x ∈ ofList ids ↔ x ∈ ids := by
  induction ids with
  | nil => simp [ofList]
  | cons id ids ih => simpa [ofList] using or_congr_right ih

/-- Two ascending lists with the same members are equal. -/
theorem eq_of_pairwise_of_mem_iff {xs ys : List NodeId} (hxs : xs.Pairwise (· < ·))
    (hys : ys.Pairwise (· < ·)) (h : ∀ x, x ∈ xs ↔ x ∈ ys) : xs = ys := by
  induction xs generalizing ys with
  | nil => exact (List.eq_nil_iff_forall_not_mem.2 fun x hx => by simpa using (h x).2 hx).symm
  | cons a xs ih =>
    match ys with
    | [] => simpa using (h a).1 (by simp)
    | b :: ys =>
      obtain ⟨ha, hxs'⟩ := List.pairwise_cons.1 hxs
      obtain ⟨hb, hys'⟩ := List.pairwise_cons.1 hys
      have hab : a = b := by
        rcases List.mem_cons.1 ((h a).1 (by simp)) with e | hab
        · exact e
        rcases List.mem_cons.1 ((h b).2 (by simp)) with e | hba
        · exact e.symm
        exact absurd (hb a hab) (Nat.lt_asymm (ha b hba))
      subst hab
      congr 1
      refine ih hxs' hys' fun x => ⟨fun hx => ?_, fun hx => ?_⟩
      · rcases List.mem_cons.1 ((h x).1 (List.mem_cons_of_mem _ hx)) with rfl | hx'
        · exact absurd (ha x hx) (Nat.lt_irrefl x)
        · exact hx'
      · rcases List.mem_cons.1 ((h x).2 (List.mem_cons_of_mem _ hx)) with rfl | hx'
        · exact absurd (hb x hx) (Nat.lt_irrefl x)
        · exact hx'

@[ext] theorem ext {s t : IdSet} (h : ∀ id, id ∈ s ↔ id ∈ t) : s = t := by
  cases s with | mk xs hxs =>
  cases t with | mk ys hys =>
  congr 1
  exact eq_of_pairwise_of_mem_iff hxs hys h

theorem nodup_toList (s : IdSet) : s.toList.Nodup :=
  s.ascending.imp Nat.ne_of_lt

theorem erase_of_not_mem {id : NodeId} {s : IdSet} (h : id ∉ s) : s.erase id = s := by
  ext x
  rw [mem_erase]
  refine ⟨And.left, fun hx => ⟨hx, ?_⟩⟩
  rintro rfl
  exact h hx

theorem erase_erase_comm (s : IdSet) (a b : NodeId) : (s.erase a).erase b = (s.erase b).erase a := by
  ext x
  simp only [mem_erase, and_right_comm]

theorem insert_erase (id : NodeId) (s : IdSet) : (s.erase id).insert id = s.insert id := by
  ext x
  simp only [mem_insert, mem_erase]
  refine ⟨fun h => h.imp_right And.left, fun h => ?_⟩
  by_cases hx : x = id
  · exact .inl hx
  · exact .inr ⟨h.resolve_left hx, hx⟩

end IdSet

end FormulaNet
