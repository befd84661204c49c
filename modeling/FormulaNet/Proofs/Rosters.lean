import FormulaNet.Net.Roster
import Mathlib.Data.List.Nodup

/-!
# Entries of rosters

Which entry has a number and which number has an index, after each of the operations on rosters.  An
entry and its index tell each other (`Roster.indexOf?_eq_some_iff`), and an erased entry moves the
later ones down by one (`Roster.at?_erase`).
-/

namespace FormulaNet.Roster

variable {α β : Type}

theorem mem_ids {r : Roster α} {id : NodeId} : id ∈ r.ids ↔ ∃ a, (id, a) ∈ r.entries := by
  simp [ids]

theorem nodup_ids (r : Roster α) : r.ids.Nodup :=
  r.ascending.imp Nat.ne_of_lt

theorem lt_next_of_mem {r : Roster α} {id : NodeId} (h : id ∈ r.ids) : id < r.next :=
  r.below_next id h

/-! ## Changes of every entry -/

theorem map_map {γ : Type} (g : NodeId → β → γ) (f : NodeId → α → β) (r : Roster α) :
    (r.map f).map g = r.map fun id a => g id (f id a) := by
  simp [map, Function.comp_def]

theorem map_id (r : Roster α) : (r.map fun _ a => a) = r := by
  simp [map]

theorem map_congr {f g : NodeId → α → β} {r : Roster α}
    (h : ∀ id a, (id, a) ∈ r.entries → f id a = g id a) : r.map f = r.map g := by
  have hentries :
      (r.entries.map fun e => (e.1, f e.1 e.2)) = r.entries.map fun e => (e.1, g e.1 e.2) :=
    List.map_congr_left fun e he => by rw [h e.1 e.2 he]
  simp [map, hentries]

theorem mem_entries_erase {r : Roster α} {id x : NodeId} {a : α} :
    (x, a) ∈ (r.erase id).entries ↔ (x, a) ∈ r.entries ∧ x ≠ id := by
  simp [erase]

theorem erase_erase_comm (r : Roster α) (a b : NodeId) : (r.erase a).erase b = (r.erase b).erase a := by
  simp [erase, Bool.and_comm]

theorem erase_map (f : NodeId → α → β) (r : Roster α) (id : NodeId) :
    (r.map f).erase id = (r.erase id).map f := by
  simp [map, erase, List.filter_map, Function.comp_def]

/-! ## Entries by number -/

theorem lookup_map (f : NodeId → α → β) (l : List (NodeId × α)) (id : NodeId) :
    (l.map fun e => (e.1, f e.1 e.2)).lookup id = (l.lookup id).map (f id) := by
  induction l with
  | nil => rfl
  | cons e l ih =>
    obtain ⟨id', a⟩ := e
    by_cases h : id = id'
    · subst h
      simp
    · simp [List.lookup_cons, beq_false_of_ne h, ih]

theorem lookup_filter_ne (l : List (NodeId × α)) (id x : NodeId) :
    (l.filter (·.1 ≠ id)).lookup x = if x = id then none else l.lookup x := by
  induction l with
  | nil => simp
  | cons e l ih =>
    obtain ⟨id', a⟩ := e
    by_cases h : id' = id
    · subst h
      by_cases hx : x = id'
      · simpa [hx] using ih
      · simpa [hx, List.lookup_cons, beq_false_of_ne hx] using ih
    · by_cases hx : x = id'
      · subst hx
        simp [h]
      · simpa [h, List.lookup_cons, beq_false_of_ne hx] using ih

@[simp] theorem get?_map (f : NodeId → α → β) (r : Roster α) (id : NodeId) :
    (r.map f).get? id = (r.get? id).map (f id) :=
  lookup_map f r.entries id

theorem get?_modify (r : Roster α) (id : NodeId) (f : α → α) (x : NodeId) :
    (r.modify id f).get? x = if x = id then (r.get? x).map f else r.get? x := by
  rw [modify, get?_map]
  by_cases h : x = id
  · simp [h]
  · simp [h]

theorem get?_erase (r : Roster α) (id x : NodeId) :
    (r.erase id).get? x = if x = id then none else r.get? x :=
  lookup_filter_ne r.entries id x

theorem get?_eq_some_iff_mem {r : Roster α} {id : NodeId} {a : α} :
    r.get? id = some a ↔ (id, a) ∈ r.entries := by
  constructor
  · intro h
    obtain ⟨before, after, he, -⟩ := List.lookup_eq_some_iff.1 h
    simp [he]
  · intro h
    obtain ⟨before, after, he⟩ := List.append_of_mem h
    refine List.lookup_eq_some_iff.2 ⟨before, after, he, fun e hmem => ?_⟩
    have hlt : e.1 < id := by
      have hasc := r.ascending
      rw [he, List.map_append, List.pairwise_append] at hasc
      exact hasc.2.2 e.1 (List.mem_map_of_mem hmem) id (by simp)
    simpa using Nat.ne_of_gt hlt

theorem entries_eq (r : Roster α) : r.entries = r.ids.filterMap fun id => (r.get? id).map (id, ·) := by
  have hself : ∀ e ∈ r.entries, (r.get? e.1).map (e.1, ·) = some e := by
    rintro ⟨id, a⟩ he
    rw [get?_eq_some_iff_mem.2 he, Option.map_some]
  rw [ids, List.filterMap_map]
  exact (List.filterMap_some.symm.trans (List.filterMap_congr fun e he => (hself e he).symm))

/-- A roster is told by the numbers in it and their entries. -/
theorem eq_of_get?_eq {r r' : Roster α} (hids : r'.ids = r.ids) (hnext : r'.next = r.next)
    (hget : ∀ id, r'.get? id = r.get? id) : r' = r := by
  have hentries : r'.entries = r.entries := by
    rw [entries_eq, entries_eq, hids]
    exact congrArg (r.ids.filterMap ·) (funext fun id => by rw [hget])
  cases r
  cases r'
  congr

theorem mem_ids_iff_get? {r : Roster α} {id : NodeId} : id ∈ r.ids ↔ ∃ a, r.get? id = some a := by
  rw [mem_ids]
  exact exists_congr fun a => get?_eq_some_iff_mem.symm

theorem get?_next (r : Roster α) : r.get? r.next = none := by
  cases h : r.get? r.next with
  | none => rfl
  | some a => exact absurd (lt_next_of_mem (mem_ids_iff_get?.2 ⟨a, h⟩)) (Nat.lt_irrefl _)

theorem get?_push (r : Roster α) (a : α) (x : NodeId) :
    (r.push a).get? x = if x = r.next then some a else r.get? x := by
  rw [get?, push, List.lookup_append]
  by_cases h : x = r.next
  · subst h
    have hnone : r.entries.lookup r.next = none := r.get?_next
    simp [hnone]
  · simp [h, get?, List.lookup_cons, beq_false_of_ne h]

/-! ## Numbers by index -/

@[simp] theorem ids_map (f : NodeId → α → β) (r : Roster α) : (r.map f).ids = r.ids :=
  map_fst_map_entries f r

@[simp] theorem ids_push (r : Roster α) (a : α) : (r.push a).ids = r.ids ++ [r.next] := by
  simp [ids, push]

theorem ids_erase (r : Roster α) (id : NodeId) : (r.erase id).ids = r.ids.erase id := by
  rw [r.nodup_ids.erase_eq_filter, ids, erase, ids, List.filter_map]
  exact congrArg (List.map Prod.fst) (List.filter_congr fun e _ => Bool.eq_iff_iff.2 (by simp))

theorem at?_congr {r : Roster α} {r' : Roster β} (h : r'.ids = r.ids) (i : Nat) :
    r'.at? i = r.at? i := by
  rw [at?, at?, h]

theorem indexOf?_congr {r : Roster α} {r' : Roster β} (h : r'.ids = r.ids) (id : NodeId) :
    r'.indexOf? id = r.indexOf? id := by
  rw [indexOf?, indexOf?, h]

theorem mem_ids_of_at? {r : Roster α} {index : Nat} {id : NodeId} (h : r.at? index = some id) :
    id ∈ r.ids :=
  List.mem_of_getElem? h

/-- A number and its index tell each other. -/
theorem indexOf?_eq_some_iff {r : Roster α} {id : NodeId} {index : Nat} :
    r.indexOf? id = some index ↔ r.at? index = some id := by
  rw [indexOf?, at?, List.idxOf?_eq_some_iff, List.getElem?_eq_some_iff]
  constructor
  · rintro ⟨hlt, h, -⟩
    exact ⟨hlt, h⟩
  · rintro ⟨hlt, h⟩
    refine ⟨hlt, h, fun j hj hj' => ?_⟩
    exact Nat.ne_of_lt hj ((r.nodup_ids.getElem_inj_iff).1 (hj'.trans h.symm))

theorem exists_indexOf? {r : Roster α} {id : NodeId} (h : id ∈ r.ids) :
    ∃ index, r.indexOf? id = some index :=
  Option.isSome_iff_exists.1 (List.isSome_idxOf?.2 h)

theorem at?_inj {r : Roster α} {i j : Nat} {id : NodeId} (hi : r.at? i = some id)
    (hj : r.at? j = some id) : i = j :=
  Option.some.inj ((indexOf?_eq_some_iff.2 hi).symm.trans (indexOf?_eq_some_iff.2 hj))

theorem indexOf?_inj {r : Roster α} {id id' : NodeId} {i : Nat} (h : r.indexOf? id = some i)
    (h' : r.indexOf? id' = some i) : id = id' :=
  Option.some.inj ((indexOf?_eq_some_iff.1 h).symm.trans (indexOf?_eq_some_iff.1 h'))

/-- An erased entry moves the later ones down by one. -/
theorem at?_erase {r : Roster α} {id : NodeId} {index : Nat} (h : r.at? index = some id) (i : Nat) :
    (r.erase id).at? i = if i < index then r.at? i else r.at? (i + 1) := by
  have hidx : r.ids.idxOf id = index := by
    obtain ⟨hlt, rfl⟩ := List.getElem?_eq_some_iff.1 h
    exact r.nodup_ids.idxOf_getElem index hlt
  rw [at?, ids_erase, ← List.eraseIdx_idxOf_eq_erase, hidx, List.getElem?_eraseIdx]
  rfl

/-- The other entries have the index that they had, or one less. -/
theorem indexOf?_erase {r : Roster α} {id x : NodeId} {index : Nat} (h : r.indexOf? id = some index)
    (hx : x ≠ id) :
    (r.erase id).indexOf? x = (r.indexOf? x).map fun j => if index < j then j - 1 else j := by
  have hat := indexOf?_eq_some_iff.1 h
  cases hj : r.indexOf? x with
  | none =>
    rw [Option.map_none, indexOf?, List.idxOf?_eq_none_iff, ids_erase]
    exact fun hmem => List.idxOf?_eq_none_iff.1 hj (List.mem_of_mem_erase hmem)
  | some j =>
    have hjat := indexOf?_eq_some_iff.1 hj
    have hne : j ≠ index := by
      rintro rfl
      exact hx (indexOf?_inj hj h)
    rw [Option.map_some, indexOf?_eq_some_iff, at?_erase hat]
    by_cases hlt : index < j
    · rw [if_pos hlt, if_neg (by omega), Nat.sub_add_cancel (by omega)]
      exact hjat
    · rw [if_neg hlt, if_pos (by omega)]
      exact hjat

end FormulaNet.Roster
