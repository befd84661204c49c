import FormulaNet.Formula.Mention

/-!
# Rosters

A roster holds entries under numbers that it gives out in ascending order and never twice.  The
place of an entry is its index; it goes down when an earlier entry is erased, the number stays.
-/

namespace FormulaNet

structure Roster (α : Type) where
  entries : List (NodeId × α)
  /-- The number of the next entry. -/
  next : NodeId
  ascending : (entries.map Prod.fst).Pairwise (· < ·)
  below_next : ∀ id ∈ entries.map Prod.fst, id < next

namespace Roster

variable {α β : Type}

def empty : Roster α where
  entries := []
  next := 0
  ascending := List.pairwise_map.2 .nil
  below_next := fun _ h => absurd h List.not_mem_nil

/-- The numbers of all entries, in the order of their indices. -/
def ids (r : Roster α) : List NodeId :=
  r.entries.map Prod.fst

def size (r : Roster α) : Nat :=
  r.entries.length

/-- The entry with a number. -/
def get? (r : Roster α) (id : NodeId) : Option α :=
  r.entries.lookup id

/-- The number of the entry at an index. -/
def at? (r : Roster α) (index : Nat) : Option NodeId :=
  r.ids[index]?

/-- The index of the entry with a number. -/
def indexOf? (r : Roster α) (id : NodeId) : Option Nat :=
  r.ids.idxOf? id

/-- The roster with one more entry, which has the number `r.next`. -/
def push (r : Roster α) (a : α) : Roster α where
  entries := r.entries ++ [(r.next, a)]
  next := r.next + 1
  ascending := by
    simpa [List.pairwise_append] using ⟨r.ascending, fun id a h => r.below_next id
      (List.mem_map_of_mem h)⟩
  below_next := by
    intro id h
    simp only [List.map_append, List.map_cons, List.map_nil, List.mem_append,
      List.mem_singleton] at h
    rcases h with h | rfl
    · exact Nat.lt_succ_of_lt (r.below_next id h)
    · exact Nat.lt_succ_self _

theorem map_fst_map_entries (f : NodeId → α → β) (r : Roster α) :
    (r.entries.map fun e => (e.1, f e.1 e.2)).map Prod.fst = r.entries.map Prod.fst := by
  simp [Function.comp_def]

/-- Changes every entry, by its number. -/
def map (f : NodeId → α → β) (r : Roster α) : Roster β where
  entries := r.entries.map fun e => (e.1, f e.1 e.2)
  next := r.next
  ascending := map_fst_map_entries f r ▸ r.ascending
  below_next := map_fst_map_entries f r ▸ r.below_next

/-- Changes the entry with a number, if there is one. -/
def modify (r : Roster α) (id : NodeId) (f : α → α) : Roster α :=
  r.map fun id' a => if id' = id then f a else a

/-- Removes the entry with a number. -/
def erase (r : Roster α) (id : NodeId) : Roster α where
  entries := r.entries.filter (·.1 ≠ id)
  next := r.next
  ascending := r.ascending.sublist (List.filter_sublist.map _)
  below_next := fun id' h => r.below_next id' ((List.filter_sublist.map _).subset h)

end Roster

end FormulaNet
