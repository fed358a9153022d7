import Spillway.Memtable
import Spillway.Proofs.KeyMap

/-!
# The size of a memtable

A memtable keeps count of its bytes as it is written to. The count is always that of the entries it
holds (`Memtable.Counted`), however often keys are written again or deleted.
-/

namespace Spillway

namespace KeyMap

variable {α : Type} {m : KeyMap α} {key : Bytes} {value : α} {weigh : Bytes × α → Nat}

/-- What all pairs weigh together. -/
def weight (weigh : Bytes × α → Nat) : KeyMap α → Nat
  | [] => 0
  | pair :: rest => weigh pair + weight weigh rest

theorem weight_cons (pair : Bytes × α) (rest : KeyMap α) :
    weight weigh (pair :: rest) = weigh pair + weight weigh rest := rfl

/-- A value that is put at a key adds its weight and takes away that of the one it replaces. -/
theorem Sorted.weight_insert (h : m.Sorted) :
    weight weigh (m.insert key value) + ((m.find? key).map fun old => weigh (key, old)).getD 0 =
      weight weigh m + weigh (key, value) := by
  induction m with
  | nil => exact Nat.add_comm _ _
  | cons pair rest ih =>
    obtain ⟨k, v⟩ := pair
    obtain ⟨hfirst, hrest⟩ := sorted_cons.1 h
    unfold KeyMap.insert
    by_cases hlt : key < k
    · have hnone : find? ((k, v) :: rest) key = none :=
        find?_eq_none_of_lt (List.forall_mem_cons.2
          ⟨hlt, fun p hp => Std.lt_trans hlt (hfirst p hp)⟩)
      rw [if_pos hlt, hnone, weight_cons, Option.map_none, Option.getD_none, Nat.add_zero,
        Nat.add_comm]
    · rw [if_neg hlt, find?_cons]
      by_cases heq : key = k
      · subst heq
        rw [if_pos rfl, if_pos rfl, weight_cons, weight_cons, Option.map_some, Option.getD_some]
        dsimp only
        omega
      · have hih := ih hrest
        rw [if_neg heq, if_neg heq, weight_cons, weight_cons]
        omega

end KeyMap

namespace Memtable

variable {m : Memtable} {key : Bytes} {value : Option Bytes}

/-- Bytes of all entries. -/
def total (m : Memtable) : Nat := m.entries.weight fun entry => footprint entry.1 entry.2

/-- The size of a memtable is that of its entries, which have keys of their own. -/
structure Counted (m : Memtable) : Prop where
  sorted : m.entries.Sorted
  exact : m.size = m.total

theorem counted_empty : Counted {} := ⟨KeyMap.sorted_nil, rfl⟩

theorem Counted.write (h : m.Counted) : (m.write key value).Counted := by
  refine ⟨h.sorted.insert, ?_⟩
  have hweight : (m.write key value).total + ((m.entries.find? key).map (footprint key)).getD 0 =
    m.total + footprint key value := h.sorted.weight_insert
  have hexact := h.exact
  show m.size + footprint key value - ((m.entries.find? key).map (footprint key)).getD 0 =
    (m.write key value).total
  omega

/-- A memtable that was written to has an entry. -/
theorem isEmpty_write : (m.write key value).isEmpty = false := by
  show (m.entries.insert key value).isEmpty = false
  unfold KeyMap.insert
  grind

end Memtable

end Spillway
