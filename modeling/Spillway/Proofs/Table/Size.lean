import Mathlib.Algebra.Order.BigOperators.Group.List
import Mathlib.Algebra.Order.Group.Nat
import Mathlib.Data.List.Nodup
import Mathlib.Data.List.Perm.Subperm
import Spillway.Proofs.Store.Tables

/-!
# How large tables can be

An entry has its share of the bytes of a table file, for itself and for its place in the index. A file
is no larger than its ends and the shares of its entries (`length_layout_le`), so that tables of entries
out of one list are never too large when the shares of the whole list are not (`not_oversized`).
-/

namespace Spillway.Table

/-- The bytes that an entry takes of a file at most. -/
def share (entry : Entry) : Nat := (entryBytes entry).length + (12 + entry.1.length)

theorem length_index_le (interval : Nat) (places : List Sample) :
    ((sampled interval places).flatMap sampleBytes).length ≤
      (places.map fun place => 12 + place.1.length).sum := by
  rw [List.length_flatMap]
  have hmap := (sampled_sublist interval places).map fun place => (sampleBytes place).length
  have hsum := hmap.sum_le_sum fun _ _ => Nat.zero_le _
  simp only [length_sampleBytes] at hsum ⊢
  exact hsum

/-- A file is no larger than its header, its footer and the shares of its entries. -/
theorem length_layout_le (interval : Nat) (entries : List Entry) :
    (layout interval entries).length ≤ headerSize + (entries.map share).sum + footerSize := by
  have hindex := length_index_le interval (placed headerSize entries)
  have hkeys : (placed headerSize entries).map (fun place => 12 + place.1.length) =
      entries.map fun entry => 12 + entry.1.length := by
    have hfst := congrArg (List.map fun key : Bytes => 12 + key.length)
      (map_fst_placed headerSize entries)
    rwa [List.map_map, List.map_map] at hfst
  have hshares : (entries.map share).sum =
      (entries.flatMap entryBytes).length + (entries.map fun entry => 12 + entry.1.length).sum := by
    rw [List.length_flatMap, ← List.sum_map_add]
    rfl
  rw [hkeys] at hindex
  rw [length_layout, hshares]
  omega

/-- Entries in order, all of them out of a list, have no more than the shares of the list. -/
theorem sum_share_le {entries listed : List Entry} (hsorted : KeyMap.Sorted entries)
    (hsub : ∀ entry ∈ entries, entry ∈ listed) :
    (entries.map share).sum ≤ (listed.map share).sum := by
  have hnodup : entries.Nodup := List.Nodup.of_map Prod.fst hsorted.nodup
  obtain ⟨same, hperm, hsublist⟩ := hnodup.subperm hsub
  rw [← (hperm.map share).sum_eq]
  exact (hsublist.map share).sum_le_sum fun _ _ => Nat.zero_le _

theorem not_oversized {listed : List Entry}
    (h : headerSize + (listed.map share).sum + footerSize ≤ Disk.maxFileBytes) :
    ¬ Oversized (· ∈ listed) := by
  intro ⟨interval, entries, hsorted, hlisted, hlarge⟩
  have hlayout := length_layout_le interval entries
  have hshares := sum_share_le hsorted hlisted
  omega

end Spillway.Table
