import Mathlib.Data.List.Basic
import Spillway.Disk
import Spillway.Memtable
import Spillway.Table.Writer

/-!
# The parts of a table file

Sizes and places of the entries in the layout of a table file, and which of them the index lists:
some of them, and always the first and the last. `IsFile` says of bytes that they are a table file
with given entries.
-/

namespace Spillway.Table

/-- Key and value are short enough for a table. -/
def Fits (entry : Entry) : Prop := Writer.longest entry ≤ maxEntryBytes

theorem Fits.key {entry : Entry} (h : Fits entry) : entry.1.length ≤ maxEntryBytes :=
  Nat.le_trans (Nat.le_max_left _ _) h

theorem Fits.value {key value : Bytes} (h : Fits (key, some value)) :
    value.length ≤ maxEntryBytes :=
  Nat.le_trans (Nat.le_max_right _ _) h

/-! ## Entries -/

theorem length_entryBytes (entry : Entry) :
    (entryBytes entry).length = entryHeaderSize + Memtable.footprint entry.1 entry.2 := by
  obtain ⟨key, _ | value⟩ := entry
  · simp only [entryBytes, List.length_append, LittleEndian.length_encode, Memtable.footprint,
      entryHeaderSize, Option.map_none, Option.getD_none]
    omega
  · simp only [entryBytes, List.length_append, LittleEndian.length_encode, Memtable.footprint,
      entryHeaderSize, Option.map_some, Option.getD_some]
    omega

theorem length_sampleBytes (sample : Sample) : (sampleBytes sample).length = 12 + sample.1.length := by
  simp only [sampleBytes, List.length_append, LittleEndian.length_encode]

theorem length_header (count : Nat) : (header count).length = headerSize := by
  simp only [header, List.length_append, LittleEndian.length_encode]
  rfl

theorem length_footer (indexOffset : Nat) (checksum : UInt32) (interval : Nat) :
    (footer indexOffset checksum interval).length = footerSize := by
  simp only [footer, List.length_append, LittleEndian.length_encode]
  rfl

/-! ## Places -/

theorem placed_append (offset : Nat) (front back : List Entry) :
    placed offset (front ++ back) =
      placed offset front ++ placed (offset + (front.flatMap entryBytes).length) back := by
  induction front generalizing offset with
  | nil => rfl
  | cons entry front ih =>
    rw [List.cons_append, placed, placed, ih, List.cons_append, List.flatMap_cons, List.length_append,
      Nat.add_assoc]

theorem length_placed (offset : Nat) (entries : List Entry) :
    (placed offset entries).length = entries.length := by
  induction entries generalizing offset with
  | nil => rfl
  | cons entry entries ih => rw [placed, List.length_cons, ih, List.length_cons]

theorem map_fst_placed (offset : Nat) (entries : List Entry) :
    (placed offset entries).map Prod.fst = entries.map Prod.fst := by
  induction entries generalizing offset with
  | nil => rfl
  | cons entry entries ih => rw [placed, List.map_cons, ih, List.map_cons]

/-- A place is that of an entry, after the bytes of the entries before it. -/
theorem mem_placed {offset : Nat} {entries : List Entry} {sample : Sample}
    (h : sample ∈ placed offset entries) : ∃ front entry back, entries = front ++ entry :: back ∧
      sample = (entry.1, offset + (front.flatMap entryBytes).length) := by
  induction entries generalizing offset with
  | nil => cases h
  | cons entry entries ih =>
    rw [placed] at h
    rcases List.mem_cons.1 h with rfl | h
    · exact ⟨[], entry, entries, rfl, rfl⟩
    · obtain ⟨front, entry', back, rfl, rfl⟩ := ih h
      refine ⟨entry :: front, entry', back, rfl, ?_⟩
      rw [List.flatMap_cons, List.length_append, Nat.add_assoc]

/-- All places lie before the end of the entries. -/
theorem lt_of_mem_placed {offset : Nat} {entries : List Entry} {sample : Sample}
    (h : sample ∈ placed offset entries) :
    sample.2 < offset + (entries.flatMap entryBytes).length := by
  obtain ⟨front, entry, back, rfl, rfl⟩ := mem_placed h
  simp only [List.flatMap_append, List.flatMap_cons, List.length_append, length_entryBytes,
    entryHeaderSize]
  omega

/-! ## The index -/

/-- What is picked by position stands in the same order. -/
theorem pick_sublist (p : Nat → Prop) [DecidablePred p] (places : List Sample) (first : Nat) :
    ((places.zipIdx first).filterMap fun x => if p x.2 then some x.1 else none).Sublist places := by
  induction places generalizing first with
  | nil => exact List.Sublist.refl _
  | cons place places ih =>
    rw [List.zipIdx_cons, List.filterMap_cons]
    by_cases hp : p first
    · simp only [if_pos hp]
      exact (ih (first + 1)).cons_cons place
    · simp only [if_neg hp]
      exact (ih (first + 1)).cons place

theorem sampled_sublist (interval : Nat) (places : List Sample) :
    (sampled interval places).Sublist places :=
  pick_sublist (fun i => i % interval = 0 ∨ i + 1 = places.length) places 0

theorem mem_of_mem_sampled {interval : Nat} {places : List Sample} {sample : Sample}
    (h : sample ∈ sampled interval places) : sample ∈ places :=
  (sampled_sublist interval places).mem h

theorem head?_sampled (interval : Nat) (places : List Sample) :
    (sampled interval places).head? = places.head? := by
  cases places with
  | nil => rfl
  | cons place places =>
    rw [sampled, List.zipIdx_cons, List.filterMap_cons_some (b := place)]
    · rfl
    · exact if_pos (.inl (Nat.zero_mod interval))

/-- Every `interval`-th place. -/
def everyNth (interval : Nat) (places : List Sample) : List Sample :=
  places.zipIdx.filterMap fun (sample, i) => if i % interval = 0 then some sample else none

theorem everyNth_concat (interval : Nat) (places : List Sample) (last : Sample) :
    everyNth interval (places ++ [last]) =
      everyNth interval places ++ if places.length % interval = 0 then [last] else [] := by
  rw [everyNth, List.zipIdx_append, List.filterMap_append, ← everyNth, Nat.zero_add]
  by_cases h : places.length % interval = 0 <;> simp [h]

theorem mem_of_mem_everyNth {interval : Nat} {places : List Sample} {sample : Sample}
    (h : sample ∈ everyNth interval places) : sample ∈ places :=
  (pick_sublist (fun i => i % interval = 0) places 0).mem h

/-- The index lists every `interval`-th place before the last one, and the last one. -/
theorem sampled_concat (interval : Nat) (places : List Sample) (last : Sample) :
    sampled interval (places ++ [last]) = everyNth interval places ++ [last] := by
  have hbefore : places.zipIdx.filterMap (fun x : Sample × Nat =>
      if x.2 % interval = 0 ∨ x.2 + 1 = (places ++ [last]).length then some x.1 else none) =
        everyNth interval places := by
    refine List.filterMap_congr fun x hx => ?_
    have hlt := List.snd_lt_of_mem_zipIdx hx
    rw [Nat.add_zero] at hlt
    have hne : ¬ x.2 + 1 = (places ++ [last]).length := by
      rw [List.length_append, List.length_singleton]
      omega
    simp only [hne, or_false]
  have hlast : ([last].zipIdx (0 + places.length)).filterMap (fun x : Sample × Nat =>
      if x.2 % interval = 0 ∨ x.2 + 1 = (places ++ [last]).length then some x.1 else none) =
        [last] := by
    simp
  rw [sampled, List.zipIdx_append, List.filterMap_append]
  exact congrArg₂ _ hbefore hlast

theorem getLast?_sampled (interval : Nat) (places : List Sample) :
    (sampled interval places).getLast? = places.getLast? := by
  rcases List.eq_nil_or_concat places with rfl | ⟨before, last, rfl⟩
  · rfl
  · rw [List.concat_eq_append, sampled_concat, List.getLast?_concat, List.getLast?_concat]

/-! ## Table files -/

theorem length_layout (interval : Nat) (entries : List Entry) :
    (layout interval entries).length = headerSize + (entries.flatMap entryBytes).length +
      ((sampled interval (placed headerSize entries)).flatMap sampleBytes).length + footerSize := by
  simp only [layout, List.length_append, length_header, length_footer]

/-- The bytes are a table file that holds the entries. -/
structure IsFile (entries : List Entry) (bytes : Bytes) : Prop where
  sorted : KeyMap.Sorted entries
  fits : ∀ entry ∈ entries, Fits entry
  small : bytes.length ≤ Disk.maxFileBytes
  layout : ∃ interval, bytes = layout interval entries

end Spillway.Table
