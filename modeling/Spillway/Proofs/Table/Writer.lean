import Spillway.Proofs.Newest
import Spillway.Proofs.Table.Layout

/-!
# What a writer writes

`Wrote` describes a writer by the entries it was given. Each entry that fits and comes after the
ones before it keeps the description true (`Wrote.add`), and the file of a writer is the layout of
its entries (`Wrote.image`).
-/

namespace Spillway.Table

namespace Writer

variable {w : Writer} {entries more : List Entry} {entry : Entry}

/-- The writer was given these entries, and no others that it accepted. -/
structure Wrote (w : Writer) (entries : List Entry) : Prop where
  count : w.count = entries.length
  offset : w.offset = headerSize + (entries.flatMap entryBytes).length
  samples : w.samples.reverse = everyNth w.interval (placed headerSize entries)
  first : w.first = entries.head?.map Prod.fst
  last : w.last = (placed headerSize entries).getLast?
  checksum : w.checksum = Checksum.start.update (entries.flatMap entryBytes)
  data : w.data = entries.flatMap entryBytes

theorem wrote_nil (path : Path) (file : FileId) (interval : Nat) :
    Wrote { path, file, interval } [] where
  count := rfl
  offset := rfl
  samples := rfl
  first := rfl
  last := rfl
  checksum := rfl
  data := rfl

theorem Wrote.map_fst_last (h : w.Wrote entries) :
    w.last.map Prod.fst = entries.getLast?.map Prod.fst := by
  rw [h.last, ← List.getLast?_map, map_fst_placed, List.getLast?_map]

/-- The last key is the only one that decides on the order. -/
theorem Wrote.outOfOrder_eq_false (h : w.Wrote entries)
    (hs : KeyMap.Sorted (entries ++ entry :: more)) : w.outOfOrder entry.1 = false := by
  have hlast := h.map_fst_last
  unfold outOfOrder
  cases hl : w.last with
  | none => rfl
  | some sample =>
    rw [hl] at hlast
    obtain ⟨e, he, hkey⟩ := Option.map_eq_some_iff.1 hlast.symm
    have hlt : e.1 < entry.1 :=
      (List.pairwise_append.1 hs).2.2 e (List.mem_of_getLast? he) entry List.mem_cons_self
    rw [hkey] at hlt
    exact decide_eq_false (Std.not_le.2 hlt)

/-- An entry that fits and comes after all before it is added. -/
theorem Wrote.add (h : w.Wrote entries) (hfit : Fits entry)
    (hs : KeyMap.Sorted (entries ++ entry :: more)) : ∃ w', w.add entry = .ok w' ∧
      w'.path = w.path ∧ w'.file = w.file ∧ w'.interval = w.interval ∧
      w'.Wrote (entries ++ [entry]) := by
  have hbytes : (entries ++ [entry]).flatMap entryBytes =
      entries.flatMap entryBytes ++ entryBytes entry := by
    rw [List.flatMap_append, List.flatMap_singleton]
  have hplaced : placed headerSize (entries ++ [entry]) =
      placed headerSize entries ++ [(entry.1, w.offset)] := by
    rw [placed_append, h.offset, placed, placed]
  unfold Writer.add
  rw [if_neg (Nat.not_lt.2 hfit), h.outOfOrder_eq_false hs, if_neg Bool.false_ne_true]
  refine ⟨_, rfl, rfl, rfl, rfl, ?_⟩
  constructor
  · rw [h.count, List.length_append, List.length_singleton]
  · rw [hbytes, h.offset, List.length_append, Nat.add_assoc]
  · rw [hplaced, everyNth_concat, length_placed, ← h.samples, h.count]
    by_cases hi : entries.length % w.interval = 0
    · rw [if_pos hi, if_pos hi, List.reverse_cons]
    · rw [if_neg hi, if_neg hi, List.append_nil]
  · rw [h.first]
    cases entries <;> rfl
  · rw [hplaced, List.getLast?_concat]
  · rw [h.checksum, hbytes, Checksum.update_update]
  · have hdata : w.written.reverse.flatten = entries.flatMap entryBytes := h.data
    rw [Writer.data, List.reverse_cons, List.flatten_append, hdata, hbytes]
    simp

/-- The index of a writer lists the last entry once. -/
theorem Wrote.index (h : w.Wrote entries) :
    w.index = sampled w.interval (placed headerSize entries) := by
  unfold Writer.index
  rw [h.last]
  rcases List.eq_nil_or_concat entries with rfl | ⟨before, entry, rfl⟩
  · have : w.samples.reverse = [] := h.samples
    rw [List.reverse_eq_nil_iff.1 this]
    rfl
  · have hsamples := h.samples
    rw [List.concat_eq_append, placed_append, placed, placed, everyNth_concat] at hsamples
    rw [List.concat_eq_append, placed_append, placed, placed, List.getLast?_concat, sampled_concat]
    generalize hlast : (entry.1, headerSize + (before.flatMap entryBytes).length) = last at hsamples ⊢
    simp only
    by_cases hi : (placed headerSize before).length % w.interval = 0
    · rw [if_pos hi] at hsamples
      have hhead : w.samples.head? = some last := by
        rw [← List.getLast?_reverse, hsamples, List.getLast?_concat]
      rw [hhead, Option.map_some, if_pos rfl, hsamples]
    · rw [if_neg hi, List.append_nil] at hsamples
      have hhead : w.samples.head?.map Prod.snd ≠ some last.2 := by
        intro heq
        obtain ⟨sample, hsample, hoff⟩ := Option.map_eq_some_iff.1 heq
        rw [← List.getLast?_reverse, hsamples] at hsample
        have hlt := lt_of_mem_placed (mem_of_mem_everyNth (List.mem_of_getLast? hsample))
        rw [hoff, ← hlast] at hlt
        exact Nat.lt_irrefl _ hlt
      rw [if_neg hhead, List.reverse_cons, hsamples]

/-- The file of a writer is the layout of its entries. -/
theorem Wrote.image (h : w.Wrote entries) : w.image = layout w.interval entries := by
  rw [Writer.image, h.count, h.data, h.index, h.offset, h.checksum]
  rfl

/-- Sorted entries are all added, unless one does not fit. -/
theorem Wrote.addAll (h : w.Wrote entries) (hs : KeyMap.Sorted (entries ++ more)) :
    ∃ w' stop, w.addAll (more.map .ok) = (w', stop) ∧ w'.path = w.path ∧ w'.file = w.file ∧
      w'.interval = w.interval ∧
      (stop = none → (∀ e ∈ more, Fits e) ∧ w'.Wrote (entries ++ more)) ∧
      ((∀ e ∈ more, Fits e) → stop = none) := by
  induction more generalizing w entries with
  | nil =>
    refine ⟨w, none, rfl, rfl, rfl, rfl, fun _ => ⟨fun _ he => absurd he List.not_mem_nil, ?_⟩,
      fun _ => rfl⟩
    rw [List.append_nil]
    exact h
  | cons entry more ih =>
    rw [List.map_cons, Writer.addAll]
    by_cases hfit : Fits entry
    · obtain ⟨w₁, hadd, hp, hf, hi, h₁⟩ := h.add hfit hs
      rw [List.append_cons] at hs
      obtain ⟨w', stop, hall, hp', hf', hi', hnone, hsome⟩ := ih h₁ hs
      refine ⟨w', stop, ?_, hp'.trans hp, hf'.trans hf, hi'.trans hi, fun hstop => ?_, fun hfits => ?_⟩
      · rw [hadd]
        exact hall
      · obtain ⟨hfits, hw⟩ := hnone hstop
        refine ⟨List.forall_mem_cons.2 ⟨hfit, hfits⟩, ?_⟩
        rw [List.append_cons]
        exact hw
      · exact hsome (List.forall_mem_cons.1 hfits).2
    · have hrefused : w.add entry = .error (.entryTooLong (longest entry) w.path) := by
        rw [Writer.add, if_pos (Nat.not_le.1 hfit)]
      refine ⟨w, some (.corrupt (.entryTooLong (longest entry) w.path)), ?_, rfl, rfl, rfl,
        fun h => ?_, fun hfits => ?_⟩
      · rw [hrefused]
      · cases h
      · exact absurd (List.forall_mem_cons.1 hfits).1 hfit

end Writer

end Spillway.Table
