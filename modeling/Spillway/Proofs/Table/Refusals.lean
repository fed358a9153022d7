import Mathlib.Data.List.Induction
import Spillway.Proofs.Table.Damage

/-!
# Refused entries

Entries are offered to a writer in any order. It refuses those whose keys are not greater than the
last key that it took, and these alone (`Writer.Wrote.refuses_iff`). A refused entry leaves no trace:
the writer is the one that was given only the others, wherever they stand among them
(`Writer.refused_leave_no_trace`).
-/

namespace Spillway.Table

/-- The key of the entry is greater than the last one. -/
def Follows (kept : List Entry) (entry : Entry) : Prop :=
  ∀ last ∈ kept.getLast?, last.1 < entry.1

instance (kept : List Entry) (entry : Entry) : Decidable (Follows kept entry) :=
  inferInstanceAs (Decidable (∀ last ∈ kept.getLast?, last.1 < entry.1))

/-- The entries that are left of those offered when each has to follow the ones left before it. -/
def accepted (offered : List Entry) : List Entry :=
  offered.foldl (fun kept entry => if Follows kept entry then kept ++ [entry] else kept) []

section Accepted

variable {offered front : List Entry} {entry : Entry}

theorem accepted_concat (front : List Entry) (entry : Entry) :
    accepted (front ++ [entry]) =
      if Follows (accepted front) entry then accepted front ++ [entry] else accepted front := by
  rw [accepted, List.foldl_append]
  rfl

theorem mem_of_mem_accepted (h : entry ∈ accepted offered) : entry ∈ offered := by
  induction offered using List.reverseRecOn with
  | nil => exact h
  | append_singleton front last ih =>
    rw [accepted_concat] at h
    split at h <;> grind

end Accepted

namespace Writer

variable {w w' : Writer} {entries offered : List Entry} {entry : Entry}

theorem addAll_append {items : List (Except StorageError Entry)} (more)
    (h : w.addAll items = (w', none)) : w.addAll (items ++ more) = w'.addAll more := by
  induction items generalizing w with
  | nil =>
    cases h
    rfl
  | cons item items ih =>
    cases item with
    | error e => cases h
    | ok entry =>
      rw [Writer.addAll] at h
      rw [List.cons_append, Writer.addAll]
      cases hadd : w.add entry with
      | ok next =>
        rw [hadd] at h
        exact ih h
      | error cause =>
        rw [hadd] at h
        cases h

/-- The order of the keys is the only ground on which an entry that fits is refused. -/
theorem Wrote.outOfOrder_iff (h : w.Wrote entries) :
    w.outOfOrder entry.1 = true ↔ ¬ Follows entries entry := by
  have hlast := h.map_fst_last
  unfold outOfOrder Follows
  cases hl : w.last with
  | none =>
    rw [hl, Option.map_none, eq_comm, Option.map_eq_none_iff] at hlast
    simp [hlast]
  | some sample =>
    rw [hl] at hlast
    obtain ⟨last, hmem, hkey⟩ := Option.map_eq_some_iff.1 hlast.symm
    simp [hmem, hkey]

theorem Wrote.refuses_iff (h : w.Wrote entries) (hfit : Fits entry) :
    w.add entry = .error (.keysOutOfOrder w.path) ↔ ¬ Follows entries entry := by
  rw [← h.outOfOrder_iff, Writer.add, if_neg (Nat.not_lt.2 hfit)]
  split <;> simp_all

/-- The second writer is the first one after it was given the entries, each of which it took. -/
structure Took (w : Writer) (entries : List Entry) (w' : Writer) : Prop where
  path : w'.path = w.path
  file : w'.file = w.file
  interval : w'.interval = w.interval
  wrote : w'.Wrote entries
  sorted : KeyMap.Sorted entries
  addAll : w.addAll (entries.map .ok) = (w', none)

theorem Took.refuses_iff (h : w.Took entries w') (hfit : Fits entry) :
    w'.add entry = .error (.keysOutOfOrder w.path) ↔ ¬ Follows entries entry := by
  rw [← h.path, h.wrote.refuses_iff hfit]

theorem Took.add (h : w.Took entries w') (hfit : Fits entry) (hfollows : Follows entries entry) :
    ∃ next, w'.add entry = .ok next ∧ w.Took (entries ++ [entry]) next := by
  have horder : w'.outOfOrder entry.1 = false := by
    rw [← Bool.not_eq_true, h.wrote.outOfOrder_iff, not_not]
    exact hfollows
  have hsorted := h.wrote.sorted_concat h.sorted horder
  obtain ⟨next, hadd, hpath, hfile, hinterval, hwrote⟩ := h.wrote.add hfit hsorted
  refine ⟨next, hadd, hpath.trans h.path, hfile.trans h.file, hinterval.trans h.interval, hwrote,
    hsorted, ?_⟩
  rw [List.map_append, addAll_append _ h.addAll, List.map_singleton, Writer.addAll, hadd]
  rfl

/-- A writer that is offered entries is the one that takes those which are accepted. -/
theorem took_offerAll (h : w.Wrote []) (hfits : ∀ e ∈ offered, Fits e) :
    w.Took (accepted offered) (w.offerAll offered) := by
  induction offered using List.reverseRecOn with
  | nil => exact ⟨rfl, rfl, rfl, h, KeyMap.sorted_nil, rfl⟩
  | append_singleton front entry ih =>
    have htook := ih fun e he => hfits e (List.mem_append_left _ he)
    have hfit : Fits entry := hfits entry (by simp)
    have hoffer : w.offerAll (front ++ [entry]) = (w.offerAll front).offer entry := by
      rw [offerAll, List.foldl_append]
      rfl
    rw [accepted_concat, hoffer, Writer.offer]
    by_cases hfollows : Follows (accepted front) entry
    · obtain ⟨next, hadd, hnext⟩ := htook.add hfit hfollows
      rw [if_pos hfollows, hadd]
      exact hnext
    · rw [if_neg hfollows, (htook.refuses_iff hfit).2 hfollows]
      exact htook

end Writer

section Finish

variable {d : Disk} {path : Path} {place : Location} {offered : List Entry}

/-- Each of the entries that are offered to a new writer is refused, as out of order, exactly when
its key is not greater than the last one that was taken. The writer that was offered all of them is the
one that was given only those it took, none of which it refuses. So both complete the same file, the
layout of these, with the same summary. Only a fault of the disk can keep them from that, or that the
layout is more than a file can have. -/
theorem Writer.refused_leave_no_trace (hl : d.locate path = .ok place) (hw : d.Writable place)
    (interval : Nat) (hfits : ∀ e ∈ offered, Fits e) :
    Ends (Writer.create path interval) d
      (fun w d₁ => d₁.faults <:+ d.faults ∧
        (∀ front entry back, offered = front ++ entry :: back →
          ((w.offerAll front).add entry = .error (.keysOutOfOrder path) ↔
              ¬ Follows (accepted front) entry) ∧
            (Follows (accepted front) entry → ∃ w', (w.offerAll front).add entry = .ok w')) ∧
        w.addAll ((accepted offered).map .ok) = (w.offerAll offered, none) ∧
        w.fill ((accepted offered).map .ok) = (w.offerAll offered).finish ∧
        Ends (w.offerAll offered).finish d₁
          (fun summary d₂ => summary = .ofEntries path (max interval 1) (accepted offered) ∧
            ∃ file, d₂.find path = .ok (place, .file file) ∧
              d₂.content file = layout (max interval 1) (accepted offered))
          fun e _ => Unwritable d₁ (layout (max interval 1) (accepted offered)) e)
      fun e _ => Faulted d e := by
  refine (ends_create hl hw interval).mono ?_ fun _ _ he => he.2
  rintro _ d₁ ⟨file, rfl, hfind, hfile, hfaults⟩
  have hwrote := Writer.wrote_nil path file (max interval 1)
  have htook := Writer.took_offerAll hwrote hfits
  generalize max interval 1 = n at hwrote htook ⊢
  generalize hstart : ({ path, file, interval := n } : Writer) = w at hwrote htook ⊢
  have hpath : w.path = path := by rw [← hstart]
  have hfill : w.fill ((accepted offered).map .ok) = (w.offerAll offered).finish := by
    rw [Writer.fill, htook.addAll]
  refine ⟨hfaults, ?_, htook.addAll, hfill, ?_⟩
  · rintro front entry back rfl
    have hfront := Writer.took_offerAll hwrote fun e he => hfits e (List.mem_append_left _ he)
    have hfit : Fits entry := hfits entry (by simp)
    refine ⟨hpath ▸ hfront.refuses_iff hfit, fun hfollows => ?_⟩
    obtain ⟨w', hadd, -⟩ := hfront.add hfit hfollows
    exact ⟨w', hadd⟩
  · rw [← hfill]
    subst hstart
    refine (ends_fill_layout hwrote htook.sorted fun e he => hfits e (mem_of_mem_accepted he)).imp ?_
    rintro summary d₂ ⟨rfl, rfl, -⟩
    refine ⟨rfl, file, ?_, Disk.content_setContent hfile _⟩
    rw [Disk.find_setContent, Disk.find_tick, hfind]

/-- The second and the third of these are refused, the third with the key that the first has. -/
theorem Writer.refused_leave_no_trace_twice :
    ∃ w d₁ summary d₂, Writer.create "t.sst" 0 {} = .ok w d₁ ∧
      w.fill [.ok ([1], some [7]), .ok ([2], none)] d₁ = .ok summary d₂ ∧
      (w.offerAll [([1], some [7]), ([0], none), ([1], some [9]), ([2], none)]).finish d₁ =
        .ok summary d₂ ∧ summary.entryCount = 2 := by
  have hplace : ({} : Disk).locate "t.sst" = .ok ["t.sst"] := by decide +kernel
  have hwritable : ({} : Disk).Writable ["t.sst"] := fun node hnode => by cases hnode
  have hfits : ∀ e ∈ ([([1], some [7]), ([0], none), ([1], some [9]), ([2], none)] : List Entry),
      Fits e := by
    unfold Fits
    decide
  have haccepted : accepted [([1], some [7]), ([0], none), ([1], some [9]), ([2], none)] =
      [([1], some [7]), ([2], none)] := by decide +kernel
  have hsmall : (layout (max 0 1) [([1], some [7]), ([2], none)]).length ≤ Disk.maxFileBytes := by
    decide +kernel
  have hends := Writer.refused_leave_no_trace hplace hwritable 0 hfits
  rw [haccepted] at hends
  obtain ⟨w, d₁, hcreated, hfaults, -, -, hfill, hfinish⟩ :=
    hends.exists_ok fun _ _ => not_faulted rfl
  obtain ⟨summary, d₂, hfinished, rfl, -⟩ :=
    hfinish.exists_ok fun _ _ => not_unwritable (List.suffix_nil.1 hfaults) hsmall
  refine ⟨w, d₁, _, d₂, hcreated, ?_, hfinished, rfl⟩
  rw [← hfinished, ← hfill]
  rfl

end Finish

end Spillway.Table
