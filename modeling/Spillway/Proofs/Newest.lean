import Spillway.Proofs.KeyMap

/-!
# The newest version of a key

Maps laid on top of each other, the newest first: a key has the version of the first map that has
one (`newest?`). `stack` is the one map with the newest versions, and `merged` the same with its
deletions hidden or not. `join_newest?_merged` says when maps that lie next to each other may be
replaced by their merge: deletions may only be left out at the bottom.
-/

namespace Spillway.KeyMap

variable {α : Type} {key : Bytes}

/-! ## Maps on top of each other -/

/-- What the newest map that knows a key says of it. -/
def newest? (runs : List (KeyMap α)) (key : Bytes) : Option α := runs.findSome? (·.find? key)

@[simp] theorem newest?_nil : newest? ([] : List (KeyMap α)) key = none := rfl

theorem newest?_cons (run : KeyMap α) (runs : List (KeyMap α)) :
    newest? (run :: runs) key = (run.find? key).or (newest? runs key) := by
  rw [newest?, List.findSome?_cons, ← newest?]
  cases run.find? key <;> rfl

theorem newest?_append (front back : List (KeyMap α)) :
    newest? (front ++ back) key = (newest? front key).or (newest? back key) :=
  List.findSome?_append

theorem exists_of_newest? {runs : List (KeyMap α)} {value : α}
    (h : newest? runs key = some value) : ∃ run ∈ runs, (key, value) ∈ run := by
  obtain ⟨run, hrun, hf⟩ := List.exists_of_findSome?_eq_some h
  exact ⟨run, hrun, mem_of_find? hf⟩

theorem newest?_eq_none {runs : List (KeyMap α)} (h : ∀ run ∈ runs, ∀ p ∈ run, p.1 ≠ key) :
    newest? runs key = none :=
  List.findSome?_eq_none_iff.2 fun run hrun => find?_eq_none_iff.2 (h run hrun)

/-- Taking a key out of all maps hides that key only. -/
theorem newest?_map_erase (runs : List (KeyMap α)) (gone : Bytes) :
    newest? (runs.map (·.erase gone)) key = if key = gone then none else newest? runs key := by
  induction runs with
  | nil => simp
  | cons run runs ih =>
    rw [List.map_cons, newest?_cons, newest?_cons, ih, find?_erase]
    split <;> rfl

/-- A map with another one laid on top of it. -/
def overlay (newer older : KeyMap α) : KeyMap α := newer.foldr (fun p m => m.insert p.1 p.2) older

theorem find?_overlay (newer older : KeyMap α) :
    (newer.overlay older).find? key = (newer.find? key).or (older.find? key) := by
  induction newer with
  | nil => rfl
  | cons p rest ih =>
    rw [overlay, List.foldr_cons, find?_insert, find?_cons]
    by_cases h : key = p.1
    · rw [if_pos h, if_pos h]
      rfl
    · rw [if_neg h, if_neg h]
      exact ih

theorem Sorted.overlay (newer : KeyMap α) {older : KeyMap α} (h : older.Sorted) :
    (newer.overlay older).Sorted := by
  induction newer with
  | nil => exact h
  | cons p rest ih => exact ih.insert

/-- The one map with the newest version of each key. -/
def stack (runs : List (KeyMap α)) : KeyMap α := runs.foldr overlay []

theorem find?_stack (runs : List (KeyMap α)) : (stack runs).find? key = newest? runs key := by
  induction runs with
  | nil => rfl
  | cons run runs ih => rw [stack, List.foldr_cons, find?_overlay, newest?_cons, ← ih, stack]

theorem sorted_stack (runs : List (KeyMap α)) : (stack runs).Sorted := by
  cases runs with
  | nil => exact sorted_nil
  | cons run runs => exact Sorted.overlay run (sorted_stack runs)

theorem mem_of_mem_stack {runs : List (KeyMap α)} {p : Bytes × α} (h : p ∈ stack runs) :
    newest? runs p.1 = some p.2 := by
  rw [← find?_stack]
  exact (sorted_stack runs).find?_eq_some_iff.2 h

/-- The stack starts with the newest version of its smallest key, and goes on with what is left
when this key is taken out of all maps. -/
theorem stack_eq_cons {runs : List (KeyMap α)} {p : Bytes × α}
    (hmin : ∀ run ∈ runs, ∀ q ∈ run, p.1 ≤ q.1) (hp : newest? runs p.1 = some p.2) :
    stack runs = p :: stack (runs.map (·.erase p.1)) := by
  have hsorted : Sorted (p :: stack (runs.map (·.erase p.1))) := by
    refine sorted_cons.2 ⟨fun q hq => ?_, sorted_stack _⟩
    have hq := mem_of_mem_stack hq
    rw [newest?_map_erase] at hq
    split at hq
    · cases hq
    · next hne =>
      obtain ⟨run, hrun, hmem⟩ := exists_of_newest? hq
      exact Std.lt_of_le_of_ne (hmin run hrun _ hmem) (Ne.symm hne)
  refine (sorted_stack runs).ext hsorted fun key => ?_
  rw [find?_cons, find?_stack, find?_stack, newest?_map_erase]
  by_cases hk : key = p.1
  · rw [if_pos hk, hk, hp]
  · rw [if_neg hk, if_neg hk]

/-! ## Hiding deletions -/

/-- Keeping the pairs whose values pass a test. -/
theorem Sorted.find?_filter_snd {m : KeyMap α} (h : m.Sorted) (p : α → Bool) :
    find? (m.filter fun pair => p pair.2) key = (m.find? key).filter p := by
  apply Option.ext
  intro v
  rw [(h.filter _).find?_eq_some_iff, List.mem_filter, Option.filter_eq_some_iff,
    h.find?_eq_some_iff]

/-- The newest version of each key, with the deletions or without. -/
def merged (keepDeletions : Bool) (runs : List (KeyMap (Option Bytes))) : KeyMap (Option Bytes) :=
  (stack runs).filter fun entry => entry.2.isSome || keepDeletions

variable {keepDeletions : Bool} {runs : List (KeyMap (Option Bytes))}

theorem sorted_merged : (merged keepDeletions runs).Sorted := (sorted_stack runs).filter _

theorem find?_merged : (merged keepDeletions runs).find? key =
    (newest? runs key).filter fun value => value.isSome || keepDeletions := by
  rw [merged, (sorted_stack runs).find?_filter_snd fun value => value.isSome || keepDeletions,
    find?_stack]

theorem mem_of_mem_merged {entry : Entry} (h : entry ∈ merged keepDeletions runs) :
    ∃ run ∈ runs, entry ∈ run :=
  exists_of_newest? (mem_of_mem_stack (List.mem_filter.1 h).1)

theorem join_filter_or (found : Option (Option Bytes)) :
    (found.filter fun value => value.isSome || keepDeletions).join = found.join := by
  rcases found with _ | _ | value
  · rfl
  · cases keepDeletions <;> rfl
  · rfl

/-- Neighbouring maps may be replaced by their merge: where a deletion was left out, there is no
map below that it could have hidden. -/
theorem join_newest?_merged {front inner back : List (KeyMap (Option Bytes))}
    (h : keepDeletions = true ∨ back = []) :
    (newest? (front ++ merged keepDeletions inner :: back) key).join =
      (newest? (front ++ inner ++ back) key).join := by
  rw [List.append_assoc, newest?_append, newest?_append, newest?_cons, newest?_append, find?_merged]
  cases newest? front key with
  | some value => rfl
  | none =>
    rw [Option.none_or, Option.none_or]
    rcases h with rfl | rfl
    · simp only [Bool.or_true]
      cases newest? inner key <;> rfl
    · rw [newest?_nil, Option.or_none, Option.or_none, join_filter_or]

/-- Without the deletions a merge has the values of the newest versions. -/
theorem find?_merged_false : (merged false runs).find? key = (newest? runs key).join.map some := by
  rw [find?_merged]
  rcases newest? runs key with _ | _ | value <;> rfl

theorem merged_false_eq_iff {runs' : List (KeyMap (Option Bytes))} :
    merged false runs = merged false runs' ↔
      ∀ key, (newest? runs key).join = (newest? runs' key).join := by
  constructor
  · intro hsame key
    have hfind := congrArg (find? · key) hsame
    rw [find?_merged_false, find?_merged_false] at hfind
    exact (Option.map_inj_right fun _ _ => Option.some.inj).1 hfind
  · intro hsame
    refine sorted_merged.ext sorted_merged fun key => ?_
    rw [find?_merged_false, find?_merged_false, hsame key]

/-- A map without entries may be left out. -/
theorem newest?_append_nil_cons (front back : List (KeyMap α)) :
    newest? (front ++ [] :: back) key = newest? (front ++ back) key := by
  rw [newest?_append, newest?_append, newest?_cons, find?_nil, Option.none_or]

end Spillway.KeyMap
