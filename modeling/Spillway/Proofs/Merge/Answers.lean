import Spillway.Proofs.Merge

/-!
# What the calls of a merge answer

The calls answer the items of the outlook one by one and nothing after it (`Merge.answer_outlook`).
For sources without a failure these are the newest versions in the order of the keys
(`Merge.answers_newest`). Where sources fail, the answers are those of the same merge without the
failures as far as the smallest key behind which a source fails, and then its failure
(`Merge.answers_until_failure`).
-/

namespace Spillway

open KeyMap

variable {ε σ : Type}

theorem Feed.toList_list (items : List (Except ε Entry)) : (Feed.list ε).toList items = items := by
  induction items with
  | nil =>
    unfold Feed.toList
    rfl
  | cons item rest ih =>
    unfold Feed.toList
    exact congrArg (item :: ·) ih

section Break

variable {runs : List (Run ε)} {key : Bytes} {e : ε}

/-- The run fails behind its last entry, which has the key. -/
def Run.FailsBehind (run : Run ε) (key : Bytes) (e : ε) : Prop :=
  run.lastKey? = some key ∧ run.failure = some e

theorem Run.breakAt?_eq_some_iff {run : Run ε} : run.breakAt? key = some e ↔ run.FailsBehind key e := by
  rw [breakAt?, Option.ite_none_right_eq_some, FailsBehind]

/-- Of the keys behind which a run fails this one is the smallest, and the failure is that of the
first run that fails behind it. -/
def FirstBreak (runs : List (Run ε)) (key : Bytes) (e : ε) : Prop :=
  ∃ front run back, runs = front ++ run :: back ∧ run.FailsBehind key e ∧
    (∀ newer ∈ front, ∀ k e', newer.FailsBehind k e' → key < k) ∧
    ∀ older ∈ back, ∀ k e', older.FailsBehind k e' → key ≤ k

/-- Where a run fails behind an entry there is a first break. -/
theorem exists_firstBreak (h : ∃ run ∈ runs, ∃ k e, run.FailsBehind k e) :
    ∃ key e, FirstBreak runs key e := by
  induction runs with
  | nil =>
    obtain ⟨run, hrun, -⟩ := h
    cases hrun
  | cons run runs ih =>
    by_cases hlater : ∃ older ∈ runs, ∃ k e, older.FailsBehind k e
    · obtain ⟨k, e, front, first, back, rfl, hfirst, hfront, hback⟩ := ih hlater
      -- the first break of the others stays the first, unless this run fails behind a key not larger
      by_cases hle : ∃ k' e', run.FailsBehind k' e' ∧ k' ≤ k
      · obtain ⟨k', e', hrun, hle⟩ := hle
        refine ⟨k', e', [], run, _, rfl, hrun, by simp, ?_⟩
        intro older holder l e'' hfails
        rcases List.mem_append.1 holder with holder | holder
        · exact Std.le_trans hle (Std.le_of_lt (hfront older holder l e'' hfails))
        · rcases List.mem_cons.1 holder with rfl | holder
          · have hl : k = l := Option.some.inj (hfirst.1.symm.trans hfails.1)
            rwa [← hl]
          · exact Std.le_trans hle (hback older holder l e'' hfails)
      · refine ⟨k, e, run :: front, first, back, rfl, hfirst, ?_, hback⟩
        rw [List.forall_mem_cons]
        refine ⟨?_, hfront⟩
        intro k' e' hfails
        apply Std.not_le.1
        intro hle'
        exact hle ⟨k', e', hfails, hle'⟩
    · obtain ⟨first, hmem, k, e, hfails⟩ := h
      rcases List.mem_cons.1 hmem with rfl | hmem
      · refine ⟨k, e, [], first, runs, rfl, hfails, by simp, ?_⟩
        intro older holder k' e' hfails'
        exact absurd ⟨older, holder, k', e', hfails'⟩ hlater
      · exact absurd ⟨first, hmem, k, e, hfails⟩ hlater

theorem FirstBreak.breakAt? (h : FirstBreak runs key e) :
    runs.findSome? (·.breakAt? key) = some e ∧
      ∀ k < key, runs.findSome? (·.breakAt? k) = none := by
  obtain ⟨front, run, back, rfl, hrun, hfront, hback⟩ := h
  have hnone : ∀ {r : Run ε} {k : Bytes}, (∀ e', ¬ r.FailsBehind k e') → r.breakAt? k = none := by
    intro r k hr
    rw [Option.eq_none_iff_forall_ne_some]
    intro e' he'
    exact hr e' (Run.breakAt?_eq_some_iff.1 he')
  have hbefore : ∀ k ≤ key, front.findSome? (·.breakAt? k) = none := by
    intro k hk
    rw [List.findSome?_eq_none_iff]
    intro newer hnewer
    apply hnone
    intro e' hfails
    exact Std.not_lt.2 hk (hfront newer hnewer k e' hfails)
  constructor
  · rw [List.findSome?_append, hbefore key (Std.le_refl _), List.findSome?_cons,
      Run.breakAt?_eq_some_iff.2 hrun]
    rfl
  · intro k hk
    have hhere : run.breakAt? k = none := by
      apply hnone
      intro e' hfails
      have hkey : key = k := Option.some.inj (hrun.1.symm.trans hfails.1)
      exact Std.ne_of_lt hk hkey.symm
    have hafter : back.findSome? (·.breakAt? k) = none := by
      rw [List.findSome?_eq_none_iff]
      intro older holder
      apply hnone
      intro e' hfails
      exact Std.not_lt.2 (hback older holder k e' hfails) hk
    rw [List.findSome?_append, hbefore k (Std.le_of_lt hk), List.findSome?_cons, hhere, hafter]
    rfl

variable {keepDeletions : Bool}

/-- Entries are given as far as the key behind which the first failure is. -/
theorem upToBreak_of_break {entries : List Entry} (hs : KeyMap.Sorted entries)
    (hkey : ∃ entry ∈ entries, entry.1 = key)
    (hat : runs.findSome? (·.breakAt? key) = some e)
    (hbelow : ∀ k < key, runs.findSome? (·.breakAt? k) = none) :
    upToBreak keepDeletions runs entries =
      ((entries.filter fun entry => entry.2.isSome || keepDeletions).filter
        fun entry => entry.1 < key).map .ok ++ [.error e] := by
  induction entries with
  | nil =>
    obtain ⟨entry, hmem, -⟩ := hkey
    cases hmem
  | cons entry rest ih =>
    obtain ⟨hlt, hrest⟩ := sorted_cons.1 hs
    by_cases hhere : entry.1 = key
    · have hnone : ((entry :: rest).filter fun p => p.2.isSome || keepDeletions).filter
          (fun p => p.1 < key) = [] := by
        simp only [List.filter_eq_nil_iff, decide_eq_true_eq]
        intro p hp
        rw [Std.not_lt, ← hhere]
        rcases List.mem_cons.1 (List.mem_filter.1 hp).1 with rfl | hp
        · exact Std.le_refl _
        · exact Std.le_of_lt (hlt p hp)
      rw [hnone, upToBreak, hhere, hat]
      rfl
    · have hin : ∃ p ∈ rest, p.1 = key := by
        obtain ⟨p, hp, hpk⟩ := hkey
        rcases List.mem_cons.1 hp with rfl | hp
        · exact absurd hpk hhere
        · exact ⟨p, hp, hpk⟩
      have hbefore : entry.1 < key := by
        obtain ⟨p, hp, rfl⟩ := hin
        exact hlt p hp
      simp only [upToBreak, hbelow entry.1 hbefore]
      cases hkeep : entry.2.isSome || keepDeletions <;> simp [hkeep, hbefore, ih hrest hin]

/-- With a first break the outlook is that of the same runs without failures, as far as the key, and
then the failure. -/
theorem outlook_of_break (h : FirstBreak runs key e) :
    outlook keepDeletions runs =
      ((merged keepDeletions (runs.map Run.entries)).filter fun entry => entry.1 < key).map .ok ++
        [.error e] := by
  obtain ⟨hat, hbelow⟩ := h.breakAt?
  obtain ⟨front, run, back, rfl, hrun, -, -⟩ := h
  apply upToBreak_of_break (sorted_stack _) _ hat hbelow
  -- the last entry of the run that fails puts the key into the stack
  obtain ⟨entry, hmem, hkey⟩ := Run.exists_mem_of_lastKey? hrun.1
  cases hfind : (stack ((front ++ run :: back).map Run.entries)).find? key with
  | some value => exact ⟨(key, value), mem_of_find? hfind, rfl⟩
  | none =>
    rw [find?_stack, newest?, List.findSome?_eq_none_iff] at hfind
    have hrunNone := hfind run.entries (List.mem_map_of_mem (List.mem_append_right _ List.mem_cons_self))
    exact absurd hkey (find?_eq_none_iff.1 hrunNone entry hmem)

end Break

namespace Merge

variable {feed : Feed ε σ}

/-- What a call answers that comes after `n` others. -/
def answer (feed : Feed ε σ) : Nat → Merge σ → Option (Except ε Entry)
  | 0, m => (m.next feed).1
  | n + 1, m => answer feed n (m.next feed).2

/-- The calls answer the items of the list of the merge. -/
theorem answer_eq (n : Nat) (m : Merge σ) : answer feed n m = (m.toList feed)[n]? := by
  induction n generalizing m with
  | zero =>
    rw [answer]
    cases hnext : m.next feed with
    | mk item m' =>
      cases item with
      | none => rw [(toList_eq_nil hnext).1]; rfl
      | some item => rw [toList_eq_cons hnext]; rfl
  | succ n ih =>
    rw [answer, ih]
    cases hnext : m.next feed with
    | mk item m' =>
      cases item with
      | none => rw [(toList_eq_nil hnext).1, (toList_eq_nil hnext).2]; rfl
      | some item => rw [toList_eq_cons hnext]; rfl

variable {sources : List σ} {runs : List (Run ε)} {keepDeletions : Bool}

theorem forall₂_of_items (hitems : sources.map feed.toList = runs.map Run.items) :
    List.Forall₂ (fun source run => feed.toList source = run.items) sources runs := by
  rw [← List.forall₂_eq_eq_eq, List.forall₂_map_left_iff, List.forall₂_map_right_iff] at hitems
  exact hitems

/-- A merge that was started answers the outlook of its runs. -/
theorem answer_outlook (hitems : sources.map feed.toList = runs.map Run.items)
    (hs : ∀ run ∈ runs, run.entries.Ordered) {m : Merge σ}
    (hstart : Merge.start feed sources keepDeletions = .ok m) (n : Nat) :
    answer feed n m = (outlook keepDeletions runs)[n]? := by
  have hm := start_spec keepDeletions feed.yields_toList (forall₂_of_items hitems)
  rw [hstart] at hm
  obtain ⟨-, hfailed, rfl, hlanes⟩ := hm
  rw [answer_eq, toList_spec feed.yields_toList hfailed hlanes hs]

theorem start_error_iff (keepDeletions : Bool) (hitems : sources.map feed.toList = runs.map Run.items)
    {e : ε} :
    Merge.start feed sources keepDeletions = .error e ↔ runs.findSome? Run.atOnce? = some e := by
  have hm := start_spec keepDeletions feed.yields_toList (forall₂_of_items hitems)
  cases hstart : Merge.start feed sources keepDeletions with
  | error e' =>
    rw [hstart] at hm
    simp only at hm
    rw [hm, Option.some.injEq, Except.error.injEq]
  | ok m =>
    rw [hstart] at hm
    rw [hm.1]
    simp

theorem exists_start_of_sound (keepDeletions : Bool)
    (hitems : sources.map feed.toList = runs.map Run.items) (hsound : ∀ run ∈ runs, run.failure = none) :
    ∃ m, Merge.start feed sources keepDeletions = .ok m := by
  cases hstart : Merge.start feed sources keepDeletions with
  | ok m => exact ⟨m, rfl⟩
  | error e =>
    rw [start_error_iff keepDeletions hitems] at hstart
    obtain ⟨run, hrun, hfail⟩ := List.exists_of_findSome?_eq_some hstart
    rw [Run.atOnce?_of_failure_none (hsound run hrun)] at hfail
    cases hfail

/-! ## Sources without a failure -/

theorem newest?_eq_some_iff {runs : List (List Entry)} {key : Bytes} {value : Option Bytes} :
    newest? runs key = some value ↔ ∃ front run back, runs = front ++ run :: back ∧
      KeyMap.find? run key = some value ∧ ∀ newer ∈ front, KeyMap.find? newer key = none :=
  List.findSome?_eq_some_iff

theorem mem_merged_iff {runs : List (List Entry)} {key : Bytes} {value : Option Bytes} :
    (key, value) ∈ merged keepDeletions runs ↔
      newest? runs key = some value ∧ (value.isSome ∨ keepDeletions = true) := by
  rw [← sorted_merged.find?_eq_some_iff, find?_merged, Option.filter_eq_some_iff, Bool.or_eq_true]

/-- A merge of sources whose keys do not decrease answers with strictly increasing keys. It gives each
key the version of the newest source that has the key, in this source the first one, hides the
deletions unless they are kept, and has ended for good after the last entry. -/
theorem answers_newest (keepDeletions : Bool) {runs : List (List Entry)}
    (hitems : sources.map feed.toList = runs.map (List.map .ok))
    (hs : ∀ run ∈ runs, KeyMap.Ordered run) :
    ∃ (m : Merge σ) (entries : List Entry), Merge.start feed sources keepDeletions = .ok m ∧
      KeyMap.Sorted entries ∧
      (∀ key value, (key, value) ∈ entries ↔
        (∃ front run back, runs = front ++ run :: back ∧ KeyMap.find? run key = some value ∧
          ∀ newer ∈ front, KeyMap.find? newer key = none) ∧
        (value.isSome ∨ keepDeletions = true)) ∧
      ∀ n, answer feed n m = entries[n]?.map .ok := by
  have hsound : ∀ run ∈ runs.map (Run.sound ε), run.failure = none :=
    List.forall_mem_map.2 fun _ _ => rfl
  have hordered : ∀ run ∈ runs.map (Run.sound ε), run.entries.Ordered := List.forall_mem_map.2 hs
  have hitems' : sources.map feed.toList = (runs.map (Run.sound ε)).map Run.items := by
    rw [hitems, List.map_map]
    apply List.map_congr_left
    intro run _
    exact (List.append_nil _).symm
  obtain ⟨m, hstart⟩ := exists_start_of_sound keepDeletions hitems' hsound
  refine ⟨m, merged keepDeletions runs, hstart, sorted_merged, ?_, ?_⟩
  · intro key value
    rw [mem_merged_iff, newest?_eq_some_iff]
  · intro n
    rw [answer_outlook hitems' hordered hstart, outlook_sound, List.getElem?_map]

/-- Two sources that share a key, which the newer one has twice. -/
theorem answers_newest_shared :
    ∃ (m : Merge (List (Except Unit Entry))) (entries : List Entry),
      Merge.start (Feed.list Unit)
        [[.ok ([1], some [7]), .ok ([1], none)], [.ok ([0], none), .ok ([1], some [8])]] false = .ok m ∧
      KeyMap.Sorted entries ∧ ([1], some [7]) ∈ entries ∧ ([0], none) ∉ entries ∧
      ∀ n, answer (Feed.list Unit) n m = entries[n]?.map .ok := by
  have hitems : [[.ok ([1], some [7]), .ok ([1], none)], [.ok ([0], none), .ok ([1], some [8])]].map
      (Feed.list Unit).toList =
      [[([1], some [7]), ([1], none)], [([0], none), ([1], some [8])]].map (List.map .ok) := by
    simp [Feed.toList_list]
  have hordered : ∀ run ∈ ([[([1], some [7]), ([1], none)], [([0], none), ([1], some [8])]] :
      List (List Entry)), KeyMap.Ordered run := by
    unfold KeyMap.Ordered
    decide
  obtain ⟨m, entries, hstart, hsorted, hmem, hanswers⟩ := answers_newest false hitems hordered
  have hshared : ([1], some [7]) ∈ entries :=
    (hmem _ _).2 ⟨⟨[], _, _, rfl, rfl, by simp⟩, .inl rfl⟩
  refine ⟨m, entries, hstart, hsorted, hshared, ?_, hanswers⟩
  intro hgone
  rcases ((hmem _ _).1 hgone).2 with h | h <;> cases h

/-! ## Sources with failures -/

theorem atOnce?_eq_some_iff {run : Run ε} {e : ε} :
    run.atOnce? = some e ↔ run.items.head? = some (.error e) := by
  obtain ⟨entries, failure⟩ := run
  cases entries <;> cases failure <;> simp [Run.atOnce?, Run.items]

/-- A run that fails, but does not start with its failure, fails behind an entry. -/
theorem exists_failsBehind {run : Run ε} (hfail : run.failure ≠ none) (h : run.atOnce? = none) :
    ∃ k e, run.FailsBehind k e := by
  obtain ⟨entries, failure⟩ := run
  cases failure with
  | none => exact absurd rfl hfail
  | some e =>
    rcases List.eq_nil_or_concat entries with rfl | ⟨init, last, rfl⟩
    · cases h
    · refine ⟨last.1, e, ?_, rfl⟩
      simp [Run.lastKey?]

/-- A merge of sorted sources fails to start exactly when a source starts with its failure, with the
failure of the newest such source. Otherwise it answers, as far as the smallest key behind which a
source fails, what the merge of the same entries without the failures answers. Then it answers once
with the failure of the newest source that fails behind this key, and has ended for good. -/
theorem answers_until_failure (keepDeletions : Bool)
    (hitems : sources.map feed.toList = runs.map Run.items)
    (hs : ∀ run ∈ runs, KeyMap.Sorted run.entries) :
    (∀ e, Merge.start feed sources keepDeletions = .error e ↔
      ∃ front run back, runs = front ++ run :: back ∧ run.items.head? = some (.error e) ∧
        ∀ newer ∈ front, ∀ e', newer.items.head? ≠ some (.error e')) ∧
    ∀ m, Merge.start feed sources keepDeletions = .ok m →
      ∃ (clean : Merge (List (Except ε Entry))) (entries : List Entry),
        Merge.start (Feed.list ε) (runs.map fun run => run.entries.map .ok) keepDeletions = .ok clean ∧
        (∀ n, answer (Feed.list ε) n clean = entries[n]?.map .ok) ∧
        ((∀ run ∈ runs, run.failure = none) → ∀ n, answer feed n m = entries[n]?.map .ok) ∧
        ((∃ run ∈ runs, run.failure ≠ none) → ∃ key e, FirstBreak runs key e ∧
          ∀ n, answer feed n m =
            ((entries.filter fun entry => entry.1 < key).map .ok ++ [.error e])[n]?) := by
  have hordered : ∀ run ∈ runs, run.entries.Ordered := fun run hrun => (hs run hrun).ordered
  refine ⟨?_, ?_⟩
  · intro e
    rw [start_error_iff keepDeletions hitems, List.findSome?_eq_some_iff]
    simp only [atOnce?_eq_some_iff, Option.eq_none_iff_forall_ne_some, ne_eq]
  · intro m hstart
    have hatOnce : runs.findSome? Run.atOnce? = none := by
      rw [Option.eq_none_iff_forall_ne_some]
      intro e he
      rw [← start_error_iff keepDeletions hitems, hstart] at he
      cases he
    -- the merge of the entries alone
    have hclean : (runs.map fun run => run.entries.map .ok).map (Feed.list ε).toList =
        (runs.map fun run => Run.sound ε run.entries).map Run.items := by
      simp [Feed.toList_list, Run.items, Run.sound]
    have hcleanOrdered : ∀ run ∈ runs.map fun run => Run.sound ε run.entries, run.entries.Ordered :=
      List.forall_mem_map.2 hordered
    have hentries : (runs.map fun run => Run.sound ε run.entries) =
        (runs.map Run.entries).map (Run.sound ε) := by
      rw [List.map_map]
      rfl
    obtain ⟨clean, hcleanStart⟩ := exists_start_of_sound keepDeletions hclean
      (List.forall_mem_map.2 fun _ _ => rfl)
    refine ⟨clean, merged keepDeletions (runs.map Run.entries), hcleanStart, ?_, ?_, ?_⟩
    · intro n
      rw [answer_outlook hclean hcleanOrdered hcleanStart, hentries, outlook_sound, List.getElem?_map]
    · intro hsound n
      rw [answer_outlook hitems hordered hstart, outlook_of_sound hsound, List.getElem?_map]
    · rintro ⟨run, hrun, hfail⟩
      have hbehind := exists_failsBehind hfail (List.findSome?_eq_none_iff.1 hatOnce run hrun)
      obtain ⟨key, e, hbreak⟩ := exists_firstBreak ⟨run, hrun, hbehind⟩
      refine ⟨key, e, hbreak, ?_⟩
      intro n
      rw [answer_outlook hitems hordered hstart, outlook_of_break hbreak]

/-- Three sources of which two fail. -/
theorem answers_until_failure_torn :
    ∃ (m : Merge (List (Except String Entry))) (entries : List Entry) (key : Bytes) (e : String),
      Merge.start (Feed.list String)
        [[.ok ([1], some [7]), .ok ([2], some [7]), .error "newer"],
          [.ok ([0], some [8]), .ok ([1], some [8]), .error "older"],
          [.ok ([0], some [9]), .ok ([3], some [9])]] false = .ok m ∧
      FirstBreak [⟨[([1], some [7]), ([2], some [7])], some "newer"⟩,
        ⟨[([0], some [8]), ([1], some [8])], some "older"⟩,
        ⟨[([0], some [9]), ([3], some [9])], none⟩] key e ∧
      ∀ n, answer (Feed.list String) n m =
        ((entries.filter fun entry => entry.1 < key).map .ok ++ [.error e])[n]? := by
  have hitems : [[.ok ([1], some [7]), .ok ([2], some [7]), .error "newer"],
      [.ok ([0], some [8]), .ok ([1], some [8]), .error "older"],
      [.ok ([0], some [9]), .ok ([3], some [9])]].map (Feed.list String).toList =
      ([⟨[([1], some [7]), ([2], some [7])], some "newer"⟩,
        ⟨[([0], some [8]), ([1], some [8])], some "older"⟩,
        ⟨[([0], some [9]), ([3], some [9])], none⟩] : List (Run String)).map Run.items := by
    simp [Feed.toList_list, Run.items]
  have hsorted : ∀ run ∈ ([⟨[([1], some [7]), ([2], some [7])], some "newer"⟩,
      ⟨[([0], some [8]), ([1], some [8])], some "older"⟩,
      ⟨[([0], some [9]), ([3], some [9])], none⟩] : List (Run String)), run.entries.Sorted := by
    simp only [KeyMap.Sorted]
    decide
  obtain ⟨clean, entries, -, -, -, hfails⟩ := (answers_until_failure false hitems hsorted).2 _ rfl
  obtain ⟨key, e, hbreak, hanswers⟩ := hfails ⟨_, List.mem_cons_self, Option.some_ne_none _⟩
  exact ⟨_, entries, key, e, rfl, hbreak, hanswers⟩

end Merge

end Spillway
