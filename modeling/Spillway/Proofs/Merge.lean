import Spillway.Proofs.Merge.Outlook

/-!
# What a merge gives

A feed tracks a relation between sources and entry lists when each source gives the entries of its
list and then ends. Merging sources that track sorted lists gives the newest version of each key in
the order of the keys, and does not fail (`Merge.toList_eq`).

Calls for the next entry give the list of a merge item by item, and nothing after its end
(`Merge.toList_eq_cons`, `Merge.toList_eq_nil`).
-/

namespace Spillway

open KeyMap

variable {ε σ : Type} {feed : Feed ε σ} {R : σ → List Entry → Prop}

/-- Sources give the entries that `R` says they hold, and end after them. -/
structure Feed.Tracks (feed : Feed ε σ) (R : σ → List Entry → Prop) : Prop where
  pull_nil : ∀ {s}, R s [] → feed.pull s = none
  pull_cons : ∀ {s e es}, R s (e :: es) → ∃ s', feed.pull s = some (.ok e, s') ∧ R s' es

/-- A source that tracks a list holds its entries. -/
theorem Feed.Tracks.toList_eq (hf : feed.Tracks R) {source : σ} {es : List Entry} (h : R source es) :
    feed.toList source = es.map .ok := by
  induction es generalizing source with
  | nil =>
    unfold Feed.toList
    split
    · rfl
    · next hp => simp [hf.pull_nil h] at hp
  | cons e es ih =>
    obtain ⟨s', hp, hs'⟩ := hf.pull_cons h
    unfold Feed.toList
    split
    · next hn => simp [hn] at hp
    · next hp' =>
      rw [hp] at hp'
      cases hp'
      rw [ih hs', List.map_cons]

/-- The run of a source that tracks a list has its entries and no failure. -/
def Run.Tracked (R : σ → List Entry → Prop) (source : σ) (run : Run ε) : Prop :=
  R source run.entries ∧ run.failure = none

theorem Feed.Tracks.yields (hf : feed.Tracks R) : feed.Yields (Run.Tracked R) where
  pull_end h := hf.pull_nil h.1
  pull_failure h := by cases h.2
  pull_entry h := by
    obtain ⟨s', hp, hs'⟩ := hf.pull_cons h.1
    exact ⟨s', hp, hs', h.2⟩

/-- A lane holds the first entry of a list, and its source the others. -/
def Lane.Tracks (R : σ → List Entry → Prop) (lane : Lane σ) : List Entry → Prop
  | [] => lane.head = none
  | e :: es => lane.head = some e ∧ R lane.rest es

theorem Lane.Tracks.imp {R' : σ → List Entry → Prop} (h : ∀ s es, R s es → R' s es) {lane : Lane σ}
    {es : List Entry} (ht : lane.Tracks R es) : lane.Tracks R' es := by
  cases es with
  | nil => exact ht
  | cons e es => exact ⟨ht.1, h _ _ ht.2⟩

/-- The run with these entries that does not fail. -/
def Run.sound (ε : Type) (entries : List Entry) : Run ε := ⟨entries, none⟩

theorem Lane.Tracks.shows {lane : Lane σ} {es : List Entry} (h : lane.Tracks R es) :
    lane.Shows (Run.Tracked R) (Run.sound ε es) := by
  obtain ⟨head, rest⟩ := lane
  cases es with
  | nil =>
    obtain rfl : head = none := h
    exact .ended
  | cons e es =>
    obtain ⟨hhead, hrest⟩ := h
    obtain rfl : head = some e := hhead
    exact .holding ⟨hrest, rfl⟩

theorem Lane.Shows.tracks {lane : Lane σ} {run : Run ε} (h : lane.Shows (Run.Tracked R) run) :
    lane.Tracks R run.entries ∧ run.failure = none := by
  cases h with
  | ended => exact ⟨rfl, rfl⟩
  | holding h => exact ⟨⟨rfl, h.1⟩, h.2⟩

namespace Merge

variable {sources : List σ} {runs : List (List Entry)}

theorem map_entries_sound (ε : Type) (runs : List (List Entry)) :
    (runs.map (Run.sound ε)).map Run.entries = runs := by
  rw [List.map_map]
  exact List.map_id' runs

theorem outlook_sound (ε : Type) (keepDeletions : Bool) (runs : List (List Entry)) :
    outlook keepDeletions (runs.map (Run.sound ε)) = (merged keepDeletions runs).map .ok := by
  rw [outlook_of_sound (List.forall_mem_map.2 fun _ _ => rfl), map_entries_sound]

theorem shows_sound (ε : Type) {lanes : List (Lane σ)} (h : List.Forall₂ (Lane.Tracks R) lanes runs) :
    List.Forall₂ (Lane.Shows (Run.Tracked R)) lanes (runs.map (Run.sound ε)) :=
  List.forall₂_map_right_iff.2 (h.imp fun _ _ ht => ht.shows)

theorem tracks_of_shows {lanes : List (Lane σ)} {runs : List (Run ε)}
    (h : List.Forall₂ (Lane.Shows (Run.Tracked R)) lanes runs) :
    List.Forall₂ (Lane.Tracks R) lanes (runs.map Run.entries) ∧ ∀ run ∈ runs, run.failure = none := by
  induction h with
  | nil => exact ⟨.nil, by simp⟩
  | cons hshows _ ih =>
    obtain ⟨ht, hfailure⟩ := hshows.tracks
    exact ⟨.cons ht ih.1, List.forall_mem_cons.2 ⟨hfailure, ih.2⟩⟩

theorem ordered_sound (hs : ∀ run ∈ runs, KeyMap.Sorted run) :
    ∀ run ∈ runs.map (Run.sound ε), run.entries.Ordered :=
  List.forall_mem_map.2 fun run hrun => (hs run hrun).ordered

theorem exists_tracks (hf : feed.Tracks R) (keepDeletions : Bool) (h : List.Forall₂ R sources runs) :
    ∃ m : Merge σ, Merge.start feed sources keepDeletions = .ok m ∧ m.failed = false ∧
      m.keepDeletions = keepDeletions ∧ List.Forall₂ (Lane.Tracks R) m.lanes runs := by
  have hruns : List.Forall₂ (Run.Tracked R) sources (runs.map (Run.sound ε)) :=
    List.forall₂_map_right_iff.2 (h.imp fun _ _ hr => ⟨hr, rfl⟩)
  have hstart := start_spec keepDeletions hf.yields hruns
  cases hm : Merge.start feed sources keepDeletions with
  | error e =>
    rw [hm] at hstart
    obtain ⟨run, hrun, hfail⟩ := List.exists_of_findSome?_eq_some hstart
    obtain ⟨entries, -, rfl⟩ := List.mem_map.1 hrun
    rw [Run.atOnce?_of_failure_none rfl] at hfail
    cases hfail
  | ok m =>
    rw [hm] at hstart
    obtain ⟨-, hfailed, hkeep, hshows⟩ := hstart
    have ht := (tracks_of_shows hshows).1
    rw [map_entries_sound] at ht
    exact ⟨m, rfl, hfailed, hkeep, ht⟩

/-- A merge of sorted sources gives the newest version of each key, in the order of the keys. -/
theorem toList_eq (hf : feed.Tracks R) {m : Merge σ} (hfailed : m.failed = false)
    (h : List.Forall₂ (Lane.Tracks R) m.lanes runs) (hs : ∀ run ∈ runs, KeyMap.Sorted run) :
    m.toList feed = (merged m.keepDeletions runs).map .ok := by
  rw [toList_spec hf.yields hfailed (shows_sound ε h) (ordered_sound hs), outlook_sound]

/-- A merge of sorted sources can be started and then gives all newest versions, also from a later
state of the feed. -/
theorem exists_start (hf : feed.Tracks R) (keepDeletions : Bool) (h : List.Forall₂ R sources runs)
    (hs : ∀ run ∈ runs, KeyMap.Sorted run) :
    ∃ m : Merge σ, Merge.start feed sources keepDeletions = .ok m ∧
      ∀ (feed' : Feed ε σ) (R' : σ → List Entry → Prop), feed'.Tracks R' →
        (∀ s es, R s es → R' s es) → m.toList feed' = (merged keepDeletions runs).map .ok := by
  obtain ⟨m, hstart, hfailed, hkeep, hlanes⟩ := exists_tracks hf keepDeletions h
  refine ⟨m, hstart, fun feed' R' hf' himp => ?_⟩
  rw [← hkeep]
  exact toList_eq hf' hfailed (hlanes.imp fun _ _ ht => ht.imp himp) hs

/-! ## One call after the other -/

/-- These entries are what a merge has left to give. -/
structure Leaves (R : σ → List Entry → Prop) (m : Merge σ) (entries : List Entry) : Prop where
  sound : m.failed = false
  tracks : ∃ runs, List.Forall₂ (Lane.Tracks R) m.lanes runs ∧ (∀ run ∈ runs, KeyMap.Sorted run) ∧
    merged m.keepDeletions runs = entries

theorem Leaves.mono {R' : σ → List Entry → Prop} {m : Merge σ} {entries : List Entry}
    (h : m.Leaves R entries) (himp : ∀ s es, R s es → R' s es) : m.Leaves R' entries := by
  obtain ⟨runs, hlanes, hs, hmerged⟩ := h.tracks
  exact ⟨h.sound, runs, hlanes.imp fun _ _ ht => ht.imp himp, hs, hmerged⟩

theorem Leaves.next (hf : feed.Tracks R) {m : Merge σ} {entries : List Entry}
    (h : m.Leaves R entries) :
    ∃ m', m.next feed = (entries.head?.map .ok, m') ∧ m'.Leaves R entries.tail := by
  obtain ⟨runs, hlanes, hs, rfl⟩ := h.tracks
  have hnext := Lanes.next_spec m.keepDeletions hf.yields (shows_sound ε hlanes) (ordered_sound hs)
  rw [outlook_sound] at hnext
  have hinj : Function.Injective (@Except.ok ε Entry) := fun _ _ => Except.ok.inj
  cases hn : Lanes.next feed m.keepDeletions m.lanes with
  | error e =>
    rw [hn] at hnext
    have hmem : Except.error e ∈ (merged m.keepDeletions runs).map .ok := by simp [hnext]
    simp at hmem
  | ok out =>
    obtain ⟨found, lanes'⟩ := out
    rw [hn] at hnext
    obtain ⟨runs', h', hleft, hhead, htail⟩ := hnext
    obtain ⟨ht, hsound⟩ := tracks_of_shows h'
    have hfound : found = (merged m.keepDeletions runs).head? := by
      rw [List.head?_map] at hhead
      exact (Option.map_injective hinj hhead).symm
    have hrest : merged m.keepDeletions (runs'.map Run.entries) =
        (merged m.keepDeletions runs).tail := by
      rw [outlook_of_sound hsound, ← List.map_tail] at htail
      exact List.map_injective_iff.2 hinj htail
    have hs' : ∀ run ∈ runs'.map Run.entries, KeyMap.Sorted run :=
      List.forall_mem_map.2 (hleft.sorted (List.forall_mem_map.2 hs))
    refine ⟨{ m with lanes := lanes' }, ?_, h.sound, runs'.map Run.entries, ht, hs', hrest⟩
    rw [Merge.next, h.sound, if_neg Bool.false_ne_true, hn, ← hfound]
    cases found <;> rfl

theorem Leaves.toList_eq (hf : feed.Tracks R) {m : Merge σ} {entries : List Entry}
    (h : m.Leaves R entries) : m.toList feed = entries.map .ok := by
  obtain ⟨runs, hlanes, hs, rfl⟩ := h.tracks
  exact Merge.toList_eq hf h.sound hlanes hs

/-- A merge of sorted sources has all newest versions left. -/
theorem exists_start_leaves (hf : feed.Tracks R) (keepDeletions : Bool)
    (h : List.Forall₂ R sources runs) (hs : ∀ run ∈ runs, KeyMap.Sorted run) :
    ∃ m : Merge σ, Merge.start feed sources keepDeletions = .ok m ∧
      m.Leaves R (merged keepDeletions runs) := by
  obtain ⟨m, hstart, hfailed, hkeep, hlanes⟩ := exists_tracks hf keepDeletions h
  exact ⟨m, hstart, hfailed, runs, hlanes, hs, by rw [hkeep]⟩

/-- What is left behind the last entry has no entry either. -/
theorem next_of_next_none {lanes lanes' : List (Lane σ)} {keepDeletions : Bool}
    (h : Lanes.next feed keepDeletions lanes = .ok (none, lanes')) :
    Lanes.next feed keepDeletions lanes' = .ok (none, lanes') := by
  fun_induction Lanes.next feed keepDeletions lanes with
  | case1 lanes hn =>
    cases h
    unfold Lanes.next
    split
    · rfl
    · next hf => rw [hn] at hf; cases hf
  | case2 => cases h
  | case3 => cases h
  | case4 _ _ _ _ _ _ _ ih => exact ih h

theorem drain_of_next_none {lanes lanes' : List (Lane σ)} {keepDeletions : Bool}
    (h : Lanes.next feed keepDeletions lanes = .ok (none, lanes')) :
    Lanes.drain feed keepDeletions lanes = [] := by
  unfold Lanes.drain
  split <;> simp_all

/-- The list of a merge has the items that calls for the next one give. -/
theorem toList_eq_cons {m m' : Merge σ} {item : Except ε Entry}
    (h : m.next feed = (some item, m')) : m.toList feed = item :: m'.toList feed := by
  unfold next at h
  split at h
  · cases h
  · next hfailed =>
    rw [toList, if_neg hfailed]
    unfold Lanes.drain
    split at h
    · cases h
    · next hn =>
      cases h
      simp only [toList, hfailed]
      split <;> simp_all
    · next hn =>
      cases h
      simp only [toList]
      split <;> simp_all

/-- A merge that has ended has ended for good. -/
theorem toList_eq_nil {m m' : Merge σ} (h : m.next feed = (none, m')) :
    m.toList feed = [] ∧ m'.toList feed = [] := by
  unfold next at h
  split at h
  · next hfailed =>
    cases h
    simp [toList, hfailed]
  · next hfailed =>
    split at h
    · next hn =>
      cases h
      simp [toList, hfailed, drain_of_next_none hn, drain_of_next_none (next_of_next_none hn)]
    · cases h
    · cases h

end Merge

end Spillway
