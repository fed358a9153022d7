import Mathlib.Data.List.Forall2
import Spillway.Merge
import Spillway.Proofs.Newest

/-!
# Lanes beside the runs they are fed from

A run is all that a source holds: entries, and the failure it ends in if it does. A lane shows a run
when its head is the first entry and its source holds the rest.

The failure behind the last entry of a run comes up when this entry is taken: `Run.breakAt?` is the
failure that taking a key brings up. `Lanes.passOver_spec` says that taking the smallest key out of
all lanes fails with the first such failure, and otherwise takes the key out of all runs.
-/

namespace Spillway

open KeyMap

variable {ε σ : Type}

/-- Keys do not decrease. -/
def KeyMap.Ordered {α : Type} (m : KeyMap α) : Prop := m.Pairwise fun a b => a.1 ≤ b.1

theorem KeyMap.Sorted.ordered {α : Type} {m : KeyMap α} (h : m.Sorted) : m.Ordered :=
  h.imp Std.le_of_lt

/-- The entries of a source, and the failure it ends in. -/
structure Run (ε : Type) where
  entries : KeyMap (Option Bytes)
  failure : Option ε

namespace Run

variable {run : Run ε} {key : Bytes}

/-- What is drawn from a source that holds the run. -/
def items (run : Run ε) : List (Except ε Entry) :=
  run.entries.map .ok ++ run.failure.toList.map .error

/-- The key of the last entry. -/
def lastKey? (run : Run ε) : Option Bytes := run.entries.getLast?.map Prod.fst

/-- The failure behind a key, if the key is the last one. -/
def breakAt? (run : Run ε) (key : Bytes) : Option ε :=
  if run.lastKey? = some key then run.failure else none

/-- The failure a run starts with. -/
def atOnce? (run : Run ε) : Option ε :=
  match run.entries with
  | [] => run.failure
  | _ :: _ => none

def without (run : Run ε) (key : Bytes) : Run ε := { run with entries := run.entries.erase key }

theorem exists_mem_of_lastKey? (h : run.lastKey? = some key) : ∃ entry ∈ run.entries, entry.1 = key := by
  obtain ⟨entry, hlast, hkey⟩ := Option.map_eq_some_iff.1 h
  exact ⟨entry, List.mem_of_getLast? hlast, hkey⟩

theorem breakAt?_eq_none (h : ∀ entry ∈ run.entries, entry.1 ≠ key) : run.breakAt? key = none := by
  apply if_neg
  intro hlast
  obtain ⟨entry, hmem, hkey⟩ := exists_mem_of_lastKey? hlast
  exact h entry hmem hkey

/-- Taking the first of several entries changes no break. -/
theorem breakAt?_cons_cons (e e' : Entry) (es : List Entry) (failure : Option ε) :
    breakAt? ⟨e :: e' :: es, failure⟩ key = breakAt? ⟨e' :: es, failure⟩ key := by
  rw [breakAt?, breakAt?, lastKey?, lastKey?, List.getLast?_cons_cons]

theorem breakAt?_of_failure_none (h : run.failure = none) : run.breakAt? key = none := by
  simp [breakAt?, h]

theorem atOnce?_of_failure_none (h : run.failure = none) : run.atOnce? = none := by
  unfold atOnce?
  split
  · exact h
  · rfl

/-- Taking out a key behind which the run does not fail leaves the other breaks. -/
theorem breakAt?_without {gone : Bytes} (h : run.breakAt? gone = none) :
    (run.without gone).breakAt? key = run.breakAt? key := by
  obtain ⟨entries, failure⟩ := run
  cases failure with
  | none => rw [breakAt?_of_failure_none rfl, breakAt?_of_failure_none rfl]
  | some e =>
    rcases List.eq_nil_or_concat entries with rfl | ⟨init, last, rfl⟩
    · rfl
    · have hlast : last.1 ≠ gone := by
        intro hlast
        simp [breakAt?, lastKey?, hlast] at h
      simp [breakAt?, lastKey?, without, KeyMap.erase, List.filter_append, hlast]

end Run

/-- Sources of a feed hold the runs that `R` says they hold. -/
structure Feed.Yields (feed : Feed ε σ) (R : σ → Run ε → Prop) : Prop where
  pull_end : ∀ {s}, R s ⟨[], none⟩ → feed.pull s = none
  pull_failure : ∀ {s e}, R s ⟨[], some e⟩ → ∃ s', feed.pull s = some (.error e, s')
  pull_entry : ∀ {s e es failure}, R s ⟨e :: es, failure⟩ →
    ∃ s', feed.pull s = some (.ok e, s') ∧ R s' ⟨es, failure⟩

/-- The first item of a source is what is pulled from it. -/
theorem Feed.pull_of_toList {feed : Feed ε σ} {source : σ} {item : Except ε Entry}
    {items : List (Except ε Entry)} (h : feed.toList source = item :: items) :
    ∃ rest, feed.pull source = some (item, rest) ∧ feed.toList rest = items := by
  unfold Feed.toList at h
  split at h
  · cases h
  · next first rest hp =>
    obtain ⟨rfl, hrest⟩ := List.cons.inj h
    exact ⟨rest, hp, hrest⟩

theorem Feed.pull_of_toList_nil {feed : Feed ε σ} {source : σ} (h : feed.toList source = []) :
    feed.pull source = none := by
  unfold Feed.toList at h
  split at h
  · assumption
  · cases h

/-- Every feed yields what its sources hold. -/
theorem Feed.yields_toList (feed : Feed ε σ) :
    feed.Yields fun source run => feed.toList source = run.items where
  pull_end h := pull_of_toList_nil h
  pull_failure h := by
    obtain ⟨rest, hp, -⟩ := pull_of_toList h
    exact ⟨rest, hp⟩
  pull_entry h := pull_of_toList h

/-- A lane holds the first entry of a run, and its source the others. -/
inductive Lane.Shows (R : σ → Run ε → Prop) : Lane σ → Run ε → Prop
  | ended {source : σ} : Shows R ⟨none, source⟩ ⟨[], none⟩
  | holding {source : σ} {e : Entry} {es : List Entry} {failure : Option ε} :
      R source ⟨es, failure⟩ → Shows R ⟨some e, source⟩ ⟨e :: es, failure⟩

variable {feed : Feed ε σ} {R : σ → Run ε → Prop}

theorem Lane.Shows.head_eq {lane : Lane σ} {run : Run ε} (h : lane.Shows R run) :
    lane.head = run.entries.head? := by
  cases h <;> rfl

/-- A source whose run starts with its failure cannot be put into a lane. -/
theorem Lane.load_spec (hf : feed.Yields R) {source : σ} {run : Run ε} (h : R source run) :
    match Lane.load feed source with
    | .ok lane => lane.Shows R run
    | .error e => run = ⟨[], some e⟩ := by
  unfold Lane.load
  obtain ⟨entries, failure⟩ := run
  cases entries with
  | nil =>
    cases failure with
    | none =>
      rw [hf.pull_end h]
      exact .ended
    | some e =>
      obtain ⟨s', hp⟩ := hf.pull_failure h
      rw [hp]
  | cons e es =>
    obtain ⟨s', hp, hs'⟩ := hf.pull_entry h
    rw [hp]
    exact .holding hs'

/-- Where the lists on one side are put together of two, so are those on the other. -/
theorem forall₂_append_cons_left {α β : Type} {S : α → β → Prop} {front back : List α} {a : α}
    {bs : List β} (h : List.Forall₂ S (front ++ a :: back) bs) :
    ∃ front' b back', bs = front' ++ b :: back' ∧ List.Forall₂ S front front' ∧ S a b ∧
      List.Forall₂ S back back' := by
  induction front generalizing bs with
  | nil =>
    obtain ⟨b, back', hb, hback, rfl⟩ := List.forall₂_cons_left_iff.1 h
    exact ⟨[], b, back', rfl, .nil, hb, hback⟩
  | cons c front ih =>
    obtain ⟨d, rest, hd, hrest, rfl⟩ := List.forall₂_cons_left_iff.1 h
    obtain ⟨front', b, back', rfl, hfront, hb, hback⟩ := ih hrest
    exact ⟨d :: front', b, back', rfl, .cons hd hfront, hb, hback⟩

/-- Each of the first runs is what is left of one of the second. -/
def LeftOf (runs' runs : List (Run ε)) : Prop :=
  ∀ run' ∈ runs', ∃ run ∈ runs, run'.entries.Sublist run.entries ∧ run'.failure = run.failure

section LeftOf

variable {runs runs' runs'' : List (Run ε)}

theorem LeftOf.refl (runs : List (Run ε)) : LeftOf runs runs :=
  fun run hrun => ⟨run, hrun, List.Sublist.refl _, rfl⟩

theorem LeftOf.trans (h : LeftOf runs'' runs') (h' : LeftOf runs' runs) : LeftOf runs'' runs := by
  intro run'' hrun''
  obtain ⟨run', hrun', hsub', hfail'⟩ := h run'' hrun''
  obtain ⟨run, hrun, hsub, hfail⟩ := h' run' hrun'
  exact ⟨run, hrun, hsub'.trans hsub, hfail'.trans hfail⟩

/-- What stays true when entries are left out is true of the first runs if it is of the second. -/
theorem LeftOf.forall_entries {P : KeyMap (Option Bytes) → Prop}
    (hP : ∀ {entries left}, List.Sublist left entries → P entries → P left) (h : LeftOf runs' runs)
    (hs : ∀ run ∈ runs, P run.entries) : ∀ run ∈ runs', P run.entries := by
  intro run' hrun'
  obtain ⟨run, hrun, hsub, -⟩ := h run' hrun'
  exact hP hsub (hs run hrun)

theorem LeftOf.ordered (h : LeftOf runs' runs) (hs : ∀ run ∈ runs, run.entries.Ordered) :
    ∀ run ∈ runs', run.entries.Ordered :=
  h.forall_entries List.Pairwise.sublist hs

theorem LeftOf.sorted (h : LeftOf runs' runs) (hs : ∀ run ∈ runs, run.entries.Sorted) :
    ∀ run ∈ runs', run.entries.Sorted :=
  h.forall_entries List.Pairwise.sublist hs

theorem leftOf_without (key : Bytes) (runs : List (Run ε)) : LeftOf (runs.map (·.without key)) runs :=
  List.forall_mem_map.2 fun run hrun => ⟨run, hrun, List.filter_sublist, rfl⟩

end LeftOf

/-- No key in the runs is smaller. -/
def AtLeast (key : Bytes) (runs : List (Run ε)) : Prop := ∀ run ∈ runs, ∀ e ∈ run.entries, key ≤ e.1

namespace Lanes

variable {lanes : List (Lane σ)} {runs : List (Run ε)} {i : Nat} {entry : Entry} {key : Bytes}

/-! ## The first head -/

theorem head_eq_none_of_first? (h : first? lanes = none) : ∀ lane ∈ lanes, lane.head = none := by
  induction lanes with
  | nil => simp
  | cons lane lanes ih =>
    unfold first? at h
    split at h
    · next hhead hrest => exact List.forall_mem_cons.2 ⟨hhead, ih hrest⟩
    · cases h
    · cases h
    · split at h <;> cases h

/-- What is found first is the smallest head, and the heads before it are larger. -/
theorem first?_some_spec (h : first? lanes = some (i, entry)) :
    ∃ front lane back, lanes = front ++ lane :: back ∧ front.length = i ∧ lane.head = some entry ∧
      (∀ l ∈ front, ∀ e, l.head = some e → entry.1 < e.1) ∧
      ∀ l ∈ back, ∀ e, l.head = some e → entry.1 ≤ e.1 := by
  induction lanes generalizing i entry with
  | nil => cases h
  | cons lane lanes ih =>
    -- a head found further back stays first when the head in front of it is larger or missing
    have later : ∀ {j e}, first? lanes = some (j, e) → (∀ e', lane.head = some e' → e.1 < e'.1) →
        ∃ front l back, lane :: lanes = front ++ l :: back ∧ front.length = j + 1 ∧ l.head = some e ∧
          (∀ l ∈ front, ∀ e', l.head = some e' → e.1 < e'.1) ∧
          ∀ l ∈ back, ∀ e', l.head = some e' → e.1 ≤ e'.1 := by
      intro j e hrest hlane
      obtain ⟨front, l, back, rfl, rfl, hl, hfront, hback⟩ := ih hrest
      exact ⟨lane :: front, l, back, rfl, rfl, hl, List.forall_mem_cons.2 ⟨hlane, hfront⟩, hback⟩
    unfold first? at h
    split at h
    · cases h
    · next hhead hrest =>
      cases h
      apply later hrest
      simp [hhead]
    · next hhead hrest =>
      cases h
      refine ⟨[], lane, lanes, rfl, rfl, hhead, by simp, ?_⟩
      intro l hl e he
      simp [head_eq_none_of_first? hrest l hl] at he
    · next hhead hrest =>
      split at h
      · next hlt =>
        cases h
        apply later hrest
        intro e' he'
        rw [hhead] at he'
        cases he'
        exact hlt
      · next hlt =>
        cases h
        refine ⟨[], lane, lanes, rfl, rfl, hhead, by simp, ?_⟩
        obtain ⟨front, found, back, rfl, -, hfound, hfront, hback⟩ := ih hrest
        intro l hl e he
        have hle := Std.not_lt.1 hlt
        rcases List.mem_append.1 hl with hl | hl
        · exact Std.le_trans hle (Std.le_of_lt (hfront l hl e he))
        · rcases List.mem_cons.1 hl with rfl | hl
          · rw [hfound] at he
            cases he
            exact hle
          · exact Std.le_trans hle (hback l hl e he)

/-- A bound on the head of a lane is a bound on its run. -/
theorem forall_mem_of_head {P : Bytes → Prop} (hP : ∀ {k k'}, P k → k ≤ k' → P k')
    (h : List.Forall₂ (Lane.Shows R) lanes runs) (hs : ∀ run ∈ runs, run.entries.Ordered)
    (hhead : ∀ lane ∈ lanes, ∀ e, lane.head = some e → P e.1) :
    ∀ run ∈ runs, ∀ e ∈ run.entries, P e.1 := by
  induction h with
  | nil => simp
  | cons hshows _ ih =>
    rw [List.forall_mem_cons] at hs hhead
    refine List.forall_mem_cons.2 ⟨?_, ih hs.2 hhead.2⟩
    cases hshows with
    | ended => simp
    | holding =>
      obtain ⟨hle, -⟩ := List.pairwise_cons.1 hs.1
      have hP' := hhead.1 _ rfl
      exact List.forall_mem_cons.2 ⟨hP', fun e he => hP hP' (hle e he)⟩

theorem entries_eq_nil_of_first? (h : List.Forall₂ (Lane.Shows R) lanes runs)
    (hn : first? lanes = none) : ∀ run ∈ runs, run.entries = [] := by
  have hheads := head_eq_none_of_first? hn
  clear hn
  induction h with
  | nil => simp
  | cons hshows _ ih =>
    rw [List.forall_mem_cons] at hheads
    refine List.forall_mem_cons.2 ⟨?_, ih hheads.2⟩
    rw [hshows.head_eq, List.head?_eq_none_iff] at hheads
    exact hheads.1

/-- What is found first heads a run, no run has a smaller key, and the runs before do not have its
key. -/
theorem first?_runs (h : List.Forall₂ (Lane.Shows R) lanes runs)
    (hs : ∀ run ∈ runs, run.entries.Ordered) (hn : first? lanes = some (i, entry)) :
    ∃ front source back rfront es failure rback,
      lanes = front ++ ⟨some entry, source⟩ :: back ∧ front.length = i ∧
      runs = rfront ++ ⟨entry :: es, failure⟩ :: rback ∧
      List.Forall₂ (Lane.Shows R) front rfront ∧ R source ⟨es, failure⟩ ∧
      List.Forall₂ (Lane.Shows R) back rback ∧
      AtLeast entry.1 runs ∧ ∀ run ∈ rfront, ∀ e ∈ run.entries, entry.1 < e.1 := by
  obtain ⟨front, lane, back, rfl, rfl, hhead, hfront, hback⟩ := first?_some_spec hn
  obtain ⟨rfront, run, rback, rfl, hf, hl, hb⟩ := forall₂_append_cons_left h
  have hlt := forall_mem_of_head (P := (entry.1 < ·)) Std.lt_of_lt_of_le hf
    (fun run hrun => hs run (List.mem_append_left _ hrun)) hfront
  have hmin : AtLeast entry.1 (rfront ++ run :: rback) := by
    apply forall_mem_of_head (P := (entry.1 ≤ ·)) Std.le_trans h hs
    intro l hl e he
    rcases List.mem_append.1 hl with hl | hl
    · exact Std.le_of_lt (hfront l hl e he)
    · rcases List.mem_cons.1 hl with rfl | hl
      · rw [hhead] at he
        cases he
        exact Std.le_refl _
      · exact hback l hl e he
  cases hl with
  | ended => cases hhead
  | holding hrest =>
    cases hhead
    exact ⟨front, _, back, rfront, _, _, rback, rfl, rfl, rfl, hf, hrest, hb, hmin, hlt⟩

/-- What is found first is the newest version of the smallest key. -/
theorem first?_newest (h : List.Forall₂ (Lane.Shows R) lanes runs)
    (hs : ∀ run ∈ runs, run.entries.Ordered) (hn : first? lanes = some (i, entry)) :
    AtLeast entry.1 runs ∧ newest? (runs.map Run.entries) entry.1 = some entry.2 := by
  obtain ⟨_, _, _, front, es, failure, back, -, -, rfl, -, -, -, hmin, hlt⟩ := first?_runs h hs hn
  have hfront : newest? (front.map Run.entries) entry.1 = none := by
    apply newest?_eq_none
    rw [List.forall_mem_map]
    exact fun run hrun e he => (Std.ne_of_lt (hlt run hrun e he)).symm
  refine ⟨hmin, ?_⟩
  rw [List.map_append, List.map_cons, newest?_append, hfront, newest?_cons, find?_cons, if_pos rfl]
  rfl

/-! ## Taking a key -/

section Pop

variable {front back : List (Run ε)} {es : List Entry} {failure : Option ε}

/-- What holds of all runs still holds when one loses its first entry. -/
theorem forall_mem_pop {P : List Entry → Prop} (hp : P (entry :: es) → P es)
    (h : ∀ run ∈ front ++ ⟨entry :: es, failure⟩ :: back, P run.entries) :
    ∀ run ∈ front ++ ⟨es, failure⟩ :: back, P run.entries := by
  simp only [List.forall_mem_append, List.forall_mem_cons] at h ⊢
  exact ⟨h.1, hp h.2.1, h.2.2⟩

theorem ordered_pop (hs : ∀ run ∈ front ++ ⟨entry :: es, failure⟩ :: back, run.entries.Ordered) :
    ∀ run ∈ front ++ ⟨es, failure⟩ :: back, run.entries.Ordered :=
  forall_mem_pop (fun h => (List.pairwise_cons.1 h).2) hs

theorem AtLeast.pop (h : AtLeast key (front ++ ⟨entry :: es, failure⟩ :: back)) :
    AtLeast key (front ++ ⟨es, failure⟩ :: back) :=
  forall_mem_pop (P := fun entries => ∀ e ∈ entries, key ≤ e.1)
    (fun h => (List.forall_mem_cons.1 h).2) h

theorem map_without_pop : (front ++ ⟨entry :: es, failure⟩ :: back).map (Run.without · entry.1) =
    (front ++ ⟨es, failure⟩ :: back).map (Run.without · entry.1) := by
  simp [Run.without, KeyMap.erase]

/-- The failure of a run that goes on is behind the same key as before. -/
theorem findSome?_breakAt?_pop (hgo : es = [] → failure = none) :
    (front ++ ⟨entry :: es, failure⟩ :: back).findSome? (Run.breakAt? · key) =
      (front ++ ⟨es, failure⟩ :: back).findSome? (Run.breakAt? · key) := by
  have hrun : Run.breakAt? ⟨entry :: es, failure⟩ key = Run.breakAt? ⟨es, failure⟩ key := by
    cases es with
    | nil => rw [Run.breakAt?_of_failure_none (hgo rfl), Run.breakAt?_of_failure_none (hgo rfl)]
    | cons e es => exact Run.breakAt?_cons_cons ..
  rw [List.findSome?_append, List.findSome?_append, List.findSome?_cons, List.findSome?_cons, hrun]

end Pop

theorem reload_append (front back : List (Lane σ)) (lane : Lane σ) :
    reload feed front.length (front ++ lane :: back) =
      (Lane.load feed lane.rest).map fun lane' => front ++ lane' :: back := by
  induction front with
  | nil =>
    simp only [List.length_nil, List.nil_append, reload]
    cases Lane.load feed lane.rest <;> rfl
  | cons first front ih =>
    simp only [List.length_cons, List.cons_append, reload, ih]
    cases Lane.load feed lane.rest <;> rfl

/-- Drawing the next entry of a lane takes the head off its run, unless the run fails behind it. -/
theorem reload_spec (entry : Entry) (hf : feed.Yields R) {front back : List (Lane σ)}
    {rfront rback : List (Run ε)} {source : σ} {es : List Entry} {failure : Option ε}
    (hfront : List.Forall₂ (Lane.Shows R) front rfront) (hrest : R source ⟨es, failure⟩)
    (hback : List.Forall₂ (Lane.Shows R) back rback) :
    match reload feed front.length (front ++ ⟨some entry, source⟩ :: back) with
    | .ok lanes' => List.Forall₂ (Lane.Shows R) lanes' (rfront ++ ⟨es, failure⟩ :: rback) ∧
        (es = [] → failure = none)
    | .error e => es = [] ∧ failure = some e := by
  have hload := Lane.load_spec hf hrest
  rw [reload_append]
  cases hl : Lane.load feed source with
  | error e =>
    rw [hl] at hload
    exact Run.mk.inj hload
  | ok lane =>
    rw [hl] at hload
    refine ⟨List.rel_append hfront (.cons hload hback), ?_⟩
    rintro rfl
    cases hload
    rfl

/-- Where no run has a key, there is nothing to take out and nothing fails behind it. -/
theorem absent_spec (h : ∀ run ∈ runs, ∀ e ∈ run.entries, e.1 ≠ key) :
    runs.findSome? (·.breakAt? key) = none ∧ runs.map (·.without key) = runs := by
  constructor
  · rw [List.findSome?_eq_none_iff]
    intro run hrun
    exact Run.breakAt?_eq_none (h run hrun)
  · have hrun : ∀ run ∈ runs, run.without key = run := by
      intro run hrun
      have herase : run.entries.erase key = run.entries :=
        List.filter_eq_self.2 fun e he => decide_eq_true (h run hrun e he)
      rw [Run.without, herase]
    rw [List.map_congr_left hrun, List.map_id']

/-- Passing over the smallest key takes it out of all runs, or fails with the first failure behind
it. -/
theorem passOver_spec (hf : feed.Yields R) (h : List.Forall₂ (Lane.Shows R) lanes runs)
    (hs : ∀ run ∈ runs, run.entries.Ordered) (hmin : AtLeast key runs) :
    match passOver feed key lanes with
    | .ok lanes' => runs.findSome? (·.breakAt? key) = none ∧
        List.Forall₂ (Lane.Shows R) lanes' (runs.map (·.without key))
    | .error e => runs.findSome? (·.breakAt? key) = some e := by
  fun_induction passOver feed key lanes generalizing runs with
  | case1 lanes hn =>
    have habsent : ∀ run ∈ runs, ∀ e ∈ run.entries, e.1 ≠ key := by
      intro run hrun e he
      simp [entries_eq_nil_of_first? h hn run hrun] at he
    obtain ⟨hbreak, hruns⟩ := absent_spec habsent
    rw [hruns]
    exact ⟨hbreak, h⟩
  | case2 lanes i entry hn hk lanes₁ hr ih =>
    obtain ⟨front, source, back, rfront, es, failure, rback, rfl, rfl, rfl, hfront, hrest, hback,
      -, -⟩ := first?_runs h hs hn
    have hreload := reload_spec entry hf hfront hrest hback
    rw [hr] at hreload
    obtain ⟨h₁, hgo⟩ := hreload
    subst hk
    rw [findSome?_breakAt?_pop hgo, map_without_pop]
    exact ih h₁ (ordered_pop hs) (AtLeast.pop hmin)
  | case3 lanes i entry hn hk e hr =>
    obtain ⟨front, source, back, rfront, es, failure, rback, rfl, rfl, rfl, hfront, hrest, hback,
      -, hlt⟩ := first?_runs h hs hn
    have hreload := reload_spec entry hf hfront hrest hback
    rw [hr] at hreload
    obtain ⟨rfl, rfl⟩ := hreload
    subst hk
    have hbefore : rfront.findSome? (·.breakAt? entry.1) = none :=
      (absent_spec fun run hrun e he => (Std.ne_of_lt (hlt run hrun e he)).symm).1
    have hhere : Run.breakAt? ⟨[entry], some e⟩ entry.1 = some e := if_pos rfl
    rw [List.findSome?_append, hbefore, List.findSome?_cons, hhere]
    rfl
  | case4 lanes i entry hn hk =>
    obtain ⟨front, source, back, rfront, es, failure, rback, rfl, rfl, rfl, -, -, -, hle, -⟩ :=
      first?_runs h hs hn
    have hlt : key < entry.1 := Std.lt_of_le_of_ne
      (hmin _ (List.mem_append_right _ List.mem_cons_self) _ List.mem_cons_self) (Ne.symm hk)
    obtain ⟨hbreak, hruns⟩ := absent_spec fun run hrun e he =>
      (Std.ne_of_lt (Std.lt_of_lt_of_le hlt (hle run hrun e he))).symm
    rw [hruns]
    exact ⟨hbreak, h⟩

/-- Taking the first entry passes over its key from the start. -/
theorem take_eq_passOver (hn : first? lanes = some (i, entry)) :
    take feed i entry lanes = passOver feed entry.1 lanes := by
  conv => rhs; unfold passOver
  split
  · next hnone =>
    rw [hn] at hnone
    cases hnone
  · next hsome =>
    rw [hn] at hsome
    cases hsome
    rw [if_pos rfl, take]
    split <;> split <;> simp_all

end Lanes

end Spillway
