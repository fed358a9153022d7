import Spillway.Proofs.Merge.Lanes

/-!
# What is still to come of a merge

The outlook of runs goes through the newest versions of their keys, in the order of the keys, and
ends in a failure at the first key behind which a run fails. `Lanes.next_spec` says that a call takes
the first item off the outlook, `Lanes.drain_spec` that the outlook is all that is still to come.
-/

namespace Spillway

open KeyMap

variable {ε σ : Type}

/-- The entries that are given, up to the first key behind which a run fails. -/
def upToBreak (keepDeletions : Bool) (runs : List (Run ε)) : List Entry → List (Except ε Entry)
  | [] => []
  | entry :: rest =>
    match runs.findSome? (·.breakAt? entry.1) with
    | some e => [.error e]
    | none =>
      if entry.2.isSome || keepDeletions then .ok entry :: upToBreak keepDeletions runs rest
      else upToBreak keepDeletions runs rest

/-- What a merge of the runs gives. -/
def outlook (keepDeletions : Bool) (runs : List (Run ε)) : List (Except ε Entry) :=
  upToBreak keepDeletions runs (stack (runs.map Run.entries))

section Outlook

variable {keepDeletions : Bool} {runs runs' : List (Run ε)} {entries : List Entry}

theorem upToBreak_congr (h : ∀ key, runs'.findSome? (·.breakAt? key) = runs.findSome? (·.breakAt? key)) :
    upToBreak keepDeletions runs' entries = upToBreak keepDeletions runs entries := by
  induction entries with
  | nil => rfl
  | cons entry rest ih => simp only [upToBreak, h, ih]

/-- Without a failure all entries are given. -/
theorem upToBreak_of_sound (h : ∀ entry ∈ entries, runs.findSome? (·.breakAt? entry.1) = none) :
    upToBreak keepDeletions runs entries =
      (entries.filter fun entry => entry.2.isSome || keepDeletions).map .ok := by
  induction entries with
  | nil => rfl
  | cons entry rest ih =>
    rw [List.forall_mem_cons] at h
    rw [upToBreak, h.1, List.filter_cons]
    simp only
    split <;> simp [ih h.2]

theorem outlook_of_sound (h : ∀ run ∈ runs, run.failure = none) :
    outlook keepDeletions runs = (merged keepDeletions (runs.map Run.entries)).map .ok := by
  apply upToBreak_of_sound
  intro entry _
  rw [List.findSome?_eq_none_iff]
  intro run hrun
  exact Run.breakAt?_of_failure_none (h run hrun)

theorem outlook_nil (h : ∀ run ∈ runs, run.entries = []) : outlook keepDeletions runs = [] := by
  have hstack : stack (runs.map Run.entries) = [] := by
    apply (sorted_stack _).ext sorted_nil
    intro key
    rw [find?_stack, newest?_eq_none, find?_nil]
    intro entries hmem e he
    obtain ⟨run, hrun, rfl⟩ := List.mem_map.1 hmem
    rw [h run hrun] at he
    cases he
  rw [outlook, hstack, upToBreak]

theorem findSome?_breakAt?_without {gone key : Bytes} (h : runs.findSome? (·.breakAt? gone) = none) :
    (runs.map (·.without gone)).findSome? (·.breakAt? key) = runs.findSome? (·.breakAt? key) := by
  rw [List.findSome?_map]
  rw [List.findSome?_eq_none_iff] at h
  induction runs with
  | nil => rfl
  | cons run runs ih =>
    rw [List.forall_mem_cons] at h
    rw [List.findSome?_cons, List.findSome?_cons, ih h.2, Function.comp_apply,
      Run.breakAt?_without h.1]

/-- The newest version of the smallest key is decided first: it fails the merge, or it comes before
the outlook of what is left when the key is taken out of all runs. -/
theorem outlook_eq {entry : Entry} (hmin : AtLeast entry.1 runs)
    (hnew : newest? (runs.map Run.entries) entry.1 = some entry.2) :
    outlook keepDeletions runs =
      match runs.findSome? (·.breakAt? entry.1) with
      | some e => [.error e]
      | none =>
        if entry.2.isSome || keepDeletions then
          .ok entry :: outlook keepDeletions (runs.map (·.without entry.1))
        else outlook keepDeletions (runs.map (·.without entry.1)) := by
  have hrest : (runs.map Run.entries).map (KeyMap.erase · entry.1) =
      (runs.map (·.without entry.1)).map Run.entries := by
    simp only [List.map_map]
    rfl
  rw [outlook, stack_eq_cons (List.forall_mem_map.2 hmin) hnew, hrest, upToBreak]
  split
  · rfl
  · next hbreak =>
    rw [outlook, upToBreak_congr fun key => findSome?_breakAt?_without hbreak]

end Outlook

namespace Lanes

variable {feed : Feed ε σ} {R : σ → Run ε → Prop} {lanes : List (Lane σ)} {runs : List (Run ε)}

/-- Taking the first entry takes its key out of all runs, or fails as the outlook says. -/
theorem take_spec (keepDeletions : Bool) (hf : feed.Yields R) (h : List.Forall₂ (Lane.Shows R) lanes runs)
    (hs : ∀ run ∈ runs, run.entries.Ordered) {i : Nat} {entry : Entry}
    (hn : first? lanes = some (i, entry)) :
    match take feed i entry lanes with
    | .ok lanes' => List.Forall₂ (Lane.Shows R) lanes' (runs.map (·.without entry.1)) ∧
        outlook keepDeletions runs =
          if entry.2.isSome || keepDeletions then
            .ok entry :: outlook keepDeletions (runs.map (·.without entry.1))
          else outlook keepDeletions (runs.map (·.without entry.1))
    | .error e => outlook keepDeletions runs = [.error e] := by
  obtain ⟨hmin, hnew⟩ := first?_newest h hs hn
  have hpass := passOver_spec hf h hs hmin
  rw [take_eq_passOver hn, outlook_eq hmin hnew]
  cases hp : passOver feed entry.1 lanes with
  | ok lanes' =>
    rw [hp] at hpass
    obtain ⟨hbreak, h'⟩ := hpass
    rw [hbreak]
    exact ⟨h', rfl⟩
  | error e =>
    rw [hp] at hpass
    simp only at hpass
    rw [hpass]

/-- A call takes the first item off the outlook. -/
theorem next_spec (keepDeletions : Bool) (hf : feed.Yields R)
    (h : List.Forall₂ (Lane.Shows R) lanes runs) (hs : ∀ run ∈ runs, run.entries.Ordered) :
    match next feed keepDeletions lanes with
    | .ok (found, lanes') => ∃ runs', List.Forall₂ (Lane.Shows R) lanes' runs' ∧ LeftOf runs' runs ∧
        (outlook keepDeletions runs).head? = found.map .ok ∧
        outlook keepDeletions runs' = (outlook keepDeletions runs).tail
    | .error e => outlook keepDeletions runs = [.error e] := by
  fun_induction next feed keepDeletions lanes generalizing runs with
  | case1 lanes hn =>
    have hnil : outlook keepDeletions runs = [] := outlook_nil (entries_eq_nil_of_first? h hn)
    refine ⟨runs, h, LeftOf.refl runs, ?_, ?_⟩ <;> simp [hnil]
  | case2 lanes i entry hn e ht =>
    have htake := take_spec keepDeletions hf h hs hn
    rw [ht] at htake
    exact htake
  | case3 lanes i entry hn lanes₁ ht hkeep =>
    have htake := take_spec keepDeletions hf h hs hn
    rw [ht] at htake
    obtain ⟨h', hout⟩ := htake
    rw [if_pos hkeep] at hout
    refine ⟨_, h', leftOf_without entry.1 runs, ?_, ?_⟩ <;> simp [hout]
  | case4 lanes i entry hn lanes₁ ht hkeep ih =>
    have htake := take_spec keepDeletions hf h hs hn
    rw [ht] at htake
    obtain ⟨h', hout⟩ := htake
    rw [if_neg hkeep] at hout
    have hleft := leftOf_without entry.1 runs
    have hrest := ih h' (hleft.ordered hs)
    rw [hout]
    cases hnext : next feed keepDeletions lanes₁ with
    | error e =>
      rw [hnext] at hrest
      exact hrest
    | ok out =>
      rw [hnext] at hrest
      obtain ⟨runs', h'', hleft', hhead, htail⟩ := hrest
      exact ⟨runs', h'', hleft'.trans hleft, hhead, htail⟩

/-- Draining gives the whole outlook. -/
theorem drain_spec (keepDeletions : Bool) (hf : feed.Yields R)
    (h : List.Forall₂ (Lane.Shows R) lanes runs) (hs : ∀ run ∈ runs, run.entries.Ordered) :
    drain feed keepDeletions lanes = outlook keepDeletions runs := by
  fun_induction drain feed keepDeletions lanes generalizing runs with
  | case1 lanes lanes' hn =>
    have hnext := next_spec keepDeletions hf h hs
    rw [hn] at hnext
    obtain ⟨runs', -, -, hhead, -⟩ := hnext
    exact (List.head?_eq_none_iff.1 hhead).symm
  | case2 lanes entry lanes' hn ih =>
    have hnext := next_spec keepDeletions hf h hs
    rw [hn] at hnext
    obtain ⟨runs', h', hleft, hhead, htail⟩ := hnext
    rw [ih h' (hleft.ordered hs), htail]
    exact List.cons_head?_tail hhead
  | case3 lanes e hn =>
    have hnext := next_spec keepDeletions hf h hs
    rw [hn] at hnext
    exact hnext.symm

end Lanes

namespace Merge

variable {feed : Feed ε σ} {R : σ → Run ε → Prop} {sources : List σ} {runs : List (Run ε)}

theorem load_spec (hf : feed.Yields R) (h : List.Forall₂ R sources runs) :
    match sources.mapM (Lane.load feed) with
    | .ok lanes => runs.findSome? Run.atOnce? = none ∧ List.Forall₂ (Lane.Shows R) lanes runs
    | .error e => runs.findSome? Run.atOnce? = some e := by
  induction h with
  | nil => exact ⟨rfl, .nil⟩
  | @cons source run sources runs hr _ ih =>
    have hlane := Lane.load_spec hf hr
    rw [List.mapM_cons]
    cases hl : Lane.load feed source with
    | error e =>
      rw [hl] at hlane
      obtain rfl := hlane
      rfl
    | ok lane =>
      rw [hl] at hlane
      have hnone : run.atOnce? = none := by cases hlane <;> rfl
      rw [List.findSome?_cons, hnone]
      cases hls : sources.mapM (Lane.load feed) with
      | error e =>
        rw [hls] at ih
        exact ih
      | ok lanes =>
        rw [hls] at ih
        exact ⟨ih.1, .cons hlane ih.2⟩

/-- A merge starts unless a run starts with its failure; the first such failure is given. -/
theorem start_spec (keepDeletions : Bool) (hf : feed.Yields R) (h : List.Forall₂ R sources runs) :
    match Merge.start feed sources keepDeletions with
    | .ok m => runs.findSome? Run.atOnce? = none ∧ m.failed = false ∧
        m.keepDeletions = keepDeletions ∧ List.Forall₂ (Lane.Shows R) m.lanes runs
    | .error e => runs.findSome? Run.atOnce? = some e := by
  have hload := load_spec hf h
  unfold start
  cases hl : sources.mapM (Lane.load feed) with
  | ok lanes =>
    rw [hl] at hload
    exact ⟨hload.1, rfl, rfl, hload.2⟩
  | error e =>
    rw [hl] at hload
    exact hload

theorem toList_spec (hf : feed.Yields R) {m : Merge σ} (hfailed : m.failed = false)
    (h : List.Forall₂ (Lane.Shows R) m.lanes runs) (hs : ∀ run ∈ runs, run.entries.Ordered) :
    m.toList feed = outlook m.keepDeletions runs := by
  rw [toList, hfailed]
  exact Lanes.drain_spec m.keepDeletions hf h hs

end Merge

end Spillway
