import Spillway.Feed

/-!
# Merging sorted sources

Several sources of entries, the newest first, are merged into one in the order of the keys. Of the
entries with one key the one from the newest source is given and the others are passed over;
deletions are given or hidden. A source may fail instead of giving an entry: the merge then fails
once and has ended.

Each source is held in a lane together with its next entry. `Merge.next` takes the smallest of
these entries, refills its lane, and then takes the entries with the same key out of all lanes.
-/

namespace Spillway

/-- A source after its next entry was drawn from it. -/
structure Lane (σ : Type) where
  head : Option Entry
  rest : σ

namespace Lane

variable {ε σ : Type} (feed : Feed ε σ)

/-- Draws the next entry. -/
def load (source : σ) : Except ε (Lane σ) :=
  match feed.pull source with
  | none => .ok ⟨none, source⟩
  | some (.ok entry, rest) => .ok ⟨some entry, rest⟩
  | some (.error e, _) => .error e

/-- Bounds the work left in a lane. -/
def weight (lane : Lane σ) : Nat :=
  2 * feed.remaining lane.rest + if lane.head.isSome then 1 else 0

theorem weight_load {source : σ} {lane : Lane σ} (h : load feed source = .ok lane) :
    lane.weight feed ≤ 2 * feed.remaining source := by
  unfold load at h
  split at h
  · cases h
    simp [weight]
  · next entry rest hp =>
    cases h
    have := feed.remaining_pull hp
    simp only [weight, Option.isSome_some, if_true]
    omega
  · cases h

end Lane

/-! ## Lanes side by side -/

namespace Lanes

variable {ε σ : Type} (feed : Feed ε σ)

def weight : List (Lane σ) → Nat
  | [] => 0
  | lane :: rest => lane.weight feed + weight rest

/-- The smallest entry at the head of a lane and the position of the first lane that has it. -/
def first? : List (Lane σ) → Option (Nat × Entry)
  | [] => none
  | lane :: rest =>
    match lane.head, first? rest with
    | none, none => none
    | none, some (i, later) => some (i + 1, later)
    | some entry, none => some (0, entry)
    | some entry, some (i, later) =>
      if later.1 < entry.1 then some (i + 1, later) else some (0, entry)

/-- Takes the entry at the head of the lane at a position and draws the next one. -/
def reload : Nat → List (Lane σ) → Except ε (List (Lane σ))
  | _, [] => .ok []
  | 0, lane :: rest =>
    match Lane.load feed lane.rest with
    | .ok lane => .ok (lane :: rest)
    | .error e => .error e
  | i + 1, lane :: rest =>
    match reload i rest with
    | .ok rest => .ok (lane :: rest)
    | .error e => .error e

theorem weight_reload {lanes lanes' : List (Lane σ)} {i : Nat} {entry : Entry}
    (hf : first? lanes = some (i, entry)) (hr : reload feed i lanes = .ok lanes') :
    weight feed lanes' < weight feed lanes := by
  induction lanes generalizing i entry lanes' with
  | nil => simp [first?] at hf
  | cons lane rest ih =>
    have zero : ∀ {e}, lane.head = some e → reload feed 0 (lane :: rest) = .ok lanes' →
        weight feed lanes' < weight feed (lane :: rest) := by
      intro e he h
      simp only [reload] at h
      split at h
      · next l hl =>
        cases h
        have := Lane.weight_load feed hl
        simp only [weight, Lane.weight, he, Option.isSome_some,
          if_true] at *
        omega
      · cases h
    have succ : ∀ {j e}, first? rest = some (j, e) → reload feed (j + 1) (lane :: rest) = .ok lanes' →
        weight feed lanes' < weight feed (lane :: rest) := by
      intro j e hj h
      simp only [reload] at h
      split at h
      · next l hl =>
        cases h
        have := ih hj hl
        simp only [weight] at *
        omega
      · cases h
    simp only [first?] at hf
    split at hf
    · cases hf
    · next hj =>
      cases hf
      exact succ hj hr
    · next he _ =>
      cases hf
      exact zero he hr
    · next he hj =>
      split at hf
      · cases hf
        exact succ hj hr
      · cases hf
        exact zero he hr

/-- Passes over all entries with a key, as long as it is the smallest. -/
def passOver (key : Bytes) (lanes : List (Lane σ)) : Except ε (List (Lane σ)) :=
  match _hf : first? lanes with
  | none => .ok lanes
  | some (i, entry) =>
    if entry.1 = key then
      match _hr : reload feed i lanes with
      | .ok lanes' => passOver key lanes'
      | .error e => .error e
    else .ok lanes
termination_by weight feed lanes
decreasing_by exact weight_reload feed _hf _hr

theorem weight_passOver {key : Bytes} {lanes lanes' : List (Lane σ)}
    (h : passOver feed key lanes = .ok lanes') : weight feed lanes' ≤ weight feed lanes := by
  fun_induction passOver feed key lanes with
  | case1 => cases h; exact Nat.le_refl _
  | case2 lanes i entry hf _ lanes'' hr ih =>
    exact Nat.le_trans (ih h) (Nat.le_of_lt (weight_reload feed hf hr))
  | case3 => cases h
  | case4 => cases h; exact Nat.le_refl _

/-- Takes the smallest entry and passes over the other entries with its key. -/
def take (i : Nat) (entry : Entry) (lanes : List (Lane σ)) : Except ε (List (Lane σ)) :=
  match reload feed i lanes with
  | .ok lanes => passOver feed entry.1 lanes
  | .error e => .error e

theorem weight_take {lanes lanes' : List (Lane σ)} {i : Nat} {entry : Entry}
    (hf : first? lanes = some (i, entry)) (ht : take feed i entry lanes = .ok lanes') :
    weight feed lanes' < weight feed lanes := by
  unfold take at ht
  split at ht
  · next hr => exact Nat.lt_of_le_of_lt (weight_passOver feed ht) (weight_reload feed hf hr)
  · cases ht

/-- The next entry of the merge, or `none` at the end, and the lanes after it. -/
def next (keepDeletions : Bool) (lanes : List (Lane σ)) :
    Except ε (Option Entry × List (Lane σ)) :=
  match _hf : first? lanes with
  | none => .ok (none, lanes)
  | some (i, entry) =>
    match _ht : take feed i entry lanes with
    | .error e => .error e
    | .ok lanes' =>
      if entry.2.isSome || keepDeletions then .ok (some entry, lanes')
      else next keepDeletions lanes'
termination_by weight feed lanes
decreasing_by exact weight_take feed _hf _ht

theorem weight_next {keepDeletions : Bool} {lanes lanes' : List (Lane σ)} {entry : Entry}
    (h : next feed keepDeletions lanes = .ok (some entry, lanes')) :
    weight feed lanes' < weight feed lanes := by
  fun_induction next feed keepDeletions lanes with
  | case1 => cases h
  | case2 => cases h
  | case3 lanes i entry hf lanes'' ht =>
    cases h
    exact weight_take feed hf ht
  | case4 lanes i entry hf lanes'' ht _ ih =>
    exact Nat.lt_trans (ih h) (weight_take feed hf ht)

/-- All that is still to come, up to the first failure. -/
def drain (keepDeletions : Bool) (lanes : List (Lane σ)) : List (Except ε Entry) :=
  match _hn : next feed keepDeletions lanes with
  | .ok (none, _) => []
  | .ok (some entry, lanes') => .ok entry :: drain keepDeletions lanes'
  | .error e => [.error e]
termination_by weight feed lanes
decreasing_by exact weight_next feed _hn

end Lanes

/-! ## The merge -/

/-- A merge under way. -/
structure Merge (σ : Type) where
  lanes : List (Lane σ)
  keepDeletions : Bool
  failed : Bool := false

namespace Merge

variable {ε σ : Type} (feed : Feed ε σ)

/-- Draws the first entry of each source, newest first; the first source that fails at once
decides the error. -/
def start (sources : List σ) (keepDeletions : Bool) : Except ε (Merge σ) :=
  match sources.mapM (Lane.load feed) with
  | .ok lanes => .ok { lanes, keepDeletions }
  | .error e => .error e

/-- The next entry or failure and the merge after it; `none` at the end and after a failure. -/
def next (m : Merge σ) : Option (Except ε Entry) × Merge σ :=
  if m.failed then (none, m)
  else
    match Lanes.next feed m.keepDeletions m.lanes with
    | .ok (none, lanes) => (none, { m with lanes })
    | .ok (some entry, lanes) => (some (.ok entry), { m with lanes })
    | .error e => (some (.error e), { m with failed := true })

/-- All that is still to come. -/
def toList (m : Merge σ) : List (Except ε Entry) :=
  if m.failed then [] else Lanes.drain feed m.keepDeletions m.lanes

end Merge

end Spillway
