import Spillway.Proofs.Store.Tier
import Spillway.Proofs.Table.Guards

/-!
# The tier that is chosen

Of all runs of similar sizes `Tier.pick?` chooses the longest, of as long ones the one with the fewest
bytes, and of those the newest; where no two neighbours are similar, it chooses among the pairs of
neighbours in the same way (`chosen_is_best`). Only the longest stretch from each position is looked at,
which is enough: a run that starts there is a part of it, as any part of similar sizes is similar.
-/

namespace Spillway.Tier

variable {sizes part seen : List Nat} {low high total start : Nat} {tier a b c : Tier}
  {tiers : List Tier}

/-! ## Preference -/

/-- A tier with more tables comes first, of as many tables the one with fewer bytes, and of as many
bytes the newer one. -/
def Precedes (a b : Tier) : Prop :=
  b.count < a.count ∨
    a.count = b.count ∧ (a.total < b.total ∨ a.total = b.total ∧ a.start ≤ b.start)

theorem precedes_refl (a : Tier) : a.Precedes a := .inr ⟨rfl, .inr ⟨rfl, Nat.le_refl _⟩⟩

theorem Precedes.trans (h : a.Precedes b) (h' : b.Precedes c) : a.Precedes c := by
  unfold Precedes at *
  omega

theorem precedes_of_better (h : a.better b = true) : a.Precedes b := by
  simp only [better, Bool.or_eq_true, Bool.and_eq_true, decide_eq_true_eq] at h
  unfold Precedes
  omega

/-- A tier precedes a later one that is not better. -/
theorem precedes_of_not_better (h : b.better a = false) (hstart : a.start < b.start) :
    a.Precedes b := by
  simp only [better, Bool.or_eq_false_iff, Bool.and_eq_false_imp, decide_eq_false_iff_not,
    decide_eq_true_eq] at h
  unfold Precedes
  omega

/-- One of some tiers that precedes all of them. -/
structure Foremost (among : Tier → Prop) (tier : Tier) : Prop where
  mem : among tier
  precedes : ∀ other, among other → tier.Precedes other

theorem foldl_precedes (best : Tier) (rest : List Tier)
    (hsorted : (best :: rest).Pairwise fun a b => a.start < b.start) :
    ∀ other ∈ best :: rest,
      (rest.foldl (fun best tier => if tier.better best then tier else best) best).Precedes other := by
  induction rest generalizing best with
  | nil =>
    intro other hother
    rw [List.mem_singleton.1 hother]
    exact precedes_refl best
  | cons next rest ih =>
    rw [List.foldl_cons]
    have hnext := (List.pairwise_cons.1 hsorted).2
    rw [List.forall_mem_cons, List.forall_mem_cons]
    cases hbetter : next.better best with
    | true =>
      have hwinner := ih next hnext
      have hfirst := hwinner next List.mem_cons_self
      exact ⟨hfirst.trans (precedes_of_better hbetter), List.forall_mem_cons.1 hwinner⟩
    | false =>
      have hskip : (best :: rest).Sublist (best :: next :: rest) :=
        .cons_cons best (List.sublist_cons_self next rest)
      have hwinner := ih best (hsorted.sublist hskip)
      have hfirst := hwinner best List.mem_cons_self
      have hlater : best.start < next.start :=
        (List.pairwise_cons.1 hsorted).1 next List.mem_cons_self
      exact ⟨hfirst, hfirst.trans (precedes_of_not_better hbetter hlater),
        (List.forall_mem_cons.1 hwinner).2⟩

/-- The best of tiers that are listed from the newest on precedes all of them. -/
theorem foremost_of_best? (hsorted : tiers.Pairwise fun a b => a.start < b.start)
    (h : best? tiers = some tier) : Foremost (· ∈ tiers) tier := by
  refine ⟨mem_of_best? h, ?_⟩
  cases tiers with
  | nil => cases h
  | cons first rest =>
    rw [best?, Option.some.injEq] at h
    rw [← h]
    exact foldl_precedes first rest hsorted

/-! ## Runs -/

/-- The sizes of the tables of a tier. -/
def members (tier : Tier) (sizes : List Nat) : List Nat := (sizes.drop tier.start).take tier.count

/-- The largest size is at most `ratio` times the smallest. -/
def Similar (sizes : List Nat) : Prop := ∀ small ∈ sizes, ∀ large ∈ sizes, large ≤ small * ratio

/-- A tier is a stretch of neighbours among tables of these sizes, and has the sum of theirs. -/
structure Within (sizes : List Nat) (tier : Tier) : Prop where
  inside : tier.start + tier.count ≤ sizes.length
  total : tier.total = (tier.members sizes).sum

/-- Two or more neighbours of similar sizes. -/
structure Run (sizes : List Nat) (tier : Tier) : Prop where
  many : 2 ≤ tier.count
  within : tier.Within sizes
  similar : Similar (tier.members sizes)

/-- Two neighbours of whatever sizes. -/
structure Pair (sizes : List Nat) (tier : Tier) : Prop where
  two : tier.count = 2
  within : tier.Within sizes

/-- The tables before a tier, and those from its first one on. -/
theorem Within.exists_split (h : tier.Within sizes) :
    ∃ front back, sizes = front ++ back ∧ front.length = tier.start ∧ tier.count ≤ back.length ∧
      tier.members sizes = back.take tier.count := by
  have hinside := h.inside
  refine ⟨sizes.take tier.start, sizes.drop tier.start, (List.take_append_drop _ _).symm, ?_, ?_, rfl⟩
  · exact List.length_take_of_le (by omega)
  · rw [List.length_drop]
    omega

theorem Similar.subset (h : Similar sizes) (hpart : part ⊆ sizes) : Similar part :=
  fun small hsmall large hlarge => h small (hpart hsmall) large (hpart hlarge)

/-- The smallest and the largest of some sizes. -/
structure Bounds (low high : Nat) (sizes : List Nat) : Prop where
  low_mem : low ∈ sizes
  high_mem : high ∈ sizes
  within : ∀ size ∈ sizes, low ≤ size ∧ size ≤ high

theorem bounds_singleton (size : Nat) : Bounds size size [size] :=
  ⟨List.mem_cons_self, List.mem_cons_self, fun other hother => by
    rw [List.mem_singleton.1 hother]
    exact ⟨Nat.le_refl _, Nat.le_refl _⟩⟩

theorem Bounds.concat (h : Bounds low high seen) (size : Nat) :
    Bounds (min low size) (max high size) (seen ++ [size]) := by
  refine ⟨?_, ?_, fun other hother => ?_⟩
  · rcases Nat.le_total low size with hle | hle
    · rw [Nat.min_eq_left hle]
      exact List.mem_append_left _ h.low_mem
    · rw [Nat.min_eq_right hle]
      exact List.mem_concat_self
  · rcases Nat.le_total high size with hle | hle
    · rw [Nat.max_eq_right hle]
      exact List.mem_concat_self
    · rw [Nat.max_eq_left hle]
      exact List.mem_append_left _ h.high_mem
  · rcases List.mem_append.1 hother with hother | hother
    · have := h.within other hother
      omega
    · rw [List.mem_singleton.1 hother]
      omega

theorem Bounds.similar_iff (h : Bounds low high sizes) : Similar sizes ↔ high ≤ low * ratio := by
  refine ⟨fun hsimilar => hsimilar low h.low_mem high h.high_mem, ?_⟩
  intro hle small hsmall large hlarge
  calc large ≤ high := (h.within large hlarge).2
    _ ≤ low * ratio := hle
    _ ≤ small * ratio := Nat.mul_le_mul_right _ (h.within small hsmall).1

/-! ## The longest stretch from a position -/

/-- A stretch is extended by as many tables as can follow those that were seen. -/
theorem extend_spec (hbounds : Bounds low high seen) (hsimilar : Similar seen) (count total : Nat)
    (rest : List Nat) :
    ∃ n, extend low high count total rest = (count + n, total + (rest.take n).sum) ∧
      n ≤ rest.length ∧ Similar (seen ++ rest.take n) ∧
      ∀ k ≤ rest.length, Similar (seen ++ rest.take k) → k ≤ n := by
  induction rest generalizing low high count total seen with
  | nil => exact ⟨0, rfl, Nat.le_refl _, by simpa using hsimilar, fun k hk _ => hk⟩
  | cons size rest ih =>
    have hnext := hbounds.concat size
    rw [extend]
    by_cases hfar : min low size * ratio < max high size
    · refine ⟨0, if_pos hfar, Nat.zero_le _, by simpa using hsimilar, fun k _ hk => ?_⟩
      cases k with
      | zero => exact Nat.le_refl _
      | succ k =>
        -- the table that is too far away is among those taken
        have hpart : (seen ++ [size]).Sublist (seen ++ (size :: rest).take (k + 1)) :=
          .append_left (.cons_cons size (List.nil_sublist _)) seen
        exact absurd (hnext.similar_iff.1 (hk.subset hpart.subset)) (Nat.not_le.2 hfar)
    · obtain ⟨n, hextend, hn, hsimilar', hmost⟩ :=
        ih hnext (hnext.similar_iff.2 (Nat.not_lt.1 hfar)) (count + 1) (total + size)
      refine ⟨n + 1, ?_, Nat.succ_le_succ hn, ?_, fun k hk hsim => ?_⟩
      · rw [if_neg hfar, hextend, List.take_succ_cons, List.sum_cons]
        simp only [Prod.mk.injEq]
        omega
      · rwa [List.take_succ_cons, List.append_cons]
      · cases k with
        | zero => exact Nat.zero_le _
        | succ k =>
          rw [List.take_succ_cons, List.append_cons] at hsim
          exact Nat.succ_le_succ (hmost k (Nat.le_of_succ_le_succ hk) hsim)

/-- From a table on, the stretch that is considered is the longest of similar sizes. -/
theorem extend_self_spec (size : Nat) (rest : List Nat) :
    ∃ n, extend size size 1 size rest = (n + 1, ((size :: rest).take (n + 1)).sum) ∧
      Similar ((size :: rest).take (n + 1)) ∧
      ∀ k ≤ rest.length, Similar ((size :: rest).take (k + 1)) → k ≤ n := by
  have hbounds := bounds_singleton size
  have hone : Similar [size] := hbounds.similar_iff.2 (Nat.le_mul_of_pos_right _ (by decide))
  obtain ⟨n, hextend, -, hsimilar, hmost⟩ := extend_spec hbounds hone 1 size rest
  simp only [List.take_succ_cons, List.sum_cons]
  exact ⟨n, by rw [hextend, Nat.add_comm], hsimilar, hmost⟩

theorem start_cons (start first : Nat) (front : List Nat) :
    start + (first :: front).length = start + 1 + front.length := by
  rw [List.length_cons]
  omega

theorem mem_stretches_iff :
    tier ∈ stretches start sizes ↔ ∃ front size rest, sizes = front ++ size :: rest ∧
      tier = ⟨start + front.length, (extend size size 1 size rest).1,
        (extend size size 1 size rest).2⟩ := by
  induction sizes generalizing start with
  | nil => simp [stretches]
  | cons size rest ih =>
    rw [stretches, List.mem_cons, ih]
    constructor
    · rintro (rfl | ⟨front, other, back, rfl, rfl⟩)
      · exact ⟨[], size, rest, rfl, rfl⟩
      · exact ⟨size :: front, other, back, rfl, by rw [start_cons]⟩
    · rintro ⟨front, other, back, hsizes, rfl⟩
      cases front with
      | nil =>
        cases hsizes
        exact .inl rfl
      | cons first front =>
        cases hsizes
        exact .inr ⟨front, other, back, rfl, by rw [start_cons]⟩

theorem pairwise_stretches (start : Nat) (sizes : List Nat) :
    (stretches start sizes).Pairwise fun a b => a.start < b.start := by
  induction sizes generalizing start with
  | nil => exact List.Pairwise.nil
  | cons size rest ih =>
    refine List.pairwise_cons.2 ⟨fun later hlater => ?_, ih (start + 1)⟩
    exact (mem_stretches hlater).1

/-- The stretches that are considered are runs, but for those of one table. -/
theorem run_of_mem_stretches (h : tier ∈ stretches 0 sizes) (hmany : 2 ≤ tier.count) :
    Run sizes tier := by
  have hinside := (mem_stretches h).2.2
  obtain ⟨front, size, rest, rfl, rfl⟩ := mem_stretches_iff.1 h
  obtain ⟨n, hextend, hsimilar, -⟩ := extend_self_spec size rest
  have hmembers : members ⟨0 + front.length, n + 1, ((size :: rest).take (n + 1)).sum⟩
      (front ++ size :: rest) = (size :: rest).take (n + 1) := by
    rw [members, Nat.zero_add, List.drop_left]
  rw [hextend] at hmany hinside ⊢
  refine ⟨hmany, ⟨by simpa using hinside, ?_⟩, ?_⟩
  · rw [hmembers]
  · rwa [hmembers]

/-- Every run is preceded by one of the stretches that are considered: that from its first table. -/
theorem Run.exists_stretch (h : Run sizes tier) :
    ∃ stretch ∈ stretches 0 sizes, stretch.Precedes tier := by
  have hmany := h.many
  have hsimilar := h.similar
  have htotal := h.within.total
  obtain ⟨front, back, rfl, hfront, hback, hmembers⟩ := h.within.exists_split
  obtain ⟨size, rest, rfl⟩ : ∃ size rest, back = size :: rest :=
    List.exists_cons_of_length_pos (by omega)
  obtain ⟨k, hk⟩ : ∃ k, tier.count = k + 1 := ⟨tier.count - 1, by omega⟩
  rw [hk] at hback hmembers
  rw [hmembers] at hsimilar htotal
  obtain ⟨n, hextend, -, hmost⟩ := extend_self_spec size rest
  have hle : k ≤ n := hmost k (Nat.le_of_succ_le_succ hback) hsimilar
  refine ⟨⟨tier.start, n + 1, ((size :: rest).take (n + 1)).sum⟩, ?_, ?_⟩
  · refine mem_stretches_iff.2 ⟨front, size, rest, rfl, ?_⟩
    rw [hextend, hfront, Nat.zero_add]
  · rcases Nat.lt_or_eq_of_le hle with hlt | rfl
    · exact .inl (hk ▸ Nat.succ_lt_succ hlt)
    · exact .inr ⟨hk.symm, .inr ⟨htotal.symm, Nat.le_refl _⟩⟩

/-! ## Pairs of neighbours -/

theorem mem_neighbours_iff :
    tier ∈ neighbours start sizes ↔ ∃ front a b rest, sizes = front ++ a :: b :: rest ∧
      tier = ⟨start + front.length, 2, a + b⟩ := by
  induction sizes generalizing start with
  | nil => simp [neighbours]
  | cons first sizes ih =>
    cases sizes with
    | nil =>
      refine iff_of_false List.not_mem_nil ?_
      rintro ⟨front, a, b, rest, hsizes, -⟩
      have := congrArg List.length hsizes
      simp only [List.length_append, List.length_cons, List.length_nil] at this
      omega
    | cons second sizes =>
      rw [neighbours, List.mem_cons, ih]
      constructor
      · rintro (rfl | ⟨front, a, b, rest, hsizes, rfl⟩)
        · exact ⟨[], first, second, sizes, rfl, rfl⟩
        · exact ⟨first :: front, a, b, rest, congrArg _ hsizes, by rw [start_cons]⟩
      · rintro ⟨front, a, b, rest, hsizes, rfl⟩
        cases front with
        | nil =>
          cases hsizes
          exact .inl rfl
        | cons _ front => exact .inr ⟨front, a, b, rest, (List.cons.inj hsizes).2, by rw [start_cons]⟩

theorem pairwise_neighbours (start : Nat) (sizes : List Nat) :
    (neighbours start sizes).Pairwise fun a b => a.start < b.start := by
  fun_induction neighbours start sizes with
  | case1 start a b rest ih =>
    refine List.pairwise_cons.2 ⟨fun later hlater => ?_, ih⟩
    exact (mem_neighbours hlater).1
  | case2 => exact List.Pairwise.nil

/-- The two tables at a position are among the pairs that are considered, and nothing else is. -/
theorem mem_neighbours_iff_pair : tier ∈ neighbours 0 sizes ↔ Pair sizes tier := by
  rw [mem_neighbours_iff]
  constructor
  · rintro ⟨front, a, b, rest, rfl, rfl⟩
    exact ⟨rfl, by simp, by simp [members]⟩
  · intro h
    obtain ⟨start, count, total⟩ := tier
    obtain rfl : count = 2 := h.two
    have htotal : total = _ := h.within.total
    obtain ⟨front, back, rfl, rfl, hback, hmembers⟩ := h.within.exists_split
    match back, hback with
    | a :: b :: rest, _ =>
      refine ⟨front, a, b, rest, rfl, ?_⟩
      rw [htotal, hmembers, Nat.zero_add]
      rfl

/-! ## The choice -/

theorem pick?_eq_none (h : sizes.length < 2) : pick? sizes = none := by
  match sizes, h with
  | [], _ => rfl
  | [size], _ => rfl

/-- The longest stretch is chosen when it has two tables or more, and else the best pair. -/
theorem pick?_cases (h : pick? sizes = some tier) :
    ∃ longest, best? (stretches 0 sizes) = some longest ∧
      (2 ≤ longest.count ∧ tier = longest ∨
        longest.count < 2 ∧ best? (neighbours 0 sizes) = some tier) := by
  unfold pick? at h
  cases hlongest : best? (stretches 0 sizes) with
  | none =>
    rw [hlongest] at h
    cases h
  | some longest =>
    rw [hlongest] at h
    dsimp only at h
    refine ⟨longest, rfl, ?_⟩
    by_cases hmany : 2 ≤ longest.count
    · rw [if_pos hmany] at h
      exact .inl ⟨hmany, (Option.some.inj h).symm⟩
    · rw [if_neg hmany] at h
      exact .inr ⟨Nat.not_le.1 hmany, h⟩

/-- No run is longer than the best stretch, nor as long and better. -/
theorem precedes_run {longest run : Tier} (h : best? (stretches 0 sizes) = some longest)
    (hrun : Run sizes run) : longest.Precedes run := by
  obtain ⟨stretch, hmem, hprecedes⟩ := hrun.exists_stretch
  exact ((foremost_of_best? (pairwise_stretches 0 sizes) h).precedes stretch hmem).trans hprecedes

theorem foremost_of_pick? (h : pick? sizes = some tier) :
    ((∃ run, Run sizes run) → Foremost (Run sizes) tier) ∧
      ((¬ ∃ run, Run sizes run) → Foremost (Pair sizes) tier) := by
  obtain ⟨longest, hlongest, ⟨hmany, rfl⟩ | ⟨hone, hbest⟩⟩ := pick?_cases h
  · have hrun : Run sizes tier := run_of_mem_stretches (mem_of_best? hlongest) hmany
    exact ⟨fun _ => ⟨hrun, fun _ => precedes_run hlongest⟩, fun hnone => absurd ⟨tier, hrun⟩ hnone⟩
  · refine ⟨fun hrun => ?_, fun _ => ?_⟩
    · obtain ⟨run, hrun⟩ := hrun
      have hprecedes := precedes_run hlongest hrun
      have hmany := hrun.many
      unfold Precedes at hprecedes
      omega
    · have hforemost := foremost_of_best? (pairwise_neighbours 0 sizes) hbest
      exact ⟨mem_neighbours_iff_pair.1 hforemost.mem, fun other hother =>
        hforemost.precedes other (mem_neighbours_iff_pair.2 hother)⟩

/-! ## Words -/

namespace Guarded

open Table (Trap)
open Table.Guarded (plus plus_eq ok_bind)

/-- A product, or the greatest word when it is none. -/
def times (a b : Nat) : Nat := min (a * b) (UInt64.size - 1)

/-- A word is above a product when it is above the word that stands for it. -/
theorem times_lt_iff {a b c : Nat} (h : c < UInt64.size) : times a b < c ↔ a * b < c := by
  unfold times
  omega

/-- Extends a stretch in the way of `Tier.extend`. -/
def extend (low high count total : Nat) : List Nat → Except Trap (Nat × Nat)
  | [] => return (count, total)
  | size :: rest => do
    let low := min low size
    let high := max high size
    if times low ratio < high then return (count, total)
    let total ← plus total size
    extend low high (count + 1) total rest

def stretches (start : Nat) : List Nat → Except Trap (List Tier)
  | [] => return []
  | size :: rest => do
    let (count, total) ← extend size size 1 size rest
    return ⟨start, count, total⟩ :: (← stretches (start + 1) rest)

def neighbours (start : Nat) : List Nat → Except Trap (List Tier)
  | a :: b :: rest => do
    let total ← plus a b
    return ⟨start, 2, total⟩ :: (← neighbours (start + 1) (b :: rest))
  | _ => return []

/-- Chooses the tables to merge in the order of `Tier.pick?`. -/
def pick? (sizes : List Nat) : Except Trap (Option Tier) := do
  if sizes.length < 2 then return none
  match best? (← stretches 0 sizes) with
  | none => return none
  | some tier => if 2 ≤ tier.count then return some tier else return best? (← neighbours 0 sizes)

theorem extend_eq (hhigh : high < UInt64.size) (hsum : total + sizes.sum < UInt64.size)
    (low count : Nat) :
    extend low high count total sizes = .ok (Tier.extend low high count total sizes) := by
  induction sizes generalizing low high count total with
  | nil => rfl
  | cons size rest ih =>
    rw [List.sum_cons] at hsum
    have hhigh' : max high size < UInt64.size := by omega
    rw [extend, Tier.extend]
    by_cases hfar : min low size * ratio < max high size
    · rw [if_pos hfar, if_pos ((times_lt_iff hhigh').2 hfar)]
      rfl
    · rw [if_neg hfar, if_neg (mt (times_lt_iff hhigh').1 hfar), plus_eq (by omega), ok_bind,
        ih hhigh' (by omega)]

theorem stretches_eq (hsum : sizes.sum < UInt64.size) (start : Nat) :
    stretches start sizes = .ok (Tier.stretches start sizes) := by
  induction sizes generalizing start with
  | nil => rfl
  | cons size rest ih =>
    rw [List.sum_cons] at hsum
    rw [stretches, extend_eq (by omega) hsum, ok_bind, ih (by omega)]
    rfl

theorem neighbours_eq (hsum : sizes.sum < UInt64.size) (start : Nat) :
    neighbours start sizes = .ok (Tier.neighbours start sizes) := by
  fun_induction Tier.neighbours start sizes with
  | case1 start a b rest ih =>
    simp only [List.sum_cons] at hsum ih
    rw [neighbours, plus_eq (by omega), ok_bind, ih (by omega)]
    rfl
  | case2 start sizes hshort =>
    rw [neighbours]
    · rfl
    · exact hshort

/-- No sum is too large for a word, and a product that is one is above every size. -/
theorem pick?_eq (hsum : sizes.sum < UInt64.size) : pick? sizes = .ok (Tier.pick? sizes) := by
  unfold pick?
  by_cases hshort : sizes.length < 2
  · rw [if_pos hshort, pick?_eq_none hshort]
    rfl
  · rw [if_neg hshort, stretches_eq hsum, ok_bind, Tier.pick?]
    cases best? (Tier.stretches 0 sizes) with
    | none => rfl
    | some tier =>
      dsimp only
      split
      · rfl
      · rw [neighbours_eq hsum]
        rfl

end Guarded

/-- Where the sum of all sizes is a word, the choice is made without an overflow. Among fewer than
two tables there is none. Otherwise two or more neighbours are chosen: of the runs of similar sizes, if
there is any, the longest, of as long ones the one with the fewest bytes, and of those the newest; else
the pair of neighbours with the fewest bytes, and of those the newest. -/
theorem chosen_is_best (hsum : sizes.sum < UInt64.size) :
    Guarded.pick? sizes = .ok (pick? sizes) ∧
    (sizes.length < 2 → pick? sizes = none) ∧
    (2 ≤ sizes.length → ∃ tier, pick? sizes = some tier ∧ 2 ≤ tier.count ∧ tier.Within sizes ∧
      ((∃ run, Run sizes run) → Foremost (Run sizes) tier) ∧
      ((¬ ∃ run, Run sizes run) → Foremost (Pair sizes) tier)) := by
  refine ⟨Guarded.pick?_eq hsum, pick?_eq_none, fun hmany => ?_⟩
  obtain ⟨tier, hpick, htwo, -⟩ := exists_pick? hmany
  obtain ⟨hrun, hpair⟩ := foremost_of_pick? hpick
  have hwithin : tier.Within sizes := by
    by_cases hany : ∃ run, Run sizes run
    · exact (hrun hany).mem.within
    · exact (hpair hany).mem.within
  exact ⟨tier, hpick, htwo, hwithin, hrun, hpair⟩

/-- Sizes with two runs of as many tables and as many bytes. -/
def tied : List Nat := [40, 5, 9, 30, 9, 5, 90]

theorem chosen_is_best_tied :
    Guarded.pick? tied = .ok (some ⟨1, 2, 14⟩) ∧ Foremost (Run tied) ⟨1, 2, 14⟩ ∧
      Run tied ⟨4, 2, 14⟩ := by
  have hsimilar : Similar (members ⟨4, 2, 14⟩ tied) := by
    unfold Similar
    decide
  have hlater : Run tied ⟨4, 2, 14⟩ := ⟨by decide, ⟨by decide, by decide⟩, hsimilar⟩
  have hchosen : pick? tied = some ⟨1, 2, 14⟩ := by decide
  have hsum : tied.sum < UInt64.size := by decide
  obtain ⟨hwords, -, hmany⟩ := chosen_is_best hsum
  obtain ⟨tier, hpick, -, -, hrun, -⟩ := hmany (by decide)
  obtain rfl : ⟨1, 2, 14⟩ = tier := Option.some.inj (hchosen.symm.trans hpick)
  exact ⟨hchosen ▸ hwords, hrun ⟨_, hlater⟩, hlater⟩

end Spillway.Tier
