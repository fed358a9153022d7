import Mathlib.Tactic.Common
import Spillway.Store.Tier

/-!
# Tiers lie inside the tables

Every stretch that is considered lies inside the list of sizes, and so does the tier that is chosen;
where there are two tables there is a choice (`exists_pick?`).
-/

namespace Spillway.Tier

variable {sizes : List Nat} {start : Nat} {tier : Tier}

/-- Extending a stretch takes tables that follow it. -/
theorem extend_count (low high count total : Nat) (sizes : List Nat) :
    count ≤ (extend low high count total sizes).1 ∧
      (extend low high count total sizes).1 ≤ count + sizes.length := by
  induction sizes generalizing low high count total with
  | nil => simp [extend]
  | cons size rest ih =>
    unfold extend
    dsimp only
    split
    · simp
    · have := ih (min low size) (max high size) (count + 1) (total + size)
      simp only [List.length_cons]
      omega

theorem mem_stretches (h : tier ∈ stretches start sizes) :
    start ≤ tier.start ∧ 1 ≤ tier.count ∧ tier.start + tier.count ≤ start + sizes.length := by
  induction sizes generalizing start with
  | nil => cases h
  | cons size rest ih =>
    have hcount := extend_count size size 1 size rest
    rw [stretches, List.mem_cons] at h
    rcases h with rfl | h
    · simp only [List.length_cons]
      omega
    · have := ih h
      simp only [List.length_cons]
      omega

theorem mem_neighbours (h : tier ∈ neighbours start sizes) :
    start ≤ tier.start ∧ tier.count = 2 ∧ tier.start + 2 ≤ start + sizes.length := by
  induction sizes generalizing start with
  | nil => cases h
  | cons a rest ih =>
    cases rest with
    | nil => cases h
    | cons b rest =>
      rw [neighbours, List.mem_cons] at h
      rcases h with rfl | h
      · refine ⟨Nat.le_refl _, rfl, ?_⟩
        simp only [List.length_cons]
        omega
      · have := ih h
        simp only [List.length_cons] at this ⊢
        omega

theorem mem_of_best? {tiers : List Tier} (h : best? tiers = some tier) : tier ∈ tiers := by
  have hfold (rest : List Tier) (best : Tier) :
      rest.foldl (fun best tier => if tier.better best then tier else best) best ∈ best :: rest := by
    induction rest generalizing best with
    | nil => simp
    | cons other rest ih =>
      rw [List.foldl_cons]
      have := ih (if other.better best then other else best)
      grind
  cases tiers with
  | nil => cases h
  | cons first rest =>
    rw [best?, Option.some.injEq] at h
    rw [← h]
    exact hfold rest first

theorem exists_best? {tiers : List Tier} (h : tiers ≠ []) : ∃ tier, best? tiers = some tier := by
  cases tiers with
  | nil => exact absurd rfl h
  | cons first rest => exact ⟨_, rfl⟩

/-- Where there are two tables, two or more neighbours are chosen. -/
theorem exists_pick? (h : 2 ≤ sizes.length) :
    ∃ tier, pick? sizes = some tier ∧ 2 ≤ tier.count ∧ tier.start + tier.count ≤ sizes.length := by
  obtain ⟨a, b, rest, rfl⟩ : ∃ a b rest, sizes = a :: b :: rest := by
    match sizes, h with
    | a :: b :: rest, _ => exact ⟨a, b, rest, rfl⟩
  have hstretches : stretches 0 (a :: b :: rest) ≠ [] := by simp [stretches]
  have hneighbours : neighbours 0 (a :: b :: rest) ≠ [] := by simp [neighbours]
  obtain ⟨longest, hlongest⟩ := exists_best? hstretches
  obtain ⟨smallest, hsmallest⟩ := exists_best? hneighbours
  obtain ⟨-, -, hinside⟩ := mem_stretches (mem_of_best? hlongest)
  obtain ⟨-, hpair, hinside'⟩ := mem_neighbours (mem_of_best? hsmallest)
  unfold pick?
  rw [hlongest]
  dsimp only
  by_cases hmany : 2 ≤ longest.count
  · exact ⟨longest, if_pos hmany, hmany, by omega⟩
  · exact ⟨smallest, by rw [if_neg hmany, hsmallest], by omega, by omega⟩

end Spillway.Tier
