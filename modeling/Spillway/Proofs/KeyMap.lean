import Spillway.KeyMap

/-!
# Lookup in maps keyed by bytes

How putting and taking away change what a map finds, that both keep its keys in order, and that a
sorted map is determined by what it finds (`Sorted.ext`).
-/

namespace Spillway

/-- Keeping the pairs whose first parts pass a test. -/
theorem lookup_filter {κ α : Type} [BEq κ] [LawfulBEq κ] (pairs : List (κ × α)) (p : κ → Bool)
    (key : κ) :
    (pairs.filter fun pair => p pair.1).lookup key = if p key then pairs.lookup key else none := by
  induction pairs with
  | nil => simp
  | cons pair pairs ih =>
    rw [List.filter_cons]
    by_cases hp : p pair.1 = true
    · rw [if_pos hp, List.lookup_cons, List.lookup_cons, ih]
      by_cases hk : (key == pair.1) = true
      · have hkey : p key = true := by rw [eq_of_beq hk, hp]
        rw [hk, if_pos hkey, if_pos hkey]
      · rw [Bool.eq_false_iff.2 hk]
    · rw [if_neg hp, ih, List.lookup_cons]
      by_cases hk : (key == pair.1) = true
      · rw [eq_of_beq hk, if_neg hp, if_neg hp]
      · rw [Bool.eq_false_iff.2 hk]

namespace KeyMap

variable {α : Type} {m m' rest : KeyMap α} {k key : Bytes} {v value : α}

/-! ## Lookup -/

@[simp] theorem find?_nil : find? ([] : KeyMap α) key = none := rfl

theorem find?_cons (p : Bytes × α) :
    find? (p :: rest) key = if key = p.1 then some p.2 else find? rest key := by
  unfold find?
  rw [List.lookup_cons]
  by_cases h : key = p.1
  · rw [if_pos h, beq_iff_eq.2 h]
  · rw [if_neg h, beq_eq_false_iff_ne.2 h]

theorem mem_of_find? (h : m.find? key = some v) : (key, v) ∈ m := by
  induction m with
  | nil => cases h
  | cons p rest ih =>
    rw [find?_cons] at h
    split at h
    · next hk =>
      cases h
      rw [hk]
      exact List.mem_cons_self
    · exact List.mem_cons_of_mem _ (ih h)

theorem find?_eq_none_iff : m.find? key = none ↔ ∀ p ∈ m, p.1 ≠ key := by
  induction m with
  | nil => simp
  | cons p rest ih =>
    rw [find?_cons, List.forall_mem_cons, ← ih]
    by_cases h : key = p.1
    · simp [h]
    · rw [if_neg h]
      exact ⟨fun h' => ⟨fun he => h he.symm, h'⟩, And.right⟩

theorem find?_append (front back : KeyMap α) :
    find? (front ++ back) key = (front.find? key).or (back.find? key) := by
  induction front with
  | nil => rfl
  | cons p rest ih =>
    rw [List.cons_append, find?_cons, find?_cons, ih]
    split <;> rfl

theorem find?_map {β : Type} (f : α → β) :
    find? (m.map fun pair => (pair.1, f pair.2)) key = (m.find? key).map f := by
  induction m with
  | nil => rfl
  | cons p rest ih =>
    rw [List.map_cons, find?_cons, find?_cons, ih]
    split <;> rfl

theorem find?_filter (p : Bytes → Bool) :
    find? (m.filter fun pair => p pair.1) key = if p key then m.find? key else none :=
  lookup_filter m p key

theorem contains_iff : m.contains key = true ↔ ∃ v, m.find? key = some v := by
  rw [contains, Option.isSome_iff_exists]

/-! ## Sorted maps -/

theorem sorted_nil : Sorted ([] : KeyMap α) := List.Pairwise.nil

theorem sorted_cons {p : Bytes × α} :
    Sorted (p :: rest) ↔ (∀ q ∈ rest, p.1 < q.1) ∧ Sorted rest := List.pairwise_cons

theorem Sorted.map {β : Type} (h : Sorted m) (f : α → β) :
    Sorted (m.map fun pair => (pair.1, f pair.2)) :=
  List.pairwise_map.2 h

theorem Sorted.filter (h : m.Sorted) (p : Bytes × α → Bool) : Sorted (m.filter p) :=
  List.Pairwise.filter p h

theorem find?_eq_none_of_lt (h : ∀ p ∈ m, key < p.1) : m.find? key = none :=
  find?_eq_none_iff.2 fun p hp => (Std.ne_of_lt (h p hp)).symm

theorem Sorted.find?_eq_some_iff (h : m.Sorted) : m.find? key = some v ↔ (key, v) ∈ m := by
  refine ⟨mem_of_find?, fun hm => ?_⟩
  induction m with
  | nil => cases hm
  | cons p rest ih =>
    rw [sorted_cons] at h
    rw [find?_cons]
    rcases List.mem_cons.1 hm with rfl | hm
    · rw [if_pos rfl]
    · rw [if_neg (Std.ne_of_lt (h.1 _ hm)).symm]
      exact ih h.2 hm

theorem Sorted.nodup (h : m.Sorted) : (m.map Prod.fst).Nodup :=
  List.pairwise_map.2 (h.imp fun hlt => Std.ne_of_lt hlt)

/-- Sorted maps without a key in common have each key once. -/
theorem Sorted.nodup_append (h : m.Sorted) (h' : m'.Sorted)
    (hapart : ∀ pair ∈ m, m'.find? pair.1 = none) : ((m ++ m').map Prod.fst).Nodup := by
  rw [List.map_append, List.nodup_append]
  refine ⟨h.nodup, h'.nodup, fun a ha b hb hab => ?_⟩
  obtain ⟨pair, hpair, rfl⟩ := List.mem_map.1 ha
  obtain ⟨pair', hpair', rfl⟩ := List.mem_map.1 hb
  exact find?_eq_none_iff.1 (hapart pair hpair) pair' hpair' hab.symm

/-- The pairs of sorted maps without a key in common are what one of them finds. -/
theorem Sorted.mem_append (h : m.Sorted) (h' : m'.Sorted)
    (hapart : ∀ pair ∈ m, m'.find? pair.1 = none) :
    (key, v) ∈ m ++ m' ↔ (m.find? key).or (m'.find? key) = some v := by
  rw [List.mem_append, ← h.find?_eq_some_iff, ← h'.find?_eq_some_iff]
  cases hfind : m.find? key with
  | none =>
    rw [Option.none_or]
    exact or_iff_right nofun
  | some found =>
    have hnone : m'.find? key = none := hapart _ (mem_of_find? hfind)
    rw [Option.some_or, hnone]
    exact or_iff_left nofun

/-- The first key of a sorted map is its smallest. -/
theorem Sorted.head?_le (h : m.Sorted) {p : Bytes × α} (hp : p ∈ m) {least : Bytes × α}
    (hleast : m.head? = some least) : least.1 ≤ p.1 := by
  obtain ⟨rest, rfl⟩ := List.head?_eq_some_iff.1 hleast
  rcases List.mem_cons.1 hp with rfl | hp
  · exact Std.le_refl _
  · exact Std.le_of_lt ((sorted_cons.1 h).1 p hp)

/-- The last key of a sorted map is its greatest. -/
theorem Sorted.le_getLast? (h : m.Sorted) {p : Bytes × α} (hp : p ∈ m) {greatest : Bytes × α}
    (hgreatest : m.getLast? = some greatest) : p.1 ≤ greatest.1 := by
  obtain ⟨front, rfl⟩ := List.getLast?_eq_some_iff.1 hgreatest
  rcases List.mem_append.1 hp with hp | hp
  · exact Std.le_of_lt ((List.pairwise_append.1 h).2.2 p hp greatest List.mem_cons_self)
  · rw [List.mem_singleton.1 hp]
    exact Std.le_refl _

/-- Two sorted maps that find the same are the same. -/
theorem Sorted.ext (h : m.Sorted) (h' : m'.Sorted) (hf : ∀ key, m.find? key = m'.find? key) :
    m = m' := by
  induction m generalizing m' with
  | nil =>
    cases m' with
    | nil => rfl
    | cons p' rest' =>
      have := hf p'.1
      rw [find?_cons, if_pos rfl] at this
      cases this
  | cons p rest ih =>
    cases m' with
    | nil =>
      have := hf p.1
      rw [find?_cons, if_pos rfl] at this
      cases this
    | cons p' rest' =>
      rw [sorted_cons] at h h'
      have hp := hf p.1
      have hp' := hf p'.1
      simp only [find?_cons, if_true] at hp hp'
      -- a smaller first key on one side would be missing on the other
      have hk : p.1 = p'.1 := by
        rcases Std.lt_trichotomy p.1 p'.1 with hlt | heq | hlt
        · rw [if_neg (Std.ne_of_lt hlt),
            find?_eq_none_of_lt fun q hq => Std.lt_trans hlt (h'.1 q hq)] at hp
          cases hp
        · exact heq
        · rw [if_neg (Std.ne_of_lt hlt),
            find?_eq_none_of_lt fun q hq => Std.lt_trans hlt (h.1 q hq)] at hp'
          cases hp'
      have hv : p.2 = p'.2 := by
        rw [if_pos hk] at hp
        exact Option.some.inj hp
      have hr : rest = rest' := by
        refine ih h.2 h'.2 fun key => ?_
        by_cases he : key = p.1
        · rw [he, find?_eq_none_of_lt h.1, hk, find?_eq_none_of_lt h'.1]
        · have := hf key
          rwa [find?_cons, find?_cons, if_neg he, if_neg (hk ▸ he)] at this
      rw [hr, Prod.ext hk hv]

/-! ## Putting -/

theorem find?_insert :
    (m.insert key value).find? k = if k = key then some value else m.find? k := by
  induction m with
  | nil => rw [insert, find?_cons]
  | cons p rest ih =>
    obtain ⟨k', v'⟩ := p
    rw [insert]
    split
    · rw [find?_cons]
    · split
      · next hk =>
        rw [find?_cons, find?_cons, hk]
        by_cases h : k = k'
        · rw [if_pos h, if_pos h]
        · rw [if_neg h, if_neg h, if_neg h]
      · next hk =>
        rw [find?_cons, find?_cons, ih]
        by_cases h : k = k'
        · rw [if_pos h, if_neg fun h' => hk (h'.symm.trans h), if_pos h]
        · rw [if_neg h, if_neg h]

theorem length_insert_le (m : KeyMap α) (key : Bytes) (value : α) :
    (m.insert key value).length ≤ m.length + 1 := by
  induction m with
  | nil => exact Nat.le_refl _
  | cons p rest ih =>
    rw [insert]
    split
    · exact Nat.le_refl _
    · split
      · exact Nat.le_succ _
      · exact Nat.succ_le_succ ih

theorem mem_insert {p : Bytes × α} (h : p ∈ m.insert key value) : p = (key, value) ∨ p ∈ m := by
  induction m with
  | nil => exact .inl (List.mem_singleton.1 h)
  | cons q rest ih =>
    rw [insert] at h
    split at h
    · exact List.mem_cons.1 h
    · split at h
      · exact (List.mem_cons.1 h).imp_right (List.mem_cons_of_mem _)
      · rcases List.mem_cons.1 h with h | h
        · exact .inr (h ▸ List.mem_cons_self)
        · exact (ih h).imp_right (List.mem_cons_of_mem _)

theorem forall_mem_insert {P : Bytes × α → Prop} (hentry : P (key, value)) (h : ∀ p ∈ m, P p) :
    ∀ p ∈ m.insert key value, P p := by
  intro p hp
  rcases mem_insert hp with rfl | hp
  · exact hentry
  · exact h p hp

theorem Sorted.insert (h : m.Sorted) : (m.insert key value).Sorted := by
  induction m with
  | nil => exact List.pairwise_singleton _ _
  | cons p rest ih =>
    obtain ⟨k', v'⟩ := p
    rw [KeyMap.insert]
    obtain ⟨hlt, hs⟩ := sorted_cons.1 h
    split
    · next hk =>
      refine sorted_cons.2 ⟨fun q hq => ?_, h⟩
      rcases List.mem_cons.1 hq with rfl | hq
      · exact hk
      · exact Std.lt_trans hk (hlt q hq)
    · next hk =>
      split
      · next he =>
        subst he
        exact sorted_cons.2 ⟨hlt, hs⟩
      · next he =>
        refine sorted_cons.2 ⟨fun q hq => ?_, ih hs⟩
        rcases mem_insert hq with rfl | hq
        · exact Std.lt_of_le_of_ne (Std.not_lt.1 hk) (Ne.symm he)
        · exact hlt q hq

/-! ## Taking away -/

theorem find?_erase : (m.erase key).find? k = if k = key then none else m.find? k := by
  have h : (m.erase key).find? k = if decide (k ≠ key) = true then m.find? k else none :=
    find?_filter fun k => decide (k ≠ key)
  rw [h]
  by_cases hk : k = key <;> simp [hk]

theorem Sorted.erase (h : m.Sorted) : (m.erase key).Sorted := Sorted.filter h _

theorem mem_erase {p : Bytes × α} (h : p ∈ m.erase key) : p ∈ m := (List.mem_filter.1 h).1

end KeyMap

end Spillway
