import Spillway.Proofs.SpillMap.Calls
import Spillway.Proofs.SpillMap.Lodging

/-!
# One map over two engines

Two maps are twins when they differ only in the partition they spill to, and both partitions hold the
same. Whatever is called on both of them, the answers are the same and they are twins afterwards: what
else their engines hold, and what was called on those before, does not show.
-/

namespace Spillway.SpillMap

open Engine Table

variable {reliable : Prop} {κ ν : Type} {m : SpillMap κ ν} {l l' : Lodging} {w w' : Workspace}
  {more more' : Nat}
  {value : Bytes → Option Bytes} {value? : Option (Bytes → Option Bytes)} {stage : SpillStage}
  {s t : SpillMap κ ν × Workspace}

/-- The map with its spill stage moved to a partition. -/
def lodged (m : SpillMap κ ν) (a : Address) : SpillMap κ ν :=
  { m with spillStage := m.spillStage.map a.house }

/-- The map has a spill stage, of which the partition is made when there are values for it. -/
def Spills (m : SpillMap κ ν) (value? : Option (Bytes → Option Bytes)) : Prop :=
  ∃ stage, m.spillStage = some stage ∧ stage.created = value?.isSome

/-- The same map over two partitions. Both engines have room for the entries in memory and for some
more. -/
def Twins (reliable : Prop) (l l' : Lodging) (more : Nat) (s t : SpillMap κ ν × Workspace) : Prop :=
  ∃ (m : SpillMap κ ν) (value? : Option (Bytes → Option Bytes)),
    s.1 = m.lodged l.toAddress ∧ t.1 = m.lodged l'.toAddress ∧ m.Spills value? ∧
      l.Has reliable s.2 (m.memory.entries.length + more) value? ∧
      l'.Has reliable t.2 (m.memory.entries.length + more) value?

theorem Twins.weaken (h : Twins reliable l l' more s t) (hm : more' ≤ more) :
    Twins reliable l l' more' s t := by
  obtain ⟨m, value?, hs, ht, hspills, hhas, hhas'⟩ := h
  exact ⟨m, value?, hs, ht, hspills, hhas.weaken (by omega), hhas'.weaken (by omega)⟩

theorem lodged_spillStage (h : m.spillStage = some stage) (a : Address) :
    (m.lodged a).spillStage = some (a.house stage) := by
  rw [lodged, h]
  rfl

@[simp] theorem lodged_memory (m : SpillMap κ ν) (a : Address) : (m.lodged a).memory = m.memory := rfl

@[simp] theorem lodged_closed (m : SpillMap κ ν) (a : Address) : (m.lodged a).closed = m.closed := rfl

theorem Spills.live? (h : m.Spills value?) :
    value? = none ∧ (∀ a, (m.lodged a).live? = none) ∨
      ∃ stage value, value? = some value ∧ ∀ a, (m.lodged a).live? = some (a.house stage) := by
  obtain ⟨stage, hstage, hcreated⟩ := h
  have hlive : ∀ a, (m.lodged a).live? = if stage.created then some (a.house stage) else none := by
    intro a
    rw [SpillMap.live?, lodged_spillStage hstage, Option.filter_some]
    rfl
  cases value? with
  | none =>
    refine .inl ⟨rfl, fun a => ?_⟩
    rw [hlive, hcreated]
    rfl
  | some value =>
    refine .inr ⟨stage, value, rfl, fun a => ?_⟩
    rw [hlive, hcreated]
    rfl

theorem twins_lodged (hm : m.Spills value?)
    (h : l.Has reliable w (m.memory.entries.length + more) value?)
    (h' : l'.Has reliable w' (m.memory.entries.length + more) value?) :
    Twins reliable l l' more (m.lodged l.toAddress, w) (m.lodged l'.toAddress, w') :=
  ⟨m, value?, rfl, rfl, hm, h, h'⟩

theorem twins_of_still (hm : m.Spills value?)
    (h : l.Has reliable w (m.memory.entries.length + (more + 1)) value?)
    (h' : l'.Has reliable w' (m.memory.entries.length + (more + 1)) value?)
    (s t : SpillMap κ ν × Workspace)
    (hst : Still (m.lodged l.toAddress, w) (m.lodged l'.toAddress, w') s t) :
    Twins reliable l l' more s t := by
  obtain ⟨rfl, rfl⟩ := hst
  exact (twins_lodged hm h h').weaken (Nat.le_succ more)

/-- An action has the same result on both sides and changes nothing. -/
def Reads {α : Type} (reliable : Prop) (act : MapM κ ν α) (s t : SpillMap κ ν × Workspace) : Prop :=
  Agrees reliable act act s t (fun a s' b t' => b = a ∧ Still s t s' t') (Still s t)

/-- An action leaves twins, whether it has results or errors. -/
def StayTwins {α : Type} (reliable : Prop) (l l' : Lodging) (more : Nat) (act : MapM κ ν α)
    (s t : SpillMap κ ν × Workspace) : Prop :=
  Agrees reliable act act s t (fun _ s' _ t' => Twins reliable l l' more s' t')
    (Twins reliable l l' more)

/-- Both sides go on with what they read from where they were. -/
theorem Reads.bind {α β : Type} {act : MapM κ ν α} {f g : α → MapM κ ν β}
    {post : β → SpillMap κ ν × Workspace → β → SpillMap κ ν × Workspace → Prop}
    {fail : SpillMap κ ν × Workspace → SpillMap κ ν × Workspace → Prop} (h : Reads reliable act s t)
    (hfail : ∀ s' t', Still s t s' t' → fail s' t')
    (hf : ∀ a, Agrees reliable (f a) (g a) s t post fail) :
    Agrees reliable (act >>= f) (act >>= g) s t post fail := by
  refine Agrees.bind (h.mono (fun _ _ _ _ hp => hp) hfail) ?_
  rintro _ _ a _ ⟨rfl, rfl, rfl⟩
  exact hf a

/-! ## Building blocks -/

theorem agrees_ensureOpen :
    Reads reliable ensureOpen (m.lodged l.toAddress, w) (m.lodged l'.toAddress, w') := by
  unfold ensureOpen
  refine agrees_get_bind ?_
  dsimp only
  rw [lodged_closed, lodged_closed]
  split
  · exact Agrees.throw (still _ _)
  · exact Agrees.pure ⟨rfl, still _ _⟩

theorem agrees_keyBytes (key : κ) :
    Reads reliable (keyBytes key) (m.lodged l.toAddress, w) (m.lodged l'.toAddress, w') :=
  agrees_get_bind (Agrees.ofExcept (fun _ _ => ⟨rfl, still _ _⟩) fun _ _ => still _ _)

theorem agrees_spilledBytes (hm : m.Spills value?) (h : l.Has reliable w more value?)
    (h' : l'.Has reliable w' more value?) (key : Bytes) :
    Reads reliable (spilledBytes key) (m.lodged l.toAddress, w) (m.lodged l'.toAddress, w') := by
  unfold spilledBytes
  refine agrees_get_bind ?_
  dsimp only
  rcases hm.live? with ⟨-, hlive⟩ | ⟨stage, value, rfl, hlive⟩
  · rw [hlive, hlive]
    exact Agrees.pure ⟨rfl, still _ _⟩
  · rw [hlive, hlive]
    exact (Agrees.of_answers (h.answers_find key) (h'.answers_find key)).mono
      (fun _ _ _ _ hp => hp.2) fun _ _ hf => hf

/-- A change of the spill stage that does not depend on the partition. -/
theorem agrees_updateStage_bind {α β : Type} {f : SpillStage → SpillStage}
    {k : Unit → MapM κ ν α} {k' : Unit → MapM κ ν β}
    {post : α → SpillMap κ ν × Workspace → β → SpillMap κ ν × Workspace → Prop}
    {fail : SpillMap κ ν × Workspace → SpillMap κ ν × Workspace → Prop}
    (hf : ∀ (a : Address) stage, f (a.house stage) = a.house (f stage))
    (h : Agrees reliable (k ()) (k' ())
      (({ m with spillStage := m.spillStage.map f } : SpillMap κ ν).lodged l.toAddress, w)
      (({ m with spillStage := m.spillStage.map f } : SpillMap κ ν).lodged l'.toAddress, w') post fail) :
    Agrees reliable (updateStage f >>= k) (updateStage f >>= k') (m.lodged l.toAddress, w)
      (m.lodged l'.toAddress, w') post fail := by
  have hsame : ∀ a, ({ m with spillStage := m.spillStage.map f } : SpillMap κ ν).lodged a =
      (fun m : SpillMap κ ν => { m with spillStage := m.spillStage.map f }) (m.lodged a) := by
    intro a
    simp [lodged, Function.comp_def, hf]
  rw [hsame, hsame] at h
  exact agrees_modify_bind h

/-- Memory is emptied into partitions that were made. -/
theorem agrees_moveEntries {made : SpillStage} {entries : KeyMap Bytes}
    (hmade : m.spillStage = some made) (hcreated : made.created = true)
    (h : l.Has reliable w (more + entries.length) (some value))
    (h' : l'.Has reliable w' (more + entries.length) (some value)) :
    Agrees reliable (moveEntries (l.house stage) entries) (moveEntries (l'.house stage) entries)
      (m.lodged l.toAddress, w) (m.lodged l'.toAddress, w')
      (fun _ s _ t => Twins reliable l l' more s t) (Twins reliable l l' more) := by
  unfold moveEntries
  refine agrees_modify_bind (Agrees.bind ((Agrees.of_answers
    (h.answers_putBatch (m := { m.lodged l.toAddress with memory := {} }))
    (h'.answers_putBatch (m := { m.lodged l'.toAddress with memory := {} }))).mono
      (fun _ _ _ _ hp => hp) ?_) ?_)
  · rintro _ _ ⟨rfl, rfl⟩
    have hroom : ({} : MemoryStage).entries.length + more ≤ more + entries.length := by
      show 0 + more ≤ _
      omega
    exact ⟨{ m with memory := {} }, some value, rfl, rfl, ⟨made, hmade, hcreated⟩, h.weaken hroom,
      h'.weaken hroom⟩
  · rintro _ ⟨m₁, w₁⟩ _ ⟨m₁', w₁'⟩ ⟨-, -, ⟨rfl, hhas⟩, rfl, hhas'⟩
    have hroom : ({} : MemoryStage).entries.length + more ≤ more := by
      show 0 + more ≤ _
      omega
    rw [← bind_pure (updateStage _), ← bind_pure (updateStage _)]
    refine agrees_updateStage_bind (m := { m with memory := {} }) (fun _ _ => rfl) (Agrees.pure
      ⟨_, some _, rfl, rfl, ⟨{ made with spillCount := made.spillCount + 1 }, ?_, hcreated⟩,
        hhas.weaken hroom, hhas'.weaken hroom⟩)
    show m.spillStage.map _ = _
    rw [hmade]
    rfl

theorem agrees_spillMemory (hm : m.Spills value?)
    (h : l.Has reliable w (m.memory.entries.length + more) value?)
    (h' : l'.Has reliable w' (m.memory.entries.length + more) value?) :
    StayTwins reliable l l' more spillMemory (m.lodged l.toAddress, w) (m.lodged l'.toAddress, w') := by
  obtain ⟨stage, hstage, hcreated⟩ := hm
  rw [Nat.add_comm] at h h'
  unfold spillMemory
  refine agrees_get_bind ?_
  dsimp only
  rw [lodged_spillStage hstage, lodged_spillStage hstage]
  show Agrees reliable (if stage.created = true then _ else _)
    (if stage.created = true then _ else _) _ _ _ _
  cases value? with
  | some value =>
    have hmade : stage.created = true := hcreated
    rw [if_pos hmade, if_pos hmade]
    exact agrees_moveEntries hstage hmade h h'
  | none =>
    have hnot : ¬ stage.created = true := by
      rw [hcreated]
      exact Bool.false_ne_true
    rw [if_neg hnot, if_neg hnot]
    refine Agrees.bind (Agrees.of_ends h.ends_create h'.ends_create) ?_
    rintro _ ⟨m₁, w₁⟩ _ ⟨m₁', w₁'⟩ ⟨⟨rfl, hhas⟩, rfl, hhas'⟩
    refine agrees_updateStage_bind (fun _ _ => rfl) ?_
    rw [hstage]
    exact agrees_moveEntries rfl rfl hhas hhas'

/-! ## Operations -/

theorem agrees_movedBytes (hm : m.Spills value?) (h : l.Has reliable w more value?)
    (h' : l'.Has reliable w' more value?) (key : Bytes) :
    Reads reliable (movedBytes key) (m.lodged l.toAddress, w) (m.lodged l'.toAddress, w') := by
  unfold movedBytes
  refine agrees_get_bind ?_
  dsimp only
  rw [lodged_memory, lodged_memory]
  split
  · exact Agrees.pure ⟨rfl, still _ _⟩
  · exact agrees_spilledBytes hm h h' key

/-- Memory is emptied when it is over its budget. -/
theorem agrees_spillOver (hm : m.Spills value?)
    (h : l.Has reliable w (m.memory.entries.length + more) value?)
    (h' : l'.Has reliable w' (m.memory.entries.length + more) value?) :
    StayTwins reliable l l' more
      (do
        let (m, _) ← get
        if m.spillStage.any fun stage => stage.budget < m.memory.tally then spillMemory)
      (m.lodged l.toAddress, w) (m.lodged l'.toAddress, w') := by
  have hbudget : ∀ a, ((m.lodged a).spillStage.any fun stage =>
      decide (stage.budget < (m.lodged a).memory.tally)) =
        m.spillStage.any fun stage => decide (stage.budget < m.memory.tally) := by
    intro a
    rw [lodged, Option.any_map]
    rfl
  refine agrees_get_bind ?_
  dsimp only
  rw [hbudget, hbudget]
  split
  · exact agrees_spillMemory hm h h'
  · exact Agrees.pure (twins_lodged hm h h')

/-- An entry goes to memory. -/
theorem agrees_insert {k v : Bytes} (hm : m.Spills value?)
    (h : l.Has reliable w (m.memory.entries.length + (more + 1)) value?)
    (h' : l'.Has reliable w' (m.memory.entries.length + (more + 1)) value?) :
    StayTwins reliable l l' more
      (do
        update fun m => { m with memory := m.memory.insert k v }
        let (m, _) ← get
        if m.spillStage.any fun stage => stage.budget < m.memory.tally then spillMemory)
      (m.lodged l.toAddress, w) (m.lodged l'.toAddress, w') := by
  have hinsert : (m.memory.insert k v).entries.length ≤ m.memory.entries.length + 1 :=
    KeyMap.length_insert_le m.memory.entries k v
  have hlength : (m.memory.insert k v).entries.length + more ≤ m.memory.entries.length + (more + 1) := by
    omega
  exact agrees_modify_bind (agrees_spillOver (m := { m with memory := m.memory.insert k v }) hm
    (h.weaken hlength) (h'.weaken hlength))

theorem agrees_putBytes {k v : Bytes} (hm : m.Spills value?)
    (h : l.Has reliable w (m.memory.entries.length + (more + 1)) value?)
    (h' : l'.Has reliable w' (m.memory.entries.length + (more + 1)) value?) :
    StayTwins reliable l l' more (putBytes k v) (m.lodged l.toAddress, w) (m.lodged l'.toAddress, w') := by
  have htwins := twins_of_still hm h h'
  unfold putBytes
  refine agrees_get_bind ?_
  dsimp only
  refine (agrees_movedBytes hm h h' k).bind htwins fun found => ?_
  rcases hm.live? with ⟨-, hlive⟩ | ⟨stage, value, rfl, hlive⟩
  · rw [hlive, hlive]
    cases found <;> exact agrees_insert hm h h'
  · rw [hlive, hlive]
    cases found with
    | none => exact agrees_insert hm h h'
    | some old =>
      have hm' : m.Spills (some (record value (k, some v))) := hm
      refine (Agrees.of_answers h.answers_put h'.answers_put).mono ?_ htwins
      rintro _ ⟨m₁, w₁⟩ _ ⟨m₁', w₁'⟩ ⟨-, -, ⟨rfl, hhas⟩, rfl, hhas'⟩
      exact twins_lodged hm' hhas hhas'

theorem agrees_put (key : κ) (v : ν) (hm : m.Spills value?)
    (h : l.Has reliable w (m.memory.entries.length + (more + 1)) value?)
    (h' : l'.Has reliable w' (m.memory.entries.length + (more + 1)) value?) :
    StayTwins reliable l l' more (put key v) (m.lodged l.toAddress, w) (m.lodged l'.toAddress, w') := by
  have htwins := twins_of_still hm h h'
  unfold put
  refine agrees_ensureOpen.bind htwins fun _ => agrees_get_bind ?_
  show Agrees reliable (ofExcept (encodeEntry m.keys m.values key v) >>= _)
    (ofExcept (encodeEntry m.keys m.values key v) >>= _) _ _ _ _
  exact Agrees.ofExcept_bind (fun _ _ => agrees_putBytes hm h h') fun _ _ => htwins _ _ (still _ _)

theorem agrees_valueBytes (hm : m.Spills value?) (h : l.Has reliable w more value?)
    (h' : l'.Has reliable w' more value?) (key : Bytes) :
    Reads reliable (valueBytes key) (m.lodged l.toAddress, w) (m.lodged l'.toAddress, w') := by
  unfold valueBytes
  refine agrees_get_bind ?_
  dsimp only
  by_cases hkey : key = []
  · rw [if_pos hkey, if_pos hkey]
    exact Agrees.pure ⟨rfl, still _ _⟩
  · rw [if_neg hkey, if_neg hkey]
    rw [lodged_memory, lodged_memory]
    cases m.memory.entries.find? key with
    | some v => exact Agrees.pure ⟨rfl, still _ _⟩
    | none => exact agrees_spilledBytes hm h h' key

theorem agrees_find (hm : m.Spills value?) (h : l.Has reliable w more value?)
    (h' : l'.Has reliable w' more value?) (key : κ) :
    Reads reliable (find key) (m.lodged l.toAddress, w) (m.lodged l'.toAddress, w') := by
  unfold find
  refine agrees_ensureOpen.bind (fun _ _ hs => hs) fun _ => agrees_get_bind ?_
  refine (agrees_keyBytes key).bind (fun _ _ hs => hs) fun k => ?_
  refine (agrees_valueBytes hm h h' k).bind (fun _ _ hs => hs) fun found => ?_
  cases found with
  | none => exact Agrees.pure ⟨rfl, still _ _⟩
  | some v =>
    exact Agrees.ofExcept_bind (fun _ _ => Agrees.pure ⟨rfl, still _ _⟩) fun _ _ => still _ _

theorem agrees_contains (hm : m.Spills value?) (h : l.Has reliable w more value?)
    (h' : l'.Has reliable w' more value?) (key : κ) :
    Reads reliable (contains key) (m.lodged l.toAddress, w) (m.lodged l'.toAddress, w') := by
  unfold contains
  exact (agrees_find hm h h' key).bind (fun _ _ hs => hs) fun _ => Agrees.pure ⟨rfl, still _ _⟩

theorem agrees_eraseBytes {k : Bytes} (hm : m.Spills value?)
    (h : l.Has reliable w (m.memory.entries.length + (more + 1)) value?)
    (h' : l'.Has reliable w' (m.memory.entries.length + (more + 1)) value?) :
    StayTwins reliable l l' more (eraseBytes k) (m.lodged l.toAddress, w) (m.lodged l'.toAddress, w') := by
  have htwins := twins_of_still hm h h'
  unfold eraseBytes
  refine agrees_get_bind ?_
  dsimp only
  rw [lodged_memory, lodged_memory]
  split
  · have herase : (m.memory.erase k).entries.length ≤ m.memory.entries.length :=
      List.length_filter_le _ _
    have hlength : (m.memory.erase k).entries.length + more ≤ m.memory.entries.length + (more + 1) := by
      omega
    exact agrees_modify (twins_lodged (m := { m with memory := m.memory.erase k }) hm
      (h.weaken hlength) (h'.weaken hlength))
  · refine (agrees_spilledBytes hm h h' k).bind htwins fun found => ?_
    rcases hm.live? with ⟨-, hlive⟩ | ⟨stage, value, rfl, hlive⟩
    · rw [hlive, hlive]
      cases found <;> exact Agrees.pure (htwins _ _ (still _ _))
    · rw [hlive, hlive]
      cases found with
      | none => exact Agrees.pure (htwins _ _ (still _ _))
      | some old =>
        have hm' : m.Spills (some (record value (k, none))) := hm
        refine (Agrees.of_answers h.answers_delete h'.answers_delete).mono ?_ htwins
        rintro _ ⟨m₁, w₁⟩ _ ⟨m₁', w₁'⟩ ⟨-, -, ⟨rfl, hhas⟩, rfl, hhas'⟩
        exact twins_lodged hm' hhas hhas'

theorem agrees_erase (key : κ) (hm : m.Spills value?)
    (h : l.Has reliable w (m.memory.entries.length + (more + 1)) value?)
    (h' : l'.Has reliable w' (m.memory.entries.length + (more + 1)) value?) :
    StayTwins reliable l l' more (erase key) (m.lodged l.toAddress, w) (m.lodged l'.toAddress, w') := by
  have htwins := twins_of_still hm h h'
  unfold erase
  refine agrees_ensureOpen.bind htwins fun _ => (agrees_keyBytes key).bind htwins fun k => ?_
  split
  · exact Agrees.pure (htwins _ _ (still _ _))
  · exact agrees_eraseBytes hm h h'

theorem agrees_spill (hm : m.Spills value?)
    (h : l.Has reliable w (m.memory.entries.length + more) value?)
    (h' : l'.Has reliable w' (m.memory.entries.length + more) value?) :
    StayTwins reliable l l' more spill (m.lodged l.toAddress, w) (m.lodged l'.toAddress, w') := by
  have htwins : ∀ s t, Still (m.lodged l.toAddress, w) (m.lodged l'.toAddress, w') s t →
      Twins reliable l l' more s t := by
    rintro _ _ ⟨rfl, rfl⟩
    exact twins_lodged hm h h'
  unfold spill
  refine agrees_ensureOpen.bind htwins fun _ => ?_
  obtain ⟨stage, hstage, -⟩ := id hm
  refine agrees_get_bind ?_
  dsimp only
  rw [isSpillable_of_stage (lodged_spillStage hstage l.toAddress),
    isSpillable_of_stage (lodged_spillStage hstage l'.toAddress)]
  exact agrees_spillMemory hm h h'

theorem agrees_contents (hm : m.Spills value?) (h : l.Has reliable w more value?)
    (h' : l'.Has reliable w' more value?) :
    Agrees reliable contents contents (m.lodged l.toAddress, w) (m.lodged l'.toAddress, w')
      (fun c s c' t => c' = c ∧ s.1 = m.lodged l.toAddress ∧ t.1 = m.lodged l'.toAddress ∧
        l.Has reliable s.2 more value? ∧ l'.Has reliable t.2 more value?)
      (Still (m.lodged l.toAddress, w) (m.lodged l'.toAddress, w')) := by
  unfold contents
  refine agrees_ensureOpen.bind (fun _ _ hs => hs) fun _ => agrees_get_bind ?_
  dsimp only
  rcases hm.live? with ⟨-, hlive⟩ | ⟨stage, value, rfl, hlive⟩
  · rw [hlive, hlive]
    exact Agrees.pure ⟨rfl, rfl, rfl, h, h'⟩
  · rw [hlive, hlive]
    refine Agrees.bind (Agrees.of_ends h.ends_scan h'.ends_scan) ?_
    rintro scan ⟨m₁, w₁⟩ scan' ⟨m₁', w₁'⟩
      ⟨⟨rfl, hhas, entries, hsorted, hfind, hlist⟩, rfl, hhas', entries', hsorted', hfind', hlist'⟩
    have hentries : entries' = entries :=
      hsorted'.ext hsorted fun key => (hfind' key).trans (hfind key).symm
    dsimp only at hlist hlist'
    refine agrees_get_bind (Agrees.pure ⟨?_, rfl, rfl, hhas, hhas'⟩)
    dsimp only
    rw [hlist, hlist', hentries]
    rfl

/-! ## Closing -/

/-- What is left of a map that is closed. -/
def shut (m : SpillMap κ ν) : SpillMap κ ν :=
  if m.closed then m
  else
    { m with
      memory := {}
      closed := true
      spillStage := m.spillStage.map fun stage => { stage with created := false } }

theorem length_shut_le (m : SpillMap κ ν) : m.shut.memory.entries.length ≤ m.memory.entries.length := by
  unfold shut
  split
  · exact Nat.le_refl _
  · exact Nat.zero_le _

/-- A map that is closed gives its partition up. -/
theorem ends_close (hm : m.Spills value?) (h : l.Has reliable w more value?) :
    Ends close (m.lodged l.toAddress, w)
      (fun _ t => t.1 = m.shut.lodged l.toAddress ∧
        l.Has reliable t.2 more (if m.closed then value? else none)) fun _ _ => False := by
  unfold close shut
  refine ends_get_bind ?_
  dsimp only
  rw [lodged_closed]
  split
  · exact Ends.pure ⟨rfl, h⟩
  refine ends_modify_bind ?_
  rcases hm.live? with ⟨rfl, hlive⟩ | ⟨stage, value, -, hlive⟩
  · obtain ⟨stage, hstage, hcreated⟩ := hm
    have hsame : ({ stage with created := false } : SpillStage) = stage := by
      cases stage
      cases hcreated
      rfl
    rw [hlive, hstage, Option.map_some, hsame, ← hstage]
    exact Ends.pure ⟨rfl, h⟩
  · rw [hlive]
    refine ends_modify_bind (Ends.bind h.ends_drop ?_)
    rintro _ ⟨m₁, w₁⟩ ⟨rfl, hhas⟩
    refine Ends.pure ⟨?_, hhas⟩
    simp [lodged, Function.comp_def, Address.house]

theorem Spills.shut (hm : m.Spills value?) : m.shut.Spills (if m.closed then value? else none) := by
  unfold SpillMap.shut
  split
  · exact hm
  · obtain ⟨stage, hstage, -⟩ := hm
    refine ⟨{ stage with created := false }, ?_, rfl⟩
    show m.spillStage.map _ = _
    rw [hstage]
    rfl

/-! ## What twins answer -/

/-- An action whose result is the same on twins, which are twins afterwards. -/
def Blind {α : Type} (act : MapM κ ν α) : Prop :=
  ∀ (reliable : Prop) (l l' : Lodging) (more : Nat) (s t : SpillMap κ ν × Workspace),
    Twins reliable l l' (more + 1) s t →
      Agrees reliable act act s t (fun a s b t => b = a ∧ Twins reliable l l' more s t)
        (Twins reliable l l' more)

theorem blind_close : Blind (close (κ := κ) (ν := ν)) := by
  rintro reliable l l' more ⟨_, w⟩ ⟨_, w'⟩ ⟨m, value?, rfl, rfl, hm, h, h'⟩
  refine (Agrees.of_ends ((ends_close hm h).imp_fail fun _ _ => False.elim)
    ((ends_close hm h').imp_fail fun _ _ => False.elim)).mono ?_ fun _ _ hf => hf
  rintro _ ⟨m₁, w₁⟩ _ ⟨m₁', w₁'⟩ ⟨⟨rfl, hhas⟩, rfl, hhas'⟩
  have hlength := length_shut_le m
  exact ⟨rfl, twins_lodged hm.shut (hhas.weaken (by omega)) (hhas'.weaken (by omega))⟩

theorem blind_contents : Blind (contents (κ := κ) (ν := ν)) := by
  rintro reliable l l' more ⟨_, w⟩ ⟨_, w'⟩ ⟨m, value?, rfl, rfl, hm, h, h'⟩
  refine (agrees_contents hm h h').mono ?_ ?_
  · rintro c ⟨m₁, w₁⟩ _ ⟨m₁', w₁'⟩ ⟨rfl, rfl, rfl, hhas, hhas'⟩
    exact ⟨rfl, (twins_lodged hm hhas hhas').weaken (Nat.le_succ more)⟩
  · rintro _ _ ⟨rfl, rfl⟩
    exact (twins_lodged hm h h').weaken (Nat.le_succ more)

theorem Blind.map {α β : Type} {act : MapM κ ν α} (h : Blind act) (f : α → β) :
    Blind (act >>= fun a => pure (f a)) := by
  intro reliable l l' more s t htwins
  refine Agrees.bind (h reliable l l' more s t htwins) ?_
  rintro a s' _ t' ⟨rfl, ht⟩
  exact Agrees.pure ⟨rfl, ht⟩

/-- An action that gives the same result on both sides and changes nothing. -/
theorem blind_of_still {α : Type} {act : MapM κ ν α}
    (h : ∀ {reliable : Prop} {m : SpillMap κ ν} {l l' : Lodging} {w w' : Workspace} {more : Nat}
      {value? : Option (Bytes → Option Bytes)}, m.Spills value? → l.Has reliable w more value? →
      l'.Has reliable w' more value? →
      Reads reliable act (m.lodged l.toAddress, w) (m.lodged l'.toAddress, w')) : Blind act := by
  rintro reliable l l' more ⟨_, w⟩ ⟨_, w'⟩ ⟨m, value?, rfl, rfl, hm, hhas, hhas'⟩
  have htwins := twins_of_still hm hhas hhas'
  exact (h hm hhas hhas').mono (fun _ s _ t hp => ⟨hp.1, htwins s t hp.2⟩) htwins

theorem blind_find (key : κ) : Blind (find (ν := ν) key) :=
  blind_of_still fun hm h h' => agrees_find hm h h' key

theorem blind_contains (key : κ) : Blind (contains (ν := ν) key) :=
  blind_of_still fun hm h h' => agrees_contains hm h h' key

theorem blind_put (key : κ) (v : ν) : Blind (put key v) := by
  rintro reliable l l' more ⟨_, w⟩ ⟨_, w'⟩ ⟨m, value?, rfl, rfl, hm, h, h'⟩
  exact (agrees_put key v hm h h').mono (fun _ _ _ _ ht => ⟨rfl, ht⟩) fun _ _ ht => ht

theorem blind_erase (key : κ) : Blind (erase (ν := ν) key) := by
  rintro reliable l l' more ⟨_, w⟩ ⟨_, w'⟩ ⟨m, value?, rfl, rfl, hm, h, h'⟩
  exact (agrees_erase key hm h h').mono (fun _ _ _ _ ht => ⟨rfl, ht⟩) fun _ _ ht => ht

theorem blind_spill : Blind (spill (κ := κ) (ν := ν)) := by
  rintro reliable l l' more ⟨_, w⟩ ⟨_, w'⟩ ⟨m, value?, rfl, rfl, hm, h, h'⟩
  have hless : m.memory.entries.length + more ≤ m.memory.entries.length + (more + 1) := by omega
  exact (agrees_spill hm (h.weaken hless) (h'.weaken hless)).mono (fun _ _ _ _ ht => ⟨rfl, ht⟩)
    fun _ _ ht => ht

theorem blind_call (call : Call κ ν) : Blind call.run := by
  cases call with
  | put key v => exact (blind_put key v).map fun _ => Answer.done
  | find key => exact (blind_find key).map Answer.value
  | contains key => exact (blind_contains key).map Answer.known
  | erase key => exact (blind_erase key).map fun _ => Answer.done
  | spill => exact blind_spill.map fun _ => Answer.done

end Spillway.SpillMap
