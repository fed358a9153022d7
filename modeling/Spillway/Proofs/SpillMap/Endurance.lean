import Spillway.Proofs.Engine.Aftermath
import Spillway.Proofs.SpillMap.Calls

/-!
# Maps that go on after a failure

`SpillMap.Endures` is what every call on a map keeps, whether it succeeds or fails half way: no key is
in both stages. A call that moves entries may take them out of memory in any order (`Shuffle`). When
some of them can not be written, each key has the value it had or none (`Endures.leaves_shed`), and a
put that fails leaves nothing at a key but what was there or what it had to put (`Endures.leaves_put`).
-/

namespace Spillway

open Engine Table

variable {α κ ν : Type}

/-- The engine of a spill stage goes on after failures. Its partition has these values, or is not
there. -/
def SpillStage.Serves (stage : SpillStage) (w : Workspace) (value? : Option (Bytes → Option Bytes))
    (uses : Nat) : Prop :=
  ∃ e r, w.engine? stage.engine = some e ∧ e.Stands w.disk r uses False ∧ r stage.partition = value?

namespace SpillMap

variable {m : SpillMap κ ν} {w : Workspace} {stage : SpillStage} {spilled : Bytes → Option Bytes}
  {uses calls : Nat} {key k b : Bytes} {order : Shuffle}

/-! ## The spill stage -/

/-- What is said of the registry of the engine after an action is said of the spill stage. -/
theorem leaves_onStage {act : String → EngineM α} {e : Engine}
    {R : Option (Bytes → Option Bytes) → Prop} (he : w.engine? stage.engine = some e)
    (hact : Leaves (act stage.partition) (e, w.disk) fun t =>
      ∃ r, t.1.Stands t.2 r uses False ∧ R (r stage.partition)) :
    Leaves (onStage stage act) (m, w) fun t =>
      t.1 = m ∧ ∃ value?, R value? ∧ stage.Serves t.2 value? uses := by
  have hserves (t : SpillMap κ ν × Workspace)
      (ht : ∃ e' d', t = (m, w.putEngine stage.engine e' d') ∧
        ∃ r, e'.Stands d' r uses False ∧ R (r stage.partition)) :
      t.1 = m ∧ ∃ value?, R value? ∧ stage.Serves t.2 value? uses := by
    obtain ⟨e', d', rfl, r, hstands, hvalue⟩ := ht
    exact ⟨rfl, _, hvalue, e', r, Workspace.engine?_putEngine he, hstands, rfl⟩
  exact (ends_onStage he hact).leaves (fun _ => hserves) fun _ => hserves

/-- Some entries of a write are recorded in the spill stage, from the first one on. -/
theorem leaves_onStage_recorded {act : String → EngineM α} (write : Write)
    (h : stage.Serves w (some spilled) uses) (hw : 1 + 2 * (uses + write.cost) < UInt64.size)
    (hact : ∀ name s P, Leaves (write.run name) s P → Leaves (act name) s P) :
    Leaves (onStage stage act) (m, w) fun t => t.1 = m ∧ ∃ recorded, recorded <+: write.entries ∧
      stage.Serves t.2 (some (recorded.foldl record spilled)) (uses + write.cost) := by
  obtain ⟨e, r, he, hstands, hvalue⟩ := h
  have hrecorded : Leaves (act stage.partition) (e, w.disk) fun t =>
      ∃ r, t.1.Stands t.2 r (uses + write.cost) False ∧ ∃ recorded,
        recorded <+: write.entries ∧ r stage.partition = some (recorded.foldl record spilled) := by
    apply hact
    apply (hstands.leaves_recorded write hw).imp
    intro t ⟨recorded, hfront, hstands'⟩
    refine ⟨_, hstands', recorded, hfront, ?_⟩
    rw [Registry.write_of_value hvalue, Function.update_self]
  apply (leaves_onStage (R := fun value? => ∃ recorded, recorded <+: write.entries ∧
    value? = some (recorded.foldl record spilled)) he hrecorded).imp
  intro t ⟨hsame, value?, ⟨recorded, hfront, hvalue'⟩, hserves⟩
  exact ⟨hsame, recorded, hfront, hvalue' ▸ hserves⟩

/-- The partition is made, without values, or nothing happened to it. -/
theorem ends_onStage_create (h : stage.Serves w none uses) :
    Ends (onStage stage createPartition) (m, w)
      (fun _ t => t.1 = m ∧ stage.Serves t.2 (some fun _ => none) uses)
      fun _ t => t.1 = m ∧ stage.Serves t.2 none uses := by
  obtain ⟨e, r, he, hstands, hnone⟩ := h
  refine (ends_onStage he (hstands.ends_created hnone)).mono ?_ ?_
  · intro _ t ⟨e', d', ht, hstands'⟩
    subst ht
    exact ⟨rfl, e', _, Workspace.engine?_putEngine he, hstands', Function.update_self ..⟩
  · intro _ t ⟨e', d', ht, hstands'⟩
    subst ht
    exact ⟨rfl, e', r, Workspace.engine?_putEngine he, hstands', hnone⟩

/-- Looking into the spill stage changes nothing, in any state. -/
theorem leaves_spilledBytes (m : SpillMap κ ν) (w : Workspace) (key : Bytes) :
    Leaves (spilledBytes key) (m, w) (· = (m, w)) := by
  unfold spilledBytes
  apply ends_get_bind
  dsimp only
  cases m.live? with
  | none => exact Leaves.pure rfl
  | some stage =>
    unfold onStage inWorkspace Workspace.onEngine
    refine Ends.zoom (ends_get_bind ?_)
    cases he : w.engine? stage.engine with
    | none => exact Ends.throw rfl
    | some e =>
      have hsame (t : Engine × Disk) (ht : t = (e, w.disk)) :
          (m, w.putEngine stage.engine t.1 t.2) = (m, w) := by
        rw [ht, Workspace.putEngine_self he]
      exact Ends.zoom ((leaves_found stage.partition key e w.disk).mono (fun _ => hsame)
        fun _ => hsame)

theorem leaves_movedBytes (m : SpillMap κ ν) (w : Workspace) (key : Bytes) :
    Leaves (movedBytes key) (m, w) (· = (m, w)) := by
  unfold movedBytes
  apply ends_get_bind
  dsimp only
  split
  · exact Leaves.pure rfl
  · exact leaves_spilledBytes m w key

/-! ## Both stages -/

/-- The values in a spill stage, in an engine that goes on after failures. -/
inductive Stored (w : Workspace) : Option SpillStage → (Bytes → Option Bytes) → Nat → Prop
  /-- There is no spill stage. -/
  | absent : Stored w none (fun _ => none) 0
  /-- The partition was not made yet. The engine may have been closed. -/
  | planned {stage : SpillStage} {uses : Nat} (hcreated : stage.created = false)
      (hserves : stage.Serves w none uses) : Stored w (some stage) (fun _ => none) uses
  | live {stage : SpillStage} {spilled : Bytes → Option Bytes} {uses : Nat}
      (hcreated : stage.created = true) (hserves : stage.Serves w (some spilled) uses) :
      Stored w (some stage) spilled uses

/-- The map is open and no key is in both stages. As many calls are enough for the writes to the spill
stage, those to come from memory included. -/
structure Endures (m : SpillMap κ ν) (w : Workspace) (spilled : Bytes → Option Bytes) (calls : Nat) :
    Prop where
  opened : m.closed = false
  sorted : KeyMap.Sorted m.memory.entries
  apart : ∀ pair ∈ m.memory.entries, spilled pair.1 = none
  stored : ∃ uses, Stored w m.spillStage spilled uses ∧ uses + m.memory.entries.length ≤ calls

/-- The bytes of a key, in memory or in a spill stage with these values. -/
def held (m : SpillMap κ ν) (spilled : Bytes → Option Bytes) (key : Bytes) : Option Bytes :=
  (m.memory.entries.find? key).or (spilled key)

theorem Endures.find?_of_spilled {v : Bytes} (h : m.Endures w spilled calls)
    (hv : spilled key = some v) : m.memory.entries.find? key = none := by
  apply KeyMap.find?_eq_none_iff.2
  intro pair hmem heq
  have hapart := h.apart pair hmem
  rw [heq, hv] at hapart
  cases hapart

theorem Endures.spilled_of_contains (h : m.Endures w spilled calls)
    (hkey : m.memory.entries.contains key = true) : spilled key = none := by
  obtain ⟨v, hv⟩ := KeyMap.contains_iff.1 hkey
  exact h.apart _ (KeyMap.mem_of_find? hv)

theorem Endures.mono {more : Nat} (h : m.Endures w spilled calls) (hm : calls ≤ more) :
    m.Endures w spilled more := by
  obtain ⟨uses, hstored, hroom⟩ := h.stored
  exact { h with stored := ⟨uses, hstored, hroom.trans hm⟩ }

/-- A spill stage holds nothing until its partition was made. -/
theorem Endures.live?_cases (h : m.Endures w spilled calls) :
    m.live? = none ∧ spilled = (fun _ => none) ∨
      ∃ stage uses, m.spillStage = some stage ∧ m.live? = some stage ∧ stage.created = true ∧
        stage.Serves w (some spilled) uses ∧ uses + m.memory.entries.length ≤ calls := by
  obtain ⟨uses, hstored, hroom⟩ := h.stored
  unfold live?
  generalize m.spillStage = stage? at hstored
  cases hstored with
  | absent => exact .inl ⟨rfl, rfl⟩
  | planned hcreated hserves =>
    rw [Option.filter_some, hcreated]
    exact .inl ⟨rfl, rfl⟩
  | live hcreated hserves =>
    rw [Option.filter_some, if_pos hcreated]
    exact .inr ⟨_, uses, rfl, rfl, hcreated, hserves, hroom⟩

theorem Endures.exists_live {v : Bytes} (h : m.Endures w spilled calls) (hv : spilled key = some v) :
    ∃ stage uses, m.spillStage = some stage ∧ m.live? = some stage ∧ stage.created = true ∧
      stage.Serves w (some spilled) uses ∧ uses + m.memory.entries.length ≤ calls := by
  rcases h.live?_cases with ⟨-, rfl⟩ | hlive
  · cases hv
  · exact hlive

theorem Endures.ends_spilledBytes (h : m.Endures w spilled calls) (key : Bytes) :
    Ends (spilledBytes key) (m, w) (fun found t => found = spilled key ∧ t = (m, w))
      fun _ t => t = (m, w) := by
  have hstill := leaves_spilledBytes m w key
  unfold Leaves at hstill
  suffices hfound : Ends (spilledBytes key) (m, w) (fun found _ => found = spilled key)
      fun _ _ => True from
    (hfound.and hstill).mono (fun _ _ ht => ht) fun _ _ ht => ht.2
  unfold spilledBytes
  apply ends_get_bind
  dsimp only
  rcases h.live?_cases with ⟨hlive, rfl⟩ | ⟨stage, uses, -, hlive, -, ⟨e, r, he, hstands, hvalue⟩, -⟩
  · rw [hlive]
    exact Ends.pure rfl
  · rw [hlive]
    refine (ends_onStage he (hstands.ends_find stage.partition key)).mono ?_ fun _ _ _ => trivial
    intro found t ⟨e', d', _, _, _, value, hvalue', hfound⟩
    rw [hvalue, Option.some.injEq] at hvalue'
    rw [hfound, hvalue']

theorem Endures.ends_movedBytes (h : m.Endures w spilled calls) (key : Bytes) :
    Ends (movedBytes key) (m, w) (fun found t => found = spilled key ∧ t = (m, w))
      fun _ t => t = (m, w) := by
  unfold movedBytes
  apply ends_get_bind
  dsimp only
  split
  · next hkey => exact Ends.pure ⟨(h.spilled_of_contains hkey).symm, rfl⟩
  · exact h.ends_spilledBytes key

/-! ## Moving entries -/

/-- When some of the entries are moved, in any order, each key has its value or none. -/
theorem foldl_record_moved {entries moved : KeyMap Bytes} {recorded : List Entry}
    (hsorted : KeyMap.Sorted entries) (hperm : List.Perm moved entries)
    (hfront : recorded <+: Partition.puts moved) (hapart : ∀ pair ∈ entries, spilled pair.1 = none)
    (key : Bytes) :
    recorded.foldl record spilled key = (entries.find? key).or (spilled key) ∨
      recorded.foldl record spilled key = none := by
  rw [foldl_record]
  cases hfind : KeyMap.find? recorded.reverse key with
  | some found =>
    -- an entry that was recorded is one of those in memory, and there is no other of its key
    have hmem : (key, found) ∈ recorded := List.mem_reverse.1 (KeyMap.mem_of_find? hfind)
    obtain ⟨pair, hpair, heq⟩ := List.mem_map.1 (hfront.subset hmem)
    obtain ⟨rfl, rfl⟩ := Prod.mk.inj heq
    rw [hsorted.find?_eq_some_iff.2 (hperm.subset hpair)]
    exact .inl rfl
  | none =>
    cases hentry : KeyMap.find? entries key with
    | some v => exact .inr (hapart _ (KeyMap.mem_of_find? hentry))
    | none => exact .inl rfl

/-- Memory was emptied, or nothing was moved: each key has its value or none. -/
def Sheds (m : SpillMap κ ν) (spilled : Bytes → Option Bytes) (calls : Nat)
    (t : SpillMap κ ν × Workspace) : Prop :=
  ∃ spilled', t.1.Endures t.2 spilled' calls ∧
    ∀ key, t.1.held spilled' key = m.held spilled key ∨ t.1.held spilled' key = none

/-- Entries leave memory for a partition that is there, or some of them are lost. -/
theorem Endures.leaves_moved (order : Shuffle) (h : m.Endures w spilled calls) {w₁ : Workspace}
    (hserves : stage.Serves w₁ (some spilled) uses) (hroom : uses + m.memory.entries.length ≤ calls)
    (hw : 1 + 2 * calls < UInt64.size) :
    Leaves (moveEntries stage (order.arrange m.memory.entries))
      ({ m with spillStage := some { stage with created := true } }, w₁) (m.Sheds spilled calls) := by
  have hlength := (order.perm m.memory.entries).length_eq
  have hends {t : SpillMap κ ν × Workspace} {made : SpillStage} {recorded : List Entry}
      (ht : t.1 = { m with memory := {}, spillStage := some made }) (hcreated : made.created = true)
      (hfront : recorded <+: Partition.puts (order.arrange m.memory.entries))
      (hserves' : made.Serves t.2 (some (recorded.foldl record spilled))
        (uses + (order.arrange m.memory.entries).length)) : m.Sheds spilled calls t := by
    refine ⟨recorded.foldl record spilled, ?_, fun key => ?_⟩
    · rw [ht]
      exact ⟨h.opened, KeyMap.sorted_nil, fun _ hmem => absurd hmem List.not_mem_nil, _,
        .live hcreated hserves', by show _ + 0 ≤ calls; omega⟩
    · rw [ht]
      exact foldl_record_moved h.sorted (order.perm _) hfront h.apart key
  unfold moveEntries
  refine ends_modify_bind (Ends.leaves_bind ((leaves_onStage_recorded
    (.putBatch (order.arrange m.memory.entries)) hserves (by show _ + 2 * (_ + List.length _) < _; omega)
    fun _ _ _ => Leaves.of_discard).mono (fun _ _ ht => ht) ?_) ?_)
  · intro err t ⟨ht, recorded, hfront, hserves'⟩
    exact hends ht rfl hfront hserves'
  · intro _ ⟨m', w'⟩ ⟨ht, recorded, hfront, hserves'⟩
    dsimp only at ht
    subst ht
    exact ends_modify (hends rfl rfl hfront hserves')

theorem Endures.sheds (h : m.Endures w spilled calls) : m.Sheds spilled calls (m, w) :=
  ⟨spilled, h, fun _ => .inl rfl⟩

/-- When the spill stage can not take all entries, each key has the value it had or none. -/
theorem Endures.leaves_shed (order : Shuffle) (h : m.Endures w spilled calls)
    (hw : 1 + 2 * calls < UInt64.size) :
    Leaves (spillMemoryIn order) (m, w) (m.Sheds spilled calls) := by
  obtain ⟨uses, hstored, hroom⟩ := h.stored
  unfold spillMemoryIn
  apply ends_get_bind
  dsimp only
  cases hstage : m.spillStage with
  | none => exact Leaves.pure h.sheds
  | some stage =>
    rw [hstage] at hstored
    dsimp only
    cases hstored with
    | live hcreated hserves =>
      have hsame : ({ m with spillStage := some { stage with created := true } } : SpillMap κ ν) = m := by
        rw [← hcreated, ← hstage]
      have hmoved := h.leaves_moved order hserves hroom hw
      rw [hsame] at hmoved
      rw [if_pos hcreated]
      exact hmoved
    | planned hcreated hserves =>
      rw [if_neg (by rw [hcreated]; exact Bool.false_ne_true)]
      refine Ends.leaves_bind ((ends_onStage_create hserves).imp_fail ?_) ?_
      · intro err ⟨m', w'⟩ ⟨ht, hserves'⟩
        dsimp only at ht
        subst ht
        refine ⟨_, ⟨h.opened, h.sorted, h.apart, uses, ?_, hroom⟩, fun _ => .inl rfl⟩
        rw [hstage]
        exact .planned hcreated hserves'
      · intro serial ⟨m', w'⟩ ⟨ht, hserves'⟩
        dsimp only at ht
        subst ht
        apply ends_modify_bind
        dsimp only
        rw [hstage]
        exact h.leaves_moved order hserves' hroom hw

/-! ## Putting -/

/-- A put moves entries when it does not go to the spill stage and the budget is exceeded. -/
def Overflows (m : SpillMap κ ν) (spilled : Bytes → Option Bytes) (k b : Bytes) : Prop :=
  spilled k = none ∧
    (m.spillStage.any fun stage => decide (stage.budget < (m.memory.insert k b).tally)) = true

/-- Each key has the value it had, or the one that was put there; or none, if entries were moved. -/
def Takes (m : SpillMap κ ν) (spilled : Bytes → Option Bytes) (k b : Bytes) (m' : SpillMap κ ν)
    (spilled' : Bytes → Option Bytes) : Prop :=
  ∀ key, m'.held spilled' key = m.held spilled key ∨
    m'.held spilled' key = record (m.held spilled) (k, some b) key ∨
      m.Overflows spilled k b ∧ m'.held spilled' key = none

theorem held_insert (m : SpillMap κ ν) (spilled : Bytes → Option Bytes) (k b : Bytes) :
    ({ m with memory := m.memory.insert k b } : SpillMap κ ν).held spilled =
      record (m.held spilled) (k, some b) := by
  funext key
  show ((m.memory.entries.insert k b).find? key).or _ = if key = k then some b else m.held spilled key
  rw [KeyMap.find?_insert]
  split <;> rfl

theorem Endures.insert (h : m.Endures w spilled calls) (hk : spilled k = none) (b : Bytes) :
    ({ m with memory := m.memory.insert k b } : SpillMap κ ν).Endures w spilled (calls + 1) where
  opened := h.opened
  sorted := h.sorted.insert
  apart pair hmem := by
    rcases KeyMap.mem_insert hmem with rfl | hmem
    · exact hk
    · exact h.apart pair hmem
  stored := by
    obtain ⟨uses, hstored, hroom⟩ := h.stored
    have hlength := KeyMap.length_insert_le m.memory.entries k b
    refine ⟨uses, hstored, ?_⟩
    show uses + (m.memory.entries.insert k b).length ≤ calls + 1
    omega

/-- A key that was moved is written where it is, if the spill stage can do it. -/
theorem Endures.leaves_written {act : String → EngineM Unit} {old : Bytes} {x : Option Bytes}
    (write : Write) (h : m.Endures w spilled calls) (hold : spilled k = some old)
    (hact : ∀ name, act name = write.run name) (hentries : write.entries = [(k, x)])
    (hcost : write.cost = 1) (hw : 1 + 2 * (calls + 1) < UInt64.size) :
    ∃ stage, m.live? = some stage ∧ Leaves (onStage stage act) (m, w) fun t =>
      ∃ spilled', t.1.Endures t.2 spilled' (calls + 1) ∧
        (t.1.held spilled' = m.held spilled ∨ t.1.held spilled' = record (m.held spilled) (k, x)) := by
  obtain ⟨stage, uses, hstage, hlive, hcreated, hserves, hroom⟩ := h.exists_live hold
  have hfind := h.find?_of_spilled hold
  refine ⟨stage, hlive, ?_⟩
  apply (leaves_onStage_recorded write hserves (by omega) fun name s P hP => hact name ▸ hP).imp
  intro ⟨m', w'⟩ ⟨ht, recorded, hfront, hserves'⟩
  dsimp only at ht hserves'
  subst ht
  rw [hcost] at hserves'
  have hends (hapart : ∀ pair ∈ m'.memory.entries, recorded.foldl record spilled pair.1 = none) :
      m'.Endures w' (recorded.foldl record spilled) (calls + 1) :=
    ⟨h.opened, h.sorted, hapart, uses + 1, hstage ▸ .live hcreated hserves', by omega⟩
  rw [hentries, List.prefix_cons_iff] at hfront
  rcases hfront with rfl | ⟨rest, rfl, hrest⟩
  · exact ⟨_, hends h.apart, .inl rfl⟩
  · obtain rfl := List.prefix_nil.1 hrest
    refine ⟨_, hends fun pair hmem => ?_, .inr (funext fun key => ?_)⟩
    · have hne : pair.1 ≠ k := fun heq => by
        have hapart := h.apart pair hmem
        rw [heq, hold] at hapart
        cases hapart
      show (if pair.1 = k then x else spilled pair.1) = none
      rw [if_neg hne, h.apart pair hmem]
    · show (m'.memory.entries.find? key).or (if key = k then x else spilled key) =
        if key = k then x else m'.held spilled key
      by_cases hkey : key = k
      · rw [if_pos hkey, if_pos hkey, hkey, hfind]
        rfl
      · rw [if_neg hkey, if_neg hkey]
        rfl

/-- However a put ends, each key has the value it had, or the one that was put there; or none, if
entries were moved. -/
theorem Endures.leaves_put (order : Shuffle) (h : m.Endures w spilled calls) (k b : Bytes)
    (hw : 1 + 2 * (calls + 1) < UInt64.size) :
    Leaves (putBytesIn order k b) (m, w) fun t => ∃ spilled',
      t.1.Endures t.2 spilled' (calls + 1) ∧ m.Takes spilled k b t.1 spilled' := by
  have hkept : ∃ spilled', m.Endures w spilled' (calls + 1) ∧ m.Takes spilled k b m spilled' :=
    ⟨spilled, h.mono (Nat.le_succ calls), fun _ => .inl rfl⟩
  unfold putBytesIn
  apply ends_get_bind
  dsimp only
  refine Ends.leaves_bind ((h.ends_movedBytes k).imp_fail fun _ t ht => ht ▸ hkept) ?_
  intro found t ⟨hfound, ht⟩
  subst hfound ht
  cases hspilled : spilled k with
  | some old =>
    obtain ⟨stage, hlive, hwritten⟩ :=
      h.leaves_written (.put k b) hspilled (fun _ => rfl) rfl rfl hw
    rw [hlive]
    apply hwritten.imp
    intro t ⟨spilled', hendures, hheld⟩
    refine ⟨spilled', hendures, fun key => ?_⟩
    rcases hheld with hheld | hheld
    · exact .inl (congrFun hheld key)
    · exact .inr (.inl (congrFun hheld key))
  | none =>
    have hinserted := h.insert hspilled b
    have hheld := held_insert m spilled k b
    apply ends_modify_bind
    apply ends_get_bind
    dsimp only
    split
    · next hover =>
      apply (hinserted.leaves_shed order hw).imp
      intro t ⟨spilled', hendures, hvalues⟩
      rw [hheld] at hvalues
      refine ⟨spilled', hendures, fun key => .inr ?_⟩
      exact (hvalues key).imp_right fun hnone => ⟨⟨hspilled, hover⟩, hnone⟩
    · exact Leaves.pure ⟨spilled, hinserted, fun key => .inr (.inl (congrFun hheld key))⟩

/-! ## Calls -/

/-- The map goes on. -/
def Lasts (calls : Nat) (t : SpillMap κ ν × Workspace) : Prop :=
  ∃ spilled, t.1.Endures t.2 spilled calls

theorem Endures.lasts (h : m.Endures w spilled calls) : Lasts (calls + 1) (m, w) :=
  ⟨spilled, h.mono (Nat.le_succ calls)⟩

theorem Endures.erase (h : m.Endures w spilled calls) (k : Bytes) :
    ({ m with memory := m.memory.erase k } : SpillMap κ ν).Endures w spilled calls where
  opened := h.opened
  sorted := h.sorted.erase
  apart pair hmem := h.apart pair (KeyMap.mem_erase hmem)
  stored := by
    obtain ⟨uses, hstored, hroom⟩ := h.stored
    have hlength : (m.memory.entries.erase k).length ≤ m.memory.entries.length :=
      List.length_filter_le _ _
    refine ⟨uses, hstored, ?_⟩
    show uses + (m.memory.entries.erase k).length ≤ calls
    omega

theorem Endures.leaves_eraseBytes (h : m.Endures w spilled calls) (k : Bytes)
    (hw : 1 + 2 * (calls + 1) < UInt64.size) :
    Leaves (eraseBytes k) (m, w) (Lasts (calls + 1)) := by
  unfold eraseBytes
  apply ends_get_bind
  dsimp only
  split
  · exact ends_modify (h.erase k).lasts
  · refine Ends.leaves_bind ((h.ends_spilledBytes k).imp_fail fun _ t ht => ht ▸ h.lasts) ?_
    intro found t ⟨hfound, ht⟩
    subst hfound ht
    cases hspilled : spilled k with
    | none => exact Leaves.pure h.lasts
    | some old =>
      obtain ⟨stage, hlive, hwritten⟩ :=
        h.leaves_written (.delete k) hspilled (fun _ => rfl) rfl rfl hw
      rw [hlive]
      exact hwritten.imp fun t ⟨spilled', hendures, _⟩ => ⟨spilled', hendures⟩

theorem Endures.leaves_erase (h : m.Endures w spilled calls) (key : κ)
    (hw : 1 + 2 * (calls + 1) < UInt64.size) :
    Leaves (SpillMap.erase key) (m, w) (Lasts (calls + 1)) := by
  unfold SpillMap.erase
  refine Ends.leaves_bind (ends_ensureOpen h.opened) fun _ t ht => ?_
  subst ht
  refine Ends.leaves_bind ((ends_keyBytes key).imp_fail fun _ t ⟨_, _, _, ht⟩ => ht ▸ h.lasts) ?_
  intro bytes t ⟨_, ht⟩
  subst ht
  split
  · exact Leaves.pure h.lasts
  · exact h.leaves_eraseBytes bytes hw

section Still

variable (m w)

theorem leaves_ensureOpen : Leaves (ensureOpen : MapM κ ν Unit) (m, w) (· = (m, w)) := by
  unfold ensureOpen
  apply ends_get_bind
  dsimp only
  split
  · exact Leaves.throw rfl
  · exact Leaves.pure rfl

theorem leaves_keyBytes (key : κ) : Leaves (keyBytes key) (m, w) (· = (m, w)) :=
  (ends_keyBytes key).leaves (fun _ _ ht => ht.2) fun _ _ ⟨_, _, _, ht⟩ => ht

theorem leaves_valueBytes (key : Bytes) : Leaves (valueBytes key) (m, w) (· = (m, w)) := by
  unfold valueBytes
  apply ends_get_bind
  dsimp only
  split
  · exact Leaves.pure rfl
  · split
    · exact Leaves.pure rfl
    · exact leaves_spilledBytes m w key

/-- A lookup changes nothing, in any state. -/
theorem leaves_find (key : κ) : Leaves (find key) (m, w) (· = (m, w)) := by
  unfold find
  refine Leaves.bind (leaves_ensureOpen m w) fun _ t ht => ?_
  subst ht
  apply ends_get_bind
  dsimp only
  refine Leaves.bind (leaves_keyBytes m w key) fun bytes t ht => ?_
  subst ht
  refine Leaves.bind (leaves_valueBytes m w bytes) fun found t ht => ?_
  subst ht
  cases found with
  | none => exact Leaves.pure rfl
  | some v =>
    dsimp only
    unfold coded
    cases m.values.decode v with
    | ok x => exact Leaves.pure rfl
    | error err => exact Leaves.throw rfl

theorem leaves_inSpill (key : κ) : Leaves (inSpill key) (m, w) (· = (m, w)) := by
  unfold inSpill
  refine Leaves.bind (leaves_ensureOpen m w) fun _ t ht => ?_
  subst ht
  refine Leaves.bind (leaves_keyBytes m w key) fun bytes t ht => ?_
  subst ht
  split
  · exact Leaves.pure rfl
  · exact (leaves_spilledBytes m w bytes).result

end Still

theorem Endures.leaves_putIn (order : Shuffle) (h : m.Endures w spilled calls) (key : κ) (v : ν)
    (hw : 1 + 2 * (calls + 1) < UInt64.size) :
    Leaves (putIn order key v) (m, w) fun t => ∃ spilled', t.1.Endures t.2 spilled' (calls + 1) ∧
      ∀ k b, encodeEntry m.keys m.values key v = .ok (k, b) → m.Takes spilled k b t.1 spilled' := by
  unfold putIn
  refine Ends.leaves_bind (ends_ensureOpen h.opened) fun _ t ht => ?_
  subst ht
  apply ends_get_bind
  dsimp only
  cases encodeEntry m.keys m.values key v with
  | error err => exact Leaves.throw ⟨spilled, h.mono (Nat.le_succ calls), nofun⟩
  | ok entry =>
    apply (h.leaves_put order entry.1 entry.2 hw).imp
    intro t ⟨spilled', hendures, htakes⟩
    refine ⟨spilled', hendures, fun k b hentry => ?_⟩
    cases hentry
    exact htakes

theorem Endures.leaves_spillIn (order : Shuffle) (h : m.Endures w spilled calls)
    (hw : 1 + 2 * (calls + 1) < UInt64.size) :
    Leaves (spillIn order) (m, w) (Lasts (calls + 1)) := by
  unfold spillIn
  refine Ends.leaves_bind (ends_ensureOpen h.opened) fun _ t ht => ?_
  subst ht
  apply ends_get_bind
  dsimp only
  split
  · apply (h.leaves_shed order (by omega)).imp
    intro t ⟨spilled', hendures, _⟩
    exact hendures.lasts
  · exact Leaves.throw h.lasts

/-- Every call leaves a map that goes on. -/
theorem Endures.leaves_call (order : Shuffle) (call : Call κ ν) (h : m.Endures w spilled calls)
    (hw : 1 + 2 * (calls + 1) < UInt64.size) :
    Leaves (call.runIn order) (m, w) (Lasts (calls + 1)) := by
  have hfound (key : κ) : Leaves (find key) (m, w) (Lasts (calls + 1)) :=
    (leaves_find m w key).imp fun t ht => ht ▸ h.lasts
  cases call with
  | put key v =>
    apply Leaves.result
    exact (h.leaves_putIn order key v hw).imp fun t ⟨spilled', hendures, _⟩ => ⟨spilled', hendures⟩
  | find key => exact (hfound key).result
  | contains key => exact (hfound key).result.result
  | erase key => exact (h.leaves_erase key hw).result
  | spill => exact (h.leaves_spillIn order hw).result

/-- Iterating leaves a map that goes on. -/
theorem Endures.leaves_contents (h : m.Endures w spilled calls) :
    Leaves contents (m, w) (Lasts (calls + 1)) := by
  unfold contents
  refine Ends.leaves_bind (ends_ensureOpen h.opened) fun _ t ht => ?_
  subst ht
  apply ends_get_bind
  dsimp only
  rcases h.live?_cases with
    ⟨hlive, -⟩ | ⟨stage, uses, hstage, hlive, hcreated, ⟨e, r, he, hstands, hvalue⟩, hroom⟩
  · rw [hlive]
    exact Leaves.pure h.lasts
  · rw [hlive]
    refine Leaves.bind ?_ fun _ t ht => ends_get_bind (Leaves.pure ht)
    apply (leaves_onStage (R := (· = some spilled)) he ((hstands.leaves_scanned stage.partition).imp
      fun t ht => ⟨r, ht, hvalue⟩)).imp
    intro ⟨m', w'⟩ ⟨ht, value?, hsome, hserves⟩
    dsimp only at ht
    subst ht hsome
    exact ⟨spilled, h.opened, h.sorted, h.apart, uses, hstage ▸ .live hcreated hserves,
      hroom.trans (Nat.le_succ calls)⟩

end SpillMap

end Spillway
