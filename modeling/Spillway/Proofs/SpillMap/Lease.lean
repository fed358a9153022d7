import Spillway.Proofs.SpillMap.Twins
import Spillway.Proofs.Table.Size

/-!
# What a map does to the engine it is given

A lease says which partition of which engine a map has, and which entries it may put there. Every call
on the map keeps the lease (`Lease.Kept`), whether it succeeds or not: the engine stays open, nothing
changes on the disk outside of its root, and no other entries come to the partition. A lease is given on
a disk without faults and for entries that fit in one table, so no call fails for the storage of the
engine (`ends_put_leased`).
-/

namespace Spillway

open Engine Table

/-- An error of the storage of an engine. -/
def Error.OfStorage (err : Error) : Prop := ∃ task cause, err = .engine task cause

theorem not_ofStorage_of_argument {err : Error} (h : ∃ argument, err = .invalidArgument argument) :
    ¬ err.OfStorage := by
  obtain ⟨argument, rfl⟩ := h
  rintro ⟨task, cause, herr⟩
  cases herr

/-- A partition of an engine at a root, which has so many owners. On the disk as it was `before`, the
root was not there yet. -/
structure Lease extends Address where
  root : Path
  owners : Nat
  before : Disk
  /-- What may be put into the partition. -/
  allowed : Entry → Prop
  small : ¬ Oversized allowed

namespace Lease

variable {α κ ν : Type} {l : Lease} {e : Engine} {d : Disk} {w : Workspace} {uses uses' : Nat}
  {m : SpillMap κ ν} {stage : SpillStage}

/-- The engine is open and stands at its root. Nothing changed on the disk outside of the root, and the
partition has only entries that are allowed. -/
structure Kept (l : Lease) (uses : Nat) (e : Engine) (d : Disk) : Prop where
  root : e.root = l.root
  opened : e.closed = false
  stands : ∃ r, e.Stands d r uses False
  only : e.Only l.partition l.allowed d
  reliable : d.Reliable
  confined : Disk.Confined l.before d (Disk.target l.root)

/-! ## The engine -/

theorem Kept.step {e' : Engine} {d' : Disk} (h : l.Kept uses e d) (hs : Step l.partition e e' d d')
    (hstands : ∃ r, e'.Stands d' r uses' False) (honly : e'.Only l.partition l.allowed d') :
    l.Kept uses' e' d' where
  root := hs.root.trans h.root
  opened := hs.closed.trans h.opened
  stands := hstands
  only := honly
  reliable := hs.toLater.reliable h.reliable
  confined := h.confined.trans (h.root ▸ hs.widen (root_prefix_home e.root l.partition))

/-- A call that is refused changes nothing, and storage is not to blame. -/
def Refused (e : Engine) (d : Disk) (err : Error) (t : Engine × Disk) : Prop :=
  t = (e, d) ∧ ¬ err.OfStorage

theorem Kept.written (change : Write) {r : Registry} {t : Engine × Disk} (h : l.Kept uses e d)
    (hentries : ∀ entry ∈ change.entries, l.allowed entry)
    (ht : Written change l.partition e d r uses False t) : l.Kept (uses + change.cost) t.1 t.2 := by
  obtain ⟨-, -, hstep, hstands, honly⟩ := ht
  exact h.step hstep ⟨_, hstands⟩ (honly l.allowed h.only hentries)

theorem Kept.unwritten (change : Write) {r : Registry} {err : Error} {t : Engine × Disk}
    (h : l.Kept uses e d) (hentries : ∀ entry ∈ change.entries, l.allowed entry)
    (ht : Unwritten change l.partition e d r uses err t) : Refused e d err t := by
  rcases ht with ⟨ht, hcheck | ⟨-, -, hargument⟩⟩ | ⟨⟨task, cause, -, hstrains⟩, -⟩
  · exact ⟨ht, not_ofStorage_of_argument (Write.check_error hcheck)⟩
  · exact ⟨ht, not_ofStorage_of_argument hargument⟩
  · rcases hstrains l.allowed h.only hentries with hfaulted | ⟨-, hoversized⟩
    · exact absurd h.reliable hfaulted.not_reliable
    · exact absurd hoversized l.small

theorem Kept.ends_find (h : l.Kept uses e d) (key : Bytes) :
    Ends (Engine.find l.partition key) (e, d) (fun _ t => l.Kept uses t.1 t.2) (Refused e d) := by
  obtain ⟨r, hstands⟩ := h.stands
  refine (hstands.ends_find l.partition key).mono ?_ ?_
  · rintro found _ ⟨rfl, -⟩
    exact h
  · rintro err t ⟨ht, hcheck | ⟨-, hargument⟩⟩
    · exact ⟨ht, not_ofStorage_of_argument (checkBytes_error hcheck)⟩
    · exact ⟨ht, not_ofStorage_of_argument hargument⟩

theorem Kept.ends_put {key v : Bytes} (h : l.Kept uses e d) (hentry : l.allowed (key, some v))
    (hroom : 1 + 2 * (uses + 1) < UInt64.size) :
    Ends (Engine.put l.partition key v) (e, d) (fun _ t => l.Kept (uses + 1) t.1 t.2)
      (Refused e d) := by
  obtain ⟨r, hstands⟩ := h.stands
  have hentries : ∀ entry ∈ (Write.put key v).entries, l.allowed entry := by
    intro entry hmem
    rw [List.mem_singleton.1 hmem]
    exact hentry
  exact (hstands.ends_put hroom).mono (fun _ _ ht => h.written _ hentries ht)
    fun _ _ ht => h.unwritten _ hentries ht

theorem Kept.ends_putBatch {batch : List (Bytes × Bytes)} (h : l.Kept uses e d)
    (hentries : ∀ entry ∈ Partition.puts batch, l.allowed entry)
    (hroom : 1 + 2 * (uses + batch.length) < UInt64.size) :
    Ends (Engine.putBatch l.partition batch) (e, d)
      (fun _ t => l.Kept (uses + batch.length) t.1 t.2) (Refused e d) := by
  obtain ⟨r, hstands⟩ := h.stands
  exact (hstands.ends_putBatch hroom).mono
    (fun _ _ ht => h.written (.putBatch batch) hentries ht.2)
    fun _ _ ht => h.unwritten (.putBatch batch) hentries ht

theorem Kept.ends_create (h : l.Kept uses e d) :
    Ends (createPartition l.partition) (e, d) (fun _ t => l.Kept uses t.1 t.2) (Refused e d) := by
  obtain ⟨r, hstands⟩ := h.stands
  refine (hstands.ends_createPartition l.partition).mono ?_ ?_
  · rintro serial t ⟨-, -, hstep, ⟨-, rfl⟩ | ⟨-, hstands', p, hp, hmemory, htables, -⟩⟩
    · exact h
    · refine h.step hstep ⟨_, hstands'⟩ fun q hq => ?_
      rw [hp, Option.some.injEq] at hq
      subst hq
      rw [Partition.Only, hmemory, htables]
      exact ⟨fun _ hmem => absurd hmem List.not_mem_nil, fun _ hmem => absurd hmem List.not_mem_nil⟩
  · rintro err t (⟨ht, hargument, -⟩ | ⟨⟨task, cause, -, hfaulted⟩, -⟩)
    · exact ⟨ht, not_ofStorage_of_argument hargument⟩
    · exact absurd h.reliable hfaulted.not_reliable

/-- The partition is dropped, even if its files could not be deleted. -/
theorem Kept.ends_drop (h : l.Kept uses e d) :
    Ends (dropPartition l.partition) (e, d) (fun _ t => l.Kept uses t.1 t.2)
      fun _ t => l.Kept uses t.1 t.2 := by
  obtain ⟨r, hstands⟩ := h.stands
  have hdrop {clean : Prop} {t : Engine × Disk} (ht : Dropped l.partition e d r uses clean t) :
      l.Kept uses t.1 t.2 := by
    refine ⟨ht.root.trans h.root, ht.closed.trans h.opened,
      ⟨_, ht.stands.weaken (Nat.le_refl uses) False.elim⟩, fun p hp => ?_,
      ht.later.reliable h.reliable, h.confined.trans (h.root ▸ ht.confined)⟩
    rw [ht.stands.partition?_eq_none.2 (Function.update_self ..)] at hp
    cases hp
  refine (hstands.ends_dropPartition l.partition).mono ?_ fun _ _ ht => hdrop ht.2
  rintro _ t (⟨-, rfl⟩ | ⟨-, ht⟩)
  · exact h
  · exact hdrop ht

/-- Closing the engine leaves nothing of its root, and changes nothing else. -/
theorem Kept.ends_close (h : l.Kept uses e d) :
    Ends close (e, d) (fun _ t => Disk.Swept l.before t.2 (Disk.target l.root)) fun _ _ => False := by
  obtain ⟨r, hstands⟩ := h.stands
  refine hstands.ends_close.imp ?_
  intro _ t ⟨_, _, _, _, hconfined, hgone, _⟩
  rw [h.root] at hconfined hgone
  exact ⟨h.confined.trans hconfined, hgone h.opened h.reliable⟩

/-! ## The spill stage -/

/-- The engine of the lease is kept. -/
def Holds (l : Lease) (uses : Nat) (w : Workspace) : Prop :=
  ∃ e, w.engines[l.engine]? = some ⟨e, l.owners⟩ ∧ l.Kept uses e w.disk

theorem Holds.putEngine {e' : Engine} {d' : Disk} (h : l.Holds uses w) (hkept : l.Kept uses' e' d') :
    l.Holds uses' (w.putEngine l.engine e' d') := by
  obtain ⟨e, he, -⟩ := h
  exact ⟨e', Workspace.getElem?_putEngine he, hkept⟩

theorem Holds.ends_onStage {act : String → EngineM α} (h : l.Holds uses w)
    (hact : ∀ e, l.Kept uses e w.disk → Ends (act l.partition) (e, w.disk)
      (fun _ t => l.Kept uses' t.1 t.2) (Refused e w.disk)) :
    Ends (SpillMap.onStage (l.house stage) act) (m, w)
      (fun _ t => ∃ w', t = (m, w') ∧ l.Holds uses' w') fun err t => t = (m, w) ∧ ¬ err.OfStorage := by
  obtain ⟨e, he, hkept⟩ := id h
  have he' : w.engine? (l.house stage).engine = some e := Workspace.engine?_of_getElem? he
  have hsame : w.putEngine (l.house stage).engine e w.disk = w := Workspace.putEngine_self he'
  refine (SpillMap.ends_onStage he' (hact e hkept)).mono ?_ ?_
  · rintro a _ ⟨e', d', rfl, hkept'⟩
    exact ⟨_, rfl, h.putEngine hkept'⟩
  · rintro err _ ⟨e', d', rfl, ht, herr⟩
    cases ht
    exact ⟨by rw [hsame], herr⟩

/-- An engine that was started where nothing was can be leased, for every partition. -/
theorem ends_start_leased {config : Config} {disposable : Bool} {root : Path} (h : d.Vacant root) :
    Ends (Engine.start root config disposable) d
      (fun e d' => Disk.Grown d d' (Disk.target root) ∧ e.closed = false ∧
        (∀ name, isPartitionName name = true → e.Ready d' name) ∧
        ∀ l : Lease, l.root = root → l.before = d → l.Kept 0 e d')
      fun _ _ => False := by
  refine (ends_start_vacant h).run.mono ?_ fun _ _ hf => hf.2
  intro e d' ⟨hstart, _, hgrown⟩
  obtain ⟨hstands, hlater, rfl⟩ := stands_of_start h.sound h.honest h.downward hstart
  refine ⟨hgrown, rfl, fun name hname => hstands.ready rfl hname rfl, ?_⟩
  rintro l rfl rfl
  exact ⟨rfl, rfl, ⟨_, hstands.weaken (Nat.le_refl 0) False.elim⟩, (fun _ hp => nomatch hp),
    hlater.reliable h.reliable, hgrown.toConfined⟩

/-- An engine was opened at a root where nothing was. It is ready for every partition, and can be leased
by its one owner. -/
structure Opened (root : Path) (w w' : Workspace) (id : EngineId) : Prop where
  grown : Disk.Grown w.disk w'.disk (Disk.target root)
  ready : ∃ e, w'.engine? id = some e ∧ e.closed = false ∧
    ∀ name, isPartitionName name = true → e.Ready w'.disk name
  leased : ∀ l : Lease, l.engine = id → l.root = root → l.owners = 1 → l.before = w.disk → l.Holds 0 w'

theorem ends_addEngine {config : Config} {disposable : Bool} {root : Path} (h : w.disk.Vacant root) :
    Ends (Workspace.addEngine (Engine.start root config disposable)) w
      (fun id w' => Opened root w w' id) fun _ _ => False := by
  unfold Workspace.addEngine
  refine Ends.bind (M := fun e w' => Disk.Grown w.disk w'.disk (Disk.target root) ∧
    e.closed = false ∧ (∀ name, isPartitionName name = true → e.Ready w'.disk name) ∧
    ∀ l : Lease, l.root = root → l.before = w.disk → l.Kept 0 e w'.disk)
    (Ends.zoom ((ends_start_leased h).imp fun _ _ he => he)) ?_
  intro e w' ⟨hgrown, hopen, hready, hkept⟩
  have he : (w'.engines ++ [⟨e, 1⟩])[w'.engines.length]? = some ⟨e, 1⟩ := List.getElem?_concat_length
  refine ⟨hgrown, ⟨e, Workspace.engine?_of_getElem? he, hopen, hready⟩,
    fun l hid hroot howners hbefore => ⟨e, ?_, hkept l hroot hbefore⟩⟩
  rw [hid, howners]
  exact he

/-! ## Owners -/

/-- The lease when the engine has other owners. -/
def withOwners (l : Lease) (owners : Nat) : Lease := { l with owners }

theorem Holds.withOwners (h : l.Holds uses w) (f : Nat → Nat) :
    (l.withOwners (f l.owners)).Holds uses (w.modifyOwners l.engine f) := by
  obtain ⟨e, he, hkept⟩ := h
  exact ⟨e, Workspace.getElem?_modifyOwners he f, { hkept with }⟩

/-- An engine with other owners goes on. -/
theorem Holds.ends_release (h : l.Holds uses w) (hmany : 1 < l.owners) :
    Ends (Workspace.release l.engine) w (fun _ w' => (l.withOwners (l.owners - 1)).Holds uses w')
      fun _ _ => False := by
  have hleft := h.withOwners (· - 1)
  unfold Workspace.release
  refine ends_modify_bind (ends_get_bind ?_)
  obtain ⟨e, he, -⟩ := id h
  rw [if_neg]
  · exact Ends.pure hleft
  · rw [Workspace.getElem?_modifyOwners he, Option.map_some, Option.some.injEq]
    exact Nat.sub_ne_zero_of_lt hmany

/-- What is left of a lease that one of the owners gave up. -/
def Returned (l : Lease) (w : Workspace) : Option Workspace → Prop
  | some idle => w = idle
  | none => ∃ uses, (l.withOwners (l.owners - 1)).Holds uses w

/-- The last owner closes the engine. -/
theorem Holds.ends_release_last (h : l.Holds uses w) (hlast : l.owners = 1) :
    Ends (Workspace.release l.engine) w
      (fun _ w' => Disk.Swept l.before w'.disk (Disk.target l.root)) fun _ _ => False := by
  obtain ⟨e, he, hkept⟩ := h
  have he' := Workspace.getElem?_modifyOwners he (· - 1)
  unfold Workspace.release
  refine ends_modify_bind (ends_get_bind ?_)
  rw [if_pos]
  · refine (Workspace.ends_onEngine (Workspace.engine?_of_getElem? he') hkept.ends_close).mono ?_ ?_
    · rintro _ _ ⟨e', d', rfl, hclosed⟩
      exact hclosed
    · rintro _ _ ⟨e', d', rfl, hf⟩
      exact hf
  · rw [he', Option.map_some, hlast]

end Lease

/-! ## The map -/

namespace SpillMap

variable {κ ν : Type} {l : Lease} {idle : Option Workspace} {w : Workspace} {m : SpillMap κ ν}
  {calls : Nat} {stage : SpillStage}

/-- Where a map spills to: nowhere, so that the workspace stays as it is, or to the partition of the
lease, where there is room for its entries in memory. -/
inductive Backed (l : Lease) (calls : Nat) (m : SpillMap κ ν) (w : Workspace) : Option Workspace → Prop
  | idle (hnone : m.spillStage = none) : Backed l calls m w (some w)
  | leased {stage : SpillStage} {uses : Nat} (hstage : m.spillStage = some (l.house stage))
      (hholds : l.Holds uses w) (hroom : uses + m.memory.entries.length ≤ calls) : Backed l calls m w none

/-- The map spills as the lease has it, if it spills at all, and holds only what is allowed. -/
structure Leased (l : Lease) (idle : Option Workspace) (calls : Nat) (m : SpillMap κ ν)
    (w : Workspace) : Prop where
  memory : ∀ entry ∈ Partition.puts m.memory.entries, l.allowed entry
  backed : m.Backed l calls w idle

/-- The call fails, though not for storage, and the lease goes on. -/
def Declined (l : Lease) (idle : Option Workspace) (calls : Nat) (err : Error)
    (t : SpillMap κ ν × Workspace) : Prop :=
  t.1.Leased l idle calls t.2 ∧ ¬ err.OfStorage

theorem Leased.live? (h : m.Leased l idle calls w) (hlive : m.live? = some stage) :
    ∃ other uses, idle = none ∧ stage = l.house other ∧ m.spillStage = some stage ∧
      l.Holds uses w ∧ uses + m.memory.entries.length ≤ calls := by
  have hstage : m.spillStage = some stage := (Option.filter_eq_some_iff.1 hlive).1
  cases h.backed with
  | idle hnone =>
    rw [hstage] at hnone
    cases hnone
  | leased hsome hholds hroom =>
    rw [hstage, Option.some.injEq] at hsome
    exact ⟨_, _, rfl, hsome, hstage, hholds, hroom⟩

theorem Leased.mono {more : Nat} (h : m.Leased l idle calls w) (hm : calls ≤ more) :
    m.Leased l idle more w where
  memory := h.memory
  backed := by
    cases h.backed with
    | idle hnone => exact .idle hnone
    | leased hstage hholds hroom => exact .leased hstage hholds (hroom.trans hm)

theorem leased_of_holds {uses : Nat} (h : l.Holds uses w) (hstage : m.spillStage = some (l.house stage))
    (hmemory : ∀ entry ∈ Partition.puts m.memory.entries, l.allowed entry)
    (hroom : uses + m.memory.entries.length ≤ calls) : m.Leased l none calls w :=
  ⟨hmemory, .leased hstage h hroom⟩

/-- Nothing is left in memory that is not allowed. -/
theorem allowed_of_empty (hempty : m.memory.entries = []) :
    ∀ entry ∈ Partition.puts m.memory.entries, l.allowed entry := by
  rw [hempty]
  exact fun _ hmem => absurd hmem List.not_mem_nil

theorem Leased.insert {k v : Bytes} (h : m.Leased l idle calls w) (hentry : l.allowed (k, some v)) :
    ({ m with memory := m.memory.insert k v } : SpillMap κ ν).Leased l idle (calls + 1) w where
  memory := forall_mem_puts_insert hentry h.memory
  backed := by
    cases h.backed with
    | idle hnone => exact .idle hnone
    | @leased stage uses hstage hholds hroom =>
      have hlength := KeyMap.length_insert_le m.memory.entries k v
      refine .leased hstage hholds ?_
      show uses + (m.memory.entries.insert k v).length ≤ calls + 1
      omega

/-! ## Building blocks -/

theorem ends_spilledBytes_leased (h : m.Leased l idle calls w) (key : Bytes) :
    Ends (spilledBytes key) (m, w) (fun _ t => ∃ w', t = (m, w') ∧ m.Leased l idle calls w')
      (Declined l idle calls) := by
  unfold spilledBytes
  refine ends_get_bind ?_
  dsimp only
  cases hlive : m.live? with
  | none => exact Ends.pure ⟨w, rfl, h⟩
  | some stage =>
    obtain ⟨other, uses, rfl, rfl, hstage, hholds, hroom⟩ := h.live? hlive
    refine (hholds.ends_onStage fun e hkept => hkept.ends_find key).mono ?_ ?_
    · rintro found _ ⟨w', rfl, hholds'⟩
      exact ⟨w', rfl, leased_of_holds hholds' hstage h.memory hroom⟩
    · rintro err _ ⟨rfl, herr⟩
      exact ⟨h, herr⟩

theorem ends_movedBytes_leased (h : m.Leased l idle calls w) (key : Bytes) :
    Ends (movedBytes key) (m, w) (fun _ t => ∃ w', t = (m, w') ∧ m.Leased l idle calls w')
      (Declined l idle calls) := by
  unfold movedBytes
  refine ends_get_bind ?_
  dsimp only
  split
  · exact Ends.pure ⟨w, rfl, h⟩
  · exact ends_spilledBytes_leased h key

/-- Entries leave memory, also when they can not be moved. -/
theorem ends_moveEntries_leased {uses : Nat} (hholds : l.Holds uses w)
    (hstage : m.spillStage = some (l.house stage))
    (hmemory : ∀ entry ∈ Partition.puts m.memory.entries, l.allowed entry)
    (hroom : uses + m.memory.entries.length ≤ calls) (hw : 1 + 2 * calls < UInt64.size)
    (made : SpillStage) :
    Ends (moveEntries (l.house made) m.memory.entries) (m, w)
      (fun _ t => t.1.Leased l none calls t.2) (Declined l none calls) := by
  unfold moveEntries
  refine ends_modify_bind (Ends.bind ((hholds.ends_onStage fun e hkept =>
    hkept.ends_putBatch hmemory (by omega)).imp_fail ?_) ?_)
  · rintro err _ ⟨rfl, herr⟩
    exact ⟨leased_of_holds hholds hstage (allowed_of_empty rfl)
      ((Nat.le_add_right uses _).trans hroom), herr⟩
  · rintro count _ ⟨w', rfl, hholds'⟩
    have hcounted : (m.spillStage.map fun stage => { stage with spillCount := stage.spillCount + 1 }) =
        some (l.house { stage with spillCount := stage.spillCount + 1 }) := by
      rw [hstage]
      rfl
    exact ends_modify (leased_of_holds hholds' hcounted (allowed_of_empty rfl) hroom)

theorem ends_spillMemory_leased (h : m.Leased l idle calls w) (hw : 1 + 2 * calls < UInt64.size) :
    Ends spillMemory (m, w) (fun _ t => t.1.Leased l idle calls t.2) (Declined l idle calls) := by
  unfold spillMemory
  refine ends_get_bind ?_
  dsimp only
  cases h.backed with
  | idle hnone =>
    rw [hnone]
    exact Ends.pure h
  | @leased stage uses hstage hholds hroom =>
    rw [hstage]
    dsimp only
    split
    · exact ends_moveEntries_leased hholds hstage h.memory hroom hw stage
    · refine Ends.bind ((hholds.ends_onStage fun e hkept => hkept.ends_create).imp_fail ?_) ?_
      · rintro err _ ⟨rfl, herr⟩
        exact ⟨h, herr⟩
      · rintro serial _ ⟨w', rfl, hholds'⟩
        have hmade : (m.spillStage.map fun stage => { stage with created := true }) =
            some (l.house { stage with created := true }) := by
          rw [hstage]
          rfl
        exact ends_modify_bind (ends_moveEntries_leased
          (m := { m with spillStage := m.spillStage.map fun stage => { stage with created := true } })
          hholds' hmade h.memory hroom hw stage)

/-- A value is put, if it may be, where its key is or in memory. -/
theorem ends_putBytes_leased {k v : Bytes} (h : m.Leased l idle calls w)
    (hentry : l.allowed (k, some v)) (hw : 1 + 2 * (calls + 1) < UInt64.size) :
    Ends (putBytes k v) (m, w) (fun _ t => t.1.Leased l idle (calls + 1) t.2)
      (Declined l idle (calls + 1)) := by
  unfold putBytes
  refine ends_get_bind ?_
  dsimp only
  refine Ends.bind ((ends_movedBytes_leased h k).imp_fail fun err t ht =>
    ⟨ht.1.mono (Nat.le_succ calls), ht.2⟩) ?_
  rintro found _ ⟨w', rfl, h'⟩
  split
  · next old stage hlive =>
    obtain ⟨other, uses, rfl, rfl, hstage, hholds, hroom⟩ := h'.live? hlive
    refine (hholds.ends_onStage fun e hkept => hkept.ends_put hentry (by omega)).mono ?_ ?_
    · rintro _ _ ⟨w'', rfl, hholds'⟩
      exact leased_of_holds hholds' hstage h.memory (by dsimp only; omega)
    · rintro err _ ⟨rfl, herr⟩
      exact ⟨h'.mono (Nat.le_succ calls), herr⟩
  · have hinsert := h'.insert hentry
    refine ends_modify_bind (ends_get_bind ?_)
    dsimp only
    split
    · exact ends_spillMemory_leased hinsert hw
    · exact Ends.pure hinsert

/-! ## Calls -/

theorem ends_ensureOpen_leased (h : m.Leased l idle calls w) :
    Ends ensureOpen (m, w) (fun _ t => t = (m, w)) (Declined l idle calls) := by
  unfold ensureOpen
  refine ends_get_bind ?_
  dsimp only
  split
  · exact Ends.throw ⟨h, not_ofStorage_of_argument ⟨_, rfl⟩⟩
  · exact Ends.pure rfl

/-- Putting a value uses the storage for its own entry and for those in memory. -/
theorem ends_put_leased (h : m.Leased l idle calls w) {key : κ} {v : ν}
    (hentry : ∀ k b, encodeEntry m.keys m.values key v = .ok (k, b) → l.allowed (k, some b))
    (hw : 1 + 2 * (calls + 1) < UInt64.size) :
    Ends (put key v) (m, w) (fun _ t => t.1.Leased l idle (calls + 1) t.2)
      (Declined l idle (calls + 1)) := by
  have hmore := h.mono (Nat.le_succ calls)
  unfold put
  refine Ends.bind (ends_ensureOpen_leased hmore) ?_
  rintro _ _ rfl
  refine ends_get_bind ?_
  dsimp only
  cases hencoded : encodeEntry m.keys m.values key v with
  | ok entry => exact ends_putBytes_leased h (hentry entry.1 entry.2 hencoded) hw
  | error err =>
    refine Ends.throw ⟨hmore, ?_⟩
    rintro ⟨task, cause, rfl⟩
    rw [encodeEntry_eq] at hencoded
    split at hencoded
    · cases hencoded
    · cases hencoded
    · split at hencoded
      · cases hencoded
      · split at hencoded <;> cases hencoded

/-! ## Giving the map up -/

/-- Closing a map drops its partition, or tries to. -/
theorem ends_close_leased (h : m.Leased l idle calls w) :
    Ends close (m, w) (fun _ t => m.Leased l idle calls t.2) fun _ _ => False := by
  unfold close
  refine ends_get_bind ?_
  dsimp only
  split
  · exact Ends.pure h
  · refine ends_modify_bind ?_
    cases hlive : m.live? with
    | none => exact Ends.pure h
    | some stage =>
      obtain ⟨other, uses, rfl, rfl, hstage, hholds, hroom⟩ := h.live? hlive
      refine ends_modify_bind (Ends.bind (M := fun _ t => l.Holds uses t.2) (Ends.outcome ?_)
        fun _ t ht => Ends.pure (leased_of_holds ht hstage h.memory hroom))
      obtain ⟨e, he, hkept⟩ := id hholds
      have he' : w.engine? (l.house other).engine = some e := Workspace.engine?_of_getElem? he
      refine (ends_onStage he' hkept.ends_drop).mono ?_ ?_
      · rintro _ _ ⟨e', d', rfl, hkept'⟩
        exact hholds.putEngine hkept'
      · rintro _ _ ⟨e', d', rfl, hkept'⟩
        exact hholds.putEngine hkept'

/-- A map that is discarded gives up its engine, which has other owners. -/
theorem ends_discard_leased (h : m.Leased l idle calls w) (hmany : 1 < l.owners) :
    Ends m.discard w (fun _ w' => l.Returned w' idle) fun _ _ => False := by
  unfold discard
  refine Ends.bind (M := fun _ w' => m.Leased l idle calls w') (Ends.outcome (Ends.zoom
    ((ends_close_leased h).mono (fun _ _ ht => ht) fun _ _ hf => hf.elim))) ?_
  intro _ w' h'
  cases h'.backed with
  | idle hnone =>
    rw [hnone]
    exact Ends.pure rfl
  | leased hstage hholds hroom =>
    rw [hstage]
    exact (hholds.ends_release hmany).imp fun _ _ hleft => ⟨_, hleft⟩

end SpillMap

end Spillway
