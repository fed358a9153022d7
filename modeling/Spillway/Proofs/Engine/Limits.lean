import Spillway.Proofs.Engine.Failure
import Spillway.Proofs.Partition.Limits

/-!
# Limits hold after every write

A new partition is within the limits of its engine, and every call that writes to it keeps it there
(`within_limits`). Unlike what a partition holds, this does not depend on how many calls there were.
-/

namespace Spillway.Engine

variable {e : Engine} {d : Disk} {name : String} {config : Config}

/-- A call that succeeds did what it does in its partition. -/
theorem ends_run_act {p : Partition} (post : Partition × Disk → Prop) (write : Write)
    (hp : e.partition? name = some p)
    (hact : Ends write.act (p, d) (fun _ t => t.1.name = p.name ∧ post t) fun _ _ => True) :
    Ends (write.run name) (e, d)
      (fun _ t => ∃ p', t.1.partition? name = some p' ∧ post (p', t.2)) fun _ _ => True := by
  have hin (task : Task) : Ends (onPartition task name write.act) (e, d)
      (fun _ t => ∃ p', t.1.partition? name = some p' ∧ post (p', t.2)) fun _ _ => True := by
    unfold onPartition
    refine Ends.bind ((ends_lookup_or name e d).imp_fail fun _ _ _ => trivial) ?_
    rintro q _ ⟨rfl, -, hq⟩
    cases hp.symm.trans hq
    refine Ends.adaptExcept (Ends.zoom (hact.imp ?_))
    rintro _ ⟨p', d'⟩ ⟨hname, hpost⟩
    exact ⟨p', partition?_replace hp hname, hpost⟩
  cases write with
  | put key v =>
    show Ends (put name key v) _ _ _
    rw [put_eq]
    refine ends_checked (fun _ => Ends.bind (hin _) ?_) fun _ _ => trivial
    exact fun _ _ ht => ends_modify ht
  | putBatch batch =>
    refine Ends.bind (M := fun _ t => ∃ p', t.1.partition? name = some p' ∧ post (p', t.2)) ?_
      fun _ _ ht => Ends.pure ht
    refine ends_checked (fun _ => Ends.bind (hin _) ?_) fun _ _ => trivial
    exact fun _ _ ht => ends_modify_bind (Ends.pure ht)
  | delete key => exact ends_checked (fun _ => hin _) fun _ _ => trivial
  | flush => exact hin _

/-- The engine has a partition that keeps the limits of a configuration. -/
def Limited (e : Engine) (name : String) (config : Config) : Prop :=
  ∃ p, e.partition? name = some p ∧ p.Within config

/-- Every call that writes to a partition keeps it within its limits. -/
theorem Limited.ends_run (h : e.Limited name config) (write : Write) (d : Disk) :
    Ends (write.run name) (e, d) (fun _ t => t.1.Limited name config) fun _ _ => True := by
  obtain ⟨p, hp, hwithin⟩ := h
  have hact : Ends write.act (p, d) (fun _ t => t.1.name = p.name ∧ t.1.Within config)
      fun _ _ => True := by
    cases write with
    | put key v => exact hwithin.ends_write key (some v) d
    | putBatch batch => exact hwithin.ends_putBatch batch d
    | delete key => exact hwithin.ends_write key none d
    | flush => exact hwithin.ends_flush d
  exact ends_run_act (fun t => t.1.Within config) write hp hact

theorem Limited.ends_history (h : e.Limited name config) (history : List Write) (d : Disk) :
    Ends (history.forM (Write.run name)) (e, d) (fun _ t => t.1.Limited name config)
      fun _ _ => True := by
  induction history generalizing e d with
  | nil => exact Ends.pure h
  | cons write history ih => exact Ends.bind (h.ends_run write d) fun _ t ht => ih ht t.2

/-- A partition that is created is within the limits of its engine. -/
theorem ends_createPartition_limited (h : e.Ready d name) :
    Ends (createPartition name) (e, d) (fun _ t => t.1.Limited name e.config) fun _ _ => True := by
  have hload : Ends (do
      removeDirectory (partitionDir e.root name)
      Partition.load e.nextSerial name (partitionDir e.root name) e.config) d
      (fun p _ => p.name = name ∧ p.Within e.config) fun _ _ => True :=
    Ends.bind ((ends_clear h).imp_fail fun _ _ _ => trivial) fun _ _ hfound =>
      Partition.ends_load_within hfound.1
  unfold createPartition
  refine Ends.bind ((ends_ensureOpen_or e d).imp_fail fun _ _ _ => trivial) ?_
  rintro _ _ ⟨rfl, -⟩
  refine ends_checked (fun _ => ends_get_bind ?_) fun _ _ => trivial
  dsimp only
  rw [h.unused]
  dsimp only
  refine Ends.bind (Ends.adaptExcept ((ends_onDisk_exists hload).imp_fail fun _ _ _ => trivial)) ?_
  rintro p _ ⟨d', rfl, hname, hwithin⟩
  have hfind : (e.enlist p).partition? name = some p := by rw [partition?_enlist, if_pos hname]
  exact ends_modify_bind (Ends.pure ⟨p, hfind, hwithin⟩)

/-- After any history of calls that succeed on a new partition, so after each call of one, its memtable
is below its limit and it has no more tables than it may have, however large the tables are. The
size of the memtable is that of all its entries. -/
theorem within_limits {e' : Engine} {d' : Disk} {history : List Write} (hready : e.Ready d name)
    (hrun : (createPartition name >>= fun _ => history.forM (Write.run name)) (e, d) =
      .ok ⟨⟩ (e', d')) :
    ∃ p, e'.partition? name = some p ∧ p.memtable.size = p.memtable.total ∧
      p.memtable.size < max e.config.writeBufferBytes 1 ∧
      p.store.tables.length ≤ max e.config.maxTables 1 := by
  have hends : Ends (createPartition name >>= fun _ => history.forM (Write.run name)) (e, d)
      (fun _ t => t.1.Limited name e.config) fun _ _ => True :=
    Ends.bind (ends_createPartition_limited hready) fun _ t ht => ht.ends_history history t.2
  obtain ⟨p, hp, hwithin⟩ := hends.of_ok hrun
  exact ⟨p, hp, hwithin.counted.exact, hwithin.buffer ▸ hwithin.below, hwithin.most ▸ hwithin.few⟩

/-- Here each of three writes in one batch is flushed, and the tables are merged into one. -/
theorem within_limits_eager :
    ∃ e' d' p, (createPartition "p" >>= fun _ => List.forM
        [.putBatch [([1], [7]), ([2], [8, 8]), ([1], [9])], .delete [2], .flush]
        (Write.run "p")) (eager, {}) = .ok ⟨⟩ (e', d') ∧
      e'.partition? "p" = some p ∧ p.memtable.size < 1 ∧ p.store.tables.length ≤ 1 := by
  have hsucceeds : succeeds (createPartition "p" >>= fun _ => List.forM
      [.putBatch [([1], [7]), ([2], [8, 8]), ([1], [9])], .delete [2], .flush]
      (Write.run "p")) (eager, {}) = true := by decide +kernel
  obtain ⟨_, ⟨e', d'⟩, hrun⟩ := exists_of_succeeds hsucceeds
  obtain ⟨p, hp, -, hbelow, hfew⟩ := within_limits eager_ready hrun
  exact ⟨e', d', p, hrun, hp, hbelow, hfew⟩

end Spillway.Engine
