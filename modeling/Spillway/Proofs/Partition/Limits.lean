import Spillway.Proofs.Memtable
import Spillway.Proofs.Partition
import Spillway.Proofs.Store.Tier

/-!
# Limits of a partition

After a write that succeeds the memtable of a partition is below its limit, and there are no more
tables than there may be (`Partition.Within`). A flush adds one table. One merge then takes at least
one away again, however the sizes of the tables are distributed, because a tier that is chosen has
two tables or more (`Store.ends_compact_fewer`).

Nothing is asked of the disk here: all of this is about what is kept in memory.
-/

namespace Spillway

open Table

/-! ## The number of tables -/

namespace Store

variable {s : Store} {d : Disk} {α β : Type}

/-- An action that leaves the tables of a store as they are when it succeeds. -/
def Keeps (act : StoreM α) : Prop :=
  ∀ s d, Ends act (s, d) (fun _ t => t.1.tables = s.tables) fun _ _ => True

theorem keeps_onDisk (act : DiskM StorageError α) : Keeps (onDisk act) := fun _ d =>
  ends_onDisk ((Ends.trivial act d).imp fun _ _ _ => rfl)

theorem keeps_ofExcept (x : Except StorageError α) : Keeps (ofExcept x) := fun _ _ =>
  Ends.ofExcept (fun _ _ => rfl) fun _ _ => trivial

theorem Keeps.bind {act : StoreM α} {f : α → StoreM β} (h : Keeps act) (hf : ∀ a, Keeps (f a)) :
    Keeps (act >>= f) := fun s d =>
  Ends.bind (h s d) fun a t ht => (hf a t.1 t.2).imp fun _ _ ht' => ht'.trans ht

theorem keeps_get_bind {f : Store × Disk → StoreM β} (hf : ∀ t, Keeps (f t)) :
    Keeps (get >>= f) := fun s d => hf (s, d) s d

theorem keeps_writeTable (items : DiskM StorageError (List (Except StorageError Entry))) :
    Keeps (writeTable items) :=
  keeps_get_bind fun _ => Keeps.bind (fun _ _ => ends_modify rfl) fun _ => keeps_onDisk _

theorem keeps_mergeTier (tier : Tier) : Keeps (mergeTier tier) :=
  keeps_get_bind fun _ => (keeps_onDisk _).bind fun _ => (keeps_onDisk _).bind fun _ =>
    keeps_get_bind fun _ => (keeps_ofExcept _).bind fun _ => keeps_writeTable _

/-- An action on the disk leaves the store as it is, whatever comes of it. -/
theorem ends_outcome_onDisk {fail : StorageError → Store × Disk → Prop} (act : DiskM IoError α)
    (s : Store) (d : Disk) :
    Ends (outcome (onDisk act)) (s, d) (fun _ t => t.1 = s) fail :=
  Ends.outcome (M := fun _ (t : Store × Disk) => t.1 = s)
    (ends_onDisk ((Ends.trivial act d).mono (fun _ _ _ => rfl) fun _ _ _ => rfl))

theorem ends_removeTables_same (tables : List Reader) (s : Store) (d : Disk) :
    Ends (removeTables tables) (s, d) (fun _ t => t.1 = s) fun _ _ => True := by
  unfold removeTables
  refine Ends.bind (M := fun _ t => t.1 = s) (Ends.forIn (s := (s, d)) (I := fun _ t => t.1 = s) ?_ rfl)
    fun _ _ ht => Ends.pure ht
  rintro table rest ⟨_, d⟩ rfl
  exact Ends.bind (ends_outcome_onDisk _ _ d) fun _ _ ht => Ends.pure ⟨rfl, ht⟩

/-- A flush adds one table. -/
theorem ends_flush_tables (m : Memtable) (s : Store) (d : Disk) :
    Ends (flush m) (s, d) (fun _ t => t.1.tables.length = s.tables.length + 1) fun _ _ => True := by
  unfold flush
  by_cases hempty : m.isEmpty = true
  · rw [if_pos hempty]
    exact Ends.throw trivial
  rw [if_neg hempty]
  refine Ends.bind (keeps_writeTable _ s d) ?_
  rintro summary ⟨s₁, d₁⟩ htables
  refine Ends.bind (keeps_onDisk _ s₁ d₁) ?_
  rintro table ⟨s₂, d₂⟩ htables₂
  refine ends_modify_bind (Ends.pure ?_)
  show s₂.tables.length + 1 = s.tables.length + 1
  rw [htables₂, htables]

/-- The number of tables after some were replaced. -/
theorem length_replaceTier {tier : Tier} {tables : List Reader}
    (h : tier.start + tier.count ≤ tables.length) (replacement : List Reader) :
    (replaceTier tier replacement tables).length + tier.count =
      tables.length + replacement.length := by
  unfold replaceTier
  rw [List.length_append, List.length_append, List.length_take, List.length_drop]
  omega

/-- A merged table, or none, takes the place of the tier. -/
theorem ends_install_tables (tier : Tier) (summary : Summary) (s : Store) (d : Disk) :
    Ends (install tier summary) (s, d)
      (fun _ t => ∃ replacement, replacement.length ≤ 1 ∧
        t.1.tables = replaceTier tier replacement s.tables) fun _ _ => True := by
  unfold install
  by_cases hentries : 0 < summary.entryCount
  · rw [if_pos hentries]
    refine Ends.bind (keeps_onDisk _ s d) ?_
    rintro table ⟨s₁, d₁⟩ htables
    refine ends_modify_bind (Ends.pure ⟨[table], Nat.le_refl 1, ?_⟩)
    show replaceTier tier [table] s₁.tables = _
    rw [htables]
  · rw [if_neg hentries]
    refine ends_modify_bind (Ends.bind (ends_outcome_onDisk _ _ d) ?_)
    rintro _ ⟨_, d₁⟩ rfl
    exact Ends.pure ⟨[], Nat.zero_le 1, rfl⟩

/-- Where there are two tables or more, a merge that succeeds leaves fewer. -/
theorem ends_compact_fewer (h : 2 ≤ s.tables.length) (d : Disk) :
    Ends compact (s, d) (fun _ t => t.1.tables.length < s.tables.length) fun _ _ => True := by
  have hsizes : (s.tables.map (·.outline.fileSize)).length = s.tables.length := List.length_map _
  obtain ⟨tier, hpick, hcount, hinside⟩ := Tier.exists_pick? (hsizes ▸ h)
  rw [hsizes] at hinside
  unfold compact
  refine ends_get_bind ?_
  dsimp only
  rw [hpick]
  dsimp only
  refine Ends.bind (keeps_mergeTier tier s d) ?_
  rintro summary ⟨s₁, d₁⟩ htables
  dsimp only at htables
  refine Ends.bind (ends_install_tables tier summary s₁ d₁) ?_
  rintro output ⟨s₂, d₂⟩ ⟨replacement, hone, htables₂⟩
  dsimp only at htables₂
  refine Ends.bind (ends_removeTables_same _ s₂ d₂) ?_
  rintro _ ⟨s₃, d₃⟩ hsame
  obtain rfl : s₃ = s₂ := hsame
  refine ends_modify_bind (Ends.pure ?_)
  have hlength := length_replaceTier hinside replacement
  show s₃.tables.length < s.tables.length
  rw [htables₂, htables]
  omega

end Store

/-! ## One partition -/

namespace Partition

variable {p : Partition} {d : Disk} {config : Config}

/-- A partition of a configuration whose memtable may have to be flushed. -/
structure Due (p : Partition) (config : Config) : Prop where
  buffer : p.writeBufferBytes = max config.writeBufferBytes 1
  most : p.maxTables = max config.maxTables 1
  counted : p.memtable.Counted
  few : p.store.tables.length ≤ p.maxTables

/-- A partition that keeps the limits of a configuration. -/
structure Within (p : Partition) (config : Config) : Prop extends p.Due config where
  below : p.memtable.size < p.writeBufferBytes

/-- Without a memtable a partition is within its limits if it does not have too many tables. -/
theorem Due.flushed {store : Store} (h : p.Due config) (hfew : store.tables.length ≤ p.maxTables) :
    { p with store, memtable := {} }.Within config where
  buffer := h.buffer
  most := h.most
  counted := Memtable.counted_empty
  few := hfew
  below := h.buffer ▸ Nat.lt_of_lt_of_le Nat.zero_lt_one (Nat.le_max_right _ _)

theorem Due.write {key : Bytes} {v : Option Bytes} (h : p.Due config) :
    { p with memtable := p.memtable.write key v }.Due config :=
  { h with counted := h.counted.write }

/-- Where there are no tables yet, a partition is within its limits when it is opened. -/
theorem ends_load_within {serial : Nat} {name : String} {dir : Path} (h : Store.Found d dir []) :
    Ends (load serial name dir config) d (fun p _ => p.name = name ∧ p.Within config)
      fun _ _ => True := by
  unfold load
  refine Ends.bind ((Store.ends_load h (List.forall_mem_nil _) config.indexInterval).imp_fail
    fun _ _ _ => trivial) ?_
  rintro s d' ⟨-, -, hstore, -⟩
  have hshows := hstore.shows
  rw [show Store.byNumber [] = [] from List.mergeSort_nil, List.forall₂_nil_right_iff] at hshows
  refine Ends.pure ⟨rfl, ⟨rfl, rfl, Memtable.counted_empty, ?_⟩, ?_⟩
  · show s.tables.length ≤ _
    rw [hshows]
    exact Nat.zero_le _
  · exact Nat.lt_of_lt_of_le Nat.zero_lt_one (Nat.le_max_right _ _)

/-- A flush of what is in the memtable, with one merge where it is needed, brings a partition back
within its limits. -/
theorem Due.ends_flush (h : p.Due config) (hfull : p.memtable.isEmpty = false) (d : Disk) :
    Ends flush (p, d) (fun _ t => t.1.name = p.name ∧ t.1.Within config) fun _ _ => True := by
  unfold flush
  refine ends_get_bind ?_
  dsimp only
  rw [hfull]
  refine Ends.bind ((ends_onStore (Store.ends_flush_tables _ p.store d)).imp_fail
    fun _ _ _ => trivial) ?_
  rintro summary _ ⟨s₁, d₁, rfl, htables⟩
  dsimp only at htables
  refine ends_update_bind (ends_get_bind ?_)
  dsimp only
  by_cases hmany : p.maxTables < s₁.tables.length
  · rw [if_pos hmany]
    have hmost := h.most
    have hfew := h.few
    have htwo : 2 ≤ s₁.tables.length := by omega
    refine Ends.bind ((ends_onStore (Store.ends_compact_fewer htwo d₁)).imp_fail
      fun _ _ _ => trivial) ?_
    rintro output _ ⟨s₂, d₂, rfl, hfewer⟩
    dsimp only at hfewer
    exact Ends.pure ⟨rfl, h.flushed (by omega)⟩
  · rw [if_neg hmany]
    exact Ends.pure ⟨rfl, h.flushed (Nat.not_lt.1 hmany)⟩

/-- A write keeps a partition within its limits. -/
theorem Within.ends_write (h : p.Within config) (key : Bytes) (v : Option Bytes) (d : Disk) :
    Ends (write key v) (p, d) (fun _ t => t.1.name = p.name ∧ t.1.Within config)
      fun _ _ => True := by
  have hdue : { p with memtable := p.memtable.write key v }.Due config := h.toDue.write
  unfold write
  refine ends_update_bind (ends_get_bind ?_)
  dsimp only
  by_cases hfull : (p.memtable.write key v).isFull p.writeBufferBytes = true
  · rw [if_pos hfull]
    exact hdue.ends_flush Memtable.isEmpty_write d
  · rw [if_neg hfull]
    exact Ends.pure ⟨rfl, hdue, Nat.not_le.1 fun hle => hfull (decide_eq_true hle)⟩

theorem Within.ends_flush (h : p.Within config) (d : Disk) :
    Ends flush (p, d) (fun _ t => t.1.name = p.name ∧ t.1.Within config) fun _ _ => True := by
  cases hempty : p.memtable.isEmpty with
  | false => exact h.toDue.ends_flush hempty d
  | true =>
    unfold flush
    refine ends_get_bind ?_
    dsimp only
    rw [hempty]
    exact Ends.pure ⟨rfl, h⟩

/-- However often a batch flushes the memtable, it keeps a partition within its limits. -/
theorem Within.ends_putBatch (h : p.Within config) (batch : List (Bytes × Bytes)) (d : Disk) :
    Ends (putBatch batch) (p, d) (fun _ t => t.1.name = p.name ∧ t.1.Within config)
      fun _ _ => True := by
  induction batch generalizing p d with
  | nil => exact Ends.pure ⟨rfl, h⟩
  | cons pair batch ih =>
    refine Ends.bind (h.ends_write pair.1 (some pair.2) d) ?_
    rintro _ ⟨p₁, d₁⟩ ⟨hname, hwithin⟩
    exact (ih hwithin d₁).imp fun _ _ ht => ⟨ht.1.trans hname, ht.2⟩

end Partition

end Spillway
