import Spillway.Partition
import Spillway.Proofs.Store.Load

/-!
# What a partition holds

`Partition.Holds` says what value each key has in a partition, in its memtable or in its tables, and
which entries these may have. Writes change it as if it were one map (`ends_write`), whether or not they
flush the memtable and merge tables; besides a fault of the disk, only a table of such entries that is
too large can keep them from that. Lookups and scans give the values back (`Holds.find`, `ends_scan`).

Tables are numbered by words of 64 bits. A write can use up two numbers at most, so the number of
writes bounds the next one.
-/

namespace Spillway

open Table

/-- The values of keys after a write. -/
def record (value : Bytes → Option Bytes) (write : Entry) : Bytes → Option Bytes :=
  fun key => if key = write.1 then write.2 else value key

/-- Of writes one after the other the last one to a key counts. -/
theorem foldl_record (entries : List Entry) (value : Bytes → Option Bytes) (key : Bytes) :
    entries.foldl record value key = (KeyMap.find? entries.reverse key).getD (value key) := by
  induction entries generalizing value with
  | nil => rfl
  | cons entry entries ih =>
    rw [List.foldl_cons, ih, List.reverse_cons, KeyMap.find?_append, KeyMap.find?_cons]
    cases KeyMap.find? entries.reverse key with
    | some v => rfl
    | none =>
      show record value entry key = _
      unfold record
      by_cases hkey : key = entry.1
      · rw [if_pos hkey, if_pos hkey]
        rfl
      · rw [if_neg hkey, if_neg hkey]
        rfl

namespace Partition

variable {p : Partition} {d d' : Disk} {allowed : Entry → Prop} {value : Bytes → Option Bytes}
  {writes : Nat}

/-- Each key has the value that `value` says, after so many writes, and no entry is there that is not
allowed. -/
structure Holds (p : Partition) (d : Disk) (allowed : Entry → Prop) (value : Bytes → Option Bytes)
    (writes : Nat) : Prop where
  sorted : KeyMap.Sorted p.memtable.entries
  fits : ∀ entry ∈ p.memtable.entries, Fits entry
  memory : ∀ entry ∈ p.memtable.entries, allowed entry
  numbered : p.store.nextId.toNat + (if p.memtable.isEmpty then 0 else 2) ≤ 1 + 2 * writes
  tables : ∃ place layers left, p.store.Holds d place layers left ∧
    (∀ entry, Store.Lists layers entry → allowed entry) ∧
    ∀ key, (KeyMap.newest? (p.memtable.entries :: layers.map Prod.snd) key).join = value key

/-- A partition is empty when it is opened where there are no tables. -/
theorem ends_load {serial : Nat} {name : String} {dir : Path} {config : Config}
    (allowed : Entry → Prop) (h : Store.Found d dir []) :
    Ends (load serial name dir config) d
      (fun p d' => p.name = name ∧ p.Holds d' allowed (fun _ => none) 0 ∧ Disk.Later d d')
      fun e _ => Hindered d dir e := by
  have hnone : ∀ layer ∈ ([] : List Store.Layer), layer.1.toNat + 1 < UInt64.size :=
    fun _ hmem => absurd hmem List.not_mem_nil
  have hno : Store.byNumber [] = [] := List.mergeSort_nil
  unfold load
  refine Ends.bind (Store.ends_load h hnone config.indexInterval) ?_
  rintro s d' ⟨-, hnext, hstore, hlater⟩
  rw [hno] at hnext hstore
  refine Ends.pure ⟨rfl, ⟨KeyMap.sorted_nil, fun _ hmem => absurd hmem List.not_mem_nil,
    fun _ hmem => absurd hmem List.not_mem_nil, ?_, _, [], [], hstore, fun _ ⟨_, hmem, _⟩ =>
      absurd hmem List.not_mem_nil, fun _ => rfl⟩, hlater⟩
  show s.nextId.toNat + 0 ≤ 1
  rw [hnext]
  rfl

/-- Keys that have a value are in some table entry. -/
theorem Holds.length_le {key v : Bytes} (h : p.Holds d allowed value writes) (hv : value key = some v) :
    key.length ≤ maxEntryBytes := by
  obtain ⟨place, layers, left, hstore, -, hvalue⟩ := h.tables
  have hfits : ∀ run ∈ p.memtable.entries :: layers.map Prod.snd, ∀ entry ∈ run, Fits entry :=
    List.forall_mem_cons.2 ⟨h.fits, Store.fits_of_shows hstore.shows⟩
  rw [← hvalue key, Option.join_eq_some_iff] at hv
  obtain ⟨run, hrun, hentry⟩ := KeyMap.exists_of_newest? hv
  exact (hfits run hrun _ hentry).key

/-! ## Reading -/

theorem Holds.find (h : p.Holds d allowed value writes) (key : Bytes) :
    p.find d key = .ok (value key) := by
  obtain ⟨place, layers, left, hstore, -, hvalue⟩ := h.tables
  have hkey := hvalue key
  rw [KeyMap.newest?_cons] at hkey
  unfold Partition.find Memtable.find?
  cases hm : KeyMap.find? p.memtable.entries key with
  | none =>
    rw [hm] at hkey
    rw [← hkey]
    exact hstore.find key
  | some found =>
    rw [hm] at hkey
    rw [← hkey]
    rfl

/-! ## Actions -/

theorem ends_onStore {α : Type} {act : StoreM α} {post : α → Store × Disk → Prop}
    {fail : StorageError → Store × Disk → Prop} (h : Ends act (p.store, d) post fail) :
    Ends (onStore act) (p, d)
      (fun a t => ∃ s d', t = ({ p with store := s }, d') ∧ post a (s, d'))
      fun e t => ∃ s d', t = ({ p with store := s }, d') ∧ fail e (s, d') :=
  Ends.zoom (h.mono (fun _ t hp => ⟨t.1, t.2, rfl, hp⟩) fun _ t hf => ⟨t.1, t.2, rfl, hf⟩)

theorem ends_update_bind {α : Type} {f : Partition → Partition} {act : PUnit → PartitionM α}
    {post : α → Partition × Disk → Prop} {fail : StorageError → Partition × Disk → Prop}
    (h : Ends (act ⟨⟩) (f p, d) post fail) : Ends (update f >>= act) (p, d) post fail := h

/-- A partition without a memtable has the values of its tables. -/
theorem holds_of_store {store : Store} {place : Location} {layers left : List Store.Layer}
    (hstore : store.Holds d place layers left) (hnumbered : store.nextId.toNat ≤ 1 + 2 * writes)
    (hlists : ∀ entry, Store.Lists layers entry → allowed entry)
    (hvalue : ∀ key, (KeyMap.newest? (layers.map Prod.snd) key).join = value key) :
    { p with store, memtable := {} }.Holds d allowed value writes := by
  refine ⟨KeyMap.sorted_nil, fun _ h => absurd h List.not_mem_nil,
    fun _ h => absurd h List.not_mem_nil, ?_, place, layers, left, hstore, hlists, fun key => ?_⟩
  · show store.nextId.toNat + 0 ≤ 1 + 2 * writes
    omega
  · rw [KeyMap.newest?_cons, ← hvalue key]
    rfl

/-- Flushing and merging change no value. -/
theorem ends_flush (h : p.Holds d allowed value writes) (hw : 1 + 2 * writes < UInt64.size) :
    Ends flush (p, d)
      (fun _ t => t.1.name = p.name ∧ t.1.Holds t.2 allowed value writes ∧ Disk.Later d t.2)
      fun e _ => Strained d allowed e := by
  unfold flush
  refine ends_get_bind ?_
  dsimp only
  by_cases hempty : p.memtable.isEmpty = true
  · rw [if_pos hempty]
    exact Ends.pure ⟨rfl, h, Disk.later_refl d⟩
  rw [if_neg hempty]
  obtain ⟨place, layers, left, hstore, hlists, hvalue⟩ := h.tables
  have hnumbered := h.numbered
  rw [if_neg hempty] at hnumbered
  have hlists₁ : ∀ entry, Store.Lists ((p.store.nextId, p.memtable.entries) :: layers) entry →
      allowed entry := Store.forall_lists_cons.2 ⟨h.memory, hlists⟩
  refine Ends.bind ((ends_onStore (Store.ends_flush hstore (by omega)
    (Bool.eq_false_iff.2 hempty) h.sorted)).imp_fail ?_) ?_
  · rintro e _ ⟨s₁, d₁, -, he⟩
    exact (he h.fits).mono (Disk.later_refl d) h.memory
  rintro summary _ ⟨s₁, d₁, rfl, hdir, hnext, hstore₁, hlater⟩
  dsimp only at hdir hnext hstore₁ hlater
  have hnext₁ : s₁.nextId.toNat = p.store.nextId.toNat + 1 := by
    rw [hnext]
    exact Store.toNat_add_one (by omega)
  refine ends_update_bind (ends_get_bind ?_)
  dsimp only
  by_cases hmany : p.maxTables < s₁.tables.length
  · rw [if_pos hmany]
    have hroom : s₁.nextId.toNat + 1 < UInt64.size := by omega
    refine Ends.bind ((ends_onStore (Store.ends_compact hstore₁ hroom)).imp_fail ?_) ?_
    · rintro e _ ⟨s₂, d₂, -, he⟩
      exact he.mono hlater hlists₁
    rintro output _ ⟨s₂, d₂, rfl, hdir₂, hlater₂, layers₂, left₂, hstore₂, -, hlayers⟩
    dsimp only at hdir₂ hlater₂ hstore₂ hlayers
    refine Ends.pure ⟨rfl, holds_of_store hstore₂ ?_ (fun entry hentry => ?_) fun key => ?_,
      hlater.trans hlater₂⟩
    · rcases hlayers with ⟨hsame, -⟩ | ⟨hsucc, -⟩
      · rw [hsame]
        omega
      · rw [hsucc, Store.toNat_add_one (by omega)]
        omega
    · rcases hlayers with ⟨-, rfl⟩ | ⟨-, hmerged⟩
      · exact hlists₁ entry hentry
      · exact hlists₁ entry (hmerged.lists hentry)
    · rw [← hvalue key]
      rcases hlayers with ⟨-, rfl⟩ | ⟨-, hmerged⟩
      · rfl
      · exact hmerged.join_newest? key
  · rw [if_neg hmany]
    exact Ends.pure ⟨rfl, holds_of_store hstore₁ (by omega) hlists₁ hvalue, hlater⟩

theorem Holds.write {key : Bytes} {v : Option Bytes} (h : p.Holds d allowed value writes)
    (hfit : Fits (key, v)) (hallowed : allowed (key, v)) :
    { p with memtable := p.memtable.write key v }.Holds d allowed (record value (key, v))
      (writes + 1) := by
  obtain ⟨place, layers, left, hstore, hlists, hvalue⟩ := h.tables
  refine ⟨h.sorted.insert, KeyMap.forall_mem_insert hfit h.fits,
    KeyMap.forall_mem_insert hallowed h.memory, ?_, place, layers, left, hstore, hlists, fun k => ?_⟩
  · have hnumbered := h.numbered
    have hle : (if (p.memtable.write key v).isEmpty then 0 else 2) ≤ 2 := by split <;> omega
    show p.store.nextId.toNat + (if (p.memtable.write key v).isEmpty then 0 else 2) ≤ _
    omega
  · have hk := hvalue k
    rw [KeyMap.newest?_cons] at hk
    show (KeyMap.newest? (p.memtable.entries.insert key v :: _) k).join = if k = key then v else value k
    rw [KeyMap.newest?_cons, KeyMap.find?_insert]
    by_cases hkey : k = key
    · rw [if_pos hkey, if_pos hkey]
      rfl
    · rw [if_neg hkey, if_neg hkey]
      exact hk

/-- A write is recorded, whatever else it sets off. -/
theorem ends_write {key : Bytes} {v : Option Bytes} (h : p.Holds d allowed value writes)
    (hfit : Fits (key, v)) (hallowed : allowed (key, v)) (hw : 1 + 2 * (writes + 1) < UInt64.size) :
    Ends (write key v) (p, d)
      (fun _ t => t.1.name = p.name ∧ t.1.Holds t.2 allowed (record value (key, v)) (writes + 1) ∧
        Disk.Later d t.2)
      fun e _ => Strained d allowed e := by
  have hwritten := h.write hfit hallowed
  unfold write
  refine ends_update_bind (ends_get_bind ?_)
  dsimp only
  by_cases hfull : (p.memtable.write key v).isFull p.writeBufferBytes = true
  · rw [if_pos hfull]
    exact ends_flush hwritten hw
  · rw [if_neg hfull]
    exact Ends.pure ⟨rfl, hwritten, Disk.later_refl d⟩

/-- The writes of a batch. -/
def puts (batch : List (Bytes × Bytes)) : List Entry := batch.map fun pair => (pair.1, some pair.2)

theorem ends_putBatch {batch : List (Bytes × Bytes)} (h : p.Holds d allowed value writes)
    (hfits : ∀ entry ∈ puts batch, Fits entry) (hallowed : ∀ entry ∈ puts batch, allowed entry)
    (hw : 1 + 2 * (writes + batch.length) < UInt64.size) :
    Ends (putBatch batch) (p, d)
      (fun _ t => t.1.name = p.name ∧
        t.1.Holds t.2 allowed ((puts batch).foldl record value) (writes + batch.length) ∧
        Disk.Later d t.2)
      fun e _ => Strained d allowed e := by
  induction batch generalizing p d value writes with
  | nil => exact Ends.pure ⟨rfl, h, Disk.later_refl d⟩
  | cons pair batch ih =>
    rw [puts, List.map_cons, List.forall_mem_cons] at hfits hallowed
    rw [List.length_cons] at hw
    refine Ends.bind (ends_write h hfits.1 hallowed.1 (by omega)) ?_
    rintro _ ⟨p₁, d₁⟩ ⟨hname, hholds, hlater⟩
    dsimp only at hname hholds hlater
    refine (ih hholds hfits.2 hallowed.2 (by omega)).mono ?_ fun e _ he =>
      he.mono hlater fun _ h => h
    rintro _ t ⟨hname₁, hholds₁, hlater₁⟩
    refine ⟨hname₁.trans hname, ?_, hlater.trans hlater₁⟩
    rw [List.length_cons, Nat.add_comm batch.length 1, ← Nat.add_assoc]
    exact hholds₁

theorem Holds.frame (h : p.Holds d allowed value writes) (hf : Disk.Frame d d' fun _ => False) :
    p.Holds d' allowed value writes := by
  obtain ⟨place, layers, left, hstore, htables⟩ := h.tables
  exact { h with tables := ⟨place, layers, left, hstore.frame hf, htables⟩ }

/-- A scan gives each key that has a value, once and in order; only a fault of the disk keeps it from
that. -/
theorem ends_scan (h : p.Holds d allowed value writes) :
    Ends scan (p, d)
      (fun merge t => t.1.name = p.name ∧ t.1.Holds t.2 allowed value writes ∧ Disk.Later d t.2 ∧
        ∃ entries, KeyMap.Sorted entries ∧
          (∀ key, KeyMap.find? entries key = (value key).map some) ∧
          merge.toList (Source.feed t.2) = entries.map .ok)
      fun e _ => Faulted d e := by
  obtain ⟨place, layers, left, hstore, -, hvalue⟩ := h.tables
  unfold scan
  refine Ends.bind ((ends_onStore (Store.ends_allCursors hstore.opens hstore.shows)).imp_fail ?_) ?_
  · rintro e _ ⟨_, _, -, d', -, -, he⟩
    exact he
  rintro cursors _ ⟨_, d₁, rfl, d₁', ht, hframe, hreads⟩
  cases ht
  refine ends_get_bind ?_
  dsimp only
  have hgives : List.Forall₂ (Source.Gives d₁)
      (.listed p.memtable.entries :: cursors.map .table)
      (p.memtable.entries :: layers.map Prod.snd) :=
    .cons rfl (List.forall₂_map_left_iff.2 hreads)
  have hsorted : ∀ run ∈ p.memtable.entries :: layers.map Prod.snd, KeyMap.Sorted run :=
    List.forall_mem_cons.2 ⟨h.sorted, Store.sorted_of_shows hstore.shows⟩
  obtain ⟨m, hstart, hlist⟩ := Merge.exists_start (Source.feed_tracks d₁) false hgives hsorted
  refine Ends.ofExcept (fun merge hmerge => ?_) fun e he => ?_
  · rw [hstart] at hmerge
    cases hmerge
    refine ⟨rfl, h.frame hframe, hframe.toLater, _, KeyMap.sorted_merged, fun key => ?_,
      hlist _ _ (Source.feed_tracks d₁) fun _ _ hg => hg⟩
    rw [KeyMap.find?_merged_false, hvalue key]
  · rw [hstart] at he
    cases he

end Partition

end Spillway
