import Spillway.Engine
import Spillway.Proofs.Partition

/-!
# Partitions of an engine

`Engine.Holds` says what values the keys have in a partition of an open engine, and which entries it may
have. A partition that is created has none (`ends_createPartition`), also where an older one of the name
left its files; writes then change it as if it were one map. A write that is accepted fails only for a
fault of the disk or for a table of those entries that is too large (`Interrupted`).
-/

namespace Spillway.Engine

open Table

variable {e : Engine} {d d' : Disk} {name : String} {allowed : Entry → Prop}
  {value value' : Bytes → Option Bytes} {writes : Nat} {p : Partition} {path : Path} {α : Type}

/-- An error of an engine for which the disk is to blame: it failed, or a table of allowed entries was
too large for it. -/
def Interrupted (d : Disk) (allowed : Entry → Prop) (err : Error) : Prop :=
  ∃ task cause, err = .engine task cause ∧ Strained d allowed cause

theorem Interrupted.mono {err : Error} {allowed' : Entry → Prop} (h : Interrupted d' allowed err)
    (hd : Disk.Later d d') (hallowed : ∀ entry, allowed entry → allowed' entry) :
    Interrupted d allowed' err := by
  obtain ⟨task, cause, rfl, hc⟩ := h
  exact ⟨task, cause, rfl, hc.mono hd hallowed⟩

/-- The engine is open, the keys of its partition have these values, and no entry is in the partition
that is not allowed. -/
structure Holds (e : Engine) (d : Disk) (name : String) (allowed : Entry → Prop)
    (value : Bytes → Option Bytes) (writes : Nat) : Prop where
  opened : e.closed = false
  partition : ∃ p, e.partition? name = some p ∧ p.Holds d allowed value writes

/-- Keys that have a value are no longer than a table entry may be. -/
theorem Holds.length_le {key v : Bytes} (h : e.Holds d name allowed value writes)
    (hv : value key = some v) : key.length ≤ maxEntryBytes := by
  obtain ⟨p, -, hholds⟩ := h.partition
  exact hholds.length_le hv

/-! ## Partitions by name -/

theorem name_of_partition? (h : e.partition? name = some p) : p.name = name :=
  of_decide_eq_true (List.find?_some (p := fun p : Partition => decide (p.name = name)) h)

theorem partition?_of_nil (h : e.partitions = []) (name : String) : e.partition? name = none := by
  show e.partitions.find? _ = none
  rw [h, List.find?_nil]

/-- The engine with one more partition. -/
def enlist (e : Engine) (p : Partition) : Engine :=
  { e with partitions := p :: e.partitions, nextSerial := e.nextSerial + 1 }

theorem partition?_enlist (e : Engine) (p : Partition) (other : String) :
    (e.enlist p).partition? other = if p.name = other then some p else e.partition? other := by
  show (p :: e.partitions).find? _ = _
  rw [List.find?_cons]
  by_cases h : p.name = other
  · rw [decide_eq_true h, if_pos h]
  · rw [decide_eq_false h, if_neg h]
    rfl

/-- A partition that is replaced is found in its new state. -/
theorem partition?_replace {p' : Partition} (h : e.partition? name = some p)
    (hn : p'.name = p.name) : (e.replace p').partition? name = some p' := by
  have hname : p'.name = name := hn.trans (name_of_partition? h)
  have hsame : ((fun q : Partition => decide (q.name = name)) ∘
      fun q => if q.name = p'.name then p' else q) = fun q => decide (q.name = name) := by
    funext q
    show decide ((if q.name = p'.name then p' else q).name = name) = decide (q.name = name)
    split
    · next hq => rw [hq]
    · rfl
  show (e.partitions.map fun q => if q.name = p'.name then p' else q).find? _ = some p'
  rw [List.find?_map, hsame]
  show (e.partition? name).map _ = some p'
  rw [h, Option.map_some, if_pos hn.symm]

theorem ends_ensureOpen {fail : Error → Engine × Disk → Prop} (h : e.closed = false) :
    Ends ensureOpen (e, d) (fun _ t => t = (e, d)) fail := by
  unfold ensureOpen
  refine ends_get_bind ?_
  dsimp only
  rw [h]
  exact Ends.pure rfl

theorem ends_lookup {fail : Error → Engine × Disk → Prop} (h : e.Holds d name allowed value writes) :
    Ends (lookup name) (e, d)
      (fun p t => t = (e, d) ∧ e.partition? name = some p ∧ p.Holds d allowed value writes) fail := by
  obtain ⟨p, hp, hholds⟩ := h.partition
  unfold lookup
  refine Ends.bind (ends_ensureOpen h.opened) ?_
  rintro _ _ rfl
  refine ends_get_bind ?_
  dsimp only
  rw [hp]
  exact Ends.pure ⟨rfl, rfl, hholds⟩

/-- An action of the partition acts on the values that the engine holds, and an error of it is one of
the engine in this task. -/
theorem ends_onPartition {act : PartitionM α} {post : α → Partition × Disk → Prop}
    {fail : StorageError → Prop} (h : e.Holds d name allowed value writes)
    (hact : ∀ p, p.Holds d allowed value writes →
      Ends act (p, d) (fun a t => t.1.name = p.name ∧ post a t) fun err _ => fail err)
    (task : Task) :
    Ends (onPartition task name act) (e, d)
      (fun a t => t.1.closed = false ∧ ∃ p, t.1.partition? name = some p ∧ post a (p, t.2))
      fun err _ => ∃ cause, err = .engine task cause ∧ fail cause := by
  unfold onPartition
  refine Ends.bind (ends_lookup h) ?_
  rintro p _ ⟨rfl, hp, hholds⟩
  refine Ends.adaptExcept (Ends.zoom ((hact p hholds).mono ?_ fun err _ he => ⟨err, rfl, he⟩))
  rintro a ⟨p', d'⟩ ⟨hname, hpost⟩
  exact ⟨h.opened, p', partition?_replace hp hname, hpost⟩

/-- An action that strains the disk interrupts the engine. -/
theorem ends_onPartition_strained {act : PartitionM α} {post : α → Partition × Disk → Prop}
    (h : e.Holds d name allowed value writes)
    (hact : ∀ p, p.Holds d allowed value writes →
      Ends act (p, d) (fun a t => t.1.name = p.name ∧ post a t) fun err _ => Strained d allowed err)
    (task : Task) :
    Ends (onPartition task name act) (e, d)
      (fun a t => t.1.closed = false ∧ ∃ p, t.1.partition? name = some p ∧ post a (p, t.2))
      fun err _ => Interrupted d allowed err :=
  (ends_onPartition h hact task).imp_fail fun _ _ he => ⟨task, he⟩

/-! ## Creating a partition -/

/-- A directory is gone when it was removed, unless it was not found. -/
theorem ends_removeDirectory (honest : some .notFound ∉ d.faults) (path : Path) :
    Ends (removeDirectory path) d
      (fun _ d' => d' = d.tick.dropTree (Disk.target path) ∨
        d' = d.tick ∧ d.find path = .error .notFound)
      fun err d' => d' = d.tick ∧ Hindered d path err := by
  unfold removeDirectory
  refine Ends.bind (Ends.outcome (M := fun x d' => match x with
    | .ok _ => d' = d.tick.dropTree (Disk.target path)
    | .error cause => d' = d.tick ∧ (d.find path = .error cause ∨
        cause = .notADirectory ∧ d.Obstructed [] path.parts ∨ some cause ∈ d.faults))
    (Disk.ends_removeTree path)) ?_
  rintro x d' hx
  cases x with
  | ok _ => exact Ends.pure (.inl hx)
  | error cause =>
    obtain ⟨rfl, hcause⟩ := hx
    by_cases hmissing : cause = .notFound
    · subst hmissing
      rcases hcause with hfind | ⟨hne, -⟩ | hfault
      · exact Ends.pure (.inr ⟨rfl, hfind⟩)
      · cases hne
      · exact absurd hfault honest
    · have hthrow : Hindered d path (.io cause) := by
        rcases hcause with hfind | ⟨-, hob⟩ | hfault
        · exact ⟨cause, rfl, .inl ((Disk.find_error hfind).resolve_left hmissing)⟩
        · exact ⟨cause, rfl, .inl hob⟩
        · exact ⟨cause, rfl, .inr hfault⟩
      cases cause with
      | notFound => exact absurd rfl hmissing
      | _ => exact Ends.throw ⟨rfl, hthrow⟩

/-- A partition of the name can be created: nothing is in the way to its directory, and where that
way does not lead to it there is nothing of it. The disk never says of what is there that it is
not. -/
structure Ready (e : Engine) (d : Disk) (name : String) : Prop where
  opened : e.closed = false
  named : isPartitionName name = true
  unused : e.partition? name = none
  honest : some .notFound ∉ d.faults
  clear : ¬ d.Obstructed [] (partitionDir e.root name).parts
  vacant : d.find (partitionDir e.root name) = .error .notFound →
    ∀ x ∈ d.nodes, ¬ Disk.target (partitionDir e.root name) <+: x.1
  outside : ∀ p ∈ Disk.trail [] (partitionDir e.root name).parts,
    Disk.target (partitionDir e.root name) <+: p → p = Disk.target (partitionDir e.root name)

theorem ends_during {act : DiskM StorageError α} {post : α → Disk → Prop} {fail : StorageError → Prop}
    (task : Task) (h : Ends act d post fun err _ => fail err) :
    Ends (during task act) (e, d) (fun a t => ∃ d', t = (e, d') ∧ post a d')
      fun err _ => ∃ cause, err = .engine task cause ∧ fail cause :=
  Ends.adaptExcept (ends_onDisk (h.mono (fun _ d' hp => ⟨d', rfl, hp⟩) fun cause _ he =>
    ⟨cause, rfl, he⟩))

/-- The directory of a partition that can be created holds nothing once it was cleared. -/
theorem ends_clear (h : e.Ready d name) :
    Ends (removeDirectory (partitionDir e.root name)) d
      (fun _ d₁ => Store.Found d₁ (partitionDir e.root name) [] ∧
        ¬ d₁.Obstructed [] (partitionDir e.root name).parts ∧ Disk.Later d d₁)
      fun err _ => Faulted d err := by
  have houtside := h.outside
  have hvacant := h.vacant
  have hclear := h.clear
  generalize partitionDir e.root name = dir at houtside hvacant hclear
  refine (ends_removeDirectory h.honest dir).mono (fun _ d₁ hd₁ => ?_) fun err _ he =>
    he.2.faulted hclear
  refine ⟨Store.found_of_vacant (fun x hx hpre => ?_) houtside, fun hob => ?_, ?_⟩
  · rcases hd₁ with rfl | ⟨rfl, hfind⟩
    · exact (Disk.mem_dropTree.1 hx).2 hpre
    · exact hvacant hfind x hx hpre
  · refine hclear (hob.mono fun p id hid => ?_)
    rcases hd₁ with rfl | ⟨rfl, -⟩
    · exact Disk.node?_of_dropTree hid
    · exact hid
  · rcases hd₁ with rfl | ⟨rfl, -⟩
    · exact (Disk.frame_tick d).toLater.trans (Disk.later_dropTree _ _)
    · exact (Disk.frame_tick d).toLater

/-- Once its directory was cleared, a partition is opened empty. -/
theorem ends_clear_load (allowed : Entry → Prop) (h : e.Ready d name) :
    Ends (do
      removeDirectory (partitionDir e.root name)
      Partition.load e.nextSerial name (partitionDir e.root name) e.config) d
      (fun p d' => p.name = name ∧ p.Holds d' allowed (fun _ => none) 0 ∧ Disk.Later d d')
      fun err _ => Faulted d err := by
  refine Ends.bind (ends_clear h) ?_
  rintro _ d₁ ⟨hfound, hclear, hlater⟩
  refine (Partition.ends_load allowed hfound).mono ?_ fun err _ he => (he.faulted hclear).mono hlater
  rintro p d₂ ⟨hname, hholds, hlater₂⟩
  exact ⟨hname, hholds, hlater.trans hlater₂⟩

/-- A partition that is created is empty; only a fault of the disk can keep it from being created. -/
theorem ends_createPartition (allowed : Entry → Prop) (h : e.Ready d name) :
    Ends (createPartition name) (e, d)
      (fun _ t => t.1.Holds t.2 name allowed (fun _ => none) 0 ∧ Disk.Later d t.2)
      fun err _ => ∃ cause, err = .engine (.createPartition name) cause ∧ Faulted d cause := by
  unfold createPartition
  refine Ends.bind (ends_ensureOpen h.opened) ?_
  rintro _ _ rfl
  unfold checkName
  rw [if_pos h.named]
  refine Ends.bind (M := fun _ t => t = (e, d)) (Ends.pure rfl) ?_
  rintro _ _ rfl
  refine ends_get_bind ?_
  dsimp only
  rw [h.unused]
  dsimp only
  refine Ends.bind (ends_during (.createPartition name) (ends_clear_load allowed h)) ?_
  rintro p _ ⟨d', rfl, hname, hholds, hlater⟩
  have hfind : (e.enlist p).partition? name = some p := by rw [partition?_enlist, if_pos hname]
  exact ends_modify_bind (Ends.pure ⟨⟨h.opened, p, hfind, hholds⟩, hlater⟩)

/-! ## Entries -/

/-- Bytes that an engine accepts as a key or a value. -/
def Storable (bytes : Bytes) : Prop := bytes ≠ [] ∧ bytes.length ≤ maxEntryBytes

/-- An entry that an engine accepts. -/
def Accepts (entry : Entry) : Prop := Storable entry.1 ∧ ∀ v ∈ entry.2, Storable v

theorem fits_of_accepts {entry : Entry} (h : Accepts entry) : Fits entry := by
  obtain ⟨key, v⟩ := entry
  cases v with
  | none => exact Nat.max_le.2 ⟨h.1.2, Nat.zero_le _⟩
  | some v => exact Nat.max_le.2 ⟨h.1.2, (h.2 v rfl).2⟩

theorem ends_checkBytes {s : Engine × Disk} (part : Part) (bytes : Bytes) :
    Ends (ofExcept (checkBytes part bytes)) s (fun _ t => t = s ∧ Storable bytes)
      fun _ t => t = s ∧ ¬ Storable bytes := by
  unfold checkBytes
  by_cases hempty : bytes = []
  · rw [if_pos hempty]
    exact Ends.throw ⟨rfl, fun h => h.1 hempty⟩
  · rw [if_neg hempty]
    by_cases hlong : maxEntryBytes < bytes.length
    · rw [if_pos hlong]
      exact Ends.throw ⟨rfl, fun h => absurd h.2 (Nat.not_le.2 hlong)⟩
    · rw [if_neg hlong]
      exact Ends.pure ⟨rfl, hempty, Nat.not_lt.1 hlong⟩

theorem ends_checkBatch {s : Engine × Disk} (batch : List (Bytes × Bytes)) :
    Ends (ofExcept (checkBatch batch)) s
      (fun _ t => t = s ∧ ∀ entry ∈ Partition.puts batch, Accepts entry)
      fun _ t => t = s ∧ ¬ ∀ entry ∈ Partition.puts batch, Accepts entry := by
  induction batch with
  | nil => exact Ends.pure ⟨rfl, fun _ h => absurd h List.not_mem_nil⟩
  | cons pair batch ih =>
    obtain ⟨key, v⟩ := pair
    have hpair : (∀ entry ∈ Partition.puts ((key, v) :: batch), Accepts entry) ↔
        Accepts (key, some v) ∧ ∀ entry ∈ Partition.puts batch, Accepts entry :=
      List.forall_mem_cons
    rw [hpair, checkBatch]
    refine Ends.ofExcept_bind (Ends.bind ((ends_checkBytes .key key).imp_fail
      fun _ _ hn => ⟨hn.1, fun ha => hn.2 ha.1.1⟩) ?_)
    rintro _ _ ⟨rfl, hkey⟩
    refine Ends.ofExcept_bind (Ends.bind ((ends_checkBytes .value v).imp_fail
      fun _ _ hn => ⟨hn.1, fun ha => hn.2 (ha.1.2 v rfl)⟩) ?_)
    rintro _ _ ⟨rfl, hv⟩
    refine ih.mono ?_ fun _ _ hn => ⟨hn.1, fun ha => hn.2 ha.2⟩
    rintro _ _ ⟨rfl, hrest⟩
    exact ⟨rfl, ⟨hkey, fun _ hmem => Option.mem_some.1 hmem ▸ hv⟩, hrest⟩

/-- A value is put at a key, unless the engine refuses them. -/
theorem ends_put {key v : Bytes} (h : e.Holds d name allowed value writes)
    (hallowed : allowed (key, some v)) (hw : 1 + 2 * (writes + 1) < UInt64.size) :
    Ends (put name key v) (e, d)
      (fun _ t => t.1.Holds t.2 name allowed (record value (key, some v)) (writes + 1) ∧
        Disk.Later d t.2)
      fun err t => Interrupted d allowed err ∨ t = (e, d) ∧ ¬ Accepts (key, some v) := by
  unfold put
  refine Ends.bind ((ends_checkBytes .key key).imp_fail fun _ _ hn =>
    .inr ⟨hn.1, fun ha => hn.2 ha.1⟩) ?_
  rintro _ _ ⟨rfl, hkey⟩
  refine Ends.bind ((ends_checkBytes .value v).imp_fail fun _ _ hn =>
    .inr ⟨hn.1, fun ha => hn.2 (ha.2 v rfl)⟩) ?_
  rintro _ _ ⟨rfl, hv⟩
  have hfits : Fits (key, some v) := fits_of_accepts ⟨hkey, fun _ hmem => Option.mem_some.1 hmem ▸ hv⟩
  refine Ends.bind ((ends_onPartition_strained h (fun p hp =>
    Partition.ends_write hp hfits hallowed hw) _).imp_fail fun _ _ he => .inl he) ?_
  rintro _ ⟨e₁, d₁⟩ ⟨hopened, p, hp, hholds, hlater⟩
  exact ends_modify ⟨⟨hopened, p, hp, hholds⟩, hlater⟩

theorem ends_putBatch {batch : List (Bytes × Bytes)} (h : e.Holds d name allowed value writes)
    (hallowed : ∀ entry ∈ Partition.puts batch, allowed entry)
    (hw : 1 + 2 * (writes + batch.length) < UInt64.size) :
    Ends (putBatch name batch) (e, d)
      (fun _ t => t.1.Holds t.2 name allowed ((Partition.puts batch).foldl record value)
        (writes + batch.length) ∧ Disk.Later d t.2)
      fun err t => Interrupted d allowed err ∨
        t = (e, d) ∧ ¬ ∀ entry ∈ Partition.puts batch, Accepts entry := by
  unfold putBatch
  refine Ends.bind ((ends_checkBatch batch).imp_fail fun _ _ hn => .inr hn) ?_
  rintro _ _ ⟨rfl, haccepts⟩
  refine Ends.bind ((ends_onPartition_strained h (fun p hp => Partition.ends_putBatch hp
    (fun entry hmem => fits_of_accepts (haccepts entry hmem)) hallowed hw) _).imp_fail
      fun _ _ he => .inl he) ?_
  rintro _ ⟨e₁, d₁⟩ ⟨hopened, p, hp, hholds, hlater⟩
  exact ends_modify_bind (Ends.pure ⟨⟨hopened, p, hp, hholds⟩, hlater⟩)

theorem ends_delete {key : Bytes} (h : e.Holds d name allowed value writes)
    (hallowed : allowed (key, none)) (hw : 1 + 2 * (writes + 1) < UInt64.size) :
    Ends (delete name key) (e, d)
      (fun _ t => t.1.Holds t.2 name allowed (record value (key, none)) (writes + 1) ∧ Disk.Later d t.2)
      fun err t => Interrupted d allowed err ∨ t = (e, d) ∧ ¬ Accepts (key, none) := by
  unfold delete
  refine Ends.bind ((ends_checkBytes .key key).imp_fail fun _ _ hn =>
    .inr ⟨hn.1, fun ha => hn.2 ha.1⟩) ?_
  rintro _ _ ⟨rfl, hkey⟩
  have hfits : Fits (key, none) := fits_of_accepts ⟨hkey, fun _ hmem => nomatch hmem⟩
  refine (ends_onPartition_strained h (fun p hp => Partition.ends_write hp hfits hallowed hw) _).mono
    ?_ fun _ _ he => .inl he
  rintro _ ⟨e₁, d₁⟩ ⟨hopened, p, hp, hholds, hlater⟩
  exact ⟨⟨hopened, p, hp, hholds⟩, hlater⟩

theorem ends_flush (h : e.Holds d name allowed value writes) (hw : 1 + 2 * writes < UInt64.size) :
    Ends (flush name) (e, d)
      (fun _ t => t.1.Holds t.2 name allowed value writes ∧ Disk.Later d t.2)
      fun err _ => Interrupted d allowed err := by
  refine (ends_onPartition_strained h (fun p hp => Partition.ends_flush hp hw) _).imp ?_
  rintro _ ⟨e₁, d₁⟩ ⟨hopened, p, hp, hholds, hlater⟩
  exact ⟨⟨hopened, p, hp, hholds⟩, hlater⟩

/-- A lookup changes nothing, and fails only for keys that no engine accepts. -/
theorem ends_find (h : e.Holds d name allowed value writes) (key : Bytes) :
    Ends (find name key) (e, d) (fun found t => found = value key ∧ t = (e, d) ∧ Storable key)
      fun _ t => t = (e, d) ∧ ¬ Storable key := by
  unfold find
  refine Ends.bind (ends_checkBytes .key key) ?_
  rintro _ _ ⟨rfl, hkey⟩
  refine Ends.bind (ends_lookup h) ?_
  rintro p _ ⟨rfl, -, hholds⟩
  refine ends_get_bind ?_
  dsimp only
  rw [hholds.find key]
  exact Ends.pure ⟨rfl, rfl, hkey⟩

/-- A scan gives the values of all keys that have one, in order; only a fault of the disk keeps it from
that. -/
theorem ends_scan (h : e.Holds d name allowed value writes) :
    Ends (scan name) (e, d)
      (fun scan t => t.1.Holds t.2 name allowed value writes ∧ Disk.Later d t.2 ∧
        ∃ pairs : KeyMap Bytes, KeyMap.Sorted pairs ∧ (∀ key, pairs.find? key = value key) ∧
          scan.toList t.2 = pairs.map .ok)
      fun err _ => ∃ cause, err = .engine (.scan name) cause ∧ Faulted d cause := by
  unfold scan
  refine Ends.bind (ends_onPartition h (fun p hp => Partition.ends_scan hp) _) ?_
  rintro merge ⟨e₁, d₁⟩ ⟨hopened, p, hp, hholds, hlater, entries, hsorted, hfind, hlist⟩
  refine Ends.pure ⟨⟨hopened, p, hp, hholds⟩, hlater,
    entries.map fun entry => (entry.1, entry.2.getD []), ?_, fun key => ?_, ?_⟩
  · exact hsorted.map fun v => v.getD []
  · rw [KeyMap.find?_map fun v : Option Bytes => v.getD [], hfind key]
    cases value key <;> rfl
  · show (merge.toList (Source.feed d₁)).map (Scan.item name) = _
    rw [hlist, List.map_map, List.map_map]
    rfl

end Spillway.Engine
