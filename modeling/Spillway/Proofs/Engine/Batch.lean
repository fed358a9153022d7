import Spillway.Proofs.Engine.Aftermath

/-!
# Batches

A batch does to an engine what its entries do that are put one by one: the engine and the disk are
the same afterwards, with all tables that were written and merged on the way
(`putBatch_eq_ok_iff`). A batch that is refused changes nothing, also when only its last entry is bad
(`batch_is_its_puts`).
-/

namespace Spillway

section Leaves

variable {ε ε' σ α : Type} {act : EStateM ε σ α} {s : σ} {P : σ → Prop}

theorem Leaves.outcome (h : Leaves act s P) :
    Leaves (outcome act : EStateM ε' σ (Except ε α)) s P := Ends.outcome (M := fun _ => P) h

/-- An action on the disk leaves the rest of a state as it is. -/
theorem leaves_onDisk {τ : Type} (act : DiskM ε α) (s : τ) (d : Disk) :
    Leaves (onDisk act : OnDisk τ ε α) (s, d) (·.1 = s) :=
  ends_onDisk ((Ends.trivial act d).mono (fun _ _ _ => rfl) fun _ _ _ => rfl)

end Leaves

namespace Partition

variable {p : Partition} {d : Disk}

/-! ## Names -/

theorem leaves_onStore_name {α : Type} (act : StoreM α) (p : Partition) (d : Disk) :
    Leaves (onStore act) (p, d) (·.1.name = p.name) :=
  Ends.zoom ((Ends.trivial act (p.store, d)).mono (fun _ _ _ => rfl) fun _ _ _ => rfl)

theorem leaves_flush_name (p : Partition) (d : Disk) : Leaves flush (p, d) (·.1.name = p.name) := by
  unfold flush
  refine ends_get_bind ?_
  dsimp only
  cases p.memtable.isEmpty with
  | true => exact Leaves.pure rfl
  | false =>
    refine (leaves_onStore_name _ p d).bind fun _ t ht => ?_
    refine ends_update_bind (ends_get_bind ?_)
    dsimp only
    split
    · exact (leaves_onStore_name _ _ _).result.imp fun _ ht' => ht'.trans ht
    · exact Leaves.pure ht

/-- A write keeps the name of the partition. -/
theorem leaves_write_name (key : Bytes) (v : Option Bytes) (p : Partition) (d : Disk) :
    Leaves (write key v) (p, d) (·.1.name = p.name) := by
  unfold write
  refine ends_update_bind (ends_get_bind ?_)
  dsimp only
  split
  · exact leaves_flush_name _ d
  · exact Leaves.pure rfl

theorem leaves_putBatch_name (batch : List (Bytes × Bytes)) (p : Partition) (d : Disk) :
    Leaves (putBatch batch) (p, d) (·.1.name = p.name) := by
  induction batch generalizing p d with
  | nil => exact Leaves.pure rfl
  | cons pair batch ih =>
    refine (leaves_write_name pair.1 (some pair.2) p d).bind fun _ t ht => ?_
    exact (ih t.1 t.2).imp fun _ ht' => ht'.trans ht

end Partition

namespace Engine

variable {e e₀ : Engine} {d d₀ d₁ : Disk} {name : String} {p p' : Partition} {root : Path}
  {batch : List (Bytes × Bytes)} {n : Nat} {t : Engine × Disk}

/-! ## One partition of each name -/

/-- No two partitions have the same name. -/
def Distinct (e : Engine) : Prop := (e.partitions.map (·.name)).Nodup

theorem names_replace (e : Engine) (p : Partition) :
    (e.replace p).partitions.map (·.name) = e.partitions.map (·.name) := by
  show (e.partitions.map fun q => if q.name = p.name then p else q).map (·.name) = _
  rw [List.map_map]
  refine List.map_congr_left fun q _ => ?_
  show (if q.name = p.name then p else q).name = q.name
  split
  · next hq => exact hq.symm
  · rfl

theorem Distinct.replace (h : e.Distinct) (p : Partition) : (e.replace p).Distinct := by
  rw [Distinct, names_replace]
  exact h

theorem replace_replace (hname : p'.name = p.name) : (e.replace p).replace p' = e.replace p' := by
  have hpartitions : (e.partitions.map fun q => if q.name = p.name then p else q).map
      (fun q => if q.name = p'.name then p' else q) =
      e.partitions.map fun q => if q.name = p'.name then p' else q := by
    rw [List.map_map]
    refine List.map_congr_left fun q _ => ?_
    simp only [Function.comp_apply]
    split <;> simp_all
  simp only [Engine.replace, hpartitions]

/-- Replacing a partition by itself changes nothing when it is the only one of its name. -/
theorem Distinct.replace_self (h : e.Distinct) (hp : e.partition? name = some p) :
    e.replace p = e := by
  have hpartitions : (e.partitions.map fun q => if q.name = p.name then p else q) = e.partitions := by
    refine (List.map_congr_left fun q hq => ?_).trans (List.map_id _)
    split
    · next hsame => exact (List.inj_on_of_nodup_map h hq (List.mem_of_find?_eq_some hp) hsame).symm
    · rfl
  simp only [Engine.replace, hpartitions]

theorem Distinct.onPartition {α : Type} (h : e.Distinct) (task : Task) (name : String)
    (act : PartitionM α) (d : Disk) :
    Leaves (Engine.onPartition task name act) (e, d) (·.1.Distinct) := by
  unfold Engine.onPartition
  refine Ends.leaves_bind ((ends_lookup_or name e d).imp_fail fun _ _ he => he.1 ▸ h) ?_
  rintro p _ ⟨rfl, -, -⟩
  refine Ends.adaptExcept (Ends.zoom ((Ends.trivial act (p, d)).mono ?_ ?_))
  · exact fun _ t _ => h.replace t.1
  · exact fun _ t _ => h.replace t.1

theorem Distinct.write (h : e.Distinct) (write : Write) (name : String) (d : Disk) :
    Leaves (write.run name) (e, d) (·.1.Distinct) := by
  cases write with
  | put key v =>
    show Leaves (put name key v) _ _
    rw [put_eq]
    refine ends_checked (fun _ => ?_) fun _ _ => h
    exact (h.onPartition _ name _ d).bind fun _ _ ht => ends_modify ht
  | putBatch batch =>
    refine Leaves.discarded (ends_checked (fun _ => ?_) fun _ _ => h)
    exact (h.onPartition _ name _ d).bind fun _ _ ht => ends_modify_bind (Ends.pure ht)
  | delete key => exact ends_checked (fun _ => h.onPartition _ name _ d) fun _ _ => h
  | flush => exact h.onPartition _ name _ d

/-- A partition is only made under a name that is not in use. -/
theorem Distinct.createPartition (h : e.Distinct) (name : String) (d : Disk) :
    Leaves (createPartition name) (e, d) (·.1.Distinct) := by
  unfold Engine.createPartition
  refine Ends.leaves_bind ((ends_ensureOpen_or e d).imp_fail fun _ _ he => he.1 ▸ h) ?_
  rintro _ _ ⟨rfl, -⟩
  refine ends_checked (fun _ => ends_get_bind ?_) fun _ _ => h
  dsimp only
  cases hunused : e.partition? name with
  | some p => exact Leaves.pure h
  | none =>
    have hload : Ends (do
        removeDirectory (partitionDir e.root name)
        Partition.load e.nextSerial name (partitionDir e.root name) e.config) d
        (fun p _ => p.name = name) fun _ _ => True := by
      refine Ends.bind (Ends.trivial _ _) fun _ d' _ => ?_
      exact Ends.bind (Ends.trivial _ d') fun _ _ _ => Ends.pure rfl
    refine Ends.leaves_bind (Ends.adaptExcept ((ends_onDisk_exists hload).imp_fail ?_)) ?_
    · rintro _ _ ⟨d', rfl, -⟩
      exact h
    · rintro p _ ⟨d', rfl, hname⟩
      refine ends_modify_bind (Ends.pure (List.nodup_cons.2 ⟨?_, h⟩))
      rintro hmem
      obtain ⟨q, hq, hsame⟩ := List.mem_map.1 hmem
      exact List.find?_eq_none.1 hunused q hq (decide_eq_true (hsame.trans hname))

theorem Distinct.dropPartition (h : e.Distinct) (name : String) (d : Disk) :
    Leaves (dropPartition name) (e, d) (·.1.Distinct) := by
  unfold Engine.dropPartition
  refine ends_get_bind ?_
  dsimp only
  cases e.closed with
  | true => exact Ends.pure h
  | false =>
    cases e.partition? name with
    | none => exact Ends.pure h
    | some p =>
      have hleft : (e.without name (p :: e.retired)).Distinct :=
        h.sublist (List.filter_sublist.map _)
      refine ends_modify_bind ?_
      have hremoved : Leaves (outcome (during (.dropPartition name) (removeDirectory p.dir)) :
          EngineM (Except Error Unit)) (e.without name (p :: e.retired), d) (·.1.Distinct) :=
        Leaves.outcome (Ends.adaptExcept ((leaves_onDisk _ _ d).imp fun _ ht => ht ▸ hleft))
      refine hremoved.bind fun removed t ht => ends_get_bind ?_
      split
      · refine (Leaves.outcome ((leaves_onDisk _ _ t.2).imp fun _ ht' => ht' ▸ ht)).bind ?_
        intro _ t' ht'
        exact Ends.ofExcept (fun _ _ => ht') fun _ _ => ht'
      · exact Ends.ofExcept (fun _ _ => ht) fun _ _ => ht

theorem Distinct.close (h : e.Distinct) (d : Disk) : Leaves close (e, d) (·.1.Distinct) := by
  unfold Engine.close
  refine ends_get_bind ?_
  dsimp only
  cases e.closed with
  | true => exact Ends.pure h
  | false =>
    refine ends_modify_bind ?_
    refine Leaves.result (Leaves.outcome ((leaves_onDisk _ _ d).imp fun _ ht => ?_))
    rw [ht]
    exact List.nodup_nil

/-- Every call leaves partitions of different names. -/
theorem Distinct.run (h : e.Distinct) (call : Call) (d : Disk) :
    Leaves call.run (e, d) (·.1.Distinct) := by
  cases call with
  | create name => exact (h.createPartition name d).discarded
  | drop name => exact h.dropPartition name d
  | write name change => exact h.write change name d
  | find name key => exact ((leaves_found name key e d).imp fun t ht => ht ▸ h).discarded
  | scan name => exact (h.onPartition _ name _ d).result.discarded
  | close => exact h.close d

/-- An engine that calls lead to has no two partitions of one name. -/
theorem distinct_afterAll {config : Config} {disposable : Bool} {before : List Call}
    (hstart : start root config disposable d = .ok e₀ d₀)
    (hbefore : afterAll before (e₀, d₀) = (e, d₁)) : e.Distinct := by
  have hnew : Ends (start root config disposable) d (fun e _ => e.Distinct) fun _ _ => True := by
    refine (ends_start (Ends.trivial (prepareRoot root) d)).mono ?_ fun _ _ _ => trivial
    rintro _ _ ⟨rfl, -⟩
    exact List.nodup_nil
  have hcalls : ∀ calls, (afterAll calls (e₀, d₀)).1.Distinct := by
    intro calls
    induction calls using List.reverseRecOn with
    | nil => exact hnew.of_ok hstart
    | append_singleton calls call ih =>
      rw [afterAll_concat]
      exact (ih.run call _).after
  have hdistinct := hcalls before
  rwa [hbefore] at hdistinct

/-! ## Entries one by one -/

theorem checkBytes_eq_ok_iff (part : Part) {bytes : Bytes} :
    checkBytes part bytes = .ok () ↔ Storable bytes := by
  unfold checkBytes Storable
  split
  · simp_all
  · split <;> simp_all

theorem checkBatch_eq_ok_iff :
    checkBatch batch = .ok () ↔ ∀ pair ∈ batch, Storable pair.1 ∧ Storable pair.2 := by
  induction batch with
  | nil => simp [checkBatch]
  | cons pair batch ih =>
    rw [List.forall_mem_cons, ← ih, ← checkBytes_eq_ok_iff .key,
      ← checkBytes_eq_ok_iff .value, checkBatch]
    cases checkBytes .key pair.1 with
    | error _ => simp [bind, Except.bind]
    | ok _ => cases checkBytes .value pair.2 <;> simp [bind, Except.bind]

/-- Puts the entries of a batch one after the other. -/
def putEach (name : String) (batch : List (Bytes × Bytes)) : EngineM Unit :=
  batch.forM fun (key, value) => put name key value

/-- The bytes of the values of a batch. -/
def payload (batch : List (Bytes × Bytes)) : Nat := (batch.map fun pair => pair.2.length).sum

theorem foldl_payload (batch : List (Bytes × Bytes)) (total : Nat) :
    batch.foldl (fun total (_, value) => total + value.length) total = total + payload batch := by
  induction batch generalizing total with
  | nil => rfl
  | cons pair batch ih => simp [ih, payload, Nat.add_assoc]

/-- The engine with values of so many more bytes counted. -/
def count (e : Engine) (bytes : Nat) : Engine := { e with bytesWritten := e.bytesWritten + bytes }

theorem count_count (e : Engine) (bytes more : Nat) :
    (e.count bytes).count more = e.count (bytes + more) := by
  simp only [count, Nat.add_assoc]

theorem count_replace (e : Engine) (bytes : Nat) (p : Partition) :
    (e.count bytes).replace p = (e.replace p).count bytes := rfl

/-- An action of a partition succeeded in an engine, and values of so many bytes were counted. -/
def Performs (e : Engine) (d : Disk) (p : Partition) (act : PartitionM Unit) (bytes : Nat)
    (t : Engine × Disk) : Prop :=
  ∃ p', act (p, d) = .ok ⟨⟩ (p', t.2) ∧ t.1 = (e.replace p').count bytes

section There

variable (hopen : e.closed = false) (hp : e.partition? name = some p)

include hopen hp

theorem lookup_eq_ok (d : Disk) : lookup name (e, d) = .ok p (e, d) := by
  have hends : Ends (lookup name) (e, d) (fun q t => t = (e, d) ∧ q = p) fun _ _ => False := by
    refine (ends_lookup_or name e d).mono ?_ ?_
    · rintro q t ⟨ht, -, hq⟩
      exact ⟨ht, Option.some.inj (hq.symm.trans hp)⟩
    · rintro _ t ⟨-, hmissing, -⟩
      simp [hopen, hp] at hmissing
  obtain ⟨q, t, hrun, rfl, rfl⟩ := hends.exists_ok fun _ _ h => h
  exact hrun

theorem onPartition_eq_ok_iff (task : Task) {act : PartitionM Unit} :
    onPartition task name act (e, d) = .ok ⟨⟩ t ↔
      ∃ p', act (p, d) = .ok ⟨⟩ (p', t.2) ∧ t.1 = e.replace p' := by
  obtain ⟨e', d'⟩ := t
  rw [onPartition, bind_eq_ok_iff, lookup_eq_ok hopen hp]
  constructor
  · rintro ⟨q, s, hs, hrun⟩
    cases hs
    unfold EStateM.adaptExcept zoom at hrun
    cases hact : act (p, d) with
    | ok _ t =>
      simp only [hact] at hrun
      cases hrun
      exact ⟨t.1, rfl, rfl⟩
    | error cause t =>
      simp only [hact] at hrun
      cases hrun
  · rintro ⟨p', hact, rfl⟩
    refine ⟨p, (e, d), rfl, ?_⟩
    unfold EStateM.adaptExcept zoom
    simp only [hact]

/-- Counting bytes comes after the action, and always succeeds. -/
theorem onPartition_count_eq_ok_iff (task : Task) {act : PartitionM Unit} {bytes : Nat} :
    (onPartition task name act >>= fun _ =>
      update fun e => e.count bytes) (e, d) = .ok ⟨⟩ t ↔
      e.Performs d p act bytes t := by
  rw [bind_eq_ok_iff]
  constructor
  · rintro ⟨_, ⟨e₁, d₁⟩, hrun, hcount⟩
    obtain ⟨p', hact, rfl⟩ := (onPartition_eq_ok_iff hopen hp task).1 hrun
    cases hcount
    exact ⟨p', hact, rfl⟩
  · rintro ⟨p', hact, ht⟩
    refine ⟨⟨⟩, (e.replace p', t.2), (onPartition_eq_ok_iff hopen hp task).2 ⟨p', hact, rfl⟩, ?_⟩
    rw [← Prod.eta t, ht]
    rfl

theorem put_eq_ok_iff {key v : Bytes} (hcheck : checkBatch [(key, v)] = .ok ()) :
    put name key v (e, d) = .ok ⟨⟩ t ↔ e.Performs d p (Partition.put key v) v.length t := by
  rw [put_eq, hcheck]
  exact onPartition_count_eq_ok_iff hopen hp _

/-- A batch that passes its check does what it does in the partition, and gives its length. -/
theorem putBatch_eq_ok_iff (hcheck : checkBatch batch = .ok ()) :
    putBatch name batch (e, d) = .ok n t ↔
      n = batch.length ∧ e.Performs d p (Partition.putBatch batch) (payload batch) t := by
  have hrun : putBatch name batch (e, d) = ((onPartition (.putBatch name) name
      (Partition.putBatch batch) >>= fun _ => update fun e => e.count (payload batch)) >>= fun _ =>
        pure batch.length) (e, d) := by
    rw [putBatch, hcheck, foldl_payload, Nat.zero_add, bind_assoc]
    rfl
  rw [hrun, bind_eq_ok_iff, ← onPartition_count_eq_ok_iff hopen hp (.putBatch name)]
  constructor
  · rintro ⟨_, s, hcount, hlength⟩
    cases hlength
    exact ⟨rfl, hcount⟩
  · rintro ⟨rfl, hcount⟩
    exact ⟨⟨⟩, t, hcount, rfl⟩

end There

/-- Putting entries one by one does in the partition what they do together. -/
theorem putEach_eq_ok_iff (hdistinct : e.Distinct) (hopen : e.closed = false)
    (hp : e.partition? name = some p) (hcheck : checkBatch batch = .ok ()) :
    putEach name batch (e, d) = .ok ⟨⟩ t ↔
      e.Performs d p (Partition.putBatch batch) (payload batch) t := by
  induction batch generalizing e d p with
  | nil =>
    have hsame : (e.replace p).count (payload []) = e := by rw [hdistinct.replace_self hp]; rfl
    constructor
    · intro hrun
      cases hrun
      exact ⟨p, rfl, hsame.symm⟩
    · rintro ⟨p', hact, ht⟩
      cases hact
      rw [← Prod.eta t, ht, hsame]
      rfl
  | cons pair batch ih =>
    rw [checkBatch_eq_ok_iff, List.forall_mem_cons, ← checkBatch_eq_ok_iff] at hcheck
    have hput {s : Engine × Disk} := put_eq_ok_iff (d := d) (t := s) hopen hp
      (checkBatch_eq_ok_iff.2 (List.forall_mem_singleton.2 hcheck.1))
    have hrest {p₁ : Partition} {d₁ : Disk}
        (hact : Partition.put pair.1 pair.2 (p, d) = .ok ⟨⟩ (p₁, d₁)) :
        putEach name batch ((e.replace p₁).count pair.2.length, d₁) = .ok ⟨⟩ t ↔
          ∃ p', Partition.putBatch batch (p₁, d₁) = .ok ⟨⟩ (p', t.2) ∧
            t.1 = (e.replace p').count (payload (pair :: batch)) := by
      have hname : p₁.name = p.name := (Partition.leaves_write_name ..).of_ok hact
      have hdistinct₁ : ((e.replace p₁).count pair.2.length).Distinct := hdistinct.replace p₁
      rw [ih hdistinct₁ hopen (partition?_replace hp hname) hcheck.2]
      refine exists_congr fun p' => and_congr_right fun hacts => ?_
      have hname' : p'.name = p₁.name := (Partition.leaves_putBatch_name ..).of_ok hacts
      rw [count_replace, replace_replace hname', count_count]
      rfl
    show (put name pair.1 pair.2 >>= fun _ => putEach name batch) (e, d) = .ok ⟨⟩ t ↔ _
    rw [bind_eq_ok_iff]
    constructor
    · rintro ⟨_, ⟨e₁, d₁⟩, hrun, hmore⟩
      obtain ⟨p₁, hact, rfl⟩ := hput.1 hrun
      obtain ⟨p', hacts, ht⟩ := (hrest hact).1 hmore
      exact ⟨p', bind_eq_ok_iff.2 ⟨⟨⟩, (p₁, d₁), hact, hacts⟩, ht⟩
    · rintro ⟨p', hall, ht⟩
      obtain ⟨_, ⟨p₁, d₁⟩, hact, hacts⟩ := bind_eq_ok_iff.1 hall
      exact ⟨⟨⟩, ((e.replace p₁).count pair.2.length, d₁), hput.2 ⟨p₁, hact, rfl⟩,
        (hrest hact).2 ⟨p', hacts, ht⟩⟩

/-! ## Batches that are accepted, and those that are not -/

/-- The engine is open and has the partition, and it accepts all entries of the batch. -/
def Admits (e : Engine) (name : String) (batch : List (Bytes × Bytes)) : Prop :=
  e.closed = false ∧ e.hasPartition name = true ∧
    ∀ pair ∈ batch, Storable pair.1 ∧ Storable pair.2

/-- A batch that is not accepted is refused, and changes nothing. -/
theorem putBatch_refused (h : ¬ e.Admits name batch) (d : Disk) : ∃ argument,
    putBatch name batch (e, d) = .error (.invalidArgument argument) (e, d) := by
  have hends : Ends (putBatch name batch) (e, d) (fun _ _ => False)
      fun err t => t = (e, d) ∧ ∃ argument, err = .invalidArgument argument := by
    unfold putBatch
    refine ends_checked (fun hcheck => ?_) fun _ hrefused => ⟨rfl, checkBatch_error hrefused⟩
    refine Ends.bind (M := fun _ _ => False) ?_ fun _ _ hno => hno.elim
    unfold onPartition
    refine Ends.bind ((ends_lookup_or name e d).imp_fail fun _ _ he => ⟨he.1, he.2.2⟩) ?_
    rintro p _ ⟨-, hopen, hp⟩
    exact absurd ⟨hopen, Option.isSome_iff_exists.2 ⟨p, hp⟩, checkBatch_eq_ok_iff.1 hcheck⟩ h
  cases hrun : putBatch name batch (e, d) with
  | ok n t => exact (hends.of_ok hrun).elim
  | error err t =>
    obtain ⟨rfl, argument, rfl⟩ := hends.of_error hrun
    exact ⟨argument, rfl⟩

/-- A batch that is accepted is written, unless the disk strains at it. -/
theorem Stands.ends_putBatch_admitted {r : Registry} {uses : Nat} {clean : Prop}
    (h : e.Stands d r uses clean) (hadmits : e.Admits name batch)
    (hw : 1 + 2 * (uses + batch.length) < UInt64.size) :
    Ends (putBatch name batch) (e, d) (fun _ _ => True)
      fun err _ => Blamed (e.Strains name (Partition.puts batch) d) err := by
  obtain ⟨-, hthere, hstorable⟩ := hadmits
  have hcheck := checkBatch_eq_ok_iff.2 hstorable
  have hends : Ends (putBatch name batch) (e, d) _ _ := h.ends_putBatch hw
  refine hends.mono (fun _ _ _ => trivial) ?_
  rintro err t (⟨-, hrefused | ⟨-, hnone, -⟩⟩ | ⟨hblamed, -⟩)
  · rw [Write.check, hcheck] at hrefused
    cases hrefused
  · rw [hasPartition, h.partition?_eq_none.2 hnone] at hthere
    cases hthere
  · exact hblamed

/-- In any engine that calls lead to, whether they succeed, are refused or fail, a batch whose entries
are all accepted does what they do one by one: on any disk it succeeds when they do, gives their number
and leaves the same engine and the same disk. Where the calls left the disk, only the disk can keep it
from that. Any other batch is refused, with the engine and the disk as they were. -/
theorem batch_is_its_puts {config : Config} {disposable : Bool} {before : List Call}
    (hstart : start root config disposable d = .ok e₀ d₀)
    (hbefore : afterAll before (e₀, d₀) = (e, d₁)) (name : String) (batch : List (Bytes × Bytes)) :
    (e.Admits name batch → ∀ d' n t, putBatch name batch (e, d') = .ok n t ↔
      n = batch.length ∧ putEach name batch (e, d') = .ok ⟨⟩ t) ∧
    (e.Admits name batch → d.Sound → some .notFound ∉ d.faults → Disk.Downward root →
      1 + 2 * (totalCost before + batch.length) < UInt64.size →
      Ends (putBatch name batch) (e, d₁)
        (fun n t => n = batch.length ∧ putEach name batch (e, d₁) = .ok ⟨⟩ t)
        fun err _ => Blamed (e.Strains name (Partition.puts batch) d₁) err) ∧
    (¬ e.Admits name batch → ∀ d', ∃ argument,
      putBatch name batch (e, d') = .error (.invalidArgument argument) (e, d')) := by
  have hsame : e.Admits name batch → ∀ d' n t, putBatch name batch (e, d') = .ok n t ↔
      n = batch.length ∧ putEach name batch (e, d') = .ok ⟨⟩ t := by
    rintro ⟨hopen, hthere, hstorable⟩ d' n t
    obtain ⟨p, hp⟩ := Option.isSome_iff_exists.1 hthere
    have hcheck := checkBatch_eq_ok_iff.2 hstorable
    rw [putBatch_eq_ok_iff hopen hp hcheck,
      putEach_eq_ok_iff (distinct_afterAll hstart hbefore) hopen hp hcheck]
  refine ⟨hsame, fun hadmits hs honest hroot hroom => ?_, putBatch_refused⟩
  obtain ⟨hstands₀, -, -⟩ := stands_of_start hs honest hroot hstart
  have hbound : 1 + 2 * (0 + totalCost before) < UInt64.size := by omega
  obtain ⟨⟨r, hstands⟩, -⟩ := hstands₀.afterAll (t := (e₀, d₀)) hbound
  rw [hbefore, Nat.zero_add] at hstands
  have hends := hstands.ends_putBatch_admitted hadmits hroom
  exact hends.run.mono (fun n t ht => (hsame hadmits d₁ n t).1 ht.1) fun _ _ he => he.2

/-- Each entry of this batch is flushed and merged, one of its keys comes twice and one replaces an older
value. The other batch has one bad entry, the last. -/
theorem batch_is_its_puts_merging :
    (∃ t, putBatch "p" [([2], [8]), ([1], [9]), ([2], [3])] (afterAll beforeFailure started) = .ok 3 t ∧
      putEach "p" [([2], [8]), ([1], [9]), ([2], [3])] (afterAll beforeFailure started) = .ok ⟨⟩ t) ∧
    ∃ argument, putBatch "p" [([2], [8]), ([1], [])] (afterAll beforeFailure started) =
      .error (.invalidArgument argument) (afterAll beforeFailure started) := by
  have hreached := (Prod.eta (afterAll beforeFailure started)).symm
  constructor
  · have hadmits : (afterAll beforeFailure started).1.Admits "p"
        [([2], [8]), ([1], [9]), ([2], [3])] :=
      ⟨by decide +kernel, by decide +kernel, checkBatch_eq_ok_iff.1 rfl⟩
    have hroom : 1 + 2 * (totalCost beforeFailure + 3) < UInt64.size := by decide +kernel
    obtain ⟨-, hwritten, -⟩ := batch_is_its_puts start_started hreached "p"
      [([2], [8]), ([1], [9]), ([2], [3])]
    have hends := hwritten hadmits (fun _ hx => absurd hx List.not_mem_nil) List.not_mem_nil
      downward_eager hroom
    have hsucceeds : succeeds (putBatch "p" [([2], [8]), ([1], [9]), ([2], [3])])
        (afterAll beforeFailure started) = true := by decide +kernel
    obtain ⟨n, t, hrun⟩ := exists_of_succeeds hsucceeds
    obtain ⟨rfl, heach⟩ := hends.of_ok hrun
    exact ⟨t, hrun, heach⟩
  · obtain ⟨-, -, hrefused⟩ := batch_is_its_puts start_started hreached "p" [([2], [8]), ([1], [])]
    refine hrefused ?_ _
    rintro ⟨-, -, hstorable⟩
    exact (hstorable ([1], []) (by simp)).2.1 rfl

end Engine

end Spillway
