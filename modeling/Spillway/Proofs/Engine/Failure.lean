import Spillway.Proofs.Engine.Snapshot

/-!
# Writes that fail

A write is recorded in the memtable before anything is flushed, and a memtable is only given up when
its table is open. So whatever the disk fails to do while a write is flushed or tables are merged,
lookups answer as if the write had been applied, and a flush takes nothing back (`failed_write`).
-/

namespace Spillway

variable {d : Disk} {place : Location}

/-! ## Other faults to come -/

/-- What is to come does not change what tables hold. -/
theorem Store.Serves.withFaults {s : Store} {layers : List Store.Layer} {left : List UInt64}
    {clean : Prop} (h : s.Serves d place layers left clean) (faults : List (Option IoError)) :
    s.Serves { d with faults } place layers left clean :=
  { h with
    opens := h.opens.mono fun _ hreaches => hreaches
    shows := h.shows.imp fun _ _ hshows => { hshows with } }

theorem Partition.Serves.withFaults {p : Partition} {value : Bytes → Option Bytes} {uses : Nat}
    {clean : Prop} (h : p.Serves d place value uses clean) (faults : List (Option IoError)) :
    p.Serves { d with faults } place value uses clean := by
  obtain ⟨layers, hstore, hvalue⟩ := h.tables
  exact { h with tables := ⟨layers, hstore.withFaults faults, hvalue⟩ }

namespace Engine

open Table

variable {e e' e₀ : Engine} {d' d₀ d₁ : Disk} {name : String} {root : Path} {task : Task}
  {cause : StorageError} {p p' : Partition}

theorem Member.withFaults {uses : Nat} {clean : Prop} {value : Bytes → Option Bytes}
    (h : Member root d uses clean name p value) (faults : List (Option IoError)) :
    Member root { d with faults } uses clean name p value :=
  { h with serves := h.serves.withFaults faults }

/-- An open engine finds what the partition finds. -/
theorem find_eq {key : Bytes} {found : Option Bytes} (hopen : e.closed = false)
    (hp : e.partition? name = some p) (hkey : checkBytes .key key = .ok ())
    (hfind : p.find d key = .ok found) : find name key (e, d) = .ok found (e, d) := by
  have hends : Ends (find name key) (e, d) (fun a t => a = found ∧ t = (e, d)) fun _ _ => False := by
    unfold find
    refine ends_checked (fun _ => ?_) fun err herr => by rw [hkey] at herr; cases herr
    refine Ends.bind ((ends_lookup_or name e d).imp_fail ?_) ?_
    · intro _ _ ⟨_, hmissing, _⟩
      simp [hopen, hp] at hmissing
    · intro q t ⟨ht, _, hq⟩
      cases hp.symm.trans hq
      subst ht
      refine ends_get_bind ?_
      dsimp only
      rw [hfind]
      exact Ends.pure ⟨rfl, rfl⟩
  obtain ⟨_, _, hrun, rfl, rfl⟩ := hends.exists_ok fun _ _ h => h
  exact hrun

/-! ## The partition that fails -/

/-- What a call does in the partition it writes to. -/
def Write.act : Write → PartitionM Unit
  | put key v => Partition.put key v
  | putBatch batch => Partition.putBatch batch
  | delete key => Partition.delete key
  | flush => Partition.flush

/-- The entries that a call recorded although it failed: all it had to write, or those of a batch up to
the one that could not be flushed. -/
def Write.Recorded (p : Partition) (d : Disk) (cause : StorageError) (t : Partition × Disk) :
    Write → List Entry → Prop
  | putBatch batch, recorded => Partition.Stopped p d batch recorded cause t
  | write, recorded => recorded = write.entries

/-- A call failed in its partition, and changed nothing else in the engine. -/
def FailedIn (name : String) (act : PartitionM Unit) (e : Engine) (d : Disk) (err : Error)
    (t : Engine × Disk) : Prop :=
  ∃ p p' task cause, e.partition? name = some p ∧ e.closed = false ∧
    act (p, d) = .error cause (p', t.2) ∧ err = .engine task cause ∧ t.1 = e.replace p'

theorem ends_onPartition_failedIn (task : Task) (name : String) (act : PartitionM Unit) (e : Engine)
    (d : Disk) :
    Ends (onPartition task name act) (e, d) (fun _ _ => True)
      fun err t => (∃ argument, err = .invalidArgument argument) ∨ FailedIn name act e d err t := by
  unfold onPartition
  refine Ends.bind ((ends_lookup_or name e d).imp_fail fun err t he => .inl he.2.2) ?_
  intro p t ⟨ht, hopen, hp⟩
  subst ht
  refine Ends.adaptExcept (Ends.zoom ((Ends.trivial act (p, d)).run.mono ?_ ?_))
  · intro _ _ _
    trivial
  · intro cause t ⟨hact, _⟩
    exact .inr ⟨p, t.1, task, cause, hp, hopen, hact, rfl, rfl⟩

/-- A call that writes is refused, or it fails in its partition. -/
theorem ends_run_failedIn (write : Write) (name : String) (e : Engine) (d : Disk) :
    Ends (write.run name) (e, d) (fun _ _ => True)
      fun err t => (∃ argument, err = .invalidArgument argument) ∨
        write.check = .ok () ∧ FailedIn name write.act e d err t := by
  have hact (task : Task) (hcheck : write.check = .ok ()) :=
    (ends_onPartition_failedIn task name write.act e d).imp_fail fun err t he =>
      he.imp_right fun he => And.intro hcheck he
  cases write with
  | put key v =>
    show Ends (put name key v) _ _ _
    rw [put_eq]
    refine ends_checked (fun hcheck => ?_) fun err he => .inl (checkBatch_error he)
    exact Ends.bind (hact _ hcheck) fun _ _ _ => ends_modify trivial
  | putBatch batch =>
    refine Ends.bind (M := fun _ _ => True) ?_ fun _ _ _ => Ends.pure trivial
    refine ends_checked (fun hcheck => ?_) fun err he => .inl (checkBatch_error he)
    exact Ends.bind (hact _ hcheck) fun _ _ _ => ends_modify_bind (Ends.pure trivial)
  | delete key =>
    exact ends_checked (fun hcheck => hact _ hcheck) fun err he => .inl (checkBytes_error he)
  | flush => exact hact _ rfl

/-- The entries that a call writes fit tables when it was not refused. -/
theorem fits_of_check {write : Write} (h : write.check = .ok ()) :
    ∀ entry ∈ write.entries, Fits entry := by
  intro entry hentry
  cases write with
  | put key v => exact fits_of_accepts (accepts_of_checkBatch h entry hentry)
  | putBatch batch => exact fits_of_accepts (accepts_of_checkBatch h entry hentry)
  | delete key =>
    rw [Write.entries, List.mem_singleton] at hentry
    subst hentry
    exact fits_of_accepts ⟨storable_of_checkBytes h, fun _ hnone => absurd hnone (Option.not_mem_none _)⟩
  | flush => exact absurd hentry List.not_mem_nil

/-- What a call recorded before it failed counts, and nothing else changed in the partition. -/
theorem Write.failed_act {write : Write} {value : Bytes → Option Bytes} {uses : Nat}
    (h : p.Serves d place value uses False) (hcheck : write.check = .ok ())
    (hw : 1 + 2 * (uses + write.cost) < UInt64.size) {t : Partition × Disk}
    (hact : write.act (p, d) = .error cause t) :
    p.Step place t.1 d t.2 ∧ ∃ recorded, write.Recorded p d cause t recorded ∧
      t.1.Serves t.2 place (recorded.foldl record value) (uses + write.cost) False := by
  have hfits := fits_of_check hcheck
  cases write with
  | put key v =>
    obtain ⟨hstep, hserves, -⟩ :=
      (h.ends_write False.elim (hfits _ List.mem_cons_self) hw).of_error hact
    exact ⟨hstep, _, rfl, hserves⟩
  | putBatch batch =>
    obtain ⟨hstep, -, recorded, hstopped, hserves⟩ :=
      (h.ends_putBatch False.elim hfits hw).of_error hact
    exact ⟨hstep, recorded, hstopped, hserves⟩
  | delete key =>
    obtain ⟨hstep, hserves, -⟩ :=
      (h.ends_write False.elim (hfits _ List.mem_cons_self) hw).of_error hact
    exact ⟨hstep, _, rfl, hserves⟩
  | flush =>
    obtain ⟨hstep, hserves, -⟩ := (h.ends_flush False.elim hw).of_error hact
    exact ⟨hstep, _, rfl, hserves⟩

/-- A write that the disk fails, at any point and with any faults, loses nothing. In any state that calls
lead to, whether they succeed, are refused or fail, lookups in the partition answer afterwards as if
the write had been applied, or as before if it was a flush; of a batch the entries count up to the one
that could not be flushed. No bytes are counted as written, and all other partitions answer as before. -/
theorem failed_write {config : Config} {disposable : Bool} {before : List Call} {write : Write}
    {faults : List (Option IoError)} (hs : d.Sound) (honest : some .notFound ∉ d.faults)
    (hroot : Disk.Downward root) (hstart : start root config disposable d = .ok e₀ d₀)
    (hbefore : afterAll before (e₀, d₀) = (e, d₁))
    (hfail : write.run name (e, { d₁ with faults }) = .error (.engine task cause) (e', d'))
    (hroom : 1 + 2 * (totalCost before + write.cost) < UInt64.size) :
    ∃ p p' recorded value, e.partition? name = some p ∧ e'.partition? name = some p' ∧
      write.Recorded p { d₁ with faults } cause (p', d') recorded ∧
      (∀ key, p.find d₁ key = .ok (value key)) ∧
      (∀ key, p'.find d' key = .ok (recorded.foldl record value key)) ∧
      (∀ key, checkBytes .key key = .ok () →
        find name key (e', d') = .ok (recorded.foldl record value key) (e', d')) ∧
      e'.bytesWritten = e.bytesWritten ∧
      ∀ other q, other ≠ name → e.partition? other = some q →
        e'.partition? other = some q ∧ ∀ key, q.find d' key = q.find d₁ key := by
  obtain ⟨hstands₀, -, -⟩ := stands_of_start hs honest hroot hstart
  have hbound : 1 + 2 * (0 + totalCost before) < UInt64.size := by omega
  obtain ⟨⟨r, hstands⟩, -⟩ := hstands₀.afterAll (t := (e₀, d₀)) hbound
  rw [hbefore, Nat.zero_add] at hstands
  dsimp only at hstands
  obtain ⟨argument, hrefused⟩ | ⟨hcheck, p, p', task', cause', hp, hopen, hact, herr, he'⟩ :=
    (ends_run_failedIn write name e { d₁ with faults }).of_error hfail
  · cases hrefused
  cases herr
  dsimp only at hact he'
  subst he'
  obtain ⟨value, -, hmember⟩ := hstands.value_of_partition? hp
  obtain ⟨hstep, recorded, hrecorded, hserves⟩ :=
    Write.failed_act (hmember.serves.withFaults faults) hcheck hroom hact
  have hp' : (e.replace p').partition? name = some p' := partition?_replace hp hstep.name
  refine ⟨p, p', recorded, value, hp, hp', hrecorded, hmember.serves.find, hserves.find,
    fun key hkey => ?_, rfl, fun other q hother hq => ?_⟩
  · exact find_eq hopen hp' hkey (hserves.find key)
  · obtain ⟨hq', hspares⟩ := (step_replace hp hstep).spared other q hother hq
    obtain ⟨value', -, hmember'⟩ := hstands.value_of_partition? hq
    refine ⟨hq', fun key => ?_⟩
    rw [hmember'.serves.find key]
    exact ((hmember'.withFaults faults).spares hstands.downward hspares).serves.find key

def beforeFailure : List Call := [.create "p", .write "p" (.put [1] [7])]

/-- An engine with one table, on a disk that will fail to read the second entry of the next merge. -/
def failing : Engine × Disk :=
  ((afterAll beforeFailure started).1,
    { (afterAll beforeFailure started).2 with
      faults := List.replicate 8 none ++ [some .storageFull] })

theorem fails_failing : Ends ((Write.put [2] [8]).run "p") failing (fun _ _ => False)
    fun err _ => err = .engine (.put "p") (.io .storageFull) := by decide +kernel

/-- The write whose merge fails is found, and so is what was there before. -/
theorem failed_write_failing :
    ∃ e' d', (Write.put [2] [8]).run "p" failing =
        .error (.engine (.put "p") (.io .storageFull)) (e', d') ∧
      e'.bytesWritten = 1 ∧ find "p" [1] (e', d') = .ok (some [7]) (e', d') ∧
      find "p" [2] (e', d') = .ok (some [8]) (e', d') := by
  have hold : ((afterAll beforeFailure started).1.partition? "p").map
      (fun p => (p.find (afterAll beforeFailure started).2 [1]).toOption) = some (some (some [7])) := by
    decide +kernel
  have hbytes : (afterAll beforeFailure started).1.bytesWritten = 1 := by decide +kernel
  have hroom : 1 + 2 * (totalCost beforeFailure + (Write.put [2] [8]).cost) < UInt64.size := by
    decide +kernel
  cases hrun : (Write.put [2] [8]).run "p" failing with
  | ok a t => exact (fails_failing.of_ok hrun).elim
  | error err t =>
    obtain rfl := fails_failing.of_error hrun
    obtain ⟨p, p', recorded, value, hp, -, hrecorded, hvalue, -, hfind, hsame, -⟩ := failed_write
      (fun _ hx => absurd hx List.not_mem_nil) List.not_mem_nil downward_eager start_started
      (Prod.eta (afterAll beforeFailure started)).symm hrun hroom
    obtain rfl : recorded = [([2], some [8])] := hrecorded
    have hone : value [1] = some [7] := by
      rw [hp, Option.map_some, hvalue [1]] at hold
      simpa [Except.toOption] using hold
    refine ⟨t.1, t.2, rfl, hsame.trans hbytes, ?_, hfind [2] (by decide)⟩
    rw [hfind [1] (by decide), ← hone]
    rfl

end Engine

end Spillway
