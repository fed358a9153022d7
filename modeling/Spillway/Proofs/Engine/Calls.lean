import Spillway.Proofs.Engine.Standing
import Spillway.Proofs.Engine.History

/-!
# Calls on an engine, however they end

What each call does to the registry of an engine that stands. A call is refused, which changes
nothing; it succeeds, which does to the registry what it says; or the disk fails it (`Broken`), which
leaves an engine that still stands, in which nothing changed but the one partition.
-/

namespace Spillway.Engine

open Table
open Function (update_self update_of_ne update_eq_self)

variable {e e' : Engine} {d d' : Disk} {r : Registry} {uses uses' : Nat} {clean : Prop}
  {name other : String} {p : Partition} {value : Bytes → Option Bytes} {path : Path} {α : Type}

/-- The registry after writes to a partition, if there is one. -/
def Registry.write (r : Registry) (name : String) (entries : List Entry) : Registry :=
  Function.update r name ((r name).map (entries.foldl record))

/-- Storage is to blame for an error, with such a fault. -/
def Blamed (fault : StorageError → Prop) (err : Error) : Prop :=
  ∃ task cause, err = .engine task cause ∧ fault cause

/-- The disk failed a call, which leaves anything in the one partition. -/
def Broken (name : String) (e : Engine) (d : Disk) (r : Registry) (uses : Nat)
    (fault : StorageError → Prop) (err : Error) (t : Engine × Disk) : Prop :=
  Blamed fault err ∧ Step name e t.1 d t.2 ∧
    ∃ value?, t.1.Stands t.2 (Function.update r name value?) uses False

/-! ## Partitions by name -/

theorem partition?_replace_of_ne (h : p.name ≠ other) :
    (e.replace p).partition? other = e.partition? other := by
  have hsame : ((fun q : Partition => decide (q.name = other)) ∘
      fun q => if q.name = p.name then p else q) = fun q => decide (q.name = other) := by
    funext q
    show decide ((if q.name = p.name then p else q).name = other) = decide (q.name = other)
    split
    · next hq => rw [hq]
    · rfl
  show (e.partitions.map fun q => if q.name = p.name then p else q).find? _ = e.partitions.find? _
  rw [List.find?_map, hsame]
  cases hfind : e.partitions.find? fun q => decide (q.name = other) with
  | none => rfl
  | some q =>
    have hq : q.name = other := name_of_partition? hfind
    rw [Option.map_some, if_neg fun heq => h (heq.symm.trans hq)]

theorem ends_checked {ε σ : Type} {check : Except ε Unit} {act : EStateM ε σ α} {s : σ}
    {post : α → σ → Prop} {fail : ε → σ → Prop} (hact : check = .ok () → Ends act s post fail)
    (hfail : ∀ err, check = .error err → fail err s) :
    Ends (ofExcept check >>= fun _ => act) s post fail := by
  cases check with
  | ok _ => exact hact rfl
  | error err => exact hfail err rfl

theorem ends_ensureOpen_or (e : Engine) (d : Disk) :
    Ends ensureOpen (e, d) (fun _ t => t = (e, d) ∧ e.closed = false)
      fun err t => t = (e, d) ∧ e.closed = true ∧ ∃ argument, err = .invalidArgument argument := by
  unfold ensureOpen
  refine ends_get_bind ?_
  dsimp only
  cases e.closed with
  | true => exact Ends.throw ⟨rfl, rfl, _, rfl⟩
  | false => exact Ends.pure ⟨rfl, rfl⟩

theorem ends_lookup_or (name : String) (e : Engine) (d : Disk) :
    Ends (lookup name) (e, d)
      (fun p t => t = (e, d) ∧ e.closed = false ∧ e.partition? name = some p)
      fun err t => t = (e, d) ∧ (e.closed = true ∨ e.partition? name = none) ∧
        ∃ argument, err = .invalidArgument argument := by
  unfold lookup
  refine Ends.bind ((ends_ensureOpen_or e d).imp_fail fun err t he =>
    ⟨he.1, .inl he.2.1, he.2.2⟩) ?_
  intro _ t ⟨ht, hopen⟩
  subst ht
  refine ends_get_bind ?_
  dsimp only
  cases hp : e.partition? name with
  | none => exact Ends.throw ⟨rfl, .inr rfl, _, rfl⟩
  | some p => exact Ends.pure ⟨rfl, hopen, rfl⟩

/-- A partition is found by its name; otherwise nothing happens. -/
theorem Stands.ends_lookup (h : e.Stands d r uses clean) (name : String) :
    Ends (lookup name) (e, d)
      (fun p t => t = (e, d) ∧ e.closed = false ∧ e.partition? name = some p ∧
        ∃ value, r name = some value ∧ Member e.root d uses clean name p value)
      fun err t => t = (e, d) ∧ r name = none ∧ ∃ argument, err = .invalidArgument argument := by
  refine (ends_lookup_or name e d).mono ?_ ?_
  · intro p t ⟨ht, hopen, hp⟩
    exact ⟨ht, hopen, hp, h.value_of_partition? hp⟩
  · intro err t ⟨ht, hmissing, hargument⟩
    refine ⟨ht, ?_, hargument⟩
    cases hmissing with
    | inl hclosed => exact h.unused_of_closed hclosed name
    | inr hnone => exact h.partition?_eq_none.1 hnone

/-- An action of a partition is a call on it. -/
theorem step_replace {p' : Partition} (hp : e.partition? name = some p)
    (hs : p.Step (home e.root name) p' d d') : Step name e (e.replace p') d d' := by
  refine ⟨hs.toFrame.confined ?_, rfl, rfl, rfl, fun other hne => ?_⟩
  · intro q ⟨id, hpre⟩
    refine ⟨(List.prefix_append _ _).trans hpre, ?_⟩
    rintro rfl
    have hlength := hpre.length_le
    rw [List.length_append, List.length_singleton] at hlength
    omega
  · exact partition?_replace_of_ne fun heq =>
      hne (heq.symm.trans (hs.name.trans (name_of_partition? hp)))

/-- An engine stands after an action of one of its partitions, with the values that this has then. -/
theorem Stands.replace {p' : Partition} {value' : Bytes → Option Bytes} {clean' : Prop}
    (h : e.Stands d r uses clean) (hopen : e.closed = false) (hp : e.partition? name = some p)
    (hs : p.Step (home e.root name) p' d d') (hu : uses ≤ uses') (hc : clean' → clean)
    (hserves : p'.Serves d' (home e.root name) value' uses' clean') :
    (e.replace p').Stands d' (Function.update r name (some value')) uses' clean' := by
  obtain ⟨value, -, hmember⟩ := h.value_of_partition? hp
  refine h.step (step_replace hp hs) hopen hu hc ?_ fun _ _ => rfl
  rw [partition?_replace hp hs.name]
  exact .some ⟨hmember.named, hs.dir.trans hmember.dir, hserves⟩

/-- What an action of a partition does to it, it does to the registry of the engine. -/
theorem Stands.ends_onPartition {act : PartitionM α} {task : Task} (h : e.Stands d r uses clean)
    (post : α → (Bytes → Option Bytes) → Partition × Disk → Prop) (fault : StorageError → Prop)
    (hu : uses ≤ uses')
    (hact : ∀ p value, e.partition? name = some p → r name = some value →
      p.Serves d (home e.root name) value uses clean →
      Ends act (p, d)
        (fun a t => p.Step (home e.root name) t.1 d t.2 ∧
          ∃ value', t.1.Serves t.2 (home e.root name) value' uses' clean ∧ post a value' t)
        fun cause t => p.Step (home e.root name) t.1 d t.2 ∧
          (∃ value', t.1.Serves t.2 (home e.root name) value' uses' False) ∧ fault cause) :
    Ends (onPartition task name act) (e, d)
      (fun a t => Step name e t.1 d t.2 ∧ ∃ value',
        t.1.Stands t.2 (Function.update r name (some value')) uses' clean ∧
          ∃ p', t.1.partition? name = some p' ∧ post a value' (p', t.2))
      fun err t => t = (e, d) ∧ r name = none ∧ (∃ argument, err = .invalidArgument argument) ∨
        Broken name e d r uses' fault err t := by
  unfold onPartition
  refine Ends.bind ((h.ends_lookup name).imp_fail fun err t he => .inl he) ?_
  rintro p _ ⟨rfl, hopen, hp, value, hvalue, hmember⟩
  refine Ends.adaptExcept (Ends.zoom ((hact p value hp hvalue hmember.serves).mono ?_ ?_))
  · rintro a ⟨p', d'⟩ ⟨hs, value', hserves, hpost⟩
    exact ⟨step_replace hp hs, value', h.replace hopen hp hs hu id hserves, p',
      partition?_replace hp hs.name, hpost⟩
  · rintro cause ⟨p', d'⟩ ⟨hs, ⟨value', hserves⟩, he⟩
    exact .inr ⟨⟨task, cause, rfl, he⟩, step_replace hp hs, some value',
      h.replace hopen hp hs hu False.elim hserves⟩

/-! ## Writing -/

/-- What is checked before a call writes anything. -/
def Write.check : Write → Except Error Unit
  | put key v => checkBatch [(key, v)]
  | putBatch batch => checkBatch batch
  | delete key => checkBytes .key key
  | flush => .ok ()

/-- How many numbers of tables a call may use up, in pairs. -/
def Write.cost : Write → Nat
  | put _ _ => 1
  | putBatch batch => batch.length
  | delete _ => 1
  | flush => 1

theorem checkBytes_error {part : Part} {bytes : Bytes} {err : Error}
    (h : checkBytes part bytes = .error err) : ∃ argument, err = .invalidArgument argument := by
  unfold checkBytes at h
  split at h
  · cases h
    exact ⟨_, rfl⟩
  · split at h
    · cases h
      exact ⟨_, rfl⟩
    · cases h

theorem isPartitionName_of_checkName (h : checkName name = .ok ()) : isPartitionName name = true := by
  by_contra hn
  rw [checkName, if_neg hn] at h
  cases h

theorem checkBatch_error {batch : List (Bytes × Bytes)} {err : Error}
    (h : checkBatch batch = .error err) : ∃ argument, err = .invalidArgument argument := by
  induction batch with
  | nil => cases h
  | cons pair batch ih =>
    obtain ⟨key, v⟩ := pair
    unfold checkBatch at h
    cases hkey : checkBytes .key key with
    | error err' =>
      rw [hkey] at h
      cases h
      exact checkBytes_error hkey
    | ok _ =>
      cases hv : checkBytes .value v with
      | error err' =>
        rw [hkey, hv] at h
        cases h
        exact checkBytes_error hv
      | ok _ =>
        rw [hkey, hv] at h
        exact ih h

theorem Write.check_error {write : Write} {err : Error} (h : write.check = .error err) :
    ∃ argument, err = .invalidArgument argument := by
  cases write with
  | put key v => exact checkBatch_error h
  | putBatch batch => exact checkBatch_error h
  | delete key => exact checkBytes_error h
  | flush => cases h

theorem accepts_of_checkBatch {batch : List (Bytes × Bytes)} (h : checkBatch batch = .ok ()) :
    ∀ entry ∈ Partition.puts batch, Accepts entry :=
  ((ends_checkBatch (s := (eager, {})) batch).of_ok (by rw [h]; rfl)).2

theorem storable_of_checkBytes {part : Part} {bytes : Bytes} (h : checkBytes part bytes = .ok ()) :
    Storable bytes :=
  ((ends_checkBytes (s := (eager, {})) part bytes).of_ok (by rw [h]; rfl)).2

/-- Writes to a partition that is there. -/
theorem Registry.write_of_value {entries : List Entry} (h : r name = some value) :
    r.write name entries = Function.update r name (some (entries.foldl record value)) := by
  rw [Registry.write, h, Option.map_some]

section Writes

variable {key v : Bytes} {batch : List (Bytes × Bytes)}

/-- All entries of the partition of a name are allowed. -/
def Only (name : String) (allowed : Entry → Prop) (e : Engine) (d : Disk) : Prop :=
  ∀ p, e.partition? name = some p → p.Only allowed d

/-- The disk is to blame for an error in writing these entries to the partition of a name: it failed, or a
table of them and of those that were there was too large for it. -/
def Strains (name : String) (entries : List Entry) (e : Engine) (d : Disk) (cause : StorageError) : Prop :=
  ∀ allowed, e.Only name allowed d → (∀ entry ∈ entries, allowed entry) → Strained d allowed cause

theorem Strains.tooLarge {entries : List Entry} {cause : StorageError}
    (h : e.Strains name entries d cause) (hd : d.Reliable) : cause = .io .fileTooLarge :=
  (h (fun _ => True) (fun _ _ => ⟨fun _ _ => trivial, fun _ _ _ _ _ _ => trivial⟩)
    fun _ _ => trivial).tooLarge hd

/-- A call that writes succeeds when its arguments are in order and the partition is there, to which
it adds no entries but its own. -/
def Written (write : Write) (name : String) (e : Engine) (d : Disk) (r : Registry) (uses : Nat)
    (clean : Prop) (t : Engine × Disk) : Prop :=
  write.check = .ok () ∧ r name ≠ none ∧ Step name e t.1 d t.2 ∧
    t.1.Stands t.2 (r.write name write.entries) (uses + write.cost) clean ∧
    ∀ allowed, e.Only name allowed d → (∀ entry ∈ write.entries, allowed entry) →
      t.1.Only name allowed t.2

/-- Otherwise nothing happens, or the disk is to blame. -/
def Unwritten (write : Write) (name : String) (e : Engine) (d : Disk) (r : Registry) (uses : Nat)
    (err : Error) (t : Engine × Disk) : Prop :=
  t = (e, d) ∧ (write.check = .error err ∨
    write.check = .ok () ∧ r name = none ∧ ∃ argument, err = .invalidArgument argument) ∨
  Broken name e d r (uses + write.cost) (e.Strains name write.entries d) err t

/-- What a call does to the partition it writes to. -/
theorem Stands.ends_writing {act : PartitionM Unit} {task : Task} (h : e.Stands d r uses clean)
    (write : Write) (hcheck : write.check = .ok ())
    (hact : ∀ p value, p.Serves d (home e.root name) value uses clean →
      Ends act (p, d)
        (fun _ t => p.Step (home e.root name) t.1 d t.2 ∧ t.1.Serves t.2 (home e.root name)
          (write.entries.foldl record value) (uses + write.cost) clean ∧ p.Adds write.entries d t)
        fun cause t => p.Step (home e.root name) t.1 d t.2 ∧
          (∃ value', t.1.Serves t.2 (home e.root name) value' (uses + write.cost) False) ∧
            p.Strains write.entries d cause) :
    Ends (onPartition task name act) (e, d)
      (fun _ t => Written write name e d r uses clean t) (Unwritten write name e d r uses) := by
  refine (h.ends_onPartition
    (fun _ value' t => (∃ value, r name = some value ∧ value' = write.entries.foldl record value) ∧
      ∃ p, e.partition? name = some p ∧ p.Adds write.entries d t)
    (e.Strains name write.entries d) (Nat.le_add_right uses write.cost)
    fun p value hfind hvalue hp => ?_).mono ?_ ?_
  · exact (hact p value hp).mono
      (fun _ t ⟨hstep, hserves, hadds⟩ => ⟨hstep, _, hserves, ⟨value, hvalue, rfl⟩, p, hfind, hadds⟩)
      fun cause t ⟨hstep, hserves, he⟩ =>
        ⟨hstep, hserves, fun allowed honly => he allowed (honly p hfind)⟩
  · intro _ t ⟨hstep, value', hstands, p', hp', ⟨value, hvalue, heq⟩, p, hp, hadds⟩
    refine ⟨hcheck, by rw [hvalue]; exact nofun, hstep, ?_, fun allowed honly hentries q hq => ?_⟩
    · rwa [Registry.write_of_value hvalue, ← heq]
    · rw [hp', Option.some.injEq] at hq
      exact hq ▸ hadds allowed (honly p hp) hentries
  · rintro err t (⟨ht, hnone, harg⟩ | hbroken)
    · exact .inl ⟨ht, .inr ⟨hcheck, hnone, harg⟩⟩
    · exact .inr hbroken

theorem put_eq (name : String) (key v : Bytes) :
    put name key v = (do
      ofExcept (checkBatch [(key, v)])
      onPartition (.put name) name (Partition.put key v)
      update fun e => { e with bytesWritten := e.bytesWritten + v.length }) := by
  unfold put checkBatch
  cases checkBytes .key key with
  | error err => rfl
  | ok _ => cases checkBytes .value v <;> rfl

theorem Stands.ends_put (h : e.Stands d r uses clean) (hw : 1 + 2 * (uses + 1) < UInt64.size) :
    Ends (put name key v) (e, d) (fun _ t => Written (.put key v) name e d r uses clean t)
      (Unwritten (.put key v) name e d r uses) := by
  rw [put_eq]
  refine ends_checked (fun hcheck => ?_) fun err he => .inl ⟨rfl, .inl he⟩
  have hfits : Fits (key, some v) :=
    fits_of_accepts (accepts_of_checkBatch hcheck _ List.mem_cons_self)
  refine Ends.bind (h.ends_writing (.put key v) hcheck fun p value hp =>
    (hp.ends_write h.reliable hfits hw).imp_fail fun _ t ht => ⟨ht.1, ⟨_, ht.2.1⟩, ht.2.2⟩) ?_
  intro _ t ⟨_, hthere, hstep, hstands, honly⟩
  exact ends_modify ⟨hcheck, hthere, { hstep with }, { hstands with }, honly⟩

theorem Stands.ends_putBatch (h : e.Stands d r uses clean)
    (hw : 1 + 2 * (uses + batch.length) < UInt64.size) :
    Ends (putBatch name batch) (e, d)
      (fun n t => n = batch.length ∧ Written (.putBatch batch) name e d r uses clean t)
      (Unwritten (.putBatch batch) name e d r uses) := by
  unfold putBatch
  refine ends_checked (fun hcheck => ?_) fun err he => .inl ⟨rfl, .inl he⟩
  have hfits : ∀ entry ∈ Partition.puts batch, Fits entry := fun entry hmem =>
    fits_of_accepts (accepts_of_checkBatch hcheck entry hmem)
  refine Ends.bind (h.ends_writing (.putBatch batch) hcheck fun p value hp =>
    (hp.ends_putBatch h.reliable hfits hw).imp_fail fun _ t ⟨hstep, he, _, _, hserves⟩ =>
      ⟨hstep, ⟨_, hserves⟩, he⟩) ?_
  intro _ t ⟨_, hthere, hstep, hstands, honly⟩
  exact ends_modify_bind (Ends.pure ⟨rfl, hcheck, hthere, { hstep with }, { hstands with }, honly⟩)

theorem Stands.ends_delete (h : e.Stands d r uses clean) (hw : 1 + 2 * (uses + 1) < UInt64.size) :
    Ends (delete name key) (e, d) (fun _ t => Written (.delete key) name e d r uses clean t)
      (Unwritten (.delete key) name e d r uses) := by
  unfold delete
  refine ends_checked (fun hcheck => ?_) fun err he => .inl ⟨rfl, .inl he⟩
  have hfits : Fits (key, none) := fits_of_accepts ⟨storable_of_checkBytes hcheck, nofun⟩
  exact h.ends_writing (.delete key) hcheck fun p value hp =>
    (hp.ends_write h.reliable hfits hw).imp_fail fun _ t ht => ⟨ht.1, ⟨_, ht.2.1⟩, ht.2.2⟩

theorem Stands.ends_flush (h : e.Stands d r uses clean) (hw : 1 + 2 * (uses + 1) < UInt64.size) :
    Ends (flush name) (e, d) (fun _ t => Written .flush name e d r uses clean t)
      (Unwritten .flush name e d r uses) :=
  h.ends_writing .flush rfl fun _ _ hp =>
    (hp.ends_flush h.reliable hw).imp_fail fun _ _ ht => ⟨ht.1, ⟨_, ht.2.1⟩, ht.2.2⟩

theorem Stands.ends_write (write : Write) (h : e.Stands d r uses clean)
    (hw : 1 + 2 * (uses + write.cost) < UInt64.size) :
    Ends (write.run name) (e, d) (fun _ t => Written write name e d r uses clean t)
      (Unwritten write name e d r uses) := by
  cases write with
  | put key v => exact h.ends_put hw
  | putBatch batch => exact Ends.bind (h.ends_putBatch hw) fun _ _ ht => Ends.pure ht.2
  | delete key => exact h.ends_delete hw
  | flush => exact h.ends_flush hw

end Writes

/-! ## Reading -/

/-- A lookup changes nothing and gives the value of the key. -/
theorem Stands.ends_find (h : e.Stands d r uses clean) (name : String) (key : Bytes) :
    Ends (find name key) (e, d)
      (fun found t => t = (e, d) ∧ checkBytes .key key = .ok () ∧
        ∃ value, r name = some value ∧ found = value key)
      fun err t => t = (e, d) ∧ (checkBytes .key key = .error err ∨
        r name = none ∧ ∃ argument, err = .invalidArgument argument) := by
  unfold find
  refine ends_checked (fun hcheck => ?_) fun err he => ⟨rfl, .inl he⟩
  refine Ends.bind ((h.ends_lookup name).imp_fail fun err t he => ⟨he.1, .inr he.2⟩) ?_
  rintro p _ ⟨rfl, -, -, value, hvalue, hmember⟩
  refine ends_get_bind ?_
  dsimp only
  rw [hmember.serves.find key]
  exact Ends.pure ⟨rfl, hcheck, value, hvalue, rfl⟩

/-- A scan is left with the pairs of the partition in order, and changes no partition. -/
theorem Stands.ends_scan (h : e.Stands d r uses clean) (name : String) :
    Ends (scan name) (e, d)
      (fun s t => Step name e t.1 d t.2 ∧ t.1.Stands t.2 r uses clean ∧ s.partition = name ∧
        ∃ value entries, r name = some value ∧ KeyMap.Sorted entries ∧
          (∀ key, KeyMap.find? entries key = (value key).map some) ∧
          s.merge.Leaves (Source.Gives t.2) entries)
      fun err t => t = (e, d) ∧ r name = none ∧ (∃ argument, err = .invalidArgument argument) ∨
        Broken name e d r uses (Faulted d) err t := by
  unfold scan
  refine Ends.bind (h.ends_onPartition
    (fun merge value' t => r name = some value' ∧ ∃ entries, KeyMap.Sorted entries ∧
      (∀ key, KeyMap.find? entries key = (value' key).map some) ∧
      merge.Leaves (Source.Gives t.2) entries) (Faulted d) (Nat.le_refl uses)
    fun p value _ hvalue hp => ?_) ?_
  · have hstep {d' : Disk} (hf : Disk.Frame d d' fun _ => False) :
        p.Step (home e.root name) p d d' := ⟨hf.mono fun _ h => h.elim, rfl, rfl⟩
    have hserves {d' : Disk} (hf : Disk.Frame d d' fun _ => False) :
        p.Serves d' (home e.root name) value uses clean :=
      hp.spares (hf.spares fun _ h => h.elim) (hf.opens hp.opens)
    refine hp.ends_scan.mono ?_ ?_
    · rintro merge _ ⟨d', rfl, hf, hentries⟩
      exact ⟨hstep hf, value, hserves hf, hvalue, hentries⟩
    · rintro err _ ⟨d', rfl, hf, he⟩
      exact ⟨hstep hf, ⟨value, (hserves hf).weaken (Nat.le_refl _) False.elim⟩, he⟩
  · intro merge t ⟨hstep, value', hstands, _, _, hvalue, entries, hentries⟩
    rw [← hvalue, update_eq_self] at hstands
    exact Ends.pure ⟨hstep, hstands, rfl, value', entries, hvalue, hentries⟩

end Spillway.Engine
