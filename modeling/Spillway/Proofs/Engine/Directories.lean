import Spillway.Proofs.Engine.Snapshot

/-!
# Directories of an engine

On a disk that does not fail, what is in the directory for partitions is what the partitions of the
engine say (`Mirrors`), and a call on one partition leaves all others alone. After dropping and closing
nothing is left behind (`in_step`).
-/

namespace Spillway

theorem Path.join_inj {path : Path} {name name' : String} (h : path.join name = path.join name') :
    name = name' := by
  have hnames : path.names ++ [name] = path.names ++ [name'] := congrArg Path.names h
  exact (List.cons.inj (List.append_cancel_left hnames)).1

namespace Store

open Table

variable {d : Disk} {dir : Path} {place : Location} {tables : List Reader} {layers : List Layer}
  {name : String}

/-- The names of layers are those of tables. -/
theorem exists_table_iff (h : List.Forall₂ (Shows d dir place) tables layers) (name : String)
    (node : Node) :
    (∃ table ∈ tables, table.path = dir.join name ∧ node = .file table.file) ↔
      d.node? (place ++ [name]) = some node ∧ ∃ id ∈ layers.map Prod.fst, name = tableName id := by
  induction h with
  | nil => simp
  | @cons table layer tables layers hshows _ ih =>
    have hhead : table.path = dir.join name ↔ name = tableName layer.1 := by
      rw [hshows.path, tablePath]
      constructor
      · intro heq
        exact (Path.join_inj heq).symm
      · rintro rfl
        rfl
    simp only [List.exists_mem_cons_iff, List.map_cons, ih, hhead]
    constructor
    · rintro (⟨rfl, rfl⟩ | ⟨hnode, hid⟩)
      · exact ⟨hshows.node, .inl rfl⟩
      · exact ⟨hnode, .inr hid⟩
    · rintro ⟨hnode, rfl | hid⟩
      · rw [hshows.node, Option.some.injEq] at hnode
        exact .inl ⟨rfl, hnode.symm⟩
      · exact .inr ⟨hnode, hid⟩

end Store

namespace Engine

open Table

variable {e e' e₀ : Engine} {d d' d₀ : Disk} {r : Registry} {uses : Nat} {name : String}
  {root : Path} {call : Call} {calls : List Call} {t t' : Engine × Disk}

/-! ## What the directory holds -/

/-- The directory for partitions has a directory for each partition that is registered, which has the
files of its tables, and nothing else. -/
structure Mirrors (e : Engine) (d : Disk) : Prop where
  directories : ∀ name node, d.node? (home e.root name) = some node ↔
    node = .directory ∧ e.hasPartition name = true
  files : ∀ name p, e.partition? name = some p → ∀ file node,
    d.node? (home e.root name ++ [file]) = some node ↔
      ∃ table ∈ p.store.tables, table.path = p.dir.join file ∧ node = .file table.file
  nothingElse : ∀ name file below, below ≠ [] → d.node? (home e.root name ++ [file] ++ below) = none

theorem Stands.hasPartition_iff {clean : Prop} (h : e.Stands d r uses clean) :
    e.hasPartition name = true ↔ (r name).isSome = true := by
  rw [hasPartition, Option.isSome_iff_ne_none, Option.isSome_iff_ne_none, Ne, Ne,
    h.partition?_eq_none]

theorem Stands.mirrors (h : e.Stands d r uses True) : e.Mirrors d := by
  have hdirectory : ∀ name, e.hasPartition name = true →
      d.node? (home e.root name) = some .directory := by
    intro name hregistered
    obtain ⟨p, hp⟩ := Option.isSome_iff_exists.1 hregistered
    obtain ⟨value, -, hmember⟩ := h.value_of_partition? hp
    exact hmember.serves.opens.reaches.node?
  have hregistered : ∀ name, d.node? (home e.root name) ≠ none → e.hasPartition name = true :=
    fun name hn => h.hasPartition_iff.2 (h.exact trivial name hn)
  have hfiles : ∀ name p, e.partition? name = some p → ∀ file node,
      d.node? (home e.root name ++ [file]) = some node ↔
        ∃ table ∈ p.store.tables, table.path = p.dir.join file ∧ node = .file table.file := by
    intro name p hp file node
    obtain ⟨value, -, hmember⟩ := h.value_of_partition? hp
    obtain ⟨layers, hstore, -⟩ := hmember.serves.tables
    rw [← hmember.serves.dir, Store.exists_table_iff hstore.shows]
    constructor
    · intro hnode
      have hid := hstore.exact trivial file (by rw [hnode]; exact nofun)
      rw [List.append_nil] at hid
      exact ⟨hnode, hid⟩
    · exact fun hnode => hnode.1
  refine ⟨fun name node => ⟨fun hnode => ?_, ?_⟩, hfiles, fun name file below hbelow => ?_⟩
  · have hname := hregistered name (by rw [hnode]; exact nofun)
    rw [hdirectory name hname, Option.some.injEq] at hnode
    exact ⟨hnode.symm, hname⟩
  · rintro ⟨rfl, hname⟩
    exact hdirectory name hname
  · by_contra hn
    have hlies := h.sound.lies hn
    have habove : d.node? (home e.root name) = some .directory := by
      refine hlies _ ?_ fun heq => ?_
      · rw [List.append_assoc]
        exact List.prefix_append _ _
      · have hlength := congrArg List.length heq
        simp at hlength
    have hfile : d.node? (home e.root name ++ [file]) = some .directory := by
      refine hlies _ (List.prefix_append _ _) fun heq => hbelow ?_
      exact List.append_right_eq_self.1 heq.symm
    obtain ⟨p, hp⟩ := Option.isSome_iff_exists.1 (hregistered name (by rw [habove]; exact nofun))
    obtain ⟨table, -, -, hnode⟩ := (hfiles name p hp file .directory).1 hfile
    cases hnode

/-! ## Sessions on a disk that does not fail -/

/-- A call leads from one state to another, whether it succeeds or not; but no file grew too large. -/
inductive Call.Leads (call : Call) (t t' : Engine × Disk) : Prop
  | ok (h : call.run t = .ok () t')
  | failed {err : Error} (h : call.run t = .error err t')
      (hio : ∀ task, err ≠ .engine task (.io .fileTooLarge))

/-- Calls one after the other. -/
inductive Runs : List Call → Engine × Disk → Engine × Disk → Prop
  | nil (t : Engine × Disk) : Runs [] t t
  | cons {call : Call} {calls : List Call} {t t₁ t' : Engine × Disk} (h : call.Leads t t₁)
      (hrest : Runs calls t₁ t') : Runs (call :: calls) t t'

/-- The partition that a call is on. -/
def Call.partition? : Call → Option String
  | create name => some name
  | drop name => some name
  | write name _ => some name
  | find name _ => some name
  | scan name => some name
  | close => none

/-- On a disk that does not fail only a file that would grow too large is a failure of storage. -/
theorem not_blamed {err : Error} (hr : d.Reliable)
    (hio : ∀ task, err ≠ .engine task (.io .fileTooLarge)) : ¬ Blamed (call.Fault e d) err := by
  rintro ⟨task, cause, rfl, hfault⟩
  exact hio task (congrArg _ (hfault.tooLarge hr))

theorem Stands.leads (h : e.Stands d r uses True) (hw : 1 + 2 * (uses + call.cost) < UInt64.size)
    (hcall : call.Leads (e, d) t) :
    (∃ r', t.1.Stands t.2 r' (uses + call.cost) True) ∧ t.1.root = e.root ∧
      t.1.disposable = e.disposable := by
  cases hcall with
  | ok hrun =>
    obtain ⟨hstands, -, hroot, hdisposable⟩ := (h.ends_call call hw).of_ok hrun
    exact ⟨⟨_, hstands⟩, hroot, hdisposable⟩
  | failed hrun hio =>
    rcases (h.ends_call call hw).of_error hrun with ⟨rfl, -⟩ | ⟨hblamed, -⟩
    · exact ⟨⟨r, h.weaken (Nat.le_add_right _ _) id⟩, rfl, rfl⟩
    · exact absurd hblamed (not_blamed (h.reliable trivial) hio)

theorem Stands.runs (h : t.1.Stands t.2 r uses True) (hrun : Runs calls t t')
    (hw : 1 + 2 * (uses + totalCost calls) < UInt64.size) :
    (∃ r', t'.1.Stands t'.2 r' (uses + totalCost calls) True) ∧ t'.1.root = t.1.root ∧
      t'.1.disposable = t.1.disposable := by
  induction hrun generalizing r uses with
  | nil t => exact ⟨⟨r, h⟩, rfl, rfl⟩
  | @cons call calls t t₁ t' hcall _ ih =>
    have hsum : uses + totalCost (call :: calls) = uses + call.cost + totalCost calls := by
      unfold totalCost
      rw [List.map_cons, List.sum_cons, Nat.add_assoc]
    rw [hsum] at hw ⊢
    obtain ⟨⟨r₁, h₁⟩, hroot, hdisposable⟩ := Stands.leads (e := t.1) (d := t.2) h (by omega) hcall
    obtain ⟨hstands, hroot', hdisposable'⟩ := ih h₁ hw
    exact ⟨hstands, hroot'.trans hroot, hdisposable'.trans hdisposable⟩

/-! ## What a call leaves -/

/-- No place at or below the root is there. -/
def Rootless (e : Engine) (d : Disk) : Prop := ∀ q, Disk.target e.root <+: q → d.node? q = none

/-- Nothing is left of an engine that was closed, and no call changes that. -/
structure Ended (e : Engine) (d : Disk) : Prop where
  partitions : e.partitions = []
  rootless : e.Rootless d
  closing : Call.close.run (e, d) = .ok () (e, d)
  dropping : ∀ name, (Call.drop name).run (e, d) = .ok () (e, d)
  others : ∀ call : Call, call ≠ .close → (∀ name, call ≠ .drop name) →
    ∃ argument, call.run (e, d) = .error (.invalidArgument argument) (e, d)

/-- A call leaves all partitions but its own. -/
theorem Stands.ends_spared {clean : Prop} (call : Call) (h : e.Stands d r uses clean)
    (hname : call.partition? = some name) (hw : 1 + 2 * (uses + call.cost) < UInt64.size) :
    Ends call.run (e, d) (fun _ t => Spared name e d t) fun _ t => Spared name e d t := by
  have hrefl := spared_refl name e d
  cases call with
  | create name' =>
    cases hname
    refine Ends.bind ((h.ends_createPartition name).imp_fail ?_) fun _ t ht =>
      Ends.pure ht.step.spared
    rintro err t (⟨rfl, -⟩ | ⟨-, hstep, -⟩)
    · exact hrefl
    · exact hstep.spared
  | drop name' =>
    cases hname
    refine (h.ends_dropPartition name).mono ?_ fun _ t ht => ht.2.spared
    rintro _ t (⟨-, rfl⟩ | ⟨-, hdropped⟩)
    · exact hrefl
    · exact hdropped.spared
  | write name' change =>
    cases hname
    refine (h.ends_write change hw).mono (fun _ t ht => ht.2.2.1.spared) ?_
    rintro err t (⟨rfl, -⟩ | ⟨-, hstep, -⟩)
    · exact hrefl
    · exact hstep.spared
  | find name' key =>
    cases hname
    refine Ends.bind ((h.ends_find name key).imp_fail ?_) ?_
    · rintro err t ⟨rfl, -⟩
      exact hrefl
    · rintro _ t ⟨rfl, -⟩
      exact Ends.pure hrefl
  | scan name' =>
    cases hname
    refine Ends.bind ((h.ends_scan name).imp_fail ?_) fun _ t ht => Ends.pure ht.1.spared
    rintro err t (⟨rfl, -⟩ | ⟨-, hstep, -⟩)
    · exact hrefl
    · exact hstep.spared
  | close => cases hname

/-! ## An engine that was closed -/

/-- The call is refused, and nothing happens. -/
def Refused (e : Engine) (d : Disk) (err : Error) (t : Engine × Disk) : Prop :=
  t = (e, d) ∧ ∃ argument, err = .invalidArgument argument

section Closed

variable {α β : Type} {act : EngineM α}

theorem ends_lookup_closed (hclosed : e.closed = true) (name : String) :
    Ends (lookup name) (e, d) (fun _ _ => False) (Refused e d) := by
  unfold lookup
  refine Ends.bind ((ends_ensureOpen_or e d).imp_fail fun _ _ he => ⟨he.1, he.2.2⟩) ?_
  rintro _ _ ⟨-, hopen⟩
  rw [hclosed] at hopen
  cases hopen

theorem Refused.bind {f : α → EngineM β} (h : Ends act (e, d) (fun _ _ => False) (Refused e d)) :
    Ends (act >>= f) (e, d) (fun _ _ => False) (Refused e d) :=
  Ends.bind h fun _ _ hf => hf.elim

theorem Refused.checked {check : Except Error Unit}
    (h : Ends act (e, d) (fun _ _ => False) (Refused e d))
    (hcheck : ∀ err, check = .error err → ∃ argument, err = .invalidArgument argument) :
    Ends (ofExcept check >>= fun _ => act) (e, d) (fun _ _ => False) (Refused e d) :=
  ends_checked (fun _ => h) fun err herr => ⟨rfl, hcheck err herr⟩

theorem ends_onPartition_closed {task : Task} {act : PartitionM α} (hclosed : e.closed = true) :
    Ends (onPartition task name act) (e, d) (fun _ _ => False) (Refused e d) :=
  Refused.bind (ends_lookup_closed hclosed name)

theorem ends_write_closed (hclosed : e.closed = true) (change : Write) :
    Ends (change.run name) (e, d) (fun _ _ => False) (Refused e d) := by
  cases change with
  | put key v =>
    show Ends (put name key v) (e, d) _ _
    rw [put_eq]
    exact Refused.checked (Refused.bind (ends_onPartition_closed hclosed)) fun _ => checkBatch_error
  | putBatch batch =>
    refine Refused.bind (Refused.checked ?_ fun _ => checkBatch_error)
    exact Refused.bind (ends_onPartition_closed hclosed)
  | delete key =>
    exact Refused.checked (ends_onPartition_closed hclosed) fun _ => checkBytes_error
  | flush => exact ends_onPartition_closed hclosed

/-- A call that needs an open engine is refused by one that is closed. -/
theorem ends_call_closed (hclosed : e.closed = true) (call : Call) (hclose : call ≠ .close)
    (hdrop : ∀ name, call ≠ .drop name) :
    Ends call.run (e, d) (fun _ _ => False) (Refused e d) := by
  cases call with
  | create name =>
    refine Refused.bind (Ends.bind ((ends_ensureOpen_or e d).imp_fail
      fun _ _ he => ⟨he.1, he.2.2⟩) ?_)
    rintro _ _ ⟨-, hopen⟩
    rw [hclosed] at hopen
    cases hopen
  | drop name => exact absurd rfl (hdrop name)
  | write name change => exact ends_write_closed hclosed change
  | find name key =>
    refine Refused.bind (Refused.checked ?_ fun _ => checkBytes_error)
    exact Refused.bind (ends_lookup_closed hclosed name)
  | scan name => exact Refused.bind (Refused.bind (ends_onPartition_closed hclosed))
  | close => exact absurd rfl hclose

end Closed

theorem Stands.ended (h : e.Stands d r uses True) (hclosed : e.closed = true) : e.Ended d where
  partitions := (h.gone hclosed).1
  rootless := (h.gone hclosed).2 trivial
  closing := by
    show (if e.closed = true then pure () else _ : EngineM Unit) (e, d) = _
    rw [if_pos hclosed]
    rfl
  dropping name := by
    show (if e.closed = true then pure () else _ : EngineM Unit) (e, d) = _
    rw [if_pos hclosed]
    rfl
  others call hclose hdrop := by
    have hends := ends_call_closed (d := d) hclosed call hclose hdrop
    cases hrun : call.run (e, d) with
    | ok _ t => exact (hends.of_ok hrun).elim
    | error err t =>
      obtain ⟨rfl, argument, rfl⟩ := hends.of_error hrun
      exact ⟨argument, rfl⟩

/-! ## Every call -/

theorem Stands.root_of_registered (h : e.Stands d r uses True) (hname : e.hasPartition name = true) :
    d.node? (Disk.target e.root) = some .directory := by
  have hhome := (h.mirrors.directories name .directory).2 ⟨rfl, hname⟩
  by_cases hroot : Disk.target e.root = home e.root name
  · rw [hroot, hhome]
  · exact h.sound.lies (by rw [hhome]; exact nofun) _ (root_prefix_home e.root name) hroot

theorem Stands.find_of_partition? {p : Partition} {clean : Prop} (h : e.Stands d r uses clean)
    (hp : e.partition? name = some p) (key : Bytes) :
    ∃ value, r name = some value ∧ p.find d key = .ok (value key) := by
  obtain ⟨value, hvalue, hmember⟩ := h.value_of_partition? hp
  exact ⟨value, hvalue, hmember.serves.find key⟩

theorem Stands.apart (h : e.Stands d r uses True) (hw : 1 + 2 * (uses + call.cost) < UInt64.size)
    (hcall : call.Leads (e, d) (e', d')) (hname : call.partition? = some name) {other : String}
    {p : Partition} (hne : other ≠ name) (hp : e.partition? other = some p) :
    e'.partition? other = some p ∧ Disk.Spares d d' (home e.root other) ∧
      ∀ key, p.find d' key = p.find d key := by
  have hspared : Spared name e d (e', d') := by
    have hends := h.ends_spared call hname hw
    cases hcall with
    | ok hrun => exact hends.of_ok hrun
    | failed hrun _ => exact hends.of_error hrun
  obtain ⟨hp', hspares⟩ := hspared other p hne hp
  obtain ⟨value, -, hmember⟩ := h.value_of_partition? hp
  refine ⟨hp', hspares, fun key => ?_⟩
  rw [hmember.serves.find key, (hmember.spares h.downward hspares).serves.find key]

theorem Stands.created (h : e.Stands d r uses True) (hopen : e.closed = false)
    (hnamed : isPartitionName name = true) (hcall : (Call.create name).Leads (e, d) (e', d')) :
    d'.node? (Disk.target e.root) = some .directory ∧ ∃ p, e'.partition? name = some p ∧
      (e.partition? name = some p ∨ e.partition? name = none ∧ p.memtable.entries = [] ∧
        p.store.tables = [] ∧ p.store.nextId = 1 ∧ ∀ key, p.find d' key = .ok none) := by
  have hends : Ends (Call.create name).run (e, d) (fun _ t => Created name e d r uses True t)
      fun err _ => Blamed (Faulted d) err := by
    refine Ends.bind ((h.ends_createPartition name).imp_fail ?_) fun _ _ ht => Ends.pure ht
    rintro err t (⟨-, -, hclosed | hcheck⟩ | hbroken)
    · rw [hopen] at hclosed
      cases hclosed
    · unfold checkName at hcheck
      rw [if_pos hnamed] at hcheck
      cases hcheck
    · exact hbroken.1
  cases hcall with
  | failed hrun _ =>
    obtain ⟨_, _, -, hfaulted⟩ := hends.of_error hrun
    exact absurd (h.reliable trivial) hfaulted.not_reliable
  | ok hrun =>
    obtain ⟨-, -, hstep, ⟨hthere, heq⟩ | ⟨hnone, hstands, p, hp, hmemory, htables, hnext⟩⟩ :=
      hends.of_ok hrun
    · cases heq
      obtain ⟨value, hvalue⟩ := Option.ne_none_iff_exists'.1 hthere
      obtain ⟨p, hp, -⟩ := h.partition?_of_value hvalue
      exact ⟨h.root_of_registered (Option.isSome_iff_exists.2 ⟨p, hp⟩), p, hp, .inl hp⟩
    · refine ⟨?_, p, hp, .inr ⟨h.partition?_eq_none.2 hnone, hmemory, htables, hnext, fun key => ?_⟩⟩
      · rw [← hstep.root]
        exact hstands.root_of_registered (Option.isSome_iff_exists.2 ⟨p, hp⟩)
      · obtain ⟨value, hvalue, hfind⟩ := hstands.find_of_partition? hp key
        rw [Function.update_self, Option.some.injEq] at hvalue
        rw [hfind, ← hvalue]

/-- Whether storage does not fail in a call. -/
def Call.unfailing (call : Call) (t : Engine × Disk) : Bool :=
  match call.run t with
  | .ok _ _ => true
  | .error (.engine _ _) _ => false
  | .error _ _ => true

/-- Whether storage does not fail in calls one after the other. -/
def unfailing : List Call → Engine × Disk → Bool
  | [], _ => true
  | call :: rest, t => call.unfailing t && unfailing rest (after call.run t)

end Engine

end Spillway
