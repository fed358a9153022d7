import Spillway.Proofs.Engine.Calls

/-!
# Opening, closing, and the partitions that come and go

What making and dropping partitions does to the registry, that an engine stands when it was started,
and that it still does when it is closed.
-/

namespace Spillway.Engine

open Table
open Function (update_self update_of_ne update_eq_self)

variable {e e' : Engine} {d d' : Disk} {r : Registry} {uses : Nat} {clean : Prop}
  {name other : String} {p : Partition} {root path : Path}

/-! ## Removing directories -/

/-- Nothing is left of a directory that was removed, or that was not found. -/
theorem cleared_of_removed (hs : d.Sound) (hpath : Disk.Downward path)
    (hd : d' = d.tick.dropTree (Disk.target path) ∨ d' = d.tick ∧ d.find path = .error .notFound) :
    Disk.Cleared d d' (Disk.target path) := by
  rcases hd with rfl | ⟨rfl, hfind⟩
  · exact (Disk.cleared_dropTree hpath.below).of_tick
  · have hvacant : ∀ q, Disk.target path <+: q → d.tick.node? q = none :=
      fun q hq => hpath.vacant (d := d) hs hfind hq
    exact (Disk.cleared_of_vacant hvacant).of_tick

theorem ends_removeDirectory_cleared (honest : some .notFound ∉ d.faults) (hs : d.Sound)
    (hpath : Disk.Downward path) :
    Ends (removeDirectory path) d (fun _ d' => Disk.Cleared d d' (Disk.target path))
      fun err d' => d' = d.tick ∧ Hindered d path err := by
  exact (ends_removeDirectory honest path).imp fun _ _ hd => cleared_of_removed hs hpath hd

theorem Stands.not_obstructed_root (h : e.Stands d r uses clean) :
    ¬ d.Obstructed [] e.root.parts := by
  rintro ⟨q, hq, id, hfile⟩
  refine h.clear "p" (by decide +kernel) ⟨q, ?_, id, hfile⟩
  rw [partitionDir, Disk.parts_join, Disk.trail_concat, partitionsDir, Disk.parts_join,
    Disk.trail_concat]
  exact List.mem_append_left _ (List.mem_append_left _ hq)

/-- The directory of a partition is removed, unless the disk fails. -/
theorem Stands.ends_removeHome (h : e.Stands d r uses clean) (hname : isPartitionName name = true) :
    Ends (removeDirectory (partitionDir e.root name)) d
      (fun _ d' => Disk.Cleared d d' (home e.root name)) fun err d' => d' = d.tick ∧ Faulted d err := by
  have hremove := ends_removeDirectory_cleared h.honest h.sound (downward_partitionDir h.downward hname)
  rw [target_partitionDir_eq e.root hname] at hremove
  exact hremove.imp_fail fun err d' he => ⟨he.1, he.2.faulted (h.clear name hname)⟩

/-- Removing the root, as part of something that goes on when it fails. -/
theorem Stands.ends_removeRoot {s : Engine} {fail : Error → Engine × Disk → Prop}
    (h : e.Stands d r uses clean) :
    Ends (outcome (onDisk (σ := Engine) (removeDirectory e.root))) (s, d)
      (fun _ t => ∃ d', t = (s, d') ∧
        (Disk.Cleared d d' (Disk.target e.root) ∨ d' = d.tick ∧ ¬ d.Reliable)) fail := by
  refine Ends.outcome (ends_onDisk ((ends_removeDirectory_cleared h.honest h.sound h.downward).mono
    ?_ ?_))
  · intro _ d' hcleared
    exact ⟨d', rfl, .inl hcleared⟩
  · rintro err d' ⟨rfl, hindered⟩
    obtain ⟨cause, -, hcause⟩ := hindered.faulted h.not_obstructed_root
    exact ⟨d.tick, rfl, .inr ⟨rfl, Disk.not_reliable hcause⟩⟩

/-- Removing the root, or failing to, changes nothing elsewhere. -/
theorem confined_of_removeRoot {place : Location}
    (hd : Disk.Cleared d d' place ∨ d' = d.tick ∧ ¬ d.Reliable) : Disk.Confined d d' place := by
  rcases hd with hcleared | ⟨rfl, -⟩
  · exact hcleared.confined
  · exact (Disk.frame_tick d).confined fun _ hf => hf.elim

/-- An engine without partitions, of which the root may have been removed. -/
theorem Stands.emptied (h : e.Stands d r uses clean) (hroot : e'.root = e.root)
    (hempty : e'.partitions = [])
    (hd : Disk.Cleared d d' (Disk.target e.root) ∨ d' = d.tick ∧ ¬ d.Reliable) :
    e'.Stands d' (fun _ => none) uses clean := by
  have hlater := (confined_of_removeRoot hd).toLater
  have hgone : clean → ∀ q, Disk.target e.root <+: q → d'.node? q = none := fun hclean =>
    (hd.resolve_right fun hbroken => hbroken.2 (h.reliable hclean)).gone
  refine ⟨hroot ▸ h.downward, h.honest_later hlater, hlater.sound h.sound, fun other hother hob => ?_,
    fun other => ?_, fun hclean => hlater.reliable (h.reliable hclean), fun hclean other hn => ?_,
    fun _ => ⟨hempty, hroot ▸ hgone⟩⟩
  · rw [hroot] at hob
    rcases hd with hcleared | ⟨rfl, -⟩
    · exact h.clear other hother (hcleared.obstructed hob)
    · exact h.clear other hother hob
  · rw [partition?_of_nil hempty]
    exact .none
  · rw [hroot] at hn
    exact absurd (hgone hclean _ (root_prefix_home e.root other)) hn

/-! ## Making partitions -/

/-- The directory of a new partition is cleared and the partition opened in it. -/
theorem Stands.ends_clear_load (h : e.Stands d r uses clean) (hname : isPartitionName name = true) :
    Ends (do
      removeDirectory (partitionDir e.root name)
      Partition.load e.nextSerial name (partitionDir e.root name) e.config) d
      (fun p d' => Disk.Confined d d' (home e.root name) ∧ p.name = name ∧
        p.dir = partitionDir e.root name ∧ p.memtable.entries = [] ∧ p.store.tables = [] ∧
        p.store.nextId = 1 ∧ p.Serves d' (home e.root name) (fun _ => none) 0 True)
      fun err d' => Disk.Confined d d' (home e.root name) ∧ Faulted d err := by
  have hdown := downward_partitionDir h.downward hname
  have htarget := target_partitionDir_eq e.root hname
  have htick (d : Disk) : Disk.Confined d d.tick (home e.root name) :=
    (Disk.frame_tick d).confined fun _ hf => hf.elim
  refine Ends.bind ((h.ends_removeHome hname).imp_fail ?_) ?_
  · rintro err _ ⟨rfl, he⟩
    exact ⟨htick d, he⟩
  intro _ d₁ hcleared
  have hclear₁ : ¬ d₁.Obstructed [] (partitionDir e.root name).parts := fun hob =>
    h.clear name hname (hcleared.obstructed hob)
  have hvacant₁ : ∀ x ∈ d₁.nodes, ¬ Disk.target (partitionDir e.root name) <+: x.1 := by
    rw [htarget]
    exact fun x hx hpre => Disk.node?_ne_none hx (hcleared.gone x.1 hpre)
  refine (Partition.ends_load_vacant hclear₁ hvacant₁ fun q hq hpre =>
    (hdown.way q hq).eq_of_length_le hpre.length_le).mono ?_ ?_
  · rintro p d₂ ⟨hbuilt, -, hpname, hdir, hmemory, htables, hnext, hserves⟩
    rw [htarget] at hserves
    refine ⟨(hcleared.confined.trans (htick d₁)).trans (hbuilt.confined fun q hq => ?_), hpname, hdir,
      hmemory, htables, hnext, hserves⟩
    rw [← htarget]
    exact hdown.way q hq
  · rintro err _ ⟨rfl, he⟩
    exact ⟨hcleared.confined.trans (htick d₁), he.mono hcleared.toLater⟩

theorem step_enlist (e : Engine) {p : Partition} (hpname : p.name = name)
    (hd : Disk.Confined d d' (home e.root name)) : Step name e (e.enlist p) d d' where
  toConfined := hd
  root := rfl
  disposable := rfl
  closed := rfl
  others other hne := by rw [partition?_enlist, if_neg fun heq => hne (heq.symm.trans hpname)]

theorem Stands.enlist {p : Partition} (h : e.Stands d r uses clean) (hopen : e.closed = false)
    (hname : isPartitionName name = true) (hpname : p.name = name)
    (hdir : p.dir = partitionDir e.root name) (hd : Disk.Confined d d' (home e.root name))
    (hserves : p.Serves d' (home e.root name) (fun _ => none) 0 True) :
    (e.enlist p).Stands d' (Function.update r name (some fun _ => none)) uses clean := by
  refine h.step (step_enlist e hpname hd) hopen (Nat.le_refl uses) id ?_ fun _ _ => rfl
  rw [partition?_enlist, if_pos hpname]
  exact .some ⟨hname, hdir, hserves.weaken (Nat.zero_le uses) fun _ => trivial⟩

/-- A partition that was there already, or a new one that is empty. -/
structure Created (name : String) (e : Engine) (d : Disk) (r : Registry) (uses : Nat) (clean : Prop)
    (t : Engine × Disk) : Prop where
  opened : e.closed = false
  named : isPartitionName name = true
  step : Step name e t.1 d t.2
  cases : (r name ≠ none ∧ t = (e, d)) ∨
    r name = none ∧ t.1.Stands t.2 (Function.update r name (some fun _ => none)) uses clean ∧
      ∃ p, t.1.partition? name = some p ∧ p.memtable.entries = [] ∧ p.store.tables = [] ∧
        p.store.nextId = 1

theorem Stands.ends_createPartition (h : e.Stands d r uses clean) (name : String) :
    Ends (createPartition name) (e, d) (fun _ t => Created name e d r uses clean t)
      fun err t => t = (e, d) ∧ (∃ argument, err = .invalidArgument argument) ∧
          (e.closed = true ∨ checkName name = .error err) ∨
        Broken name e d r uses (Faulted d) err t := by
  unfold createPartition
  refine Ends.bind ((ends_ensureOpen_or e d).imp_fail fun err t he =>
    .inl ⟨he.1, he.2.2, .inl he.2.1⟩) ?_
  rintro _ _ ⟨rfl, hopen⟩
  refine ends_checked (fun hcheck => ?_) fun err he => .inl ⟨rfl, ?_, .inr he⟩
  · have hname := isPartitionName_of_checkName hcheck
    refine ends_get_bind ?_
    dsimp only
    cases hp : e.partition? name with
    | some p =>
      obtain ⟨value, hvalue, -⟩ := h.value_of_partition? hp
      exact Ends.pure ⟨hopen, hname, step_refl name e d, .inl ⟨by rw [hvalue]; exact nofun, rfl⟩⟩
    | none =>
      have hnone := h.partition?_eq_none.1 hp
      dsimp only
      refine Ends.bind (Ends.adaptExcept (ends_onDisk_exists (h.ends_clear_load hname)
        |>.imp_fail ?_)) ?_
      · rintro err _ ⟨d', rfl, hconfined, he⟩
        have hstep : Step name e e d d' := ⟨hconfined, rfl, rfl, rfl, fun _ _ => rfl⟩
        refine .inr ⟨⟨_, _, rfl, he⟩, hstep, none,
          h.step hstep hopen (Nat.le_refl uses) False.elim ?_ fun hf => hf.elim⟩
        rw [hp]
        exact .none
      · rintro p _ ⟨d', rfl, hconfined, hpname, hdir, hmemory, htables, hnext, hserves⟩
        have hfind : (e.enlist p).partition? name = some p := by
          rw [partition?_enlist, if_pos hpname]
        have hstands := h.enlist hopen hname hpname hdir hconfined hserves
        exact ends_modify_bind (Ends.pure ⟨hopen, hname, step_enlist e hpname hconfined,
          .inr ⟨hnone, hstands, p, hfind, hmemory, htables, hnext⟩⟩)
  · unfold checkName at he
    split at he
    · cases he
    · cases he
      exact ⟨_, rfl⟩

/-! ## Dropping partitions -/

/-- The engine when a partition was taken off its list. -/
def without (e : Engine) (name : String) (retired : List Partition) : Engine :=
  { e with partitions := e.partitions.filter fun q => q.name ≠ name, retired }

theorem partition?_without (e : Engine) (name : String) (retired : List Partition) (other : String) :
    (e.without name retired).partition? other = if other = name then none else e.partition? other := by
  show (e.partitions.filter _).find? _ = _
  rw [List.find?_filter]
  split
  · next heq =>
    rw [heq, List.find?_eq_none]
    simp
  · next hne =>
    show _ = e.partitions.find? _
    congr 1
    funext q
    by_cases hq : q.name = other
    · simp [hq, hne]
    · simp [hq]

theorem step_without (e : Engine) (retired : List Partition)
    (hd : Disk.Confined d d' (home e.root name)) : Step name e (e.without name retired) d d' where
  toConfined := hd
  root := rfl
  disposable := rfl
  closed := rfl
  others other hne := by rw [partition?_without, if_neg hne]

/-- The directory of the partition may have stayed when something failed. -/
theorem Stands.without {clean' : Prop} (h : e.Stands d r uses clean) (hopen : e.closed = false)
    (retired : List Partition) (hd : Disk.Confined d d' (home e.root name)) (hc : clean' → clean)
    (hgone : clean' → d'.node? (home e.root name) = none) :
    (e.without name retired).Stands d' (Function.update r name none) uses clean' := by
  refine h.step (step_without e retired hd) hopen (Nat.le_refl uses) hc ?_
    fun hclean hn => absurd (hgone hclean) hn
  rw [partition?_without, if_pos rfl]
  exact .none

/-- A partition is dropped, with the root when that is disposable and nothing else is left. -/
structure Dropped (name : String) (e : Engine) (d : Disk) (r : Registry) (uses : Nat) (clean : Prop)
    (t : Engine × Disk) : Prop where
  stands : t.1.Stands t.2 (Function.update r name none) uses clean
  spared : Spared name e d t
  confined : Disk.Confined d t.2 (Disk.target e.root)
  root : t.1.root = e.root
  disposable : t.1.disposable = e.disposable
  closed : t.1.closed = e.closed
  removed : clean → e.disposable = true → t.1.partitions = [] →
    ∀ q, Disk.target e.root <+: q → t.2.node? q = none

theorem Dropped.later {t : Engine × Disk} (h : Dropped name e d r uses clean t) : Disk.Later d t.2 :=
  h.confined.toLater

/-- What is left to do once the directory of a partition that was dropped is removed, or not. -/
theorem Stands.ends_settle (h : e.Stands d (Function.update r name none) uses clean)
    (removed : Except Error Unit) (t₀ : Engine × Disk)
    (hspared : Spared name t₀.1 t₀.2 (e, d))
    (hconfined : Disk.Confined t₀.2 d (Disk.target t₀.1.root))
    (hroot : e.root = t₀.1.root) (hdisposable : e.disposable = t₀.1.disposable)
    (hclosed : e.closed = t₀.1.closed) :
    Ends (do
      if e.disposable && e.partitions.isEmpty then
        let _ ← outcome (onDisk (σ := Engine) (removeDirectory e.root))
      ofExcept removed : EngineM Unit) (e, d)
      (fun _ t => removed = .ok () ∧ Dropped name t₀.1 t₀.2 r uses clean t)
      fun err t => removed = .error err ∧ Dropped name t₀.1 t₀.2 r uses clean t := by
  have hend : ∀ t, Dropped name t₀.1 t₀.2 r uses clean t →
      Ends (ofExcept removed : EngineM Unit) t
        (fun _ t => removed = .ok () ∧ Dropped name t₀.1 t₀.2 r uses clean t)
        fun err t => removed = .error err ∧ Dropped name t₀.1 t₀.2 r uses clean t :=
    fun t ht => Ends.ofExcept (fun _ hok => ⟨hok, ht⟩) fun _ herr => ⟨herr, ht⟩
  by_cases hempty : (e.disposable && e.partitions.isEmpty) = true
  · rw [if_pos hempty]
    rw [Bool.and_eq_true, List.isEmpty_iff] at hempty
    have hnone : Function.update r name none = fun _ => none := by
      funext other
      rw [← h.partition?_eq_none]
      exact partition?_of_nil hempty.2 other
    refine Ends.bind h.ends_removeRoot ?_
    rintro _ _ ⟨d', rfl, hd⟩
    have hstands : e.Stands d' (fun _ => none) uses clean := h.emptied rfl hempty.2 hd
    refine hend _ ⟨hnone ▸ hstands, fun other p hne hp => ?_,
      hconfined.trans (hroot ▸ confined_of_removeRoot hd), hroot, hdisposable, hclosed,
      fun hclean _ _ => ?_⟩
    · obtain ⟨hfound, -⟩ := hspared other p hne hp
      rw [partition?_of_nil hempty.2] at hfound
      cases hfound
    · rw [← hroot]
      exact (hd.resolve_right fun hbroken => hbroken.2 (h.reliable hclean)).gone
  · rw [if_neg hempty]
    refine hend _ ⟨h, hspared, hconfined, hroot, hdisposable, hclosed, fun _ hdisp hnil => ?_⟩
    rw [hdisposable, hdisp, hnil] at hempty
    exact absurd rfl hempty

/-- How removing the directory of a partition ends. -/
def Removed (place : Location) (d d' : Disk) (removed : Except Error Unit) : Prop :=
  removed = .ok () ∧ Disk.Cleared d d' place ∨
    (∃ err, removed = .error err ∧ Blamed (Faulted d) err) ∧ Disk.Confined d d' place

theorem Stands.ends_removing {s : Engine} {fail : Error → Engine × Disk → Prop}
    (h : e.Stands d r uses clean) (hname : isPartitionName name = true) (task : Task) :
    Ends (outcome (during task (removeDirectory (partitionDir e.root name)))) (s, d)
      (fun removed t => ∃ d', t = (s, d') ∧ Removed (home e.root name) d d' removed) fail := by
  refine Ends.outcome (Ends.adaptExcept (ends_onDisk ((h.ends_removeHome hname).mono ?_ ?_)))
  · intro _ d' hcleared
    exact ⟨d', rfl, .inl ⟨rfl, hcleared⟩⟩
  · rintro cause _ ⟨rfl, hfaulted⟩
    exact ⟨d.tick, rfl, .inr ⟨⟨_, rfl, task, cause, rfl, hfaulted⟩,
      (Disk.frame_tick d).confined fun _ hf => hf.elim⟩⟩

theorem Stands.ends_dropPartition (h : e.Stands d r uses clean) (name : String) :
    Ends (dropPartition name) (e, d)
      (fun _ t => r name = none ∧ t = (e, d) ∨
        r name ≠ none ∧ Dropped name e d r uses clean t)
      fun err t => Blamed (Faulted d) err ∧ Dropped name e d r uses False t := by
  unfold dropPartition
  refine ends_get_bind ?_
  dsimp only
  cases hclosed : e.closed with
  | true => exact Ends.pure (.inl ⟨h.unused_of_closed hclosed name, rfl⟩)
  | false =>
    rw [if_neg Bool.false_ne_true]
    cases hp : e.partition? name with
    | none => exact Ends.pure (.inl ⟨h.partition?_eq_none.1 hp, rfl⟩)
    | some p =>
      obtain ⟨value, hvalue, hmember⟩ := h.value_of_partition? hp
      have hthere : r name ≠ none := by
        rw [hvalue]
        exact nofun
      dsimp only
      refine ends_modify_bind ?_
      change Ends _ (e.without name (p :: e.retired), d) _ _
      have hstep {d' : Disk} (hd : Disk.Confined d d' (home e.root name)) :=
        step_without e (p :: e.retired) hd
      rw [hmember.dir]
      refine Ends.bind (h.ends_removing hmember.named _) ?_
      rintro removed _ ⟨d', rfl, ⟨rfl, hcleared⟩ | ⟨⟨err, rfl, hblamed⟩, hconfined⟩⟩
      · have hs := h.without hclosed (p :: e.retired) hcleared.confined id
          fun _ => hcleared.gone _ List.prefix_rfl
        have hs' := hstep hcleared.confined
        refine ends_get_bind ((hs.ends_settle (.ok ()) (e, d) hs'.spared
          (hs'.widen (root_prefix_home _ _)) hs'.root hs'.disposable hs'.closed).mono ?_ ?_)
        · exact fun _ t ht => .inr ⟨hthere, ht.2⟩
        · rintro err t ⟨herr, -⟩
          cases herr
      · have hs := h.without hclosed (p :: e.retired) hconfined False.elim False.elim
        have hs' := hstep hconfined
        refine ends_get_bind ((hs.ends_settle (.error err) (e, d) hs'.spared
          (hs'.widen (root_prefix_home _ _)) hs'.root hs'.disposable hs'.closed).mono ?_ ?_)
        · rintro _ t ⟨herr, -⟩
          cases herr
        · rintro _ t ⟨herr, hdropped⟩
          cases herr
          exact ⟨hblamed, hdropped⟩

/-! ## Closing and opening -/

/-- Closing forgets all partitions, and never fails. -/
theorem Stands.ends_close (h : e.Stands d r uses clean) :
    Ends close (e, d)
      (fun _ t => t.1.Stands t.2 (fun _ => none) uses clean ∧ t.1.closed = true ∧
        t.1.root = e.root ∧ t.1.disposable = e.disposable ∧ Disk.Confined d t.2 (Disk.target e.root) ∧
        (e.closed = false → d.Reliable → ∀ q, Disk.target e.root <+: q → t.2.node? q = none) ∧
        (e.closed = true → t = (e, d)))
      fun _ _ => False := by
  unfold close
  refine ends_get_bind ?_
  dsimp only
  cases hclosed : e.closed with
  | true =>
    have hnone : r = fun _ => none := funext (h.unused_of_closed hclosed)
    exact Ends.pure ⟨hnone ▸ h, hclosed, rfl, rfl, Disk.confined_refl d _, nofun, fun _ => rfl⟩
  | false =>
    rw [if_neg Bool.false_ne_true]
    refine ends_modify_bind (Ends.bind h.ends_removeRoot ?_)
    rintro _ _ ⟨d', rfl, hd⟩
    exact Ends.pure ⟨h.emptied rfl rfl hd, rfl, rfl, rfl, confined_of_removeRoot hd,
      fun _ hr => (hd.resolve_right fun hbroken => hbroken.2 hr).gone, nofun⟩

/-- An engine that was just started stands without partitions, whatever was on the disk. -/
theorem stands_of_start {config : Config} {disposable : Bool} (hs : d.Sound)
    (honest : some .notFound ∉ d.faults) (hroot : Disk.Downward root)
    (hstart : start root config disposable d = .ok e d') :
    e.Stands d' (fun _ => none) 0 d.Reliable ∧ Disk.Later d d' ∧
      e = { root, config, disposable } := by
  obtain ⟨rfl, hopens, d₁, hd₁, hbuilt⟩ := (ends_start (ends_prepareRoot honest root)).of_ok hstart
  have hcleared := cleared_of_removed hs hroot hd₁
  have hlater : Disk.Later d d' :=
    (hcleared.toLater.trans (Disk.frame_tick d₁).toLater).trans hbuilt.toLater
  have hnone : ∀ name, d'.node? (home root name) = none := by
    intro name
    refine (hbuilt.frame.node _ fun hway => ?_).trans (hcleared.gone _ (root_prefix_home root name))
    have hlength := ((downward_partitionsDir hroot).way _ hway.1).length_le
    rw [home, List.length_append, List.length_singleton] at hlength
    omega
  refine ⟨⟨hroot, fun hmem => honest (hlater.faults.mem hmem), hlater.sound hs, ?_, fun _ => .none,
    hlater.reliable, fun _ name hn => absurd (hnone name) hn,
    fun hclosed => absurd hclosed Bool.false_ne_true⟩, hlater, rfl⟩
  rintro name hname ⟨q, hq, id, hfile⟩
  rcases mem_trail_partitionDir (plain_of_isPartitionName hname) hq with hq | rfl
  · rw [hopens.directory_of_trail q hq] at hfile
    cases hfile
  · rw [target_partitionDir_eq root hname, hnone] at hfile
    cases hfile

/-- Where nothing is, there is nothing to remove. -/
theorem ends_removeDirectory_vacant (h : d.Vacant root) :
    Ends (removeDirectory root) d
      (fun _ d' => Disk.Cleared d d' (Disk.target root) ∧ d'.contents = d.contents ∧
        ∀ q, d'.node? q = d.node? q)
      fun _ _ => False := by
  refine (ends_removeDirectory h.honest root).mono ?_ ?_
  · intro _ d' hd'
    have hcleared := cleared_of_removed h.sound h.downward hd'
    refine ⟨hcleared, ?_, fun q => ?_⟩
    · rcases hd' with rfl | ⟨rfl, -⟩ <;> rfl
    · by_cases hq : Disk.target root <+: q
      · rw [hcleared.gone q hq, h.empty q hq]
      · exact hcleared.node q hq
  · intro err d' ⟨_, hindered⟩
    obtain ⟨cause, -, hfault⟩ := hindered.faulted h.clear
    exact Disk.not_reliable hfault h.reliable

theorem ends_prepareRoot_vacant (h : d.Vacant root) :
    Ends (prepareRoot root) d (fun _ d' => Disk.Grown d d' (Disk.target root)) fun _ _ => False := by
  unfold prepareRoot
  refine Ends.bind (ends_removeDirectory_vacant h) fun _ d₁ ⟨hcleared, hsame, hnode⟩ => ?_
  refine Ends.adaptExcept ((Disk.ends_createDirectory (partitionsDir root)).mono ?_ ?_)
  · intro _ d' ⟨hbuilt, _⟩
    have habove : Disk.target root <+: Disk.target (partitionsDir root) := by
      rw [target_partitionsDir]
      exact List.prefix_append _ _
    have htick : Disk.Confined d₁ d₁.tick (Disk.target root) :=
      (Disk.frame_tick d₁).confined fun _ hf => hf.elim
    have hmade := (hbuilt.confined (downward_partitionsDir h.downward).way).widen habove
    exact ⟨(hcleared.confined.trans htick).trans hmade, hbuilt.same.trans hsame,
      fun q node hq => hbuilt.kept q node ((hnode q).trans hq)⟩
  · rintro err d' (hobstructed | ⟨-, hfault⟩)
    · exact h.not_obstructed_join plain_partitions
        (hobstructed.mono fun q id hfile => (hnode q).symm.trans hfile)
    · exact Disk.not_reliable hfault (hcleared.reliable h.reliable)

/-- Where nothing is, an engine starts. -/
theorem ends_start_vacant {config : Config} {disposable : Bool} (h : d.Vacant root) :
    Ends (start root config disposable) d
      (fun e d' => e = { root, config, disposable } ∧ Disk.Grown d d' (Disk.target root))
      fun _ _ => False := by
  unfold start
  refine Ends.bind (Ends.outcome (M := fun removed d' => removed = .ok () ∧
    Disk.Grown d d' (Disk.target root))
    ((ends_prepareRoot_vacant h).mono (fun _ _ hd' => ⟨rfl, hd'⟩) fun _ _ hf => hf.elim)) ?_
  rintro _ d' ⟨rfl, hd'⟩
  exact Ends.pure ⟨rfl, hd'⟩

end Spillway.Engine
