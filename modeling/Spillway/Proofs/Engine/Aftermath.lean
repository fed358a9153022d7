import Spillway.Proofs.Engine.Failure

/-!
# What calls leave behind

What the registry of an engine is after a call, whether it succeeded or not. A write that failed has
recorded its entries up to one of them (`Stands.leaves_recorded`), a partition that could not be made is
not there (`Stands.ends_created`), reading changes no values (`Stands.leaves_scanned`), and no call
changes those of other partitions (`Stands.leaves_others`).
-/

namespace Spillway

section Leaves

variable {ε σ α β : Type} {act : EStateM ε σ α} {s : σ} {P Q : σ → Prop}

/-- An action leaves a state for which `P` holds, whether it succeeds or not. -/
def Leaves (act : EStateM ε σ α) (s : σ) (P : σ → Prop) : Prop := Ends act s (fun _ => P) fun _ => P

theorem Ends.leaves {post : α → σ → Prop} {fail : ε → σ → Prop} (h : Ends act s post fail)
    (hpost : ∀ a t, post a t → P t) (hfail : ∀ e t, fail e t → P t) : Leaves act s P :=
  h.mono hpost hfail

theorem Leaves.imp (h : Leaves act s P) (hP : ∀ t, P t → Q t) : Leaves act s Q :=
  h.mono (fun _ => hP) fun _ => hP

theorem Leaves.after (h : Leaves act s P) : P (Spillway.after act s) := Ends.after h

theorem Leaves.pure {a : α} (h : P s) : Leaves (Pure.pure a : EStateM ε σ α) s P := h

theorem Leaves.throw {e : ε} (h : P s) : Leaves (MonadExcept.throw e : EStateM ε σ α) s P := h

/-- What is left by all but the last part of an action. -/
theorem Ends.leaves_bind {M : α → σ → Prop} {f : α → EStateM ε σ β} (h : Ends act s M fun _ => P)
    (hf : ∀ a t, M a t → Leaves (f a) t P) : Leaves (act >>= f) s P := Ends.bind h hf

/-- The last part of an action may change nothing any more. -/
theorem Leaves.bind {f : α → EStateM ε σ β} (h : Leaves act s P)
    (hf : ∀ a t, P t → Leaves (f a) t P) : Leaves (act >>= f) s P := Ends.bind h hf

/-- Something else may be made of the result. -/
theorem Leaves.result {f : α → β} (h : Leaves act s P) : Leaves (act >>= fun a => Pure.pure (f a)) s P :=
  h.bind fun _ _ ht => Leaves.pure ht

theorem Leaves.discarded (h : Leaves act s P) : Leaves (discard act) s P := h.result

theorem Leaves.of_discard (h : Leaves (discard act) s P) : Leaves act s P := by
  cases hact : act s with
  | ok a t =>
    have hrun : (discard act : EStateM ε σ Unit) s = .ok () t := by
      show EStateM.map _ act s = _
      rw [EStateM.map, hact]
    rw [Leaves, Ends, hact]
    exact h.of_ok hrun
  | error e t =>
    have hrun : (discard act : EStateM ε σ Unit) s = .error e t := by
      show EStateM.map _ act s = _
      rw [EStateM.map, hact]
    rw [Leaves, Ends, hact]
    exact h.of_error hrun

end Leaves

namespace Engine

open Table
open Function (update_of_ne update_self update_eq_self)

variable {e : Engine} {d : Disk} {r : Registry} {uses : Nat} {clean : Prop} {name : String}
  {value : Bytes → Option Bytes}

/-! ## Reading -/

/-- Looking for a key changes nothing, in any engine. -/
theorem leaves_found (name : String) (key : Bytes) (e : Engine) (d : Disk) :
    Leaves (find name key) (e, d) (· = (e, d)) := by
  unfold find
  refine ends_checked (fun _ => ?_) fun _ _ => rfl
  refine Ends.leaves_bind ((ends_lookup_or name e d).imp_fail fun err t he => he.1) ?_
  intro p t ⟨ht, _, _⟩
  subst ht
  apply ends_get_bind
  dsimp only
  cases p.find d key with
  | ok found => exact Leaves.pure rfl
  | error cause => exact Leaves.throw rfl

/-- Scanning changes no values, also when the disk fails it. -/
theorem Stands.leaves_scanned (h : e.Stands d r uses clean) (name : String) :
    Leaves (scan name) (e, d) fun t => t.1.Stands t.2 r uses False := by
  have hkept := h.weaken (Nat.le_refl uses) False.elim
  unfold scan onPartition
  refine Leaves.result (Ends.leaves_bind ((h.ends_lookup name).imp_fail fun _ _ he => he.1 ▸ hkept) ?_)
  intro p t ⟨ht, hopen, hp, value, hvalue, hmember⟩
  subst ht
  have hstands {d' : Disk} (hf : Disk.Frame d d' fun _ => False) :
      (e.replace p).Stands d' r uses False := by
    have hserves := hmember.serves.spares (hf.spares fun _ hno => hno.elim)
      (hf.opens hmember.serves.opens)
    have hstep : p.Step (home e.root name) p d d' := ⟨hf.mono fun _ hno => hno.elim, rfl, rfl⟩
    have hreplaced := hkept.replace hopen hp hstep (Nat.le_refl uses) id
      (hserves.weaken (Nat.le_refl uses) False.elim)
    rwa [← hvalue, update_eq_self] at hreplaced
  refine Ends.adaptExcept (Ends.zoom (hmember.serves.ends_scan.mono ?_ ?_))
  · intro merge t ⟨d', ht, hf, _⟩
    subst ht
    exact hstands hf
  · intro cause t ⟨d', ht, hf, _⟩
    subst ht
    exact hstands hf

/-! ## Making a partition -/

/-- An engine that fails to make a partition stays as it was. -/
theorem ends_createPartition_same (name : String) (e : Engine) (d : Disk) :
    Ends (createPartition name) (e, d) (fun _ _ => True) fun _ t => t.1 = e := by
  unfold createPartition
  refine Ends.bind ((ends_ensureOpen_or e d).imp_fail fun err t he => congrArg Prod.fst he.1) ?_
  intro _ t ⟨ht, _⟩
  subst ht
  refine ends_checked (fun _ => ?_) fun _ _ => rfl
  apply ends_get_bind
  dsimp only
  cases e.partition? name with
  | some p => exact Ends.pure trivial
  | none =>
    refine Ends.bind (M := fun _ _ => True) (Ends.adaptExcept (ends_onDisk_exists (Ends.trivial _ _)
      |>.mono (fun _ _ _ => trivial) ?_)) fun p t _ => ends_modify_bind (Ends.pure trivial)
    intro cause t ⟨d', ht, _⟩
    exact congrArg Prod.fst ht

/-- A partition that is not there yet is made, without values, or it still is not there. -/
theorem Stands.ends_created (h : e.Stands d r uses clean) (hnone : r name = none) :
    Ends (createPartition name) (e, d)
      (fun _ t => t.1.Stands t.2 (Function.update r name (some fun _ => none)) uses False)
      fun _ t => t.1.Stands t.2 r uses False := by
  refine ((h.ends_createPartition name).and (ends_createPartition_same name e d)).mono ?_ ?_
  · intro _ t ⟨hcreated, _⟩
    rcases hcreated.cases with ⟨hthere, -⟩ | ⟨-, hstands, -⟩
    · exact absurd hnone hthere
    · exact hstands.weaken (Nat.le_refl uses) False.elim
  · intro err t ⟨hended, hsame⟩
    rcases hended with ⟨ht, -⟩ | ⟨-, -, value?, hstands⟩
    · subst ht
      exact h.weaken (Nat.le_refl uses) False.elim
    · -- nothing is registered under the name, so nothing stands there
      have hvalue : Function.update r name value? name = none := by
        rw [← hstands.partition?_eq_none, hsame, h.partition?_eq_none]
        exact hnone
      rw [update_self] at hvalue
      rwa [hvalue, ← hnone, update_eq_self] at hstands

/-! ## Writing -/

/-- What was recorded of a write that failed are its entries up to one of them. -/
theorem Write.Recorded.isPrefix {p : Partition} {cause : StorageError} {t : Partition × Disk}
    {write : Write} {recorded : List Entry} (h : Write.Recorded p d cause t write recorded) :
    recorded <+: write.entries := by
  cases write with
  | putBatch batch =>
    obtain ⟨front, pair, back, t₁, rfl, rfl, -⟩ := h
    exact ⟨Partition.puts back, by simp [Write.entries, Partition.puts]⟩
  | put key v => exact h ▸ List.prefix_rfl
  | delete key => exact h ▸ List.prefix_rfl
  | flush => exact h ▸ List.prefix_rfl

theorem Registry.write_nil (r : Registry) (name : String) : r.write name [] = r := by
  show Function.update r name ((r name).map fun value => value) = r
  rw [Option.map_id', update_eq_self]

/-- Of a call that writes some entries are recorded, from the first one on. -/
theorem Stands.leaves_recorded (write : Write) (h : e.Stands d r uses False)
    (hw : 1 + 2 * (uses + write.cost) < UInt64.size) :
    Leaves (write.run name) (e, d) fun t => ∃ recorded, recorded <+: write.entries ∧
      t.1.Stands t.2 (r.write name recorded) (uses + write.cost) False := by
  refine ((h.ends_write write hw).and (ends_run_failedIn write name e d)).leaves ?_ ?_
  · intro _ t ⟨⟨_, _, _, hstands, _⟩, _⟩
    exact ⟨_, List.prefix_rfl, hstands⟩
  · intro err t ⟨hunwritten, hfailed⟩
    rcases hfailed with ⟨argument, rfl⟩ | ⟨hcheck, p, p', task, cause, hp, hopen, hact, -, ht⟩
    · -- a call that is refused for its arguments is not one that the disk failed
      rcases hunwritten with ⟨rfl, -⟩ | ⟨⟨_, _, hengine, _⟩, -⟩
      · refine ⟨[], List.nil_prefix, ?_⟩
        rw [Registry.write_nil]
        exact h.weaken (Nat.le_add_right _ _) id
      · cases hengine
    · obtain ⟨value, hvalue, hmember⟩ := h.value_of_partition? hp
      obtain ⟨hstep, recorded, hrecorded, hserves⟩ := Write.failed_act hmember.serves hcheck hw hact
      refine ⟨recorded, hrecorded.isPrefix, ?_⟩
      rw [ht, Registry.write_of_value hvalue]
      exact h.replace hopen hp hstep (Nat.le_add_right _ _) id hserves

/-! ## Other partitions -/

/-- The partition whose values a call may change. -/
def Call.altered? : Call → Option String
  | create name => some name
  | drop name => some name
  | write _ .flush => none
  | write name _ => some name
  | find _ _ => none
  | scan _ => none
  | close => none

/-- The engine stands, and unless it was closed all partitions that a call does not alter have the values
they had. -/
def Call.LeavesOthers (call : Call) (r : Registry) (uses : Nat) (t : Engine × Disk) : Prop :=
  ∃ r', t.1.Stands t.2 r' (uses + call.cost) False ∧
    (t.1.closed = true ∨ ∀ name, call.altered? ≠ some name → r' name = r name)

theorem Call.leavesOthers_of_update {call : Call} {value? : Option (Bytes → Option Bytes)}
    {t : Engine × Disk} (hname : call.altered? = some name)
    (h : t.1.Stands t.2 (Function.update r name value?) (uses + call.cost) clean) :
    call.LeavesOthers r uses t := by
  refine ⟨_, h.weaken (Nat.le_refl _) False.elim, .inr fun other hother => update_of_ne ?_ _ _⟩
  intro heq
  exact hother (heq ▸ hname)

theorem Stands.leavesOthers (call : Call) (h : e.Stands d r uses clean) :
    call.LeavesOthers r uses (e, d) :=
  ⟨r, h.weaken (Nat.le_add_right _ _) False.elim, .inr fun _ _ => rfl⟩

/-- A call leaves alone all partitions that it is not there to alter. -/
theorem Stands.leaves_others (call : Call) (h : e.Stands d r uses clean)
    (hw : 1 + 2 * (uses + call.cost) < UInt64.size) :
    Leaves call.run (e, d) (call.LeavesOthers r uses) := by
  have hkept := h.leavesOthers call
  cases call with
  | create name =>
    refine Ends.leaves_bind ((h.ends_createPartition name).imp_fail ?_) ?_
    · rintro err t (⟨rfl, -⟩ | ⟨-, -, value?, hstands⟩)
      · exact hkept
      · exact Call.leavesOthers_of_update rfl hstands
    · intro _ t ht
      apply Leaves.pure
      rcases ht.cases with ⟨-, rfl⟩ | ⟨-, hstands, -⟩
      · exact hkept
      · exact Call.leavesOthers_of_update rfl hstands
  | drop name =>
    refine (h.ends_dropPartition name).leaves ?_ fun _ t ht =>
      Call.leavesOthers_of_update rfl ht.2.stands
    rintro _ t (⟨-, rfl⟩ | ⟨-, hdropped⟩)
    · exact hkept
    · exact Call.leavesOthers_of_update rfl hdropped.stands
  | write name change =>
    apply ((h.weaken (Nat.le_refl uses) False.elim).leaves_recorded change hw).imp
    intro t ⟨recorded, hfront, hstands⟩
    cases change with
    | flush =>
      obtain rfl := List.prefix_nil.1 hfront
      rw [Registry.write_nil] at hstands
      exact ⟨r, hstands, .inr fun _ _ => rfl⟩
    | put key v => exact Call.leavesOthers_of_update rfl hstands
    | putBatch batch => exact Call.leavesOthers_of_update rfl hstands
    | delete key => exact Call.leavesOthers_of_update rfl hstands
  | find name key =>
    exact ((leaves_found name key e d).imp fun t ht => ht ▸ hkept).discarded
  | scan name =>
    exact ((h.leaves_scanned name).imp fun t ht => ht.leavesOthers (.scan name)).discarded
  | close =>
    refine h.ends_close.leaves ?_ fun _ _ hf => hf.elim
    intro _ t ⟨hstands, hclosed, _⟩
    exact ⟨_, hstands.weaken (Nat.le_refl _) False.elim, .inl hclosed⟩

end Engine

end Spillway
