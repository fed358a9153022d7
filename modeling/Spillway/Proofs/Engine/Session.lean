import Spillway.Proofs.Engine.Lifecycle

/-!
# Sessions

A session is any sequence of calls on an engine that was started, with any arguments and any answers.
The engine stands after each of them (`stands_afterAll`), and the disk is a later one.
-/

namespace Spillway

/-- The state after an action, whether it fails or not. -/
def after {ε σ α : Type} (act : EStateM ε σ α) (s : σ) : σ :=
  match act s with
  | .ok _ s' => s'
  | .error _ s' => s'

theorem Ends.after {ε σ α : Type} {act : EStateM ε σ α} {s : σ} {I : σ → Prop}
    (h : Ends act s (fun _ s' => I s') fun _ s' => I s') : I (after act s) := by
  unfold Spillway.after
  cases hact : act s with
  | ok a s' => exact h.of_ok hact
  | error e s' => exact h.of_error hact

/-- The result of an action and the state after it; `otherwise` if there is no result. -/
def resultOf {ε σ α : Type} (act : EStateM ε σ α) (otherwise : α) (s : σ) : α × σ :=
  match act s with
  | .ok a s' => (a, s')
  | .error _ s' => (otherwise, s')

theorem eq_ok_of_succeeds {ε σ α : Type} {act : EStateM ε σ α} {s : σ}
    (h : succeeds act s = true) (otherwise : α) :
    act s = .ok (resultOf act otherwise s).1 (resultOf act otherwise s).2 := by
  obtain ⟨a, s', hact⟩ := exists_of_succeeds h
  unfold resultOf
  rw [hact]

namespace Engine

variable {e : Engine} {d d₀ : Disk} {r : Registry} {uses : Nat} {clean : Prop} {name : String}

/-- A call on an engine. -/
inductive Call where
  | create (name : String)
  | drop (name : String)
  | write (name : String) (change : Write)
  | find (name : String) (key : Bytes)
  | scan (name : String)
  | close

namespace Call

def run : Call → EngineM Unit
  | create name => discard (createPartition name)
  | drop name => dropPartition name
  | write name change => change.run name
  | find name key => discard (Engine.find name key)
  | scan name => discard (Engine.scan name)
  | close => Engine.close

/-- How many numbers of tables a call may use up, in pairs. -/
def cost : Call → Nat
  | write _ change => change.cost
  | _ => 0

/-- The registry after a call that succeeds. -/
def apply (r : Registry) : Call → Registry
  | create name => Function.update r name (some ((r name).getD fun _ => none))
  | drop name => Function.update r name none
  | write name change => r.write name change.entries
  | find _ _ => r
  | scan _ => r
  | close => fun _ => none

end Call

/-- How storage fails a call: only where something is written it can be for too large a table. -/
def Call.Fault (e : Engine) (d : Disk) : Call → StorageError → Prop
  | write name change => e.Strains name change.entries d
  | _ => Faulted d

theorem Call.Fault.tooLarge {call : Call} {cause : StorageError} (h : call.Fault e d cause)
    (hd : d.Reliable) : cause = .io .fileTooLarge := by
  cases call with
  | write name change => exact Strains.tooLarge h hd
  | _ => exact absurd hd (Faulted.not_reliable h)

/-- A call that fails is refused and changes nothing, or the disk failed it with such a fault. -/
def Failed (fault : StorageError → Prop) (e : Engine) (d : Disk) (uses : Nat) (err : Error)
    (t : Engine × Disk) : Prop :=
  t = (e, d) ∧ (∃ argument, err = .invalidArgument argument) ∨
    Blamed fault err ∧ Disk.Later d t.2 ∧ ∃ r, t.1.Stands t.2 r uses False

theorem Broken.failed {fault : StorageError → Prop} {err : Error} {t : Engine × Disk}
    (h : Broken name e d r uses fault err t) : Failed fault e d uses err t := by
  obtain ⟨hblamed, hstep, value?, hstands⟩ := h
  exact .inr ⟨hblamed, hstep.toLater, _, hstands⟩

theorem Unwritten.failed {write : Write} {err : Error} {t : Engine × Disk}
    (h : Unwritten write name e d r uses err t) :
    Failed (e.Strains name write.entries d) e d (uses + write.cost) err t := by
  rcases h with ⟨ht, hcheck | ⟨-, -, harg⟩⟩ | hbroken
  · exact .inl ⟨ht, Write.check_error hcheck⟩
  · exact .inl ⟨ht, harg⟩
  · exact hbroken.failed

/-- Every call leaves an engine that stands, on a later disk. -/
theorem Stands.ends_call (call : Call) (h : e.Stands d r uses clean)
    (hw : 1 + 2 * (uses + call.cost) < UInt64.size) :
    Ends call.run (e, d)
      (fun _ t => t.1.Stands t.2 (call.apply r) (uses + call.cost) clean ∧ Disk.Later d t.2 ∧
        t.1.root = e.root ∧ t.1.disposable = e.disposable)
      (Failed (call.Fault e d) e d (uses + call.cost)) := by
  cases call with
  | create name =>
    refine Ends.bind ((h.ends_createPartition name).imp_fail ?_) ?_
    · rintro err t (⟨ht, harg, -⟩ | hbroken)
      · exact .inl ⟨ht, harg⟩
      · exact hbroken.failed
    · rintro _ t ⟨-, -, hstep, ⟨hthere, rfl⟩ | ⟨hnone, hstands, -⟩⟩
      · obtain ⟨value, hvalue⟩ := Option.ne_none_iff_exists'.1 hthere
        refine Ends.pure ⟨?_, Disk.later_refl d, rfl, rfl⟩
        rw [Call.apply, hvalue, Option.getD_some, ← hvalue, Function.update_eq_self]
        exact h
      · refine Ends.pure ⟨?_, hstep.toLater, hstep.root, hstep.disposable⟩
        rw [Call.apply, hnone]
        exact hstands
  | drop name =>
    refine (h.ends_dropPartition name).mono ?_ ?_
    · rintro _ t (⟨hnone, rfl⟩ | ⟨-, hdropped⟩)
      · refine ⟨?_, Disk.later_refl d, rfl, rfl⟩
        rw [Call.apply, ← hnone, Function.update_eq_self]
        exact h
      · exact ⟨hdropped.stands, hdropped.later, hdropped.root, hdropped.disposable⟩
    · rintro err t ⟨herr, hdropped⟩
      exact .inr ⟨herr, hdropped.later, _, hdropped.stands⟩
  | write name change =>
    refine (h.ends_write change hw).mono ?_ fun err t he => he.failed
    rintro _ t ⟨-, -, hstep, hstands, -⟩
    exact ⟨hstands, hstep.toLater, hstep.root, hstep.disposable⟩
  | find name key =>
    refine Ends.bind ((h.ends_find name key).imp_fail ?_) ?_
    · rintro err t ⟨ht, hcheck | ⟨-, harg⟩⟩
      · exact .inl ⟨ht, checkBytes_error hcheck⟩
      · exact .inl ⟨ht, harg⟩
    · rintro found _ ⟨rfl, -⟩
      exact Ends.pure ⟨h, Disk.later_refl d, rfl, rfl⟩
  | scan name =>
    refine Ends.bind ((h.ends_scan name).imp_fail ?_) ?_
    · rintro err t (⟨ht, -, harg⟩ | hbroken)
      · exact .inl ⟨ht, harg⟩
      · exact hbroken.failed
    · rintro s t ⟨hstep, hstands, -⟩
      exact Ends.pure ⟨hstands, hstep.toLater, hstep.root, hstep.disposable⟩
  | close =>
    refine h.ends_close.mono ?_ fun _ _ hf => hf.elim
    rintro _ t ⟨hstands, -, hroot, hdisposable, hlater, -⟩
    exact ⟨hstands, hlater.toLater, hroot, hdisposable⟩

theorem Stands.after_call (call : Call) (h : e.Stands d r uses clean)
    (hw : 1 + 2 * (uses + call.cost) < UInt64.size) :
    (∃ r', (after call.run (e, d)).1.Stands (after call.run (e, d)).2 r' (uses + call.cost) False) ∧
      Disk.Later d (after call.run (e, d)).2 := by
  refine Ends.after (I := fun t => (∃ r', t.1.Stands t.2 r' (uses + call.cost) False) ∧
    Disk.Later d t.2) ((h.ends_call call hw).mono ?_ ?_)
  · rintro _ t ⟨hstands, hlater, -⟩
    exact ⟨⟨_, hstands.weaken (Nat.le_refl _) False.elim⟩, hlater⟩
  · rintro err t (⟨rfl, -⟩ | ⟨-, hlater, r', hstands⟩)
    · exact ⟨⟨r, h.weaken (Nat.le_add_right _ _) False.elim⟩, Disk.later_refl d⟩
    · exact ⟨⟨r', hstands⟩, hlater⟩

/-- The state after calls one after the other, whether they succeed or not. -/
def afterAll (calls : List Call) (t : Engine × Disk) : Engine × Disk :=
  calls.foldl (fun t call => after call.run t) t

theorem afterAll_concat (calls : List Call) (call : Call) (t : Engine × Disk) :
    afterAll (calls ++ [call]) t = after call.run (afterAll calls t) := by
  simp [afterAll]

def totalCost (calls : List Call) : Nat := (calls.map Call.cost).sum

theorem Stands.afterAll {calls : List Call} {t : Engine × Disk} (h : t.1.Stands t.2 r uses clean)
    (hw : 1 + 2 * (uses + totalCost calls) < UInt64.size) :
    (∃ r', (afterAll calls t).1.Stands (afterAll calls t).2 r' (uses + totalCost calls) False) ∧
      Disk.Later t.2 (afterAll calls t).2 := by
  induction calls generalizing t r uses clean with
  | nil => exact ⟨⟨r, h.weaken (Nat.le_refl _) False.elim⟩, Disk.later_refl _⟩
  | cons call calls ih =>
    have hsum : uses + totalCost (call :: calls) = uses + call.cost + totalCost calls := by
      unfold totalCost
      rw [List.map_cons, List.sum_cons, Nat.add_assoc]
    rw [hsum] at hw ⊢
    obtain ⟨⟨r₁, hstands⟩, hlater⟩ := h.after_call call (by omega)
    obtain ⟨hrest, hlater₁⟩ := ih hstands (by omega)
    exact ⟨hrest, hlater.trans hlater₁⟩

end Engine

end Spillway
