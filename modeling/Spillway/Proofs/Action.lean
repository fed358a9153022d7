import Mathlib.Data.List.Forall2
import Spillway.Action

/-!
# How actions end

`Ends act s post fail` says of an action that is run in a state how it ends: with a result for
which `post` holds, or with an error for which `fail` does. One rule for each way of putting actions
together splits a statement about an action into statements about its parts.
-/

namespace Spillway

variable {ε ε' σ τ α β : Type}

/-- From the state `s` an action ends with a result and a state for which `post` holds, or with an
error and a state for which `fail` holds. -/
def Ends (act : EStateM ε σ α) (s : σ) (post : α → σ → Prop) (fail : ε → σ → Prop) : Prop :=
  match act s with
  | .ok a s' => post a s'
  | .error e s' => fail e s'

instance {act : EStateM ε σ α} {s : σ} {post : α → σ → Prop} {fail : ε → σ → Prop}
    [∀ a s', Decidable (post a s')] [∀ e s', Decidable (fail e s')] :
    Decidable (Ends act s post fail) :=
  match hact : act s with
  | .ok a s' => decidable_of_iff (post a s') (by unfold Ends; rw [hact])
  | .error e s' => decidable_of_iff (fail e s') (by unfold Ends; rw [hact])

/-- Whether an action has a result. -/
def succeeds (act : EStateM ε σ α) (s : σ) : Bool :=
  match act s with
  | .ok .. => true
  | .error .. => false

theorem exists_of_succeeds {act : EStateM ε σ α} {s : σ} (h : succeeds act s = true) :
    ∃ a s', act s = .ok a s' := by
  unfold succeeds at h
  cases hact : act s with
  | ok a s' => exact ⟨a, s', rfl⟩
  | error e s' =>
    rw [hact] at h
    cases h

section State

variable {s : σ} {f : σ → σ} {fail : ε → σ → Prop}

theorem ends_modify {post : PUnit → σ → Prop} (h : post ⟨⟩ (f s)) :
    Ends (modify f : EStateM ε σ PUnit) s post fail := h

theorem ends_get_bind {g : σ → EStateM ε σ β} {post : β → σ → Prop} (h : Ends (g s) s post fail) :
    Ends (get >>= g) s post fail := h

theorem ends_set_bind {s' : σ} {g : PUnit → EStateM ε σ β} {post : β → σ → Prop}
    (h : Ends (g ⟨⟩) s' post fail) : Ends (set s' >>= g) s post fail := h

theorem ends_modify_bind {g : PUnit → EStateM ε σ β} {post : β → σ → Prop}
    (h : Ends (g ⟨⟩) (f s) post fail) : Ends (modify f >>= g) s post fail := h

end State

namespace Ends

variable {act : EStateM ε σ α} {s : σ} {post post' : α → σ → Prop} {fail fail' : ε → σ → Prop}

/-! ## Reading a statement -/

theorem of_ok {a : α} {s' : σ} (h : Ends act s post fail) (hact : act s = .ok a s') : post a s' := by
  unfold Ends at h
  rw [hact] at h
  exact h

theorem of_error {e : ε} {s' : σ} (h : Ends act s post fail) (hact : act s = .error e s') :
    fail e s' := by
  unfold Ends at h
  rw [hact] at h
  exact h

/-- An action that can not fail has a result. -/
theorem exists_ok (h : Ends act s post fail) (hfail : ∀ e s', ¬ fail e s') :
    ∃ a s', act s = .ok a s' ∧ post a s' := by
  cases hact : act s with
  | ok a s' => exact ⟨a, s', rfl, h.of_ok hact⟩
  | error e s' => exact absurd (h.of_error hact) (hfail e s')

/-- An action that can have no result fails. -/
theorem exists_error (h : Ends act s post fail) (hpost : ∀ a s', ¬ post a s') :
    ∃ e s', act s = .error e s' ∧ fail e s' := by
  cases hact : act s with
  | ok a s' => exact absurd (h.of_ok hact) (hpost a s')
  | error e s' => exact ⟨e, s', rfl, h.of_error hact⟩

theorem mono (h : Ends act s post fail) (hpost : ∀ a s', post a s' → post' a s')
    (hfail : ∀ e s', fail e s' → fail' e s') : Ends act s post' fail' := by
  unfold Ends at h ⊢
  cases hact : act s with
  | ok a s' =>
    rw [hact] at h
    exact hpost a s' h
  | error e s' =>
    rw [hact] at h
    exact hfail e s' h

theorem imp (h : Ends act s post fail) (hpost : ∀ a s', post a s' → post' a s') :
    Ends act s post' fail :=
  h.mono hpost fun _ _ hf => hf

theorem imp_fail (h : Ends act s post fail) (hfail : ∀ e s', fail e s' → fail' e s') :
    Ends act s post fail' :=
  h.mono (fun _ _ hp => hp) hfail

theorem and (h : Ends act s post fail) (h' : Ends act s post' fail') :
    Ends act s (fun a s' => post a s' ∧ post' a s') fun e s' => fail e s' ∧ fail' e s' := by
  unfold Ends at h h' ⊢
  cases hact : act s <;> rw [hact] at h h' <;> exact ⟨h, h'⟩

/-- The run itself can be kept in mind. -/
theorem run (h : Ends act s post fail) :
    Ends act s (fun a s' => act s = .ok a s' ∧ post a s') fun e s' => act s = .error e s' ∧ fail e s' := by
  unfold Ends at h ⊢
  cases hact : act s <;> rw [hact] at h <;> exact ⟨rfl, h⟩

theorem trivial (act : EStateM ε σ α) (s : σ) : Ends act s (fun _ _ => True) fun _ _ => True := by
  unfold Ends
  cases act s <;> exact True.intro

/-! ## Steps -/

theorem pure {a : α} (h : post a s) : Ends (Pure.pure a) s post fail := h

theorem throw {e : ε} (h : fail e s) : Ends (MonadExcept.throw e : EStateM ε σ α) s post fail := h

theorem bind {f : α → EStateM ε σ β} {M : α → σ → Prop} {post : β → σ → Prop}
    (hact : Ends act s M fail) (h : ∀ a s', M a s' → Ends (f a) s' post fail) :
    Ends (act >>= f) s post fail := by
  unfold Ends
  show match EStateM.bind act f s with
    | .ok b s' => post b s'
    | .error e s' => fail e s'
  unfold EStateM.bind
  cases hs : act s with
  | ok a s' => exact h a s' (hact.of_ok hs)
  | error e s' => exact hact.of_error hs

theorem ofExcept {x : Except ε α} (hok : ∀ a, x = .ok a → post a s)
    (herror : ∀ e, x = .error e → fail e s) : Ends (Spillway.ofExcept x) s post fail := by
  cases x with
  | ok a => exact hok a rfl
  | error e => exact herror e rfl

theorem ofExcept_bind {x : Except ε α} {f : α → Except ε β} {post : β → σ → Prop}
    (h : Ends (Spillway.ofExcept x >>= fun a => Spillway.ofExcept (f a)) s post fail) :
    Ends (Spillway.ofExcept (x >>= f)) s post fail := by
  cases x with
  | ok a => exact h
  | error e => exact h

theorem adaptExcept {f : ε → ε'} {fail : ε' → σ → Prop}
    (h : Ends act s post fun e s' => fail (f e) s') :
    Ends (EStateM.adaptExcept f act) s post fail := by
  unfold Ends EStateM.adaptExcept
  cases hact : act s with
  | ok a s' => exact h.of_ok hact
  | error e s' => exact h.of_error hact

theorem zoom {get : τ → σ} {put : σ → τ → τ} {t : τ} {post : α → τ → Prop} {fail : ε → τ → Prop}
    (h : Ends act (get t) (fun a s => post a (put s t)) fun e s => fail e (put s t)) :
    Ends (Spillway.zoom get put act) t post fail := by
  unfold Ends Spillway.zoom
  cases hact : act (get t) with
  | ok a s' => exact h.of_ok hact
  | error e s' => exact h.of_error hact

theorem outcome {M : Except ε α → σ → Prop} {fail : ε' → σ → Prop}
    (h : Ends act s (fun a s' => M (.ok a) s') fun e s' => M (.error e) s') :
    Ends (Spillway.outcome act) s M fail := by
  unfold Ends Spillway.outcome
  cases hact : act s with
  | ok a s' => exact h.of_ok hact
  | error e s' => exact h.of_error hact

/-! ## Loops -/

/-- The results of an action for each item of a list, of which another list tells what to expect. -/
theorem mapM {γ : Type} {f : β → EStateM ε σ α} {R : β → γ → Prop} {P : α → γ → Prop}
    {I : σ → Prop} {items : List β} {expected : List γ} (hitems : List.Forall₂ R items expected)
    (hstep : ∀ x y, R x y → ∀ s, I s → Ends (f x) s (fun a s' => P a y ∧ I s') fail)
    (h : I s) :
    Ends (items.mapM f) s (fun results s' => List.Forall₂ P results expected ∧ I s') fail := by
  induction hitems generalizing s with
  | nil => exact Ends.pure ⟨.nil, h⟩
  | @cons x y items expected hxy _ ih =>
    rw [List.mapM_cons]
    refine Ends.bind (hstep x y hxy s h) fun a s₁ h₁ => ?_
    refine Ends.bind (ih h₁.2) fun results s₂ h₂ => ?_
    exact Ends.pure ⟨.cons h₁.1 h₂.1, h₂.2⟩

/-- A loop keeps what each of its rounds keeps, said of the items that are left. -/
theorem forIn {f : β → PUnit → EStateM ε σ (ForInStep PUnit)} {I : List β → σ → Prop}
    {items : List β}
    (hstep : ∀ x rest s, I (x :: rest) s →
      Ends (f x ⟨⟩) s (fun next s' => next = .yield ⟨⟩ ∧ I rest s') fail)
    (h : I items s) : Ends (ForIn.forIn items PUnit.unit f) s (fun _ s' => I [] s') fail := by
  induction items generalizing s with
  | nil => exact Ends.pure h
  | cons x items ih =>
    rw [List.forIn_cons]
    refine Ends.bind (hstep x items s h) fun next s₁ h₁ => ?_
    rw [h₁.1]
    exact ih h₁.2

end Ends

/-- Two actions in a row succeed when both do. -/
theorem bind_eq_ok_iff {act : EStateM ε σ α} {f : α → EStateM ε σ β} {s t : σ} {b : β} :
    (act >>= f) s = .ok b t ↔ ∃ a s', act s = .ok a s' ∧ f a s' = .ok b t := by
  show EStateM.bind act f s = .ok b t ↔ _
  unfold EStateM.bind
  cases act s with
  | ok a s' => simp
  | error e s' => simp

end Spillway
