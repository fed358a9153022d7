import Spillway.Error
import Spillway.Proofs.Action

/-!
# Actions that agree

`Agrees reliable act act' s t post fail` says of two actions, each run in a state of its own, that they
end alike: both with results of which `post` holds, or both with one error. Nothing is said of runs in
which the storage of an engine fails and has an excuse. As for single actions there is a rule for each
way of putting actions together.
-/

namespace Spillway

/-- The storage of an engine failed, for a reason outside of the engine: some disk is not reliable, a
file would grow too large, or an engine can not be opened where it should be. -/
def Error.Excused (reliable : Prop) (e : Error) : Prop :=
  ∃ task cause, e = .engine task cause ∧
    (reliable → cause = .io .fileTooLarge ∨ ∃ root, task = .openEngine root)

variable {σ τ α β γ δ : Type} {reliable : Prop}

/-- Two actions end alike, unless storage fails with an excuse. -/
def Agrees (reliable : Prop) (act : EStateM Error σ α) (act' : EStateM Error τ β) (s : σ) (t : τ)
    (post : α → σ → β → τ → Prop) (fail : σ → τ → Prop) : Prop :=
  Ends act s
    (fun a s' => Ends act' t (fun b t' => post a s' b t') fun e _ => e.Excused reliable)
    fun e s' => e.Excused reliable ∨
      Ends act' t (fun _ _ => False) fun e' t' => e'.Excused reliable ∨ e' = e ∧ fail s' t'

/-- The states are still these. -/
def Still (s₀ : σ) (t₀ : τ) (s : σ) (t : τ) : Prop := s = s₀ ∧ t = t₀

theorem still (s : σ) (t : τ) : Still s t s t := ⟨rfl, rfl⟩

/-- An action ends as the verdict says, unless storage fails with an excuse. -/
def Answers (reliable : Prop) (act : EStateM Error σ α) (s : σ) (verdict : Except Error α)
    (post fail : σ → Prop) : Prop :=
  Ends act s (fun a s' => verdict = .ok a ∧ post s') fun e s' =>
    e.Excused reliable ∨ verdict = .error e ∧ fail s'

theorem bind_of_ok {act : EStateM Error σ α} {f : α → EStateM Error σ β} {s s' : σ} {a : α}
    (h : act s = .ok a s') : (act >>= f) s = f a s' := by
  show EStateM.bind act f s = f a s'
  unfold EStateM.bind
  rw [h]

theorem bind_of_error {act : EStateM Error σ α} {f : α → EStateM Error σ β} {s s' : σ} {e : Error}
    (h : act s = .error e s') : (act >>= f) s = .error e s' := by
  show EStateM.bind act f s = .error e s'
  unfold EStateM.bind
  rw [h]

namespace Agrees

variable {act : EStateM Error σ α} {act' : EStateM Error τ β} {s : σ} {t : τ}
  {post post' : α → σ → β → τ → Prop} {fail fail' : σ → τ → Prop}

/-! ## Reading a statement -/

/-- Both actions have results, or both have the same error. -/
theorem cases (h : Agrees reliable act act' s t post fail) :
    (∃ e s', act s = .error e s' ∧ e.Excused reliable) ∨
    (∃ e t', act' t = .error e t' ∧ e.Excused reliable) ∨
    (∃ a s' b t', act s = .ok a s' ∧ act' t = .ok b t' ∧ post a s' b t') ∨
    ∃ e s' t', act s = .error e s' ∧ act' t = .error e t' ∧ fail s' t' := by
  cases hact : act s with
  | ok a s' =>
    have h' := h.of_ok hact
    cases hact' : act' t with
    | ok b t' => exact .inr (.inr (.inl ⟨a, s', b, t', rfl, rfl, h'.of_ok hact'⟩))
    | error e t' => exact .inr (.inl ⟨e, t', rfl, h'.of_error hact'⟩)
  | error e s' =>
    rcases h.of_error hact with hexcused | h'
    · exact .inl ⟨e, s', rfl, hexcused⟩
    · cases hact' : act' t with
      | ok b t' => exact (h'.of_ok hact').elim
      | error e' t' =>
        rcases h'.of_error hact' with hexcused | ⟨rfl, hfail⟩
        · exact .inr (.inl ⟨e', t', rfl, hexcused⟩)
        · exact .inr (.inr (.inr ⟨e', s', t', rfl, rfl, hfail⟩))

theorem mono (h : Agrees reliable act act' s t post fail)
    (hpost : ∀ a s' b t', post a s' b t' → post' a s' b t')
    (hfail : ∀ s' t', fail s' t' → fail' s' t') : Agrees reliable act act' s t post' fail' :=
  Ends.mono h (fun a s' h' => h'.imp fun b t' hp => hpost a s' b t' hp) fun _ s' he =>
    he.imp_right fun h' => h'.imp_fail fun _ t' he' => he'.imp_right fun hf =>
      ⟨hf.1, hfail s' t' hf.2⟩

/-- Actions that each end in some way of their own, and have no errors without an excuse. -/
theorem of_ends {P : α → σ → Prop} {P' : β → τ → Prop}
    (h : Ends act s P fun e _ => e.Excused reliable)
    (h' : Ends act' t P' fun e _ => e.Excused reliable) :
    Agrees reliable act act' s t (fun a s' b t' => P a s' ∧ P' b t') fail :=
  h.mono (fun _ _ hp => h'.imp fun _ _ hp' => ⟨hp, hp'⟩) fun _ _ he => .inl he

/-- Actions with the same verdict. -/
theorem of_answers {act' : EStateM Error τ α} {verdict : Except Error α} {P F : σ → Prop}
    {P' F' : τ → Prop} (h : Answers reliable act s verdict P F)
    (h' : Answers reliable act' t verdict P' F') :
    Agrees reliable act act' s t (fun a s' b t' => verdict = .ok a ∧ b = a ∧ P s' ∧ P' t')
      fun s' t' => F s' ∧ F' t' := by
  refine Ends.mono h ?_ ?_
  · rintro a s' ⟨hok, hp⟩
    refine Ends.mono h' ?_ ?_
    · rintro b t' ⟨hok', hp'⟩
      rw [hok] at hok'
      exact ⟨hok, (Except.ok.inj hok').symm, hp, hp'⟩
    · rintro e t' (hexcused | ⟨herror, -⟩)
      · exact hexcused
      · rw [hok] at herror
        cases herror
  · rintro e s' (hexcused | ⟨herror, hf⟩)
    · exact .inl hexcused
    · refine .inr (Ends.mono h' ?_ ?_)
      · rintro b t' ⟨hok', -⟩
        rw [herror] at hok'
        cases hok'
      · rintro e' t' (hexcused | ⟨herror', hf'⟩)
        · exact .inl hexcused
        · rw [herror] at herror'
          exact .inr ⟨(Except.error.inj herror').symm, hf, hf'⟩

/-! ## Steps -/

theorem pure {a : α} {b : β} (h : post a s b t) :
    Agrees reliable (Pure.pure a) (Pure.pure b) s t post fail :=
  h

theorem throw {e : Error} (h : fail s t) :
    Agrees reliable (MonadExcept.throw e : EStateM Error σ α)
      (MonadExcept.throw e : EStateM Error τ β) s t post fail :=
  .inr (.inr ⟨rfl, h⟩)

theorem bind {M : α → σ → β → τ → Prop} {f : α → EStateM Error σ γ} {g : β → EStateM Error τ δ}
    {post : γ → σ → δ → τ → Prop} (h : Agrees reliable act act' s t M fail)
    (hf : ∀ a s' b t', M a s' b t' → Agrees reliable (f a) (g b) s' t' post fail) :
    Agrees reliable (act >>= f) (act' >>= g) s t post fail := by
  unfold Agrees Ends
  rcases h.cases with ⟨e, s', hact, he⟩ | ⟨e, t', hact', he⟩ | ⟨a, s', b, t', hact, hact', hm⟩ |
    ⟨e, s', t', hact, hact', hfail⟩
  · rw [bind_of_error hact]
    exact .inl he
  · rw [bind_of_error hact']
    cases (act >>= f) s with
    | ok c s' => exact he
    | error e' s' => exact .inr (.inl he)
  · rw [bind_of_ok hact, bind_of_ok hact']
    exact hf a s' b t' hm
  · rw [bind_of_error hact, bind_of_error hact']
    exact .inr (.inr ⟨rfl, hfail⟩)

/-- The same result without effects, or the same error, on both sides. -/
theorem ofExcept {x : Except Error α} {post : α → σ → α → τ → Prop}
    (hok : ∀ a, x = .ok a → post a s a t) (herror : ∀ e, x = .error e → fail s t) :
    Agrees reliable (Spillway.ofExcept x) (Spillway.ofExcept x) s t post fail := by
  cases x with
  | ok a => exact pure (hok a rfl)
  | error e => exact throw (herror e rfl)

theorem ofExcept_bind {x : Except Error α} {f : α → EStateM Error σ γ} {g : α → EStateM Error τ δ}
    {post : γ → σ → δ → τ → Prop} (hok : ∀ a, x = .ok a → Agrees reliable (f a) (g a) s t post fail)
    (herror : ∀ e, x = .error e → fail s t) :
    Agrees reliable (Spillway.ofExcept x >>= f) (Spillway.ofExcept x >>= g) s t post fail := by
  cases x with
  | ok a => exact hok a rfl
  | error e => exact throw (herror e rfl)

end Agrees

section State

variable {s : σ} {t : τ} {f : σ → σ} {g : τ → τ} {fail : σ → τ → Prop}

theorem agrees_get_bind {f : σ → EStateM Error σ γ} {g : τ → EStateM Error τ δ}
    {post : γ → σ → δ → τ → Prop} (h : Agrees reliable (f s) (g t) s t post fail) :
    Agrees reliable (get >>= f) (get >>= g) s t post fail := h

theorem agrees_modify {post : PUnit → σ → PUnit → τ → Prop} (h : post ⟨⟩ (f s) ⟨⟩ (g t)) :
    Agrees reliable (modify f) (modify g) s t post fail := h

theorem agrees_modify_bind {k : PUnit → EStateM Error σ γ} {l : PUnit → EStateM Error τ δ}
    {post : γ → σ → δ → τ → Prop} (h : Agrees reliable (k ⟨⟩) (l ⟨⟩) (f s) (g t) post fail) :
    Agrees reliable (modify f >>= k) (modify g >>= l) s t post fail := h

end State

end Spillway
