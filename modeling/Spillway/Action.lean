/-!
# Actions on a part of a state

Actions that change a state and may fail are of type `EStateM`: one that fails keeps what it did
before. `zoom` runs an action on a part of a larger state.
-/

namespace Spillway

/-- An action on the part of a state that `get` finds and `put` puts back. -/
def zoom {σ τ ε α : Type} (get : τ → σ) (put : σ → τ → τ) (act : EStateM ε σ α) : EStateM ε τ α :=
  fun t =>
    match act (get t) with
    | .ok a s => .ok a (put s t)
    | .error e s => .error e (put s t)

/-- The outcome of an action as a value: this never fails. -/
def outcome {ε ε' σ α : Type} (act : EStateM ε σ α) : EStateM ε' σ (Except ε α) :=
  fun s =>
    match act s with
    | .ok a s => .ok (.ok a) s
    | .error e s => .ok (.error e) s

/-- A result without effects as an action. -/
def ofExcept {ε σ α : Type} : Except ε α → EStateM ε σ α
  | .ok a => pure a
  | .error e => throw e

end Spillway
