import Mathlib.Tactic.Common

/-!
# Outcomes of failing stateful programs

A program of `EStateM` ends in a value or an error, in either case with the state it left
behind. `Ends` gives one condition for each ending; its rules follow the program.
-/
namespace Outcome

variable {ε σ α β : Type}

/-- The program ends in `value` or in `error`. -/
def Ends (value : α → σ → Prop) (error : ε → σ → Prop) : EStateM.Result ε σ α → Prop
  | .ok a s => value a s
  | .error e s => error e s

variable {value : α → σ → Prop} {error : ε → σ → Prop}

theorem Ends.imp {value' : α → σ → Prop} {error' : ε → σ → Prop} {r : EStateM.Result ε σ α}
    (h : Ends value error r) (hvalue : ∀ a s, value a s → value' a s)
    (herror : ∀ e s, error e s → error' e s) : Ends value' error' r := by
  cases r with
  | ok a s => exact hvalue a s h
  | error e s => exact herror e s h

/-- What the first program leaves is what the second starts with. -/
theorem Ends.bind {m : EStateM ε σ β} {f : β → EStateM ε σ α} {s : σ} {middle : β → σ → Prop}
    (h : Ends middle error (m s)) (hf : ∀ b t, middle b t → Ends value error (f b t)) :
    Ends value error ((m >>= f) s) := by
  change Ends value error (EStateM.bind m f s)
  unfold EStateM.bind
  cases hm : m s with
  | ok b t =>
    rw [hm] at h
    exact hf b t h
  | error e t =>
    rw [hm] at h
    exact h

/-- A value computed apart from the state. -/
def lift (x : Except ε α) : EStateM ε σ α := fun s =>
  match x with
  | .ok a => .ok a s
  | .error e => .error e s

theorem Ends.lift {x : Except ε α} {s : σ} (hvalue : ∀ a, x = .ok a → value a s)
    (herror : ∀ e, x = .error e → error e s) : Ends value error (lift x s) := by
  cases x with
  | ok a => exact hvalue a rfl
  | error e => exact herror e rfl

end Outcome
