import Mathlib.Tactic.Common

/-!
# Recursion on a depth

A function given by one step of its recursion. The step is unfolded often enough for
the depth of the argument; when it only asks about smaller depths, the result solves
the recursion equation.
-/
namespace DepthRecursion

variable {ι β : Type*}

/-- Unfold the step `n` times above `base`. -/
def unfoldDepth (step : (ι → β) → ι → β) (base : ι → β) : ℕ → ι → β
  | 0 => base
  | n + 1 => step (unfoldDepth step base n)

/-- A step that only asks about arguments of smaller depth. -/
def Descends (depth : ι → ℕ) (step : (ι → β) → ι → β) : Prop :=
  ∀ (n : ℕ) (f g : ι → β), (∀ x, depth x < n → f x = g x) →
    ∀ x, depth x ≤ n → step f x = step g x

theorem unfoldDepth_stable {depth : ι → ℕ} {step : (ι → β) → ι → β} {base : ι → β}
    (h : Descends depth step) {n m : ℕ} {x : ι} (hx : depth x < n) (hnm : n ≤ m) :
    unfoldDepth step base m x = unfoldDepth step base n x := by
  induction n generalizing m x with
  | zero => omega
  | succ n ih =>
    obtain ⟨m, rfl⟩ : ∃ k, m = k + 1 := ⟨m - 1, by omega⟩
    rw [unfoldDepth, unfoldDepth]
    refine h n _ _ (fun y hy => ?_) x (by omega)
    exact ih hy (by omega)

/-- Unfold far enough for the argument. -/
def byDepth (depth : ι → ℕ) (step : (ι → β) → ι → β) (base : ι → β) (x : ι) : β :=
  unfoldDepth step base (depth x + 1) x

theorem byDepth_eq {depth : ι → ℕ} {step : (ι → β) → ι → β} {base : ι → β}
    (h : Descends depth step) (x : ι) :
    byDepth depth step base x = step (byDepth depth step base) x := by
  rw [byDepth, unfoldDepth]
  refine h _ _ _ (fun y hy => ?_) x (Nat.le_refl _)
  exact unfoldDepth_stable h (by omega) (by omega)

end DepthRecursion
