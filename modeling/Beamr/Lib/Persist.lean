import Mathlib.Tactic.Common

/-!
# Computations whose state survives a failure

A computation returns a result or an error, and in both cases the state it has reached. `Relates`
is what holds between the state before any run and the state after it; a reflexive and transitive
relation that every part keeps is kept by the whole.
-/

/-- A state transformer that may fail and keeps its state when it does. -/
def Persist (σ ε α : Type) : Type := σ → Except ε α × σ

namespace Persist

variable {σ ε α β : Type}

protected def pure (a : α) : Persist σ ε α := fun s => (.ok a, s)

protected def bind (m : Persist σ ε α) (f : α → Persist σ ε β) : Persist σ ε β := fun s =>
  match m s with
  | (.ok a, s') => f a s'
  | (.error e, s') => (.error e, s')

instance : Monad (Persist σ ε) where
  pure := Persist.pure
  bind := Persist.bind

def throw (e : ε) : Persist σ ε α := fun s => (.error e, s)

/-- Run a computation `n` times, collecting the results. -/
def many (m : Persist σ ε α) : ℕ → Persist σ ε (List α)
  | 0 => pure []
  | n + 1 => do
    let a ← m
    let as ← many m n
    pure (a :: as)

theorem bind_apply (m : Persist σ ε α) (f : α → Persist σ ε β) (s : σ) :
    (m >>= f) s = match m s with
      | (.ok a, s') => f a s'
      | (.error e, s') => (.error e, s') := rfl

/-! ## What every run keeps -/

/-- The relation holds between the states before and after every run. -/
def Relates (R : σ → σ → Prop) (m : Persist σ ε α) : Prop := ∀ s, R s (m s).2

section Relates

variable {R : σ → σ → Prop}

theorem Relates.pure (hrefl : ∀ s, R s s) (a : α) :
    Relates R (Pure.pure a : Persist σ ε α) := hrefl

theorem Relates.throw (hrefl : ∀ s, R s s) (e : ε) : Relates R (throw e : Persist σ ε α) := hrefl

theorem Relates.bind (htrans : ∀ s t u, R s t → R t u → R s u) {m : Persist σ ε α}
    {f : α → Persist σ ε β} (hm : Relates R m) (hf : ∀ a, Relates R (f a)) :
    Relates R (m >>= f) := by
  intro s
  have hfirst := hm s
  rw [bind_apply]
  rcases hrun : m s with ⟨e | a, s'⟩
  · rw [hrun] at hfirst
    exact hfirst
  · rw [hrun] at hfirst
    exact htrans _ _ _ hfirst (hf a s')

theorem Relates.many (hrefl : ∀ s, R s s) (htrans : ∀ s t u, R s t → R t u → R s u)
    {m : Persist σ ε α} (hm : Relates R m) (n : ℕ) : Relates R (many m n) := by
  induction n with
  | zero => exact .pure hrefl _
  | succ n ih => exact hm.bind htrans fun a => ih.bind htrans fun as => .pure hrefl _

end Relates

end Persist
