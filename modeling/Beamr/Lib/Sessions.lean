import Mathlib.Data.List.Basic
import Mathlib.Tactic.Common

/-!
# Streams of sessions

A stream of changes opens and closes numbered sessions, one at a time. The numbers increase.
-/
namespace Sessions

inductive Change
  | up (generation : ℕ)
  | down (generation : ℕ)
  deriving DecidableEq

def Change.generation : Change → ℕ
  | .up generation => generation
  | .down generation => generation

/-- `up g₁, down g₁, up g₂, …` with increasing numbers over `last`, and the session that is still
open at the end. -/
inductive Alternates : ℕ → List Change → Option ℕ → Prop
  | none (last : ℕ) : Alternates last [] none
  | opened {last g : ℕ} (h : last < g) : Alternates last [.up g] (some g)
  | closed {last g : ℕ} {rest : List Change} {current : Option ℕ} (h : last < g)
      (hrest : Alternates g rest current) : Alternates last (.up g :: .down g :: rest) current

namespace Alternates

variable {last g : ℕ} {first rest : List Change} {current : Option ℕ}

theorem up (h : Alternates last first Option.none) (hbound : ∀ c ∈ first, c.generation < g)
    (hlast : last < g) : Alternates last (first ++ [.up g]) (some g) := by
  generalize hnone : Option.none = current at h
  induction h with
  | none last => exact .opened hlast
  | opened h => cases hnone
  | closed h hrest ih =>
    refine .closed h (ih (fun c hc => hbound c (by simp [hc])) ?_ hnone)
    exact hbound (.up _) (by simp)

theorem down (h : Alternates last first (some g)) :
    Alternates last (first ++ [.down g]) Option.none := by
  generalize hopen : some g = current at h
  induction h with
  | none last => cases hopen
  | opened h =>
    obtain rfl := Option.some.inj hopen
    exact .closed h (.none _)
  | closed h hrest ih => exact .closed h (ih hopen)

/-- A session is open exactly when the stream ends with its `up`. -/
theorem getLast?_eq_up (h : Alternates last first current) :
    first.getLast? = some (.up g) ↔ current = some g := by
  induction h with
  | none last => simp
  | opened h => simp
  | @closed last g' rest current h hrest ih =>
    rw [← ih]
    cases rest with
    | nil => simp
    | cons c rest => simp [List.getLast?_cons_cons]

end Alternates

end Sessions
