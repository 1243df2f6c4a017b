import Mathlib.Data.Set.Lattice
import Mathlib.Tactic.Common

/-!
# Solving one constraint after another

A solver goes through constraints in some order. Its state stands for the set of solutions that
are left, and a step either cuts that set down to the solutions of its constraint or refuses
because none is left. The order is then of no consequence: a run accepts exactly when there is a
common solution.
-/
namespace Beamr.Constraints

variable {S A α β : Type*}

/-- `step` takes the solutions of `C` out of those left, from the states of `dom`. -/
structure Adds (left : S → Set A) (dom : Set S) (step : S → Option S) (C : Set A) : Prop where
  keeps : ∀ s ∈ dom, ∀ t, step s = some t → t ∈ dom ∧ left t = left s ∩ C
  refuses : ∀ s ∈ dom, step s = none → left s ∩ C = ∅

variable {left : S → Set A} {dom : Set S} {step next : S → Option S} {C D : Set A}

namespace Adds

theorem pass : Adds left dom some Set.univ where
  keeps s hs t ht := by
    cases ht
    exact ⟨hs, (Set.inter_univ _).symm⟩
  refuses s _ h := by cases h

theorem fail : Adds left dom (fun _ => none) ∅ where
  keeps s _ t ht := by cases ht
  refuses s _ _ := Set.inter_empty _

/-- A test of the state's own: a constraint that everything or nothing meets. -/
theorem ite {p : Prop} [Decidable p] (h : Adds left dom step C) :
    Adds left dom (fun s => if p then step s else none) {a | p ∧ a ∈ C} := by
  by_cases hp : p
  · simpa [hp] using h
  · simpa [hp] using (fail : Adds left dom (fun _ => none) ∅)

theorem bind (h : Adds left dom step C) (h' : Adds left dom next D) :
    Adds left dom (fun s => (step s).bind next) (C ∩ D) where
  keeps s hs u hu := by
    obtain ⟨t, ht, htu⟩ := Option.bind_eq_some_iff.mp hu
    obtain ⟨htdom, hleft⟩ := h.keeps s hs t ht
    obtain ⟨hudom, hleft'⟩ := h'.keeps t htdom u htu
    exact ⟨hudom, by rw [hleft', hleft, Set.inter_assoc]⟩
  refuses s hs hnone := by
    rw [← Set.inter_assoc]
    cases ht : step s with
    | none => rw [h.refuses s hs ht, Set.empty_inter]
    | some t =>
      obtain ⟨htdom, hleft⟩ := h.keeps s hs t ht
      rw [ht, Option.bind_some] at hnone
      rw [← hleft]
      exact h'.refuses t htdom hnone

theorem congr (h : Adds left dom step C) (hstep : ∀ s, next s = step s) (hsame : C = D) :
    Adds left dom next D := by
  obtain rfl : next = step := funext hstep
  exact hsame ▸ h

/-- A run from a state that allows everything accepts exactly when there is a solution. -/
theorem isSome_iff (h : Adds left dom step C) {s : S} (hs : s ∈ dom) (hall : left s = Set.univ)
    (hsome : ∀ t ∈ dom, (left t).Nonempty) : (step s).isSome = true ↔ C.Nonempty := by
  cases ht : step s with
  | none =>
    have hnone := h.refuses s hs ht
    rw [hall, Set.univ_inter] at hnone
    simp [hnone]
  | some t =>
    obtain ⟨htdom, hleft⟩ := h.keeps s hs t ht
    rw [hall, Set.univ_inter] at hleft
    simp [← hleft, hsome t htdom]

/-- What is left after a run from a state that allows everything. -/
theorem left_eq (h : Adds left dom step C) {s t : S} (hs : s ∈ dom) (hall : left s = Set.univ)
    (ht : step s = some t) : left t = C := by
  rw [(h.keeps s hs t ht).2, hall, Set.univ_inter]

end Adds

end Beamr.Constraints
