import Mathlib.Tactic.Common

/-!
# Runs whose steps meet a condition

A system is a total step function on states and actions, an action that is not enabled leaving
the state as it is. `Meets` says that every action of a run meets a condition in the state it
is taken in.
-/
namespace Runs

variable {S A : Type*} (step : S → A → S)

/-- Every action meets the condition where it is taken. -/
def Meets (condition : S → A → Prop) : S → List A → Prop
  | _, [] => True
  | s, a :: rest => condition s a ∧ Meets condition (step s a) rest

/-- What the steps that meet the condition preserve holds after the whole run. -/
theorem Meets.invariant {step : S → A → S} {condition : S → A → Prop} {I : S → Prop}
    (hstep : ∀ s a, I s → condition s a → I (step s a)) {s : S} {actions : List A}
    (h : Meets step condition s actions) (hs : I s) : I (actions.foldl step s) := by
  induction actions generalizing s with
  | nil => exact hs
  | cons a rest ih => exact ih h.2 (hstep s a hs h.1)

theorem Meets.append {step : S → A → S} {condition : S → A → Prop} {s : S} {first rest : List A} :
    Meets step condition s (first ++ rest) ↔
      Meets step condition s first ∧ Meets step condition (first.foldl step s) rest := by
  induction first generalizing s with
  | nil => simp [Meets]
  | cons a first ih => simp only [List.cons_append, Meets, ih, List.foldl_cons, and_assoc]

theorem Meets.concat {step : S → A → S} {condition : S → A → Prop} {s : S} {actions : List A}
    {a : A} :
    Meets step condition s (actions ++ [a]) ↔
      Meets step condition s actions ∧ condition (actions.foldl step s) a := by
  rw [Meets.append, Meets, Meets, and_true]

/-- Two conditions that agree wherever a run may come to. -/
theorem meets_congr {step : S → A → S} {condition condition' : S → A → Prop} {I : S → Prop}
    (hstep : ∀ s a, I s → I (step s a)) (hiff : ∀ s a, I s → (condition s a ↔ condition' s a))
    {s : S} (hs : I s) (actions : List A) :
    Meets step condition s actions ↔ Meets step condition' s actions := by
  induction actions generalizing s with
  | nil => exact Iff.rfl
  | cons a rest ih => rw [Meets, Meets, hiff s a hs, ih (hstep s a hs)]

theorem meets_iff_getElem? {step : S → A → S} {condition : S → A → Prop} {s : S}
    {actions : List A} :
    Meets step condition s actions ↔
      ∀ k a, actions[k]? = some a → condition ((actions.take k).foldl step s) a := by
  induction actions generalizing s with
  | nil => simp [Meets]
  | cons first rest ih =>
    rw [Meets, ih]
    constructor
    · rintro ⟨hfirst, hrest⟩ k a hk
      cases k with
      | zero => exact Option.some.inj hk ▸ hfirst
      | succ k => exact hrest k a hk
    · intro h
      exact ⟨h 0 first rfl, fun k a hk => h (k + 1) a hk⟩

/-- Actions that meet the condition in every state. -/
theorem Meets.of_forall {step : S → A → S} {condition : S → A → Prop} {s : S} {actions : List A}
    (h : ∀ a ∈ actions, ∀ s, condition s a) : Meets step condition s actions := by
  induction actions generalizing s with
  | nil => trivial
  | cons a rest ih =>
    exact ⟨h a (List.mem_cons_self ..) s, ih fun b hb => h b (List.mem_cons_of_mem a hb)⟩

/-- A run that does not meet the condition has a first part up to an action that does not. -/
theorem Meets.exists_not {step : S → A → S} {condition : S → A → Prop} {s : S} {actions : List A}
    (h : ¬ Meets step condition s actions) : ∃ before a after, actions = before ++ a :: after ∧
      Meets step condition s before ∧ ¬ condition (before.foldl step s) a := by
  induction actions generalizing s with
  | nil => exact absurd trivial h
  | cons first rest ih =>
    by_cases hfirst : condition s first
    · obtain ⟨before, a, after, rfl, hbefore, ha⟩ := ih fun hrest => h ⟨hfirst, hrest⟩
      exact ⟨first :: before, a, after, rfl, ⟨hfirst, hbefore⟩, ha⟩
    · exact ⟨[], first, rest, rfl, trivial, hfirst⟩

/-- A property that a step keeps exactly when it meets the condition holds all along a run
exactly when every step meets the condition. The steps may rely on what holds all along the run
anyway. -/
theorem forall_take_iff_along {step : S → A → S} {condition : S → A → Prop} {I J : S → Prop}
    (hstep : ∀ s a, J s → J (step s a) → I s → (I (step s a) ↔ condition s a)) {s : S} (hs : I s)
    (actions : List A) (hJ : ∀ n, J ((actions.take n).foldl step s)) :
    (∀ n, I ((actions.take n).foldl step s)) ↔ Meets step condition s actions := by
  induction actions generalizing s with
  | nil => simpa [Meets] using hs
  | cons a rest ih =>
    have hiff := hstep s a (hJ 0) (hJ 1) hs
    have hrestJ : ∀ n, J ((rest.take n).foldl step (step s a)) := fun n => hJ (n + 1)
    rw [Meets]
    constructor
    · intro h
      have hfirst : I (step s a) := h 1
      exact ⟨hiff.mp hfirst, (ih hfirst hrestJ).mp fun n => h (n + 1)⟩
    · rintro ⟨ha, hrest⟩ n
      have hfirst : I (step s a) := hiff.mpr ha
      cases n with
      | zero => exact hs
      | succ n => exact (ih hfirst hrestJ).mpr hrest n

theorem forall_take_iff {step : S → A → S} {condition : S → A → Prop} {I : S → Prop}
    (hstep : ∀ s a, I s → (I (step s a) ↔ condition s a)) {s : S} (hs : I s) (actions : List A) :
    (∀ n, I ((actions.take n).foldl step s)) ↔ Meets step condition s actions := by
  have hkeeps : ∀ s a, True → True → I s → (I (step s a) ↔ condition s a) :=
    fun s a _ _ => hstep s a
  exact forall_take_iff_along hkeeps hs actions fun _ => trivial

/-- A measure that no step increases stays the same over a run exactly when every step keeps it,
which is what the condition says of a step. -/
theorem measure_eq_iff {step : S → A → S} {condition : S → A → Prop} {I : S → Prop} {μ : S → ℕ}
    (hinv : ∀ s a, I s → I (step s a)) (hle : ∀ s a, I s → μ (step s a) ≤ μ s)
    (heq : ∀ s a, I s → (μ (step s a) = μ s ↔ condition s a)) {s : S} (hs : I s)
    (actions : List A) :
    μ (actions.foldl step s) ≤ μ s ∧
      (μ (actions.foldl step s) = μ s ↔ Meets step condition s actions) := by
  induction actions generalizing s with
  | nil => exact ⟨Nat.le_refl _, iff_of_true rfl trivial⟩
  | cons a rest ih =>
    obtain ⟨hrest, hrestEq⟩ := ih (hinv s a hs)
    have hfirst := hle s a hs
    rw [List.foldl_cons, Meets, ← heq s a hs, ← hrestEq]
    omega

end Runs
