import Mathlib.Data.List.Basic
import Mathlib.Logic.Function.Basic
import Mathlib.Tactic.Common

/-!
# Replayed updates

A view assigns a value to each key, and an update sets the value of one key. Updates of different
keys may change places; of those of one key, the last one counts.
-/
namespace Replay

variable {U K V : Type*} [DecidableEq K] (key : U → K) (value : U → V)

def settle (view : K → V) (updates : List U) : K → V :=
  updates.foldl (fun view u => Function.update view (key u) (value u)) view

variable {key value} {view : K → V}

theorem settle_cons (u : U) (rest : List U) : settle key value view (u :: rest) =
    settle key value (Function.update view (key u) (value u)) rest := rfl

theorem settle_append (first rest : List U) : settle key value view (first ++ rest) =
    settle key value (settle key value view first) rest :=
  List.foldl_append ..

/-- An update may be replayed before those of other keys. -/
theorem settle_move {before : List U} {u : U} (h : ∀ v ∈ before, key v ≠ key u) (after : List U) :
    settle key value view (before ++ u :: after) =
      settle key value view (u :: before ++ after) := by
  induction before generalizing view with
  | nil => rfl
  | cons v rest ih =>
    rw [List.cons_append, settle_cons, ih fun w hw => h w (List.mem_cons_of_mem v hw),
      List.cons_append, settle_cons, List.cons_append, List.cons_append, settle_cons, settle_cons,
      Function.update_comm (h v (List.mem_cons_self ..))]

/-- Updates that set one value. -/
theorem settle_const (key : U → K) (view : K → V) {updates : List U} {b : V} (h : ∀ u ∈ updates, value u = b) (k : K) :
    settle key value view updates k = b ∧ (∃ u ∈ updates, key u = k) ∨
      settle key value view updates k = view k ∧ ¬ ∃ u ∈ updates, key u = k := by
  induction updates generalizing view with
  | nil => exact .inr ⟨rfl, by simp⟩
  | cons u rest ih =>
    rw [settle_cons]
    rcases ih _ fun v hv => h v (List.mem_cons_of_mem u hv) with ⟨hvalue, v, hv, hkey⟩ | ⟨hvalue, hnone⟩
    · exact .inl ⟨hvalue, v, List.mem_cons_of_mem u hv, hkey⟩
    · by_cases hu : key u = k
      · rw [hvalue, ← hu, Function.update_self]
        exact .inl ⟨h u (List.mem_cons_self ..), u, List.mem_cons_self .., rfl⟩
      · rw [hvalue, Function.update_of_ne (Ne.symm hu)]
        refine .inr ⟨rfl, ?_⟩
        rintro ⟨v, hv, hkey⟩
        rcases List.mem_cons.mp hv with rfl | hv
        · exact hu hkey
        · exact hnone ⟨v, hv, hkey⟩

end Replay
