import Beamr.Lib.Entries
import Mathlib.Data.List.Nodup
import Mathlib.Logic.Function.Basic

/-!
# Exit tombstones

`BoundedTombstones` of `scheduler::exit_tombstones`: the bounded map of exit reasons with its
order of insertion, and beside it the durable record of the first terminal caller of each pid,
which outlives both the eviction of the tombstone and the taking of the outcome.
-/
namespace Beamr.Scheduler

/-- Reason and outcome of the first terminal transition; the outcome is gone once taken. -/
structure FinalizedOutcome (R O : Type) where
  reason : R
  outcome : Option O

structure BoundedTombstones (R O : Type) where
  reasons : List (ℕ × R)
  outcomes : ℕ → Option (FinalizedOutcome R O)
  order : List ℕ
  capacity : ℕ

namespace BoundedTombstones

variable {R O : Type}

/-- A zero capacity counts as one. -/
def withCapacity (R O : Type) (capacity : ℕ) : BoundedTombstones R O where
  reasons := []
  outcomes _ := none
  order := []
  capacity := max capacity 1

/-- Pops the order up to a pid that still has a tombstone and removes that tombstone. -/
def evictOldest : List ℕ → List (ℕ × R) → Option ℕ × List ℕ × List (ℕ × R)
  | [], reasons => (none, [], reasons)
  | oldest :: order, reasons =>
    if (Entries.get (· == ·) reasons oldest).isSome then
      (some oldest, order, Entries.erase (· == ·) oldest reasons)
    else evictOldest order reasons

/-- What the caller still has to do, what was evicted, and the store after. -/
structure Insertion (R O : Type) where
  publishEvent : Bool
  evicted : Option ℕ
  store : BoundedTombstones R O

/-- The part of `insert_outcome` under the writer mutex. -/
def insertOutcome (t : BoundedTombstones R O) (pid : ℕ) (reason : R) (outcome : O) :
    Insertion R O :=
  if (Entries.get (· == ·) t.reasons pid).isSome then
    ⟨false, none, { t with reasons := Entries.put (· == ·) pid reason t.reasons }⟩
  else
    let publishEvent := (t.outcomes pid).isNone
    let outcomes :=
      if publishEvent then Function.update t.outcomes pid (some ⟨reason, some outcome⟩)
      else t.outcomes
    let reasons := Entries.put (· == ·) pid reason t.reasons
    let order := t.order ++ [pid]
    if order.length > t.capacity then
      let (evicted, order, reasons) := evictOldest order reasons
      ⟨publishEvent, evicted, { t with reasons, outcomes, order }⟩
    else ⟨publishEvent, none, { t with reasons, outcomes, order }⟩

def finalizedReason (t : BoundedTombstones R O) (pid : ℕ) : Option R :=
  (t.outcomes pid).map (·.reason)

def takeOutcome (t : BoundedTombstones R O) (pid : ℕ) :
    Option (R × O) × BoundedTombstones R O :=
  match t.outcomes pid with
  | none => (none, t)
  | some finalized =>
    match finalized.outcome with
    | none => (none, t)
    | some outcome =>
      (some (finalized.reason, outcome), { t with
        outcomes := Function.update t.outcomes pid (some { finalized with outcome := none }) })

/-! ## The bounded map -/

/-- The order lists the pids of the tombstones, each once, and there is room for them. -/
structure InOrder (t : BoundedTombstones R O) : Prop where
  pids : t.reasons.map (·.1) = t.order
  nodup : t.order.Nodup
  room : t.order.length ≤ t.capacity
  capacity_pos : 0 < t.capacity

theorem inOrder_withCapacity (capacity : ℕ) : (withCapacity R O capacity).InOrder where
  pids := rfl
  nodup := List.nodup_nil
  room := Nat.zero_le _
  capacity_pos := Nat.lt_of_lt_of_le Nat.one_pos (Nat.le_max_right ..)

theorem get_isSome_iff {reasons : List (ℕ × R)} {pid : ℕ} :
    (Entries.get (· == ·) reasons pid).isSome ↔ pid ∈ reasons.map (·.1) := by
  induction reasons with
  | nil => simp [Entries.get]
  | cons e rest ih =>
    rw [Entries.get_cons, List.map_cons, List.mem_cons, ← ih]
    by_cases hpid : e.1 = pid
    · simp [hpid]
    · simp [hpid, Ne.symm hpid]

theorem map_put_of_mem {reasons : List (ℕ × R)} {pid : ℕ} (h : pid ∈ reasons.map (·.1))
    (reason : R) :
    (Entries.put (· == ·) pid reason reasons).map (·.1) = reasons.map (·.1) := by
  induction reasons with
  | nil => cases h
  | cons e rest ih =>
    rw [Entries.put]
    by_cases hpid : e.1 = pid
    · simp [hpid]
    · rw [if_neg (by simpa using hpid), List.map_cons, List.map_cons, ih]
      rw [List.map_cons, List.mem_cons] at h
      exact h.resolve_left (Ne.symm hpid)

theorem map_put_of_not_mem {reasons : List (ℕ × R)} {pid : ℕ} (h : pid ∉ reasons.map (·.1))
    (reason : R) :
    (Entries.put (· == ·) pid reason reasons).map (·.1) = reasons.map (·.1) ++ [pid] := by
  induction reasons with
  | nil => rfl
  | cons e rest ih =>
    rw [List.map_cons, List.mem_cons, not_or] at h
    rw [Entries.put, if_neg (by simpa using Ne.symm h.1), List.map_cons, ih h.2]
    rfl

/-- The oldest pid has its tombstone, so it is the one evicted. -/
theorem evictOldest_eq {reasons : List (ℕ × R)} {oldest : ℕ} {rest : List ℕ}
    (hpids : reasons.map (·.1) = oldest :: rest) (hnodup : (oldest :: rest).Nodup) :
    ∃ others, evictOldest (oldest :: rest) reasons = (some oldest, rest, others) ∧
      others.map (·.1) = rest := by
  have hfound : (Entries.get (· == ·) reasons oldest).isSome := by
    rw [get_isSome_iff, hpids]
    exact List.mem_cons_self ..
  obtain ⟨first, others, rfl, hfirst, hothers⟩ := List.map_eq_cons_iff.mp hpids
  have hkept : Entries.erase (· == ·) oldest (first :: others) = others := by
    rw [Entries.erase, List.filter_cons_of_neg (by simp [hfirst]), List.filter_eq_self]
    intro e he
    have hin : e.1 ∈ rest := by
      rw [← hothers]
      exact List.mem_map_of_mem he
    have hne : e.1 ≠ oldest := fun heq => (List.nodup_cons.mp hnodup).1 (heq ▸ hin)
    simpa using hne
  refine ⟨others, ?_, hothers⟩
  rw [evictOldest, if_pos hfound, hkept]

/-- A pid with a tombstone only gets the new reason. A pid without one goes to the end of the
order, and the front of the order is evicted when that is one too many. -/
theorem InOrder.insertOutcome {t : BoundedTombstones R O} (h : t.InOrder) (pid : ℕ) (reason : R)
    (outcome : O) :
    (t.insertOutcome pid reason outcome).store.InOrder ∧
    (t.insertOutcome pid reason outcome).store.capacity = t.capacity ∧
    ((pid ∈ t.order ∧ (t.insertOutcome pid reason outcome).evicted = none ∧
        (t.insertOutcome pid reason outcome).store.order = t.order) ∨
      (pid ∉ t.order ∧ t.order ++ [pid] = (t.insertOutcome pid reason outcome).evicted.toList ++
          (t.insertOutcome pid reason outcome).store.order ∧
        ((t.insertOutcome pid reason outcome).evicted ≠ none →
          (t.insertOutcome pid reason outcome).store.order.length = t.capacity))) := by
  by_cases hpid : pid ∈ t.order
  · have hfound : (Entries.get (· == ·) t.reasons pid).isSome := by
      rw [get_isSome_iff, h.pids]
      exact hpid
    rw [BoundedTombstones.insertOutcome, if_pos hfound]
    refine ⟨⟨?_, h.nodup, h.room, h.capacity_pos⟩, rfl, .inl ⟨hpid, rfl, rfl⟩⟩
    rw [← h.pids] at hpid
    exact (map_put_of_mem hpid reason).trans h.pids
  · have hfound : ¬ (Entries.get (· == ·) t.reasons pid).isSome := by
      rw [get_isSome_iff, h.pids]
      exact hpid
    have hpids : (Entries.put (· == ·) pid reason t.reasons).map (·.1) = t.order ++ [pid] := by
      rw [map_put_of_not_mem (by rwa [h.pids]), h.pids]
    have hnodup : (t.order ++ [pid]).Nodup := by
      rw [List.nodup_append]
      refine ⟨h.nodup, List.nodup_singleton pid, ?_⟩
      intro a ha b hb hab
      rw [List.mem_singleton] at hb
      subst hab hb
      exact hpid ha
    have hroom := h.room
    have hlength : (t.order ++ [pid]).length = t.order.length + 1 := by simp
    rw [BoundedTombstones.insertOutcome, if_neg hfound]
    dsimp only
    by_cases hfull : (t.order ++ [pid]).length > t.capacity
    · rw [if_pos hfull]
      obtain ⟨oldest, rest, hcons⟩ : ∃ oldest rest, t.order ++ [pid] = oldest :: rest :=
        List.exists_cons_of_ne_nil (by simp)
      rw [hcons] at hpids hnodup hlength ⊢
      obtain ⟨others, hevict, hothers⟩ := evictOldest_eq hpids hnodup
      rw [List.length_cons] at hlength
      rw [hcons, List.length_cons] at hfull
      rw [hevict]
      dsimp only
      refine ⟨⟨hothers, (List.nodup_cons.mp hnodup).2, ?_, h.capacity_pos⟩, rfl,
        .inr ⟨hpid, rfl, fun _ => ?_⟩⟩
      · dsimp only
        omega
      · omega
    · rw [if_neg hfull]
      refine ⟨⟨hpids, hnodup, ?_, h.capacity_pos⟩, rfl, .inr ⟨hpid, rfl, fun hne => absurd rfl hne⟩⟩
      dsimp only
      omega

/-- The durable record is made by the first caller, which is the one that publishes. -/
theorem InOrder.insertOutcome_outcomes {t : BoundedTombstones R O} (h : t.InOrder)
    (hknown : ∀ pid ∈ t.order, (t.outcomes pid).isSome) (pid : ℕ) (reason : R) (outcome : O) :
    (t.insertOutcome pid reason outcome).publishEvent = (t.outcomes pid).isNone ∧
    (t.insertOutcome pid reason outcome).store.outcomes =
      if (t.outcomes pid).isNone then Function.update t.outcomes pid (some ⟨reason, some outcome⟩)
      else t.outcomes := by
  rw [BoundedTombstones.insertOutcome]
  split
  next hfound =>
    rw [get_isSome_iff, h.pids] at hfound
    have hsome := hknown pid hfound
    have hnone : (t.outcomes pid).isNone = false := by
      rw [← Option.not_isSome, hsome]
      rfl
    rw [hnone]
    exact ⟨rfl, rfl⟩
  next =>
    dsimp only
    split <;> exact ⟨rfl, rfl⟩

end BoundedTombstones

end Beamr.Scheduler
