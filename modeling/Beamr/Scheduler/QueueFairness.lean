import Mathlib.Algebra.Order.Group.Multiset
import Mathlib.Data.Fintype.BigOperators
import Mathlib.Tactic.Abel
import Beamr.Scheduler.RunQueue

/-!
# Run queues lose nothing and starve nobody

What every step of the queues keeps, from the effects of a step: the entries pushed and not popped
are in the lanes of their priority, those that stay in a lane keep their order, and a low entry at
the front of its lane waits for no more pops than the window.
-/
namespace Beamr.Scheduler

namespace RunQueues

variable {n : ℕ} {s : RunQueues n} {lowFairnessWindow : Fin n → UInt64}

/-! ## Nothing is lost -/

/-- The entries of a priority in all lanes, and in the hands of threads. -/
def inLanes (s : RunQueues n) (p : Priority) : Multiset Queued :=
  ∑ j, (s.lane j p : Multiset Queued)

def inHands (s : RunQueues n) (p : Priority) : Multiset Queued :=
  ∑ j, (hand (s.task j) p : Multiset Queued)

def queued (s : RunQueues n) (p : Priority) : Multiset Queued := s.inLanes p + s.inHands p

/-- The entries of a log with a priority. -/
def entriesAt (log : List (Fin n × Priority × Queued)) (p : Priority) : Multiset Queued :=
  (log.filter (·.2.1 = p)).map (·.2.2)

/-- What was pushed and not popped is in a lane of its priority or in hand. -/
def Conserved (s : RunQueues n) : Prop :=
  ∀ p, s.queued p + entriesAt s.popped p = entriesAt s.pushed p

theorem entriesAt_concat (log : List (Fin n × Priority × Queued)) (i : Fin n) (p q : Priority)
    (entry : Queued) : entriesAt (log ++ [(i, p, entry)]) q =
      entriesAt log q + if p = q then {entry} else 0 := by
  rw [entriesAt, List.filter_append, List.map_append, ← Multiset.coe_add]
  by_cases h : p = q
  · simp [h, entriesAt]
  · simp [h, entriesAt]

/-- Changing one summand. -/
theorem sum_congr_add {f g : Fin n → Multiset Queued} (i : Fin n) (h : ∀ j, j ≠ i → g j = f j) :
    ∑ j, g j + f i = ∑ j, f j + g i := by
  have hrest : ∑ j ∈ Finset.univ.erase i, g j = ∑ j ∈ Finset.univ.erase i, f j :=
    Finset.sum_congr rfl fun j hj => h j (Finset.ne_of_mem_erase hj)
  rw [← Finset.sum_erase_add _ g (Finset.mem_univ i), hrest,
    ← Finset.sum_erase_add _ f (Finset.mem_univ i), add_right_comm]

theorem inLanes_congr {s' : RunQueues n} {p : Priority} (h : ∀ j, s'.lane j p = s.lane j p) :
    s'.inLanes p = s.inLanes p := Finset.sum_congr rfl fun j _ => by rw [h]

theorem inHands_congr {s' : RunQueues n} {p : Priority}
    (h : ∀ j, hand (s'.task j) p = hand (s.task j) p) : s'.inHands p = s.inHands p :=
  Finset.sum_congr rfl fun j _ => by rw [h]

theorem inLanes_setLane (i : Fin n) (p : Priority) (entries : List Queued) :
    (s.setLane i p entries).inLanes p + s.lane i p = s.inLanes p + entries := by
  have h := sum_congr_add (f := fun j => (s.lane j p : Multiset Queued))
    (g := fun j => ((s.setLane i p entries).lane j p : Multiset Queued)) i fun j hj => by
      simp [lane_setLane, hj]
  rw [lane_setLane_self] at h
  exact h

theorem inHands_setTask (i : Fin n) (task : Task n) (p : Priority) :
    (s.setTask i task).inHands p + hand (s.task i) p = s.inHands p + hand task p := by
  have h := sum_congr_add (f := fun j => (hand (s.task j) p : Multiset Queued))
    (g := fun j => (hand ((s.setTask i task).task j) p : Multiset Queued)) i fun j hj => by
      simp [task_setTask, hj]
  rw [task_setTask_self] at h
  exact h

theorem inLanes_setLane_of_ne {i : Fin n} {p q : Priority} (h : q ≠ p) (entries : List Queued) :
    (s.setLane i p entries).inLanes q = s.inLanes q :=
  inLanes_congr fun _ => lane_setLane_of_ne h entries

theorem inHands_setTask_of_eq {i : Fin n} {task : Task n} {p : Priority}
    (h : hand task p = hand (s.task i) p) : (s.setTask i task).inHands p = s.inHands p := by
  have hsum := inHands_setTask (s := s) i task p
  rw [h] at hsum
  exact add_right_cancel hsum

/-- Entries that leave the front of a lane. -/
theorem inLanes_removed {i : Fin n} {p : Priority} (removed kept : List Queued)
    (hlane : s.lane i p = removed ++ kept) :
    s.inLanes p = (s.setLane i p kept).inLanes p + removed := by
  have h := inLanes_setLane (s := s) i p kept
  rw [hlane, ← Multiset.coe_add, ← add_assoc] at h
  exact (add_right_cancel h).symm

/-- Entries that are appended to a lane. -/
theorem inLanes_appended (i : Fin n) (p : Priority) (added : List Queued) :
    (s.setLane i p (s.lane i p ++ added)).inLanes p = s.inLanes p + added := by
  have h := inLanes_setLane (s := s) i p (s.lane i p ++ added)
  rw [← Multiset.coe_add, ← add_assoc, add_right_comm] at h
  exact add_right_cancel h

theorem Effect.conserved {i : Fin n} {s' : RunQueues n} (h : Effect s lowFairnessWindow i s')
    (hs : s.Conserved) : s'.Conserved := by
  intro q
  have hq : s.inLanes q + s.inHands q + entriesAt s.popped q = entriesAt s.pushed q := hs q
  cases h with
  | same => exact hq
  | slice inSlice =>
    rw [queued, inLanes_congr (s := s) (by simp), inHands_congr (s := s) (by simp)]
    exact hq
  | call task hhand hfair =>
    rw [queued, inLanes_congr (s := s) (by simp), inHands_setTask_of_eq (congrFun hhand q)]
    exact hq
  | push pid p hidle =>
    have hhands : (s.pushWithPriority i pid p).inHands q = s.inHands q :=
      inHands_congr (s := s) fun j => congrArg (hand · q) (task_setLane ..)
    have hlanes : (s.pushWithPriority i pid p).inLanes q =
        s.inLanes q + if p = q then {⟨pid, s.pushed.length⟩} else 0 := by
      by_cases hpq : p = q
      · rw [if_pos hpq, ← hpq]
        exact inLanes_appended i p _
      · rw [if_neg hpq, add_zero]
        exact inLanes_setLane_of_ne (Ne.symm hpq) _
    have hpushed : (s.pushWithPriority i pid p).pushed =
        s.pushed ++ [(i, p, ⟨pid, s.pushed.length⟩)] := rfl
    have hpopped : (s.pushWithPriority i pid p).popped = s.popped := rfl
    rw [queued, hhands, hlanes, hpushed, hpopped, entriesAt_concat, ← hq]
    abel
  | pop p entry rest hlane hhand hlanes =>
    have hhands : (s.popFront i p entry rest).inHands q = s.inHands q := by
      refine inHands_congr fun j => ?_
      rw [task_popFront]
      split
      next hj =>
        rw [hj, hhand q]
        rfl
      next => rfl
    have hlanes : s.inLanes q = (s.popFront i p entry rest).inLanes q +
        if p = q then {entry} else 0 := by
      rw [inLanes_congr (s := s.setLane i p rest) fun j => lane_popFront i j p q entry rest]
      by_cases hpq : p = q
      · rw [if_pos hpq, ← hpq]
        exact inLanes_removed [entry] rest hlane
      · rw [if_neg hpq, add_zero]
        exact (inLanes_setLane_of_ne (Ne.symm hpq) _).symm
    have hpushed : (s.popFront i p entry rest).pushed = s.pushed := rfl
    have hpopped : (s.popFront i p entry rest).popped = s.popped ++ [(i, p, entry)] := rfl
    rw [queued, hhands, hpushed, hpopped, entriesAt_concat, ← hq, hlanes]
    abel
  | batch victim attempts p first waiting others before loop hlane hhand hsteal =>
    have hhands : inHands ((s.stealBatch i victim p first waiting others).setTask i
        (.steal victim attempts (.pushBack first p before loop))) q =
          s.inHands q + if p = q then {first} else 0 := by
      have h := inHands_setTask (s := s.stealBatch i victim p first waiting others) i
        (.steal victim attempts (.pushBack first p before loop)) q
      have hsame : (s.stealBatch i victim p first waiting others).inHands q = s.inHands q :=
        inHands_congr fun j => by rw [task_stealBatch]
      rw [task_stealBatch, hhand q, hsame, Multiset.coe_nil, add_zero] at h
      rw [h, hand]
      by_cases hpq : p = q
      · simp [hpq]
      · simp [hpq, Ne.symm hpq]
    have hlanes : s.inLanes q = inLanes ((s.stealBatch i victim p first waiting others).setTask i
        (.steal victim attempts (.pushBack first p before loop))) q +
          if p = q then {first} else 0 := by
      rw [inLanes_congr (s := s.stealBatch i victim p first waiting others)
          fun j => lane_setTask ..,
        inLanes_congr fun j => lane_stealBatch ..]
      by_cases hpq : p = q
      · rw [if_pos hpq, ← hpq, inLanes_appended]
        have hsplit : s.lane victim p =
            (first :: waiting.take others) ++ waiting.drop others := by
          rw [hlane, List.cons_append, List.take_append_drop]
        rw [inLanes_removed _ _ hsplit, ← Multiset.cons_coe, ← Multiset.singleton_add]
        abel
      · rw [if_neg hpq, add_zero, inLanes_setLane_of_ne (Ne.symm hpq),
          inLanes_setLane_of_ne (Ne.symm hpq)]
    have hpushed : ((s.stealBatch i victim p first waiting others).setTask i
        (.steal victim attempts (.pushBack first p before loop))).pushed = s.pushed := rfl
    have hpopped : ((s.stealBatch i victim p first waiting others).setTask i
        (.steal victim attempts (.pushBack first p before loop))).popped = s.popped := rfl
    rw [queued, hhands, hpushed, hpopped, ← hq, hlanes]
    abel
  | pushBack victim attempts p first before loop htask =>
    have hhands : inHands ((s.setLane i p (s.lane i p ++ [first])).setTask i
        (.steal victim attempts (.count p before loop))) q + (if p = q then {first} else 0) =
          s.inHands q := by
      have h := inHands_setTask (s := s.setLane i p (s.lane i p ++ [first])) i
        (.steal victim attempts (.count p before loop)) q
      have hsame : (s.setLane i p (s.lane i p ++ [first])).inHands q = s.inHands q :=
        inHands_congr fun j => by rw [task_setLane]
      rw [task_setLane, hsame, htask, hand] at h
      by_cases hpq : p = q
      · simpa [hpq, hand] using h
      · simpa [hpq, Ne.symm hpq, hand] using h
    have hlanes : inLanes ((s.setLane i p (s.lane i p ++ [first])).setTask i
        (.steal victim attempts (.count p before loop))) q =
          s.inLanes q + if p = q then {first} else 0 := by
      rw [inLanes_congr (s := s.setLane i p (s.lane i p ++ [first])) fun j => lane_setTask ..]
      by_cases hpq : p = q
      · rw [if_pos hpq, ← hpq]
        exact inLanes_appended i p _
      · rw [if_neg hpq, add_zero]
        exact inLanes_setLane_of_ne (Ne.symm hpq) _
    have hpushed : ((s.setLane i p (s.lane i p ++ [first])).setTask i
        (.steal victim attempts (.count p before loop))).pushed = s.pushed := rfl
    have hpopped : ((s.setLane i p (s.lane i p ++ [first])).setTask i
        (.steal victim attempts (.count p before loop))).popped = s.popped := rfl
    rw [queued, hlanes, hpushed, hpopped, ← hq, ← hhands]
    abel

/-! ## First in, first out -/

/-- The entries of a log at one lane, and at one queue. -/
def ofLane (log : List (Fin n × Priority × Queued)) (i : Fin n) (p : Priority) : List Queued :=
  (log.filter fun r => r.1 = i ∧ r.2.1 = p).map (·.2.2)

def ofQueue (log : List (Fin n × Priority × Queued)) (i : Fin n) : List Queued :=
  (log.filter (·.1 = i)).map (·.2.2)

/-- The entries that have never been stolen. -/
def unstolen (s : RunQueues n) (entries : List Queued) : List Queued :=
  entries.filter (·.stamp ∉ s.moved)

/-- What was pushed on a lane and not stolen was popped first or is still in the lane, in the order
of the pushes. -/
def InOrder (s : RunQueues n) : Prop := ∀ i p,
  s.unstolen (ofLane s.pushed i p) = s.unstolen (ofLane s.popped i p) ++ s.unstolen (s.lane i p)

/-- What a thread has in hand was stolen. -/
def HandsStolen (s : RunQueues n) : Prop := ∀ i p, ∀ e ∈ hand (s.task i) p, e.stamp ∈ s.moved

theorem ofLane_concat (log : List (Fin n × Priority × Queued)) (i j : Fin n) (p q : Priority)
    (entry : Queued) : ofLane (log ++ [(i, p, entry)]) j q =
      ofLane log j q ++ if i = j ∧ p = q then [entry] else [] := by
  rw [ofLane, List.filter_append, List.map_append]
  by_cases h : i = j ∧ p = q
  · simp [h, ofLane]
  · simp [h, ofLane]

theorem unstolen_append (first rest : List Queued) :
    s.unstolen (first ++ rest) = s.unstolen first ++ s.unstolen rest := List.filter_append ..

theorem unstolen_eq_nil {entries : List Queued} (h : ∀ e ∈ entries, e.stamp ∈ s.moved) :
    s.unstolen entries = [] := by
  rw [unstolen, List.filter_eq_nil_iff]
  intro e he
  simpa using h e he

theorem unstolen_setTask (i : Fin n) (task : Task n) (entries : List Queued) :
    (s.setTask i task).unstolen entries = s.unstolen entries := rfl

theorem unstolen_setLane (i : Fin n) (p : Priority) (lane entries : List Queued) :
    (s.setLane i p lane).unstolen entries = s.unstolen entries := rfl

/-- With more entries stolen, fewer are left of those that were not. -/
theorem unstolen_unstolen {s' : RunQueues n} (h : s.moved ⊆ s'.moved) (entries : List Queued) :
    s'.unstolen (s.unstolen entries) = s'.unstolen entries := by
  rw [unstolen, unstolen, List.filter_filter, unstolen]
  refine List.filter_congr fun e _ => ?_
  by_cases he : e.stamp ∈ s'.moved
  · simp [he]
  · have hold : e.stamp ∉ s.moved := fun hmem => he (h hmem)
    simp [he, hold]

theorem InOrder.of_moved {s' : RunQueues n} (hs : s.InOrder) (h : s.moved ⊆ s'.moved)
    (hpushed : s'.pushed = s.pushed) (hpopped : s'.popped = s.popped)
    (hlane : ∀ i p, s'.unstolen (s'.lane i p) = s'.unstolen (s.lane i p)) : s'.InOrder := by
  intro i p
  rw [hpushed, hpopped, hlane, ← unstolen_unstolen h, hs i p, unstolen_append,
    unstolen_unstolen h, unstolen_unstolen h]

theorem Effect.moved_suffix {i : Fin n} {s' : RunQueues n} (h : Effect s lowFairnessWindow i s') :
    s.moved <:+ s'.moved := by
  cases h with
  | batch => exact List.suffix_append ..
  | _ => exact List.suffix_refl _

theorem Effect.handsStolen {i : Fin n} {s' : RunQueues n} (h : Effect s lowFairnessWindow i s')
    (hs : s.HandsStolen) : s'.HandsStolen := by
  have hmoved := h.moved_suffix.subset
  intro j q e he
  cases h with
  | same => exact hs j q e he
  | slice inSlice =>
    rw [task_setSlice] at he
    exact hs j q e he
  | call task hhand hfair =>
    rw [task_setTask] at he
    split at he
    next hj => exact hs i q e (hhand ▸ he)
    next => exact hs j q e he
  | push pid p hidle =>
    have htask : (s.pushWithPriority i pid p).task j = s.task j := task_setLane ..
    rw [htask] at he
    exact hs j q e he
  | pop p entry rest hlane hhand hlanes =>
    rw [task_popFront] at he
    split at he
    next => cases he
    next => exact hs j q e he
  | batch victim attempts p first waiting others before loop hlane hhand hsteal =>
    rw [task_setTask] at he
    split at he
    next =>
      rw [hand] at he
      split at he
      next =>
        rw [List.mem_singleton.1 he]
        exact List.mem_append_left _ (List.mem_cons_self ..)
      next => cases he
    next =>
      rw [task_stealBatch] at he
      exact hmoved (hs j q e he)
  | pushBack victim attempts p first before loop htask =>
    rw [task_setTask, task_setLane] at he
    split at he
    next => cases he
    next => exact hs j q e he

theorem Effect.inOrder {i : Fin n} {s' : RunQueues n} (h : Effect s lowFairnessWindow i s')
    (hs : s.InOrder) (hhands : s.HandsStolen) : s'.InOrder := by
  have hmoved := h.moved_suffix.subset
  cases h with
  | same => exact hs
  | slice inSlice => exact hs.of_moved hmoved rfl rfl fun j q => by rw [lane_setSlice]
  | call task hhand hfair => exact hs.of_moved hmoved rfl rfl fun j q => by rw [lane_setTask]
  | push pid p hidle =>
    intro j q
    have hpushed : (s.pushWithPriority i pid p).pushed =
        s.pushed ++ [(i, p, ⟨pid, s.pushed.length⟩)] := rfl
    have hlane : (s.pushWithPriority i pid p).lane j q =
        s.lane j q ++ if i = j ∧ p = q then [⟨pid, s.pushed.length⟩] else [] := by
      refine (lane_setLane i j p q _).trans ?_
      by_cases hat : i = j ∧ p = q
      · obtain ⟨rfl, rfl⟩ := hat
        simp
      · have hother : ¬ (j = i ∧ q = p) := fun h => hat ⟨h.1.symm, h.2.symm⟩
        simp [hat, hother]
    rw [hpushed, hlane, ofLane_concat, unstolen_append, unstolen_append, ← List.append_assoc]
    exact congrArg (· ++ _) (hs j q)
  | pop p entry rest hlane hhand hlanes =>
    intro j q
    have hpopped : (s.popFront i p entry rest).popped = s.popped ++ [(i, p, entry)] := rfl
    have hafter : s.lane j q =
        (if i = j ∧ p = q then [entry] else []) ++ (s.popFront i p entry rest).lane j q := by
      rw [lane_popFront, lane_setLane]
      by_cases hat : i = j ∧ p = q
      · obtain ⟨rfl, rfl⟩ := hat
        simp [hlane]
      · have hother : ¬ (j = i ∧ q = p) := fun h => hat ⟨h.1.symm, h.2.symm⟩
        simp [hat, hother]
    rw [hpopped, ofLane_concat, unstolen_append, List.append_assoc, ← unstolen_append, ← hafter]
    exact hs j q
  | batch victim attempts p first waiting others before loop hlane hhand hsteal =>
    refine hs.of_moved hmoved rfl rfl fun j q => ?_
    have hbatch : ∀ e ∈ first :: waiting.take others,
        e.stamp ∈ (s.stealBatch i victim p first waiting others).moved := fun e he =>
      List.mem_append_left _ (List.mem_map_of_mem he)
    have hothers : ∀ e ∈ waiting.take others,
        e.stamp ∈ (s.stealBatch i victim p first waiting others).moved := fun e he =>
      hbatch e (List.mem_cons_of_mem _ he)
    -- neither what leaves the victim nor what the thief gets counts
    have hvictim : unstolen (s.stealBatch i victim p first waiting others)
        ((s.setLane victim p (waiting.drop others)).lane j q) =
          unstolen (s.stealBatch i victim p first waiting others) (s.lane j q) := by
      rw [lane_setLane]
      split
      next hat =>
        have hsplit : s.lane victim p =
            (first :: waiting.take others) ++ waiting.drop others := by
          rw [hlane, List.cons_append, List.take_append_drop]
        rw [hat.1, hat.2, hsplit, unstolen_append, unstolen_eq_nil hbatch, List.nil_append]
      next => rfl
    rw [unstolen_setTask, unstolen_setTask, lane_setTask, lane_stealBatch, ← hvictim, lane_setLane]
    split
    next hat =>
      rw [unstolen_append, unstolen_eq_nil hothers, hat.1, hat.2, List.append_nil]
    next => rfl
  | pushBack victim attempts p first before loop htask =>
    refine hs.of_moved hmoved rfl rfl fun j q => ?_
    rw [unstolen_setTask, unstolen_setTask, unstolen_setLane, unstolen_setLane, lane_setTask,
      lane_setLane]
    split
    next hat =>
      have hfirst : ∀ e ∈ [first], e.stamp ∈ s.moved := fun e he =>
        hhands i p e (by simpa [htask, hand] using he)
      rw [unstolen_append, unstolen_eq_nil hfirst, hat.1, hat.2, List.append_nil]
    next => rfl

/-! ## Low entries wait for a window -/

/-- The counter of a queue. -/
def count (s : RunQueues n) (i : Fin n) : ℕ := (s.queues i).nonLowPopsSinceLow

theorem count_setQueue {i : Fin n} {queue : RunQueue n} (h : queue.nonLowPopsSinceLow = s.count i)
    (j : Fin n) : (s.setQueue i queue).count j = s.count j := by
  rw [count, queues_setQueue]
  split
  next hj => rw [hj, h]
  next => rfl

@[simp] theorem count_setTask (i j : Fin n) (task : Task n) :
    (s.setTask i task).count j = s.count j := by
  refine count_setQueue ?_ j
  rfl

@[simp] theorem count_setLane (i j : Fin n) (p : Priority) (entries : List Queued) :
    (s.setLane i p entries).count j = s.count j := by
  refine count_setQueue ?_ j
  rfl

@[simp] theorem count_setSlice (i j : Fin n) (inSlice : Bool) :
    (s.setSlice i inSlice).count j = s.count j := by
  refine count_setQueue ?_ j
  rfl

theorem count_stealBatch (i victim j : Fin n) (p : Priority) (first : Queued)
    (waiting : List Queued) (others : ℕ) :
    (s.stealBatch i victim p first waiting others).count j = s.count j :=
  (count_setLane (s := s.setLane victim p (waiting.drop others)) i j p _).trans (count_setLane ..)

theorem count_popFront (i j : Fin n) (p : Priority) (entry : Queued) (rest : List Queued) :
    (s.popFront i p entry rest).count j = if j = i then
      if p = .low then 0 else min (s.count i + 1) (2 ^ 64 - 1) else s.count j := by
  have hset : (s.popFront i p entry rest).count j = ((s.setLane i p rest).recordPop i p).count j :=
    count_setTask (s := (s.setLane i p rest).recordPop i p) i j .idle
  rw [hset, count, recordPop, queues_setQueue]
  split
  next =>
    have hcount : ((s.setLane i p rest).queues i).nonLowPopsSinceLow = s.count i :=
      count_setLane i i p rest
    dsimp only
    rw [hcount]
  next => exact count_setLane i j p rest

theorem fair_congr {s' : RunQueues n} {i : Fin n} (hcount : s'.count i = s.count i)
    (hlane : s'.lane i .low ≠ [] → s.lane i .low ≠ []) (h : s.Fair lowFairnessWindow i) :
    s'.Fair lowFairnessWindow i := by
  intro hwindow hne
  change s'.count i < _
  rw [hcount]
  exact h hwindow (hlane hne)

variable (lowFairnessWindow) in
/-- A thread that goes through its lanes has no low entry to prefer. -/
def FairTasks (s : RunQueues n) : Prop :=
  ∀ i rest, s.task i = .lanes rest → s.Fair lowFairnessWindow i

theorem Effect.fairTasks {i : Fin n} {s' : RunQueues n} (h : Effect s lowFairnessWindow i s')
    (hs : s.FairTasks lowFairnessWindow) : s'.FairTasks lowFairnessWindow := by
  intro j rest hrest
  cases h with
  | same => exact hs j rest hrest
  | slice inSlice =>
    rw [task_setSlice] at hrest
    exact fair_congr (count_setSlice ..) (by simp) (hs j rest hrest)
  | call task hhand hfair =>
    refine fair_congr (s := s) (count_setTask ..) (by simp) ?_
    rw [task_setTask] at hrest
    split at hrest
    next hj =>
      rcases hfair rest hrest with hnow | ⟨before, hbefore⟩
      · exact hj ▸ hnow
      · exact hj ▸ hs i before hbefore
    next => exact hs j rest hrest
  | push pid p hidle =>
    have htask : (s.pushWithPriority i pid p).task j = s.task j := task_setLane ..
    rw [htask] at hrest
    have hj : j ≠ i := by
      rintro rfl
      rw [hidle] at hrest
      cases hrest
    have hlane : (s.pushWithPriority i pid p).lane j .low = s.lane j .low :=
      (lane_setLane i j p .low _).trans (if_neg fun h => hj h.1)
    exact fair_congr (count_setLane ..) (by rw [hlane]; exact id) (hs j rest hrest)
  | pop p entry rest' hlane hhand hlanes =>
    rw [task_popFront] at hrest
    split at hrest
    next => cases hrest
    next hj =>
      have hlane : (s.popFront i p entry rest').lane j .low = s.lane j .low :=
        (lane_popFront i j p .low entry rest').trans
          ((lane_setLane i j p .low _).trans (if_neg fun h => hj h.1))
      have hcount : (s.popFront i p entry rest').count j = s.count j :=
        (count_popFront i j p entry rest').trans (if_neg hj)
      exact fair_congr hcount (by rw [hlane]; exact id) (hs j rest hrest)
  | batch victim attempts p first waiting others before loop hlane hhand hsteal =>
    rw [task_setTask, task_stealBatch] at hrest
    split at hrest
    next => cases hrest
    next hj =>
      refine fair_congr ((count_setTask ..).trans (count_stealBatch ..)) ?_ (hs j rest hrest)
      rw [lane_setTask, lane_stealBatch, lane_setLane, if_neg fun h => hj h.1, lane_setLane]
      split
      next hat =>
        rw [hat.1, hat.2, hlane]
        exact fun _ => List.cons_ne_nil _ _
      next => exact id
  | pushBack victim attempts p first before loop htask =>
    rw [task_setTask, task_setLane] at hrest
    split at hrest
    next => cases hrest
    next hj =>
      refine fair_congr ((count_setTask ..).trans (count_setLane ..)) ?_ (hs j rest hrest)
      rw [lane_setTask, lane_setLane, if_neg fun h => hj h.1]
      exact id

/-- An entry that was at the front of the low lane when `base` pops of the queue had returned is
there still, and no more pops are left than the window allows. -/
structure Waits (s : RunQueues n) (window : ℕ) (i : Fin n) (e : Queued) (base : ℕ) : Prop where
  front : ∃ rest, s.lane i .low = e :: rest
  base_le : base ≤ (ofQueue s.popped i).length
  pops : (ofQueue s.popped i).length + (window - s.count i) ≤ base + window

/-- It was popped after at most `window` further pops. -/
def Served (s : RunQueues n) (window : ℕ) (i : Fin n) (e : Queued) (base : ℕ) : Prop :=
  ∃ k ≤ window, (ofQueue s.popped i)[base + k]? = some e

theorem ofQueue_concat (log : List (Fin n × Priority × Queued)) (i j : Fin n) (p : Priority)
    (entry : Queued) : ofQueue (log ++ [(i, p, entry)]) j =
      ofQueue log j ++ if i = j then [entry] else [] := by
  rw [ofQueue, List.filter_append, List.map_append]
  by_cases h : i = j
  · simp [h, ofQueue]
  · simp [h, ofQueue]

theorem Served.of_append {s' : RunQueues n} {window : ℕ} {i : Fin n} {e : Queued} {base : ℕ}
    (h : Served s window i e base) (more : List Queued)
    (hpopped : ofQueue s'.popped i = ofQueue s.popped i ++ more) : Served s' window i e base := by
  obtain ⟨k, hk, hget⟩ := h
  refine ⟨k, hk, ?_⟩
  rw [hpopped, List.getElem?_append_left (List.getElem?_eq_some_iff.1 hget).1]
  exact hget

theorem Waits.congr {s' : RunQueues n} {window : ℕ} {i : Fin n} {e : Queued} {base : ℕ}
    (h : Waits s window i e base) (hlane : ∃ more, s'.lane i .low = s.lane i .low ++ more)
    (hpopped : ofQueue s'.popped i = ofQueue s.popped i) (hcount : s'.count i = s.count i) :
    Waits s' window i e base := by
  obtain ⟨rest, hfront⟩ := h.front
  obtain ⟨more, hlane⟩ := hlane
  refine ⟨⟨rest ++ more, ?_⟩, ?_, ?_⟩
  · rw [hlane, hfront, List.cons_append]
  · rw [hpopped]
    exact h.base_le
  · rw [hpopped, hcount]
    exact h.pops

theorem Effect.waits {i j : Fin n} {s' : RunQueues n} {e : Queued} {base : ℕ}
    (h : Effect s lowFairnessWindow j s') (hfair : s.FairTasks lowFairnessWindow)
    (hpositive : 0 < (lowFairnessWindow i).toNat)
    (hs : s.Waits (lowFairnessWindow i).toNat i e base)
    (hstay : s'.moved.count e.stamp ≤ s.moved.count e.stamp) :
    s'.Waits (lowFairnessWindow i).toNat i e base ∨
      s'.Served (lowFairnessWindow i).toNat i e base := by
  obtain ⟨rest₀, hfront⟩ := hs.front
  cases h with
  | same => exact .inl hs
  | slice inSlice => exact .inl (hs.congr ⟨[], by simp⟩ rfl (count_setSlice ..))
  | call task hhand hcall => exact .inl (hs.congr ⟨[], by simp⟩ rfl (count_setTask ..))
  | push pid p hidle =>
    have hlane : (s.pushWithPriority j pid p).lane i .low =
        if i = j ∧ .low = p then s.lane j p ++ [⟨pid, s.pushed.length⟩] else s.lane i .low :=
      lane_setLane j i p .low _
    refine .inl (hs.congr ?_ rfl (count_setLane ..))
    rw [hlane]
    split
    next hat => exact ⟨[_], by rw [hat.1, hat.2]⟩
    next => exact ⟨[], (List.append_nil _).symm⟩
  | pop p entry rest hlane hhand hlanes =>
    have hpopped : ofQueue (s.popFront j p entry rest).popped i =
        ofQueue s.popped i ++ if j = i then [entry] else [] := ofQueue_concat ..
    have hcount := count_popFront (s := s) j i p entry rest
    have hafter : (s.popFront j p entry rest).lane i .low =
        if i = j ∧ .low = p then rest else s.lane i .low :=
      (lane_popFront j i p .low entry rest).trans (lane_setLane j i p .low rest)
    by_cases hji : j = i
    · subst hji
      rw [if_pos rfl] at hpopped hcount
      by_cases hp : p = .low
      · -- the front of the low lane is the entry
        subst hp
        obtain ⟨rfl, -⟩ := List.cons.inj (hfront.symm.trans hlane)
        have hpops := hs.pops
        have hbase := hs.base_le
        refine .inr ⟨(ofQueue s.popped j).length - base, by omega, ?_⟩
        rw [hpopped, Nat.add_sub_cancel' hbase]
        simp
      · rw [if_neg hp] at hcount
        rw [if_neg fun hat => hp hat.2.symm] at hafter
        obtain ⟨before, hbefore⟩ := hlanes hp
        have hlt : s.count j < (lowFairnessWindow j).toNat :=
          hfair j before hbefore hpositive (by rw [hfront]; exact List.cons_ne_nil _ _)
        have hmax : (lowFairnessWindow j).toNat < 2 ^ 64 := UInt64.toNat_lt _
        have hpops := hs.pops
        have hbase := hs.base_le
        refine .inl ⟨⟨rest₀, hafter.trans hfront⟩, ?_, ?_⟩
        · rw [hpopped, List.length_append]
          omega
        · rw [hpopped, hcount, List.length_append, List.length_singleton]
          omega
    · rw [if_neg hji, List.append_nil] at hpopped
      rw [if_neg (Ne.symm hji)] at hcount
      rw [if_neg fun hat => hji hat.1.symm] at hafter
      exact .inl (hs.congr ⟨[], by simpa using hafter⟩ hpopped hcount)
  | batch victim attempts p first waiting others before loop hlane hhand hsteal =>
    have hlow : ¬ (i = victim ∧ .low = p) := by
      rintro ⟨rfl, rfl⟩
      obtain ⟨rfl, -⟩ := List.cons.inj (hfront.symm.trans hlane)
      have hmore : e.stamp ∈ (e :: waiting.take others).map Queued.stamp := List.mem_cons_self ..
      have hcount := List.count_pos_iff.2 hmore
      change List.count e.stamp ((e :: waiting.take others).map Queued.stamp ++ s.moved) ≤ _
        at hstay
      rw [List.count_append] at hstay
      omega
    refine .inl (hs.congr ?_ rfl ((count_setTask ..).trans (count_stealBatch ..)))
    rw [lane_setTask, lane_stealBatch, lane_setLane]
    split
    next hat =>
      rw [lane_setLane, ← hat.1, ← hat.2, if_neg fun h => hlow ⟨h.1, hat.2⟩]
      exact ⟨_, rfl⟩
    next =>
      rw [lane_setLane, if_neg hlow]
      exact ⟨[], (List.append_nil _).symm⟩
  | pushBack victim attempts p first before loop htask =>
    refine .inl (hs.congr ?_ rfl ((count_setTask ..).trans (count_setLane ..)))
    rw [lane_setTask, lane_setLane]
    split
    next hat => exact ⟨[first], by rw [hat.1, hat.2]⟩
    next => exact ⟨[], (List.append_nil _).symm⟩

theorem Effect.served {i j : Fin n} {s' : RunQueues n} {e : Queued} {window base : ℕ}
    (h : Effect s lowFairnessWindow j s') (hs : s.Served window i e base) :
    s'.Served window i e base := by
  cases h with
  | pop p entry rest hlane hhand hlanes =>
    exact hs.of_append _ (ofQueue_concat ..)
  | _ => exact hs

/-! ## Runs -/

theorem conserved_new : (new : RunQueues n).Conserved := by
  intro p
  have hlanes : (new : RunQueues n).inLanes p = 0 := Finset.sum_eq_zero fun _ _ => rfl
  have hhands : (new : RunQueues n).inHands p = 0 := Finset.sum_eq_zero fun _ _ => rfl
  rw [queued, hlanes, hhands]
  rfl

variable (lowFairnessWindow)

/-- What holds of the queues all along a run. -/
structure Sound (s : RunQueues n) : Prop where
  conserved : s.Conserved
  inOrder : s.InOrder
  handsStolen : s.HandsStolen
  fairTasks : s.FairTasks lowFairnessWindow

theorem sound_new : (new : RunQueues n).Sound lowFairnessWindow :=
  ⟨conserved_new, fun _ _ => rfl, fun _ _ _ he => (by cases he), fun _ _ h => (by cases h)⟩

variable {lowFairnessWindow}

theorem Sound.step (h : s.Sound lowFairnessWindow) (a : Fin n × QueueStep n) :
    (s.step lowFairnessWindow a).Sound lowFairnessWindow := by
  have heffect : Effect s lowFairnessWindow a.1 _ := step_effect a
  exact ⟨heffect.conserved h.conserved, heffect.inOrder h.inOrder h.handsStolen,
    heffect.handsStolen h.handsStolen, heffect.fairTasks h.fairTasks⟩

theorem Sound.run (h : s.Sound lowFairnessWindow) (steps : List (Fin n × QueueStep n)) :
    (steps.foldl (RunQueues.step · lowFairnessWindow) s).Sound lowFairnessWindow := by
  induction steps generalizing s with
  | nil => exact h
  | cons a rest ih => exact ih (h.step a)

theorem moved_run (s : RunQueues n) (lowFairnessWindow : Fin n → UInt64)
    (steps : List (Fin n × QueueStep n)) :
    s.moved <:+ (steps.foldl (step · lowFairnessWindow) s).moved := by
  induction steps generalizing s with
  | nil => exact List.suffix_refl _
  | cons a rest ih =>
    have heffect : Effect s lowFairnessWindow a.1 _ := step_effect a
    exact heffect.moved_suffix.trans (ih _)

/-- An entry that is not stolen waits at the front until it is popped in time. -/
theorem Sound.waits_run {i : Fin n} {e : Queued} {base : ℕ} (h : s.Sound lowFairnessWindow)
    (hpositive : 0 < (lowFairnessWindow i).toNat) (steps : List (Fin n × QueueStep n))
    (hs : s.Waits (lowFairnessWindow i).toNat i e base ∨
      s.Served (lowFairnessWindow i).toNat i e base)
    (hstay : (steps.foldl (RunQueues.step · lowFairnessWindow) s).moved.count e.stamp ≤
      s.moved.count e.stamp) :
    (steps.foldl (RunQueues.step · lowFairnessWindow) s).Waits
        (lowFairnessWindow i).toNat i e base ∨
      (steps.foldl (RunQueues.step · lowFairnessWindow) s).Served
        (lowFairnessWindow i).toNat i e base := by
  induction steps generalizing s with
  | nil => exact hs
  | cons a rest ih =>
    have heffect : Effect s lowFairnessWindow a.1 _ := step_effect a
    have hfirst := heffect.moved_suffix.sublist.count_le e.stamp
    have hrest := (moved_run (s.step lowFairnessWindow a) lowFairnessWindow rest).sublist.count_le
      e.stamp
    refine ih (h.step a) ?_ (hstay.trans hfirst)
    rcases hs with hwaits | hserved
    · exact heffect.waits h.fairTasks hpositive hwaits (hrest.trans hstay)
    · exact .inr (heffect.served hserved)

end RunQueues

end Beamr.Scheduler
