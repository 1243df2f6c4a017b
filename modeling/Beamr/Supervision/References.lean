import Beamr.Supervision.Monitor
import Beamr.Term.Hash

/-!
# Reference numbers

`make_ref` takes its numbers from a counter of the whole program, and the monitors of a scheduler
take theirs from the counter of its monitor set. Reference terms carry the number alone.
-/
namespace Beamr.Supervision

open Scheduler (ExitReason)
open Term

/-- `write_reference`. -/
def writeReference (id : ℕ) : Value := .reference (.local (UInt64.ofNat id))

/-- What the calls that return references share, with the numbers returned so far: those of
`make_ref` and those of monitors. -/
structure References where
  refCounter : ℕ
  monitorSet : MonitorSet
  exitTombstones : ℕ → Option ExitReason
  processTable : ℕ → Bool
  nextPid : ℕ
  made : List ℕ
  monitored : List ℕ

/-- A call of a process of the scheduler, or what else moves the counters. Each call with a
reference allocates it in one step. With no `room` on the heap of the caller it is not returned. -/
inductive ReferenceStep
  | makeRef (room : Bool)
  /-- `make_ref` in a process of another scheduler. -/
  | makeRefElsewhere
  | monitor (caller target : ℕ) (room : Bool)
  | spawnMonitor (caller : ℕ) (room : Bool)
  | spawnOpt (caller : ℕ) (monitor : Bool) (room : Bool)
  | demonitor (reference : ℕ)
  | exited (pid : ℕ) (reason : ExitReason)

namespace References

variable (s : References)

/-- The program has started, with a scheduler that runs `processes`. -/
def new (processes : List ℕ) (nextPid : ℕ) : References where
  refCounter := 1
  monitorSet := .new
  exitTombstones := fun _ => none
  processTable := fun pid => decide (pid ∈ processes)
  nextPid := nextPid
  made := []
  monitored := []

/-- `fetch_add` wraps around. -/
def countRef : References := { s with refCounter := (s.refCounter + 1) % 2 ^ 64 }

def makeRef (room : Bool) : References :=
  { s.countRef with made := if room then s.refCounter :: s.made else s.made }

/-- A call of `allocate_reference_pub` that returns the reference to the caller. -/
def allocate (room : Bool) : References :=
  let (reference, monitorSet) := s.monitorSet.allocateReference
  { s with
    monitorSet := monitorSet
    monitored := if room then reference :: s.monitored else s.monitored }

/-- Registers a monitor with the reference just allocated. -/
def register (reference caller target : ℕ) : References :=
  { s with
    monitorSet := s.monitorSet.registerMonitor reference ⟨reference, caller, target⟩ target }

/-- `SupervisionFacility::monitor`: a dead target takes a reference, an unknown one does not. -/
def monitor (caller target : ℕ) (room : Bool) : References :=
  if (s.exitTombstones target).isSome then s.allocate room
  else if s.processTable target then
    (s.allocate room).register s.monitorSet.nextReference caller target
  else s

/-- `next_child_pid`. -/
def nextChild : References :=
  { s with
    processTable := Function.update s.processTable s.nextPid true
    nextPid := s.nextPid + 1 }

/-- `register_monitor_insert_and_wake` for a new child. -/
def spawnMonitor (caller : ℕ) (room : Bool) : References :=
  (s.nextChild.allocate room).register s.monitorSet.nextReference caller s.nextPid

def spawnOpt (caller : ℕ) (monitor room : Bool) : References :=
  if monitor then s.spawnMonitor caller room else s.nextChild

def demonitor (reference : ℕ) : References :=
  { s with monitorSet := s.monitorSet.removeMonitor reference }

def exited (pid : ℕ) (reason : ExitReason) : References :=
  { s with
    monitorSet := (s.monitorSet.collectWatchersAndRemove pid reason).2
    exitTombstones := Function.update s.exitTombstones pid (some reason)
    processTable := Function.update s.processTable pid false }

def step : ReferenceStep → References
  | .makeRef room => s.makeRef room
  | .makeRefElsewhere => s.countRef
  | .monitor caller target room => s.monitor caller target room
  | .spawnMonitor caller room => s.spawnMonitor caller room
  | .spawnOpt caller monitor room => s.spawnOpt caller monitor room
  | .demonitor reference => s.demonitor reference
  | .exited pid reason => s.exited pid reason

/-! ## Which references are returned -/

/-- The reference terms that calls have returned. -/
def returned : List Value := (s.made ++ s.monitored).map writeReference

/-- No two calls have returned references that are exactly equal. -/
def Unique : Prop := s.returned.Pairwise fun left right => exactEq left right = false

/-- The monitor the step asks for is one that gets a reference, and the caller has room for it. -/
def ReturnsMonitor : ReferenceStep → Prop
  | .monitor _ target room =>
    ((s.exitTombstones target).isSome ∨ s.processTable target) ∧ room
  | .spawnMonitor _ room => room
  | .spawnOpt _ monitor room => monitor ∧ room
  | _ => False

/-- The counter that the step takes a number from is not at a number that the other counter has
given to a call. -/
def Apart (a : ReferenceStep) : Prop :=
  (a = .makeRef true → s.refCounter ∉ s.monitored) ∧
    (s.ReturnsMonitor a → s.monitorSet.nextReference ∉ s.made)

/-- Neither counter is at its last number. -/
def Unsaturated : Prop :=
  s.refCounter < 2 ^ 64 - 1 ∧ s.monitorSet.nextReference < 2 ^ 64 - 1

/-- Each counter is past the numbers it has given. -/
structure Counted : Prop where
  made : s.made.Nodup
  made_lt : ∀ id ∈ s.made, id < s.refCounter
  monitored : s.monitored.Nodup
  monitored_lt : ∀ id ∈ s.monitored, id < s.monitorSet.nextReference

/-! ### The counters -/

theorem nextReference_removeReference (m : MonitorSet) (target reference : ℕ) :
    (m.removeReference target reference).nextReference = m.nextReference := by
  rw [MonitorSet.removeReference]
  split
  · rfl
  · rfl

theorem nextReference_removeMonitor (m : MonitorSet) (reference : ℕ) :
    (m.removeMonitor reference).nextReference = m.nextReference := by
  rw [MonitorSet.removeMonitor]
  split
  next monitor m' hentry =>
    obtain ⟨-, rfl⟩ := Prod.mk.inj hentry
    rw [nextReference_removeReference]
  next m' hentry =>
    obtain ⟨-, rfl⟩ := Prod.mk.inj hentry
    rfl

theorem nextReference_registerMonitor (m : MonitorSet) (reference target : ℕ) (monitor : Monitor) :
    (m.registerMonitor reference monitor target).nextReference = m.nextReference := by
  rw [MonitorSet.registerMonitor]
  split
  · exact nextReference_removeMonitor m reference
  · rfl

theorem nextReference_removeEntries (m : MonitorSet) (references : List ℕ) :
    (m.removeEntries references).2.nextReference = m.nextReference := by
  induction references generalizing m with
  | nil => rfl
  | cons reference rest ih =>
    rw [MonitorSet.removeEntries_cons]
    exact ih _

theorem nextReference_collect (m : MonitorSet) (pid : ℕ) (reason : ExitReason) :
    (m.collectWatchersAndRemove pid reason).2.nextReference = m.nextReference :=
  nextReference_removeEntries _ _

/-- The counters and the numbers returned. -/
def numbers : ℕ × ℕ × List ℕ × List ℕ :=
  (s.refCounter, s.monitorSet.nextReference, s.made, s.monitored)

theorem numbers_register (reference caller target : ℕ) :
    (s.register reference caller target).numbers = s.numbers := by
  rw [numbers, numbers, register, nextReference_registerMonitor]

variable {s}

theorem numbers_allocate (h : s.Unsaturated) (room : Bool) :
    (s.allocate room).numbers = (s.refCounter, s.monitorSet.nextReference + 1, s.made,
      if room then s.monitorSet.nextReference :: s.monitored else s.monitored) := by
  have hnext : min (s.monitorSet.nextReference + 1) (2 ^ 64 - 1) =
      s.monitorSet.nextReference + 1 := by
    have := h.2
    omega
  rw [numbers, allocate]
  simp only [MonitorSet.allocateReference, hnext]

theorem refCounter_countRef (h : s.Unsaturated) : s.countRef.refCounter = s.refCounter + 1 := by
  have hlt := h.1
  rw [countRef]
  exact Nat.mod_eq_of_lt (by omega)

/-- What a step does to the numbers: `make_ref` returns one, a monitor returns one, or none is
returned. -/
inductive Numbered (s s' : References) (a : ReferenceStep) : Prop
  | made (hcall : a = .makeRef true)
      (h : s'.numbers = (s.refCounter + 1, s.monitorSet.nextReference, s.refCounter :: s.made,
        s.monitored))
  | monitored (hcall : s.ReturnsMonitor a)
      (h : s'.numbers = (s.refCounter, s.monitorSet.nextReference + 1, s.made,
        s.monitorSet.nextReference :: s.monitored))
  | none (hmade : a ≠ .makeRef true) (hmonitored : ¬ s.ReturnsMonitor a) (refCounter next : ℕ)
      (href : s.refCounter ≤ refCounter) (hnext : s.monitorSet.nextReference ≤ next)
      (h : s'.numbers = (refCounter, next, s.made, s.monitored))

theorem Numbered.same {s' : References} {a : ReferenceStep} (hmade : a ≠ .makeRef true)
    (hmonitored : ¬ s.ReturnsMonitor a) (h : s'.numbers = s.numbers) : Numbered s s' a :=
  .none hmade hmonitored _ _ (Nat.le_refl _) (Nat.le_refl _) h

/-- A call that allocates a monitor reference returns it when there is room. -/
theorem Numbered.allocate (h : s.Unsaturated) {s' : References} {a : ReferenceStep} {room : Bool}
    (hmade : a ≠ .makeRef true) (hreturns : s.ReturnsMonitor a ↔ room = true)
    (hnumbers : s'.numbers = (s.allocate room).numbers) : Numbered s s' a := by
  rw [numbers_allocate h] at hnumbers
  cases room with
  | true => exact .monitored (hreturns.mpr rfl) hnumbers
  | false =>
    have hnot : ¬ s.ReturnsMonitor a := fun hreturn => Bool.false_ne_true (hreturns.mp hreturn)
    exact .none hmade hnot _ _ (Nat.le_refl _) (Nat.le_succ _) hnumbers

theorem step_numbered (h : s.Unsaturated) (a : ReferenceStep) : Numbered s (s.step a) a := by
  have hcount := refCounter_countRef h
  cases a with
  | makeRef room =>
    cases room with
    | true => exact .made rfl (by rw [step, makeRef, numbers, hcount]; rfl)
    | false =>
      refine .none (by simp) (by simp [ReturnsMonitor]) (s.refCounter + 1) _ (Nat.le_succ _)
        (Nat.le_refl _) ?_
      rw [step, makeRef, numbers, hcount]
      rfl
  | makeRefElsewhere =>
    refine .none (by simp) (by simp [ReturnsMonitor]) (s.refCounter + 1) _ (Nat.le_succ _)
      (Nat.le_refl _) ?_
    rw [step, numbers, hcount]
    rfl
  | monitor caller target room =>
    rw [step, monitor]
    split
    next hdead => exact .allocate h (by simp) (by simp [ReturnsMonitor, hdead]) rfl
    next hdead =>
      split
      next hlive =>
        exact .allocate h (by simp) (by simp [ReturnsMonitor, hlive]) (numbers_register ..)
      next hlive => exact .same (by simp) (by simp [ReturnsMonitor, hdead, hlive]) rfl
  | spawnMonitor caller room =>
    exact .allocate h (by simp) Iff.rfl (numbers_register ..)
  | spawnOpt caller monitor room =>
    rw [step, spawnOpt]
    split
    next hmonitor =>
      exact .allocate h (by simp) (by simp [ReturnsMonitor, hmonitor]) (numbers_register ..)
    next hmonitor => exact .same (by simp) (by simp [ReturnsMonitor, hmonitor]) rfl
  | demonitor reference =>
    refine .same (by simp) (by simp [ReturnsMonitor]) ?_
    rw [step, numbers, numbers, demonitor, nextReference_removeMonitor]
  | exited pid reason =>
    refine .same (by simp) (by simp [ReturnsMonitor]) ?_
    rw [step, numbers, numbers, exited, nextReference_collect]

/-! ### Uniqueness -/

theorem exactEq_writeReference {id id' : ℕ} (hid : id < 2 ^ 64) (hid' : id' < 2 ^ 64) :
    exactEq (writeReference id) (writeReference id') = true ↔ id = id' := by
  have hnumber : UInt64.ofNat id = UInt64.ofNat id' ↔ id = id' := by
    rw [← UInt64.toNat_inj, UInt64.toNat_ofNat', UInt64.toNat_ofNat', Nat.mod_eq_of_lt hid,
      Nat.mod_eq_of_lt hid']
  have hcompare : exactCmp (writeReference id) (writeReference id') =
      compare (UInt64.ofNat id) (UInt64.ofNat id') := by
    have hkind : (exactKind (writeReference id)).place = (exactKind (writeReference id')).place :=
      rfl
    rw [exactCmp_isTermOrder.unfold, compareStep, hkind, Std.ReflOrd.compare_self,
      Ordering.eq_then, writeReference, writeReference, compareSame, compareReferences]
    simp [ReferenceRef.node, ReferenceRef.id]
  rw [exactEq, hcompare, beq_iff_eq, Std.LawfulEqOrd.compare_eq_iff_eq, hnumber]

/-- Uniqueness speaks of the numbers: no number was given by both counters. -/
theorem unique_iff (h : s.Counted) (hbound : s.Unsaturated) :
    s.Unique ↔ ∀ id ∈ s.made, id ∉ s.monitored := by
  have hlt : ∀ id ∈ s.made ++ s.monitored, id < 2 ^ 64 := by
    intro id hid
    obtain ⟨href, hnext⟩ := hbound
    rcases List.mem_append.1 hid with hid | hid
    · have := h.made_lt id hid
      omega
    · have := h.monitored_lt id hid
      omega
  have hnodup : s.Unique ↔ (s.made ++ s.monitored).Nodup := by
    rw [Unique, returned, List.pairwise_map]
    refine List.Pairwise.iff_of_mem fun {id id'} hid hid' => ?_
    rw [Bool.eq_false_iff, ne_eq, exactEq_writeReference (hlt id hid) (hlt id' hid')]
  rw [hnodup, List.nodup_append']
  constructor
  · rintro ⟨-, -, hdisjoint⟩ id hmade hmonitored
    exact hdisjoint hmade hmonitored
  · intro hapart
    exact ⟨h.made, h.monitored, fun id hmade hmonitored => hapart id hmade hmonitored⟩

theorem Counted.of_numbers {s' : References} {refCounter next : ℕ} {made monitored : List ℕ}
    (h : s'.numbers = (refCounter, next, made, monitored)) (hmade : made.Nodup)
    (hmadeLt : ∀ id ∈ made, id < refCounter) (hmonitored : monitored.Nodup)
    (hmonitoredLt : ∀ id ∈ monitored, id < next) : s'.Counted := by
  simp only [numbers, Prod.mk.injEq] at h
  obtain ⟨rfl, rfl, rfl, rfl⟩ := h
  exact ⟨hmade, hmadeLt, hmonitored, hmonitoredLt⟩

/-- A counter that goes on by one has not given its number before. -/
theorem counted_cons {counter : ℕ} {ids : List ℕ} (hnodup : ids.Nodup)
    (hlt : ∀ id ∈ ids, id < counter) :
    (counter :: ids).Nodup ∧ ∀ id ∈ counter :: ids, id < counter + 1 := by
  refine ⟨List.nodup_cons.2 ⟨fun hmem => absurd (hlt counter hmem) (Nat.lt_irrefl _), hnodup⟩,
    fun id hid => ?_⟩
  rcases List.mem_cons.1 hid with rfl | hid
  · exact Nat.lt_succ_self _
  · exact Nat.lt_succ_of_lt (hlt id hid)

theorem Counted.step (h : s.Counted) (hbound : s.Unsaturated) (a : ReferenceStep) :
    (s.step a).Counted := by
  cases step_numbered hbound a with
  | made hcall hnumbers =>
    obtain ⟨hnodup, hlt⟩ := counted_cons h.made h.made_lt
    exact .of_numbers hnumbers hnodup hlt h.monitored h.monitored_lt
  | monitored hcall hnumbers =>
    obtain ⟨hnodup, hlt⟩ := counted_cons h.monitored h.monitored_lt
    exact .of_numbers hnumbers h.made h.made_lt hnodup hlt
  | none hmade hmonitored refCounter next href hnext hnumbers =>
    exact .of_numbers hnumbers h.made (fun id hid => (h.made_lt id hid).trans_le href) h.monitored
      fun id hid => (h.monitored_lt id hid).trans_le hnext

theorem unique_step_iff (h : s.Counted) (hbound : s.Unsaturated) (a : ReferenceStep)
    (hafter : (s.step a).Unsaturated) (hunique : s.Unique) : (s.step a).Unique ↔ s.Apart a := by
  have hcounted := h.step hbound a
  rw [unique_iff h hbound] at hunique
  rw [unique_iff hcounted hafter, Apart]
  have hmadeNot : s.ReturnsMonitor a → a ≠ .makeRef true := by
    rintro hreturns rfl
    exact hreturns
  cases step_numbered hbound a with
  | made hcall hnumbers =>
    simp only [numbers, Prod.mk.injEq] at hnumbers
    obtain ⟨-, -, hmade, hmonitored⟩ := hnumbers
    rw [hmade, hmonitored]
    constructor
    · intro hapart
      refine ⟨fun _ => hapart _ (List.mem_cons_self ..), fun hreturns => ?_⟩
      exact absurd hcall (hmadeNot hreturns)
    · rintro ⟨hfresh, -⟩ id hid
      rcases List.mem_cons.1 hid with rfl | hid
      · exact hfresh hcall
      · exact hunique id hid
  | monitored hcall hnumbers =>
    simp only [numbers, Prod.mk.injEq] at hnumbers
    obtain ⟨-, -, hmade, hmonitored⟩ := hnumbers
    rw [hmade, hmonitored]
    constructor
    · intro hapart
      refine ⟨fun hmake => absurd hmake (hmadeNot hcall), fun _ hmem => ?_⟩
      exact hapart _ hmem (List.mem_cons_self ..)
    · rintro ⟨-, hfresh⟩ id hid hmem
      rcases List.mem_cons.1 hmem with rfl | hmem
      · exact hfresh hcall hid
      · exact hunique id hid hmem
  | none hmadeNo hmonitoredNo refCounter next href hnext hnumbers =>
    simp only [numbers, Prod.mk.injEq] at hnumbers
    obtain ⟨-, -, hmade, hmonitored⟩ := hnumbers
    rw [hmade, hmonitored]
    exact iff_of_true hunique ⟨fun hmake => absurd hmake hmadeNo,
      fun hreturns => absurd hreturns hmonitoredNo⟩

theorem counted_new (processes : List ℕ) (nextPid : ℕ) : (new processes nextPid).Counted :=
  ⟨List.nodup_nil, by simp [new], List.nodup_nil, by simp [new]⟩

theorem unique_new (processes : List ℕ) (nextPid : ℕ) : (new processes nextPid).Unique :=
  List.Pairwise.nil

theorem counted_run (h : s.Counted) (steps : List ReferenceStep)
    (hbound : ∀ n, ((steps.take n).foldl step s).Unsaturated) (n : ℕ) :
    ((steps.take n).foldl step s).Counted := by
  induction steps generalizing s n with
  | nil => simpa using h
  | cons a rest ih =>
    cases n with
    | zero => exact h
    | succ n => exact ih (h.step (hbound 0) a) (fun m => hbound (m + 1)) n

/-- The references of a run below saturation are pairwise different exactly when neither counter
comes to a number that the other one has given. -/
theorem references_unique_iff (processes : List ℕ) (nextPid : ℕ) (steps : List ReferenceStep)
    (hbound : ∀ n, ((steps.take n).foldl step (new processes nextPid)).Unsaturated) :
    (∀ n, ((steps.take n).foldl step (new processes nextPid)).Unique) ↔
      Runs.Meets step Apart (new processes nextPid) steps := by
  have hstep : ∀ (s : References) a, s.Unsaturated ∧ s.Counted →
      (s.step a).Unsaturated ∧ (s.step a).Counted →
      s.Unique → ((s.step a).Unique ↔ s.Apart a) := by
    rintro s a ⟨hbefore, h⟩ ⟨hafter, -⟩ hunique
    exact unique_step_iff h hbefore a hafter hunique
  have hcounted := counted_run (counted_new processes nextPid) steps hbound
  exact Runs.forall_take_iff_along hstep (unique_new processes nextPid) steps fun n =>
    ⟨hbound n, hcounted n⟩

/-- One reference of each kind. -/
theorem references_unique_iff_two :
    ([.makeRef true, .spawnMonitor 1 true].foldl step (new [1] 2)).Unique := by
  refine (references_unique_iff [1] 2 [.makeRef true, .spawnMonitor 1 true] fun n => ?_).mpr ?_ 2
  · rcases n with - | - | n
    · exact ⟨by decide, by decide⟩
    · exact ⟨by decide, by decide⟩
    · rw [List.take_of_length_le (by simp)]
      exact ⟨by decide, by decide⟩
  · have hmonitored : (new [1] 2).refCounter ∉ (new [1] 2).monitored := by decide
    have hmade : ((new [1] 2).step (.makeRef true)).monitorSet.nextReference ∉
        ((new [1] 2).step (.makeRef true)).made := by decide
    exact ⟨⟨fun _ => hmonitored, False.elim⟩, ⟨by simp, fun _ => hmade⟩, trivial⟩

/-- A reference of `make_ref`, and the second monitor of the same scheduler. -/
theorem not_references_unique :
    let s := [ReferenceStep.makeRef true, .spawnMonitor 1 true, .spawnMonitor 1 true].foldl step
      (new [1] 2)
    s.made = [1] ∧ s.monitored = [1, 0] ∧ ¬ s.Unique := by
  intro s
  have hmade : s.made = [1] := rfl
  have hmonitored : s.monitored = [1, 0] := rfl
  refine ⟨hmade, hmonitored, fun hunique => ?_⟩
  rw [Unique, returned, hmade, hmonitored, List.pairwise_map] at hunique
  have hdifferent : exactEq (writeReference 1) (writeReference 1) = false :=
    List.rel_of_pairwise_cons hunique (by simp)
  have hsame := (exactEq_writeReference (by decide : 1 < 2 ^ 64) (by decide)).mpr rfl
  rw [hsame] at hdifferent
  cases hdifferent

end References

end Beamr.Supervision
