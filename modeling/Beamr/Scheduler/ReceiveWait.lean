import Beamr.Messaging.Mailbox
import Beamr.Scheduler.Suspensions

/-!
# Waiting for a message

What happens to a process between the end of a slice that waits or yields and the start of its
next slice: the receive timer is armed, the process is stored and registered in the wait set, and
its mailbox and timers are checked once more. Deliveries and fired timers come at any point; the
wake that follows one of them is a step of its own. A slice starts with the jump of a fired timer.
The process has no suspension.
-/
namespace Beamr.Scheduler

open Messaging

structure ReceiveTimeout where
  timeoutPosition : CodePosition
  milliseconds : ℕ
  deriving DecidableEq

/-- The fields of a process that a receive uses. -/
structure ReceiveProcess (K M : Type) where
  mailbox : Mailbox K M
  codePosition : Option CodePosition
  receiveTimeout : Option ReceiveTimeout
  receiveTimerRef : Option ℕ

/-- What the thread that ran the slice does next; up to `armed` and when `running` it holds the
process. -/
inductive ReceiveStage
  | waited
  | armed
  | stored
  | registered
  | yielded
  | requeued
  | idle
  | running
  deriving DecidableEq

def ReceiveStage.executing : ReceiveStage → Bool
  | .waited | .armed | .yielded | .running => true
  | _ => false

inductive ReceiveAction (M : Type)
  | owner
  | deliver (message : M)
  | fire (timer : ℕ)
  | wake

structure ReceiveSystem (K M : Type) where
  process : ReceiveProcess K M
  stage : ReceiveStage
  /-- The wait set holds the process. -/
  waiting : Bool
  /-- The process is on the woken list or in the run queue. -/
  runnable : Bool
  pending : List M
  /-- Deliveries and fired timers whose wake is still to come. -/
  wakes : ℕ
  expiredTimers : List ℕ
  wheel : List ℕ
  lastTimer : ℕ

variable {K M : Type}

def ReceiveProcess.pushAll (process : ReceiveProcess K M) (messages : List M) :
    ReceiveProcess K M :=
  { process with mailbox := messages.foldl Mailbox.pushOwned process.mailbox }

/-- Where the armed receive timer goes on, if it is among the fired ones. -/
def ReceiveProcess.firedTimeout (process : ReceiveProcess K M) (fired : List ℕ) :
    Option CodePosition :=
  match process.receiveTimeout, process.receiveTimerRef with
  | some timeout, some armed => if armed ∈ fired then some timeout.timeoutPosition else none
  | _, _ => none

/-- Where the next slice begins. -/
def ReceiveProcess.resumePosition (process : ReceiveProcess K M) (fired : List ℕ) :
    Option CodePosition :=
  (process.firedTimeout fired).or process.codePosition

namespace ReceiveSystem

variable (s : ReceiveSystem K M)

def wakeProcess : ReceiveSystem K M :=
  if s.waiting then { s with waiting := false, runnable := true } else s

def registerReceiveTimer : ReceiveSystem K M :=
  match s.process.receiveTimeout, s.process.receiveTimerRef with
  | some _, none =>
    { s with
      lastTimer := s.lastTimer + 1
      wheel := s.wheel ++ [s.lastTimer + 1]
      process := { s.process with receiveTimerRef := some (s.lastTimer + 1) } }
  | _, _ => s

/-- The messages that came during the slice go to the mailbox. -/
def storeProcess : ReceiveSystem K M :=
  { s with process := s.process.pushAll s.pending, pending := [] }

def applyExpiredReceiveTimer : ReceiveSystem K M :=
  match s.process.firedTimeout s.expiredTimers with
  | some position =>
    { s with
      expiredTimers := []
      process := { s.process with receiveTimerRef := none, codePosition := some position } }
  | none => { s with expiredTimers := [] }

/-- The check after the registration. -/
def wakeWorthy : Bool :=
  0 < s.process.mailbox.arrival.length + s.process.mailbox.scanList.length
    || !s.expiredTimers.isEmpty

def ownerStep : ReceiveSystem K M :=
  match s.stage with
  | .waited => { s.registerReceiveTimer with stage := .armed }
  | .armed => { s.storeProcess with stage := .stored }
  | .stored => { s with waiting := true, stage := .registered }
  | .registered => { (if s.wakeWorthy then s.wakeProcess else s) with stage := .idle }
  | .yielded => { s.storeProcess with stage := .requeued }
  | .requeued => { s with runnable := true, stage := .idle }
  | .idle =>
    if s.runnable then { s.applyExpiredReceiveTimer with runnable := false, stage := .running }
    else s
  | .running => s

def step : ReceiveAction M → ReceiveSystem K M
  | .owner => s.ownerStep
  | .deliver message =>
    if s.stage.executing then { s with pending := s.pending ++ [message], wakes := s.wakes + 1 }
    else { s with process := s.process.pushAll [message], wakes := s.wakes + 1 }
  | .fire timer =>
    if timer ∈ s.wheel then
      { s with
        wheel := s.wheel.erase timer
        expiredTimers := s.expiredTimers ++ [timer]
        wakes := s.wakes + 1 }
    else s
  | .wake => if 0 < s.wakes then { s.wakeProcess with wakes := s.wakes - 1 } else s

def run (actions : List (ReceiveAction M)) : ReceiveSystem K M := actions.foldl step s

/-- The next slice begins with this step. -/
def startsSlice : ReceiveAction M → Bool
  | .owner => decide (s.stage = .idle) && s.runnable
  | _ => false

/-- The state in which the next slice begins. -/
def sliceStart (s : ReceiveSystem K M) : List (ReceiveAction M) → Option (ReceiveSystem K M)
  | [] => none
  | action :: rest =>
    if s.startsSlice action then some s else (s.step action).sliceStart rest

/-- The process runs again, or it sleeps and nobody is about to wake it. -/
def Settled : Prop :=
  s.stage = .running ∨ (s.stage = .idle ∧ s.runnable = false ∧ s.wakes = 0)

/-! ## What a step leaves alone -/

section

variable {s t : ReceiveSystem K M}

theorem run_cons (action : ReceiveAction M) (rest : List (ReceiveAction M)) :
    s.run (action :: rest) = (s.step action).run rest := rfl

theorem run_append (first rest : List (ReceiveAction M)) :
    s.run (first ++ rest) = (s.run first).run rest := List.foldl_append

@[simp] theorem process_wakeProcess : s.wakeProcess.process = s.process := by
  unfold wakeProcess
  split <;> rfl

@[simp] theorem stage_wakeProcess : s.wakeProcess.stage = s.stage := by
  unfold wakeProcess
  split <;> rfl

@[simp] theorem expiredTimers_wakeProcess : s.wakeProcess.expiredTimers = s.expiredTimers := by
  unfold wakeProcess
  split <;> rfl

@[simp] theorem pending_wakeProcess : s.wakeProcess.pending = s.pending := by
  unfold wakeProcess
  split <;> rfl

@[simp] theorem wakes_wakeProcess : s.wakeProcess.wakes = s.wakes := by
  unfold wakeProcess
  split <;> rfl

theorem runnable_wakeProcess :
    s.wakeProcess.runnable = (s.waiting || s.runnable) := by
  unfold wakeProcess
  cases s.waiting <;> rfl

theorem foldl_pushOwned (mailbox : Mailbox K M) (messages : List M) :
    messages.foldl Mailbox.pushOwned mailbox =
      { mailbox with scanList := mailbox.scanList ++ messages } := by
  induction messages generalizing mailbox with
  | nil => simp
  | cons message rest ih => simp [ih, Mailbox.pushOwned]

theorem mailbox_pushAll (process : ReceiveProcess K M) (messages : List M) :
    (process.pushAll messages).mailbox =
      { process.mailbox with scanList := process.mailbox.scanList ++ messages } :=
  foldl_pushOwned process.mailbox messages

@[simp] theorem savePointer_pushAll (process : ReceiveProcess K M) (messages : List M) :
    (process.pushAll messages).mailbox.savePointer = process.mailbox.savePointer := by
  rw [mailbox_pushAll]

@[simp] theorem mailbox_applyExpiredReceiveTimer :
    s.applyExpiredReceiveTimer.process.mailbox = s.process.mailbox := by
  unfold applyExpiredReceiveTimer
  split <;> rfl

theorem codePosition_applyExpiredReceiveTimer :
    s.applyExpiredReceiveTimer.process.codePosition =
      s.process.resumePosition s.expiredTimers := by
  rw [ReceiveProcess.resumePosition]
  unfold applyExpiredReceiveTimer
  cases s.process.firedTimeout s.expiredTimers <;> rfl

/-- Arming the timer changes the reference to it and the wheel. -/
theorem registerReceiveTimer_process :
    s.registerReceiveTimer.process.mailbox = s.process.mailbox ∧
      s.registerReceiveTimer.process.codePosition = s.process.codePosition ∧
      s.registerReceiveTimer.process.receiveTimeout = s.process.receiveTimeout := by
  unfold registerReceiveTimer
  split <;> exact ⟨rfl, rfl, rfl⟩

theorem step_savePointer (action : ReceiveAction M) :
    (s.step action).process.mailbox.savePointer = s.process.mailbox.savePointer := by
  cases action with
  | owner =>
    simp only [step, ownerStep]
    cases hstage : s.stage <;> simp only
    case waited => rw [registerReceiveTimer_process.1]
    case registered => split <;> simp
    case idle => split <;> simp
    all_goals simp [storeProcess]
  | deliver message =>
    simp only [step]
    split <;> simp
  | fire timer =>
    simp only [step]
    split <;> rfl
  | wake =>
    simp only [step]
    split <;> simp

/-- Nothing that happens between two slices moves the save pointer. -/
theorem run_savePointer (actions : List (ReceiveAction M)) :
    (s.run actions).process.mailbox.savePointer = s.process.mailbox.savePointer := by
  induction actions generalizing s with
  | nil => rfl
  | cons action rest ih => exact ih.trans (step_savePointer action)

theorem step_running (hstage : s.stage = .running) (action : ReceiveAction M) :
    (s.step action).stage = .running ∧
      (s.step action).process.codePosition = s.process.codePosition := by
  cases action with
  | owner => simp [step, ownerStep, hstage]
  | deliver message => simp [step, hstage, ReceiveStage.executing]
  | fire timer =>
    simp only [step]
    split <;> exact ⟨hstage, rfl⟩
  | wake =>
    simp only [step]
    split <;> simp [hstage]

theorem run_running (hstage : s.stage = .running) (actions : List (ReceiveAction M)) :
    (s.run actions).stage = .running ∧
      (s.run actions).process.codePosition = s.process.codePosition := by
  induction actions generalizing s with
  | nil => exact ⟨hstage, rfl⟩
  | cons action rest ih =>
    obtain ⟨hstep, hposition⟩ := step_running hstage action
    exact ⟨(ih hstep).1, (ih hstep).2.trans hposition⟩

/-- A step that does not begin a slice leaves the process where it is. -/
structure Rests (s t : ReceiveSystem K M) : Prop where
  stage : t.stage ≠ .running
  codePosition : t.process.codePosition = s.process.codePosition
  receiveTimeout : t.process.receiveTimeout = s.process.receiveTimeout
  armed : s.stage ≠ .waited →
    t.stage ≠ .waited ∧ t.process.receiveTimerRef = s.process.receiveTimerRef

theorem Rests.trans {u : ReceiveSystem K M} (h : Rests s t) (h' : Rests t u) : Rests s u where
  stage := h'.stage
  codePosition := h'.codePosition.trans h.codePosition
  receiveTimeout := h'.receiveTimeout.trans h.receiveTimeout
  armed := fun hstage =>
    ⟨(h'.armed (h.armed hstage).1).1,
      (h'.armed (h.armed hstage).1).2.trans (h.armed hstage).2⟩

theorem rests_ownerStep (hrunning : s.stage ≠ .running) (hstart : s.startsSlice .owner = false) :
    Rests s s.ownerStep := by
  unfold ownerStep
  split
  next hstage =>
    obtain ⟨-, hposition, htimeout⟩ := registerReceiveTimer_process (s := s)
    exact ⟨by simp, hposition, htimeout, fun h => absurd hstage h⟩
  next => exact ⟨by simp, rfl, rfl, fun _ => ⟨by simp, rfl⟩⟩
  next => exact ⟨by simp, rfl, rfl, fun _ => ⟨by simp, rfl⟩⟩
  next =>
    split
    · exact ⟨by simp, by simp, by simp, fun _ => ⟨by simp, by simp⟩⟩
    · exact ⟨by simp, rfl, rfl, fun _ => ⟨by simp, rfl⟩⟩
  next => exact ⟨by simp, rfl, rfl, fun _ => ⟨by simp, rfl⟩⟩
  next => exact ⟨by simp, rfl, rfl, fun _ => ⟨by simp, rfl⟩⟩
  next hstage =>
    have hrunnable : s.runnable = false := by simpa [startsSlice, hstage] using hstart
    rw [if_neg (by simp [hrunnable])]
    exact ⟨hrunning, rfl, rfl, fun h => ⟨h, rfl⟩⟩
  next hstage => exact absurd hstage hrunning

theorem rests_step (hrunning : s.stage ≠ .running) {action : ReceiveAction M}
    (hstart : s.startsSlice action = false) : Rests s (s.step action) := by
  cases action with
  | owner => exact rests_ownerStep hrunning hstart
  | deliver message =>
    simp only [step]
    split <;> exact ⟨hrunning, rfl, rfl, fun h => ⟨h, rfl⟩⟩
  | fire timer =>
    simp only [step]
    split <;> exact ⟨hrunning, rfl, rfl, fun h => ⟨h, rfl⟩⟩
  | wake =>
    simp only [step]
    split
    · exact ⟨by simpa using hrunning, by simp, by simp, fun h => ⟨by simpa using h, by simp⟩⟩
    · exact ⟨hrunning, rfl, rfl, fun h => ⟨h, rfl⟩⟩

/-! ## The next slice -/

theorem Rests.refl (hrunning : s.stage ≠ .running) : Rests s s :=
  ⟨hrunning, rfl, rfl, fun h => ⟨h, rfl⟩⟩

theorem run_asleep (hrunning : s.stage ≠ .running) {actions : List (ReceiveAction M)}
    (h : s.sliceStart actions = none) : Rests s (s.run actions) := by
  induction actions generalizing s with
  | nil => exact .refl hrunning
  | cons action rest ih =>
    rw [sliceStart] at h
    cases hstart : s.startsSlice action with
    | true => simp [hstart] at h
    | false =>
      have hrests := rests_step hrunning hstart
      rw [hstart, if_neg Bool.false_ne_true] at h
      exact hrests.trans (ih hrests.stage h)

theorem sliceStart_rests (hrunning : s.stage ≠ .running) {actions : List (ReceiveAction M)}
    (h : s.sliceStart actions = some t) : Rests s t := by
  induction actions generalizing s with
  | nil => cases h
  | cons action rest ih =>
    rw [sliceStart] at h
    cases hstart : s.startsSlice action with
    | true =>
      rw [hstart, if_pos rfl] at h
      cases h
      exact .refl hrunning
    | false =>
      have hrests := rests_step hrunning hstart
      rw [hstart, if_neg Bool.false_ne_true] at h
      exact hrests.trans (ih hrests.stage h)

/-- The slice begins where the process was, or where its fired timer goes on. -/
theorem run_resumed {actions : List (ReceiveAction M)} (h : s.sliceStart actions = some t) :
    (s.run actions).stage = .running ∧
      (s.run actions).process.codePosition = t.process.resumePosition t.expiredTimers := by
  induction actions generalizing s with
  | nil => cases h
  | cons action rest ih =>
    rw [sliceStart] at h
    cases hstart : s.startsSlice action with
    | false =>
      rw [hstart, if_neg Bool.false_ne_true] at h
      exact ih h
    | true =>
      rw [hstart, if_pos rfl] at h
      have hst : s = t := Option.some.inj h
      subst hst
      cases action with
      | owner =>
        obtain ⟨hstage, hrunnable⟩ : s.stage = .idle ∧ s.runnable = true := by
          simpa [startsSlice] using hstart
        have hstep : s.step .owner =
            { s.applyExpiredReceiveTimer with runnable := false, stage := .running } := by
          simp [step, ownerStep, hstage, hrunnable]
        obtain ⟨hrun, hposition⟩ := run_running (s := s.step .owner) (by rw [hstep]) rest
        exact ⟨hrun, by rw [run_cons, hposition, hstep, codePosition_applyExpiredReceiveTimer]⟩
      | deliver message => cases hstart
      | fire timer => cases hstart
      | wake => cases hstart

/-- Alike up to the process, its messages and the wheel. -/
structure Alike (s t : ReceiveSystem K M) : Prop where
  stage : t.stage = s.stage
  yielded : s.stage = .yielded ∨ s.stage = .requeued ∨ s.stage = .idle
  waiting : t.waiting = s.waiting
  runnable : t.runnable = s.runnable
  wakes : t.wakes = s.wakes
  expiredTimers : t.expiredTimers = s.expiredTimers
  wheel : t.wheel = s.wheel

theorem Alike.wakeProcess (h : Alike s t) : Alike s.wakeProcess t.wakeProcess := by
  obtain ⟨hstage, hyielded, hwaiting, hrunnable, hwakes, hexpired, hwheel⟩ := h
  unfold ReceiveSystem.wakeProcess
  rw [hwaiting]
  split
  · exact ⟨hstage, hyielded, rfl, rfl, hwakes, hexpired, hwheel⟩
  · exact ⟨hstage, hyielded, hwaiting, hrunnable, hwakes, hexpired, hwheel⟩

theorem Alike.step (h : Alike s t) {action : ReceiveAction M}
    (hstart : s.startsSlice action = false) : Alike (s.step action) (t.step action) := by
  have hwake := h.wakeProcess
  obtain ⟨hstage, hyielded, hwaiting, hrunnable, hwakes, hexpired, hwheel⟩ := h
  cases action with
  | owner =>
    simp only [ReceiveSystem.step, ownerStep, hstage]
    rcases hyielded with hs | hs | hs <;> simp only [hs]
    · exact ⟨rfl, by simp, hwaiting, hrunnable, hwakes, hexpired, hwheel⟩
    · exact ⟨rfl, by simp, hwaiting, rfl, hwakes, hexpired, hwheel⟩
    · have hasleep : s.runnable = false := by simpa [startsSlice, hs] using hstart
      rw [hrunnable, hasleep, if_neg Bool.false_ne_true, if_neg Bool.false_ne_true]
      exact ⟨hstage, by simp [hs], hwaiting, hrunnable, hwakes, hexpired, hwheel⟩
  | deliver message =>
    simp only [ReceiveSystem.step, hstage, hwakes]
    split <;> exact ⟨rfl, hyielded, hwaiting, hrunnable, rfl, hexpired, hwheel⟩
  | fire timer =>
    simp only [ReceiveSystem.step, hwheel]
    split
    · exact ⟨hstage, hyielded, hwaiting, hrunnable, by simp [hwakes], by simp [hexpired], by simp⟩
    · exact ⟨hstage, hyielded, hwaiting, hrunnable, hwakes, hexpired, hwheel⟩
  | wake =>
    simp only [ReceiveSystem.step, hwakes]
    split
    · exact ⟨hwake.stage, hwake.yielded, hwake.waiting, hwake.runnable, rfl, hwake.expiredTimers,
        hwake.wheel⟩
    · exact ⟨hstage, hyielded, hwaiting, hrunnable, hwakes, hexpired, hwheel⟩

/-- After a yield the process does not decide when its next slice begins. -/
theorem Alike.sliceStart (h : Alike s t) (actions : List (ReceiveAction M)) :
    (t.sliceStart actions).map ReceiveSystem.expiredTimers =
      (s.sliceStart actions).map ReceiveSystem.expiredTimers := by
  induction actions generalizing s t with
  | nil => rfl
  | cons action rest ih =>
    have hsame : t.startsSlice action = s.startsSlice action := by
      cases action <;> simp [startsSlice, h.stage, h.runnable]
    rw [ReceiveSystem.sliceStart, ReceiveSystem.sliceStart, hsame]
    cases hstart : s.startsSlice action with
    | true => simp [h.expiredTimers]
    | false => simpa using ih (h.step hstart)

theorem running_iff (hrunning : s.stage ≠ .running) {actions : List (ReceiveAction M)} :
    (s.run actions).stage = .running ↔ (s.sliceStart actions).isSome = true := by
  cases h : s.sliceStart actions with
  | none => simpa using (run_asleep hrunning h).stage
  | some t => simpa using (run_resumed h).1

/-! ## No wake is lost -/

/-- A process that sleeps is registered, and if there is something for it somebody is about to
wake it. -/
structure Attentive (s : ReceiveSystem K M) : Prop where
  stored : s.stage.executing = false → s.pending = []
  registered : s.stage = .registered → s.waiting = true ∨ s.runnable = true
  idle : s.stage = .idle → s.runnable = false →
    s.waiting = true ∧ (s.wakeWorthy = true → 0 < s.wakes)

/-- A message or a fired timer is there for the process. -/
def Called (s : ReceiveSystem K M) : Prop :=
  s.process.mailbox.arrival ≠ [] ∨ s.process.mailbox.scanList ≠ [] ∨ s.expiredTimers ≠ [] ∨
    s.pending ≠ []

theorem wakeWorthy_iff : s.wakeWorthy = true ↔
    s.process.mailbox.arrival ≠ [] ∨ s.process.mailbox.scanList ≠ [] ∨ s.expiredTimers ≠ [] := by
  simp only [wakeWorthy, Bool.or_eq_true, decide_eq_true_eq, Bool.not_eq_true',
    List.isEmpty_eq_false_iff, ← List.length_pos_iff]
  omega

@[simp] theorem wakeWorthy_wakeProcess : s.wakeProcess.wakeWorthy = s.wakeWorthy := by
  simp [wakeWorthy]

theorem Attentive.ownerStep (h : Attentive s) : Attentive s.ownerStep := by
  unfold ReceiveSystem.ownerStep
  split
  next => exact ⟨by simp [ReceiveStage.executing], by simp, by simp⟩
  next => exact ⟨fun _ => rfl, by simp, by simp⟩
  next hstage => exact ⟨fun _ => h.stored (by simp [hstage, ReceiveStage.executing]),
    fun _ => .inl rfl, by simp⟩
  next hstage =>
    have hpending := h.stored (by simp [hstage, ReceiveStage.executing])
    split
    next =>
      refine ⟨fun _ => by simpa using hpending, by simp, fun _ hrunnable => ?_⟩
      have hasleep : (s.waiting || s.runnable) = false := runnable_wakeProcess.symm.trans hrunnable
      rcases h.registered hstage with hwaiting | hqueued <;> simp_all
    next hquiet =>
      refine ⟨fun _ => hpending, by simp, fun _ hrunnable => ?_⟩
      exact ⟨(h.registered hstage).resolve_right (by simp_all),
        fun hworthy => absurd hworthy hquiet⟩
  next => exact ⟨fun _ => rfl, by simp, by simp⟩
  next hstage => exact ⟨fun _ => h.stored (by simp [hstage, ReceiveStage.executing]), by simp,
    by simp⟩
  next =>
    split
    · exact ⟨by simp [ReceiveStage.executing], by simp, by simp⟩
    · exact h
  next => exact h

theorem Attentive.step (h : Attentive s) (action : ReceiveAction M) :
    Attentive (s.step action) := by
  cases action with
  | owner => exact h.ownerStep
  | deliver message =>
    simp only [ReceiveSystem.step]
    split
    next hexecuting =>
      refine ⟨fun hstored => by simp_all, h.registered, fun hidle => ?_⟩
      simp [show s.stage = .idle from hidle, ReceiveStage.executing] at hexecuting
    next => exact ⟨h.stored, h.registered, fun hidle hrunnable =>
      ⟨(h.idle hidle hrunnable).1, fun _ => by simp⟩⟩
  | fire timer =>
    simp only [ReceiveSystem.step]
    split
    · exact ⟨h.stored, h.registered, fun hidle hrunnable =>
        ⟨(h.idle hidle hrunnable).1, fun _ => by simp⟩⟩
    · exact h
  | wake =>
    simp only [ReceiveSystem.step]
    split
    next =>
      have hawake : s.wakeProcess.runnable = (s.waiting || s.runnable) := runnable_wakeProcess
      refine ⟨by simpa using h.stored, fun hstage => ?_, fun hidle hrunnable => ?_⟩
      · right
        rcases h.registered (by simpa using hstage) with hwaiting | hqueued <;>
          simp_all
      · have hasleep : (s.waiting || s.runnable) = false := hawake.symm.trans hrunnable
        have := h.idle (by simpa using hidle) (by simp_all)
        simp_all
    next => exact h

theorem Attentive.run (h : Attentive s) (actions : List (ReceiveAction M)) :
    Attentive (s.run actions) := by
  induction actions generalizing s with
  | nil => exact h
  | cons action rest ih => exact ih (h.step action)

/-- The slice that waits or yields has ended. -/
theorem Attentive.of_executing (hexecuting : s.stage.executing = true) : Attentive s where
  stored := fun h => by simp_all
  registered := fun h => by simp [h, ReceiveStage.executing] at hexecuting
  idle := fun h => by simp [h, ReceiveStage.executing] at hexecuting

theorem Called.ownerStep (h : Called s) (hstart : s.startsSlice .owner = false) :
    Called s.ownerStep := by
  unfold Called at h ⊢
  unfold ReceiveSystem.ownerStep
  split
  next =>
    unfold registerReceiveTimer
    split <;> exact h
  next =>
    simp only [storeProcess, mailbox_pushAll, ne_eq, List.append_eq_nil_iff, not_true]
    tauto
  next => exact h
  next => split <;> simpa using h
  next =>
    simp only [storeProcess, mailbox_pushAll, ne_eq, List.append_eq_nil_iff, not_true]
    tauto
  next => exact h
  next hstage =>
    have hrunnable : s.runnable = false := by simpa [startsSlice, hstage] using hstart
    simpa [hrunnable] using h
  next => exact h

/-- What has come for a process stays until its next slice. -/
theorem Called.step (h : Called s) {action : ReceiveAction M}
    (hstart : s.startsSlice action = false) : Called (s.step action) := by
  cases action with
  | owner => exact h.ownerStep hstart
  | deliver message =>
    unfold Called at h ⊢
    simp only [ReceiveSystem.step]
    split <;> simp [mailbox_pushAll]
  | fire timer =>
    unfold Called at h ⊢
    simp only [ReceiveSystem.step]
    split
    · simp
    · exact h
  | wake =>
    unfold Called at h ⊢
    simp only [ReceiveSystem.step]
    split <;> simpa using h

theorem called_deliver (message : M) : Called (s.step (.deliver message)) := by
  unfold Called
  simp only [ReceiveSystem.step]
  split <;> simp [mailbox_pushAll]

theorem called_fire {timer : ℕ} (hwheel : timer ∈ s.wheel) : Called (s.step (.fire timer)) := by
  simp [Called, ReceiveSystem.step, hwheel]

theorem Called.run (h : Called s) {actions : List (ReceiveAction M)}
    (hasleep : s.sliceStart actions = none) : Called (s.run actions) := by
  induction actions generalizing s with
  | nil => exact h
  | cons action rest ih =>
    rw [sliceStart] at hasleep
    cases hstart : s.startsSlice action with
    | true => simp [hstart] at hasleep
    | false =>
      rw [hstart, if_neg Bool.false_ne_true] at hasleep
      exact ih (h.step hstart) hasleep

/-- A process for which something has come does not stay asleep. -/
theorem Attentive.awake (h : Attentive s) (hrunning : s.stage ≠ .running) (hcalled : Called s)
    {actions : List (ReceiveAction M)} (hsettled : (s.run actions).Settled) :
    (s.sliceStart actions).isSome = true := by
  rw [← running_iff hrunning]
  by_contra hasleep
  have hnone : s.sliceStart actions = none := by
    simpa using mt (running_iff hrunning).mpr hasleep
  obtain ⟨hidle, hrunnable, hwakes⟩ := hsettled.resolve_left hasleep
  have hend := h.run actions
  have hpending : (s.run actions).pending = [] :=
    hend.stored (by simp [hidle, ReceiveStage.executing])
  have hworthy : (s.run actions).wakeWorthy = true := by
    rw [wakeWorthy_iff]
    have := hcalled.run hnone
    unfold Called at this
    tauto
  exact absurd ((hend.idle hidle hrunnable).2 hworthy) (by omega)

theorem sliceStart_append (first rest : List (ReceiveAction M)) :
    s.sliceStart (first ++ rest) = (s.sliceStart first).or ((s.run first).sliceStart rest) := by
  induction first generalizing s with
  | nil => rfl
  | cons action first ih =>
    rw [List.cons_append, sliceStart, sliceStart]
    cases hstart : s.startsSlice action with
    | true => rfl
    | false => simpa [run_cons] using ih

/-- What an action brings is followed by a slice, whenever it comes. -/
theorem Attentive.awake_of_called (h : Attentive s) (hrunning : s.stage ≠ .running)
    {before after : List (ReceiveAction M)} {action : ReceiveAction M}
    (hcalled : Called ((s.run before).step action))
    (hother : ∀ t : ReceiveSystem K M, t.startsSlice action = false)
    (hsettled : (s.run (before ++ action :: after)).Settled) :
    (s.sliceStart (before ++ action :: after)).isSome = true := by
  rw [sliceStart_append, Option.isSome_or, Bool.or_eq_true]
  by_cases hbefore : (s.sliceStart before).isSome = true
  · exact .inl hbefore
  · right
    have hasleep := run_asleep hrunning (by simpa using hbefore : s.sliceStart before = none)
    rw [sliceStart, hother, if_neg Bool.false_ne_true]
    refine ((h.run before).step _).awake (rests_step hasleep.stage (hother _)).stage hcalled ?_
    simpa [run_append, run_cons] using hsettled

/-- Something is there for the process, or comes during the actions. -/
def Summoned (s : ReceiveSystem K M) (actions : List (ReceiveAction M)) : Prop :=
  Called s ∨ (∃ message, .deliver message ∈ actions) ∨
    ∃ before timer after, actions = before ++ .fire timer :: after ∧ timer ∈ (s.run before).wheel

/-- No wake is lost: once the slice has ended, every interleaving after which nobody has anything
left to do has begun the next slice if there was something to begin it for. -/
theorem slice_follows (hended : s.stage.executing = true) (hrunning : s.stage ≠ .running)
    (actions : List (ReceiveAction M)) (hsettled : (s.run actions).Settled)
    (hsummoned : s.Summoned actions) : ∃ t, s.sliceStart actions = some t := by
  have h := Attentive.of_executing hended
  rw [← Option.isSome_iff_exists]
  rcases hsummoned with hcalled | ⟨message, hdeliver⟩ | ⟨before, timer, after, rfl, hwheel⟩
  · exact h.awake hrunning hcalled hsettled
  · obtain ⟨before, after, rfl⟩ := List.append_of_mem hdeliver
    exact h.awake_of_called hrunning (called_deliver message) (fun _ => rfl) hsettled
  · exact h.awake_of_called hrunning (called_fire hwheel) (fun _ => rfl) hsettled

/-- A message that comes between the store and the registration, and a wake too early. -/
theorem slice_follows_early :
    let s : ReceiveSystem ℕ ℕ := ⟨⟨.new, none, none, none⟩, .waited, false, false, [], 0, [], [], 0⟩
    ∃ t, s.sliceStart [.owner, .owner, .deliver 7, .wake, .owner, .owner, .owner] = some t :=
  slice_follows rfl (by decide) _ (.inl rfl) (.inr (.inl ⟨7, by simp⟩))

end

end ReceiveSystem

end Beamr.Scheduler
