import Beamr.Interpreter.Bif
import Beamr.Jit.Lowering
import Beamr.Scheduler.ReceiveWait

/-!
# Receive with a timeout in compiled code

`wait_timeout` as the interpreter executes it and as it is compiled. The interpreter parks; a
message resumes it at the fail label and the timer after the instruction. The compiled form calls
a helper and branches on its answer, to the block of the last receive before it when a message is
there and to the fail label when the timeout is zero; else it yields, and the process starts again
at the position it had when the compiled code was entered. The labels of the module are those of
the slice.
-/
namespace Beamr.Jit

open Loader Term Interpreter Messaging Scheduler

/-- A slice at its place in the code of a module. -/
structure LoadedSlice where
  moduleName : ℕ
  entry : ℕ
  instructions : List Instruction

/-- Executing the instruction only goes on. -/
def isMarker : Instruction → Bool
  | .label _ | .line _ => true
  | _ => false

namespace LoadedSlice

variable (slice : LoadedSlice)

def plan : TranslationPlan := .ofSlice slice.instructions

def position (index : ℕ) : CodePosition := ⟨slice.moduleName, slice.entry + index⟩

/-- The first instruction from an index on that is not a marker. -/
def skipMarkers (index : ℕ) : ℕ :=
  index + ((slice.instructions.drop index).takeWhile isMarker).length

/-- The instruction of the slice that a position leads to. -/
def place (position : CodePosition) : Option ℕ :=
  if position.moduleName = slice.moduleName ∧ slice.entry ≤ position.instructionPointer then
    some (slice.skipMarkers (position.instructionPointer - slice.entry))
  else none

def labelPosition (operand : Operand) : Except ExecError CodePosition := do
  let label ← operandLabel operand
  match slice.plan.labels.lookup label with
  | some index => .ok (slice.position index)
  | none => .error (.invalidLabel label)

end LoadedSlice

/-- What the instruction reads beside the fields of the receive. -/
structure WaitContext where
  registers : Registers
  literals : List Word
  reductions : ℕ

def atomInfinity : Atom := 76

/-- Payload of a small integer that is not negative. -/
def smallMilliseconds (term : Word) : Option ℕ :=
  if term.isSmallInt ∧ 0 ≤ term.payload then some term.payload.toNat else none

/-! ## The interpreter -/

def timeoutMilliseconds (context : WaitContext) : Operand → Except ExecError (Option ℕ)
  | .unsigned value => .ok (some value)
  | .integer value => if 0 ≤ value then .ok (some value.toNat) else .error .badarg
  | operand => do
    let term ← readTerm context.registers context.literals operand
    if term.tag = .atom ∧ term.index % 2 ^ 32 = atomInfinity then .ok none
    else
      match smallMilliseconds term with
      | some milliseconds => .ok (some milliseconds)
      | none => .error .badarg

def nextPosition (position : CodePosition) : CodePosition :=
  { position with instructionPointer := position.instructionPointer + 1 }

def waitTimeout (slice : LoadedSlice) (context : WaitContext) (fail timeout : Operand)
    (process : ReceiveProcess Word Word) : Except ExecError (ReceiveProcess Word Word) := do
  let continuation ← slice.labelPosition fail
  let milliseconds ← timeoutMilliseconds context timeout
  match process.codePosition with
  | none => .error (.invalidOperand "wait_timeout code position")
  | some current =>
    .ok { process with
      codePosition := some (nextPosition continuation)
      receiveTimeout := milliseconds.map fun milliseconds =>
        ⟨nextPosition current, milliseconds⟩ }

/-! ## Compiled code -/

inductive WaitStatus
  | newMessage
  | timeout
  | waiting
  deriving DecidableEq

/-- A bounded timeout is recorded with the position of the process. -/
def recordTimeout (process : ReceiveProcess Word Word) (milliseconds : Option ℕ) :
    ReceiveProcess Word Word :=
  match milliseconds, process.codePosition with
  | some milliseconds, some position =>
    { process with receiveTimeout := some ⟨position, milliseconds⟩, receiveTimerRef := none }
  | _, _ => process

def jitReceiveWaitTimeout (process : ReceiveProcess Word Word) (timeout : Word) :
    WaitStatus × ReceiveProcess Word Word :=
  let current := process.mailbox.currentMessage
  let process := { process with mailbox := current.2 }
  if current.1.isSome then (.newMessage, process)
  else if smallMilliseconds timeout = some 0 then (.timeout, process)
  else (.waiting, recordTimeout process (smallMilliseconds timeout))

/-- `jit_charge_reduction`: whether compiled code has to yield. -/
def chargeReduction (reductions : ℕ) : Bool := reductions - 1 == 0

def branchWaitStatus (loopLabel timeoutLabel : ℕ) : WaitStatus → Edge
  | .newMessage => .to loopLabel
  | .timeout => .to timeoutLabel
  | .waiting => .leave

/-- The branch that compiled code takes, and the process there. -/
def translateWaitTimeout (slice : LoadedSlice) (context : WaitContext) (index : ℕ)
    (fail timeout : Operand) (process : ReceiveProcess Word Word) :
    Except JitError (Edge × ReceiveProcess Word Word) := do
  let timeoutLabel ← labelBlock slice.plan.labels fail
  let term ← readOperandTerm context.registers timeout
  let helper := jitReceiveWaitTimeout process term
  let loopLabel := loopBlock slice.plan slice.instructions index
  return (if chargeReduction context.reductions then .leave
    else branchWaitStatus loopLabel timeoutLabel helper.1, helper.2)

/-! ## Both from the same state -/

/-- A wait that ends a receive loop of an accepted slice: the fail label leads to a receive, which
leads back to the wait when the mailbox has no more messages. -/
structure ReceiveLoop (slice : LoadedSlice) (index : ℕ) (fail timeout : Operand)
    (loopIndex : ℕ) : Prop where
  accepted : TranslationPlan.new slice.instructions = .ok slice.plan
  wait : slice.instructions[index]? = some (.waitTimeout fail timeout)
  receive : ∃ waitLabel destination,
    slice.instructions[loopIndex]? = some (.loopRec waitLabel destination) ∧
      (labelBlock slice.plan.labels waitLabel).map slice.skipMarkers = .ok index
  failLabel : (labelBlock slice.plan.labels fail).map slice.skipMarkers = .ok loopIndex
  before : loopIndex < index

section

variable (slice : LoadedSlice) (context : WaitContext) (index : ℕ) (fail timeout : Operand)
variable (system : ReceiveSystem Word Word) (actions : List (ReceiveAction Word))

/-- The slice of the interpreter has ended with the wait, unless an operand was wrong. -/
def interpretedWait : Except ExecError (ReceiveSystem Word Word) :=
  (waitTimeout slice context fail timeout
    { system.process with codePosition := some (slice.position index) }).map fun process =>
      { system with process := process, stage := .waited }

/-- Compiled code goes on at a place of the slice, or it has left and the slice has ended. -/
def compiledWait : Except JitError (Option ℕ × ReceiveSystem Word Word) :=
  (translateWaitTimeout slice context index fail timeout system.process).map fun result =>
    match result.1 with
    | .to target =>
      (some (slice.skipMarkers target), { system with process := result.2, stage := .running })
    | _ => (none, { system with process := result.2, stage := .yielded })

/-- Where a process runs again. -/
def resumedAt (system : ReceiveSystem Word Word) : Option ℕ :=
  if system.stage = .running then system.process.codePosition.bind slice.place else none

/-- Where control goes on after the wait, and the save pointer there. -/
structure WaitOutcome where
  place : Option ℕ
  savePointer : ℕ
  deriving DecidableEq

def interpretedOutcome : WaitOutcome :=
  match interpretedWait slice context index fail timeout system with
  | .ok parked =>
    ⟨resumedAt slice (parked.run actions), (parked.run actions).process.mailbox.savePointer⟩
  | .error _ => ⟨none, system.process.mailbox.savePointer⟩

def compiledOutcome (compiled : Option ℕ × ReceiveSystem Word Word) : WaitOutcome :=
  ⟨compiled.1.or (resumedAt slice (compiled.2.run actions)),
    (compiled.2.run actions).process.mailbox.savePointer⟩

/-- Both go on after the wait or neither does, both go back to the receive or neither does, and
the save pointer is the same. -/
structure WaitOutcome.Agrees (compiled interpreted : WaitOutcome) (after loopIndex : ℕ) :
    Prop where
  after : compiled.place = some after ↔ interpreted.place = some after
  loop : compiled.place = some loopIndex ↔ interpreted.place = some loopIndex
  savePointer : compiled.savePointer = interpreted.savePointer

/-- In this order of events the interpreted process has run on or sleeps for good. -/
def ParkSettled : Prop :=
  ∀ parked, interpretedWait slice context index fail timeout system = .ok parked →
    (parked.run actions).Settled

end

/-! ## When they agree -/

section

variable (slice : LoadedSlice) (context : WaitContext) (index : ℕ) (fail timeout : Operand)
variable (loopIndex : ℕ) (system : ReceiveSystem Word Word)
variable (actions : List (ReceiveAction Word))

/-- The interpreted process gets another slice. -/
def Wakes : Prop :=
  ∃ parked start, interpretedWait slice context index fail timeout system = .ok parked ∧
    parked.sliceStart actions = some start

/-- When it does, its receive timer has fired. -/
def Expires : Prop :=
  ∃ parked start, interpretedWait slice context index fail timeout system = .ok parked ∧
    parked.sliceStart actions = some start ∧
      (start.process.firedTimeout start.expiredTimers).isSome = true

/-- A message is at the save pointer when the wait is reached. -/
def MessageWaiting : Prop := system.process.mailbox.currentMessage.1.isSome = true

def TimeoutNumber (milliseconds : ℕ) : Prop :=
  (readOperandTerm context.registers timeout).map smallMilliseconds = .ok (some milliseconds)

/-- There is something to branch on and reductions are left. -/
def Stays : Prop :=
  1 < context.reductions ∧ (MessageWaiting system ∨ TimeoutNumber context timeout 0)

/-- The branch is to the receive loop of this wait. -/
def StaysInLoop : Prop :=
  Stays context timeout system ∧ (MessageWaiting system →
    slice.skipMarkers (loopBlock slice.plan slice.instructions index) = loopIndex)

/-- The helper replaces the receive timeout of the process by its own. -/
def ReplacesTimeout : Prop :=
  ¬ MessageWaiting system ∧ (∃ milliseconds, TimeoutNumber context timeout (milliseconds + 1)) ∧
    system.process.codePosition.isSome = true

/-- Compiled code has left, and the position at which it was entered, or else a timer that was
armed before, leads to the instruction. -/
def RestartsAt (target : ℕ) : Prop :=
  ¬ Stays context timeout system ∧
    ∃ start, { system with stage := .yielded }.sliceStart actions = some start ∧
      ((ReplacesTimeout context timeout system ∧
          system.process.codePosition.bind slice.place = some target) ∨
        (¬ ReplacesTimeout context timeout system ∧
          (system.process.resumePosition start.expiredTimers).bind slice.place = some target))

/-- The exact condition. -/
def WaitMeets : Prop :=
  (Expires slice context index fail timeout system actions ∧
      RestartsAt slice context timeout system actions (slice.skipMarkers (index + 1))) ∨
    (Wakes slice context index fail timeout system actions ∧
      ¬ Expires slice context index fail timeout system actions ∧
      (StaysInLoop slice context index timeout loopIndex system ∨
        RestartsAt slice context timeout system actions loopIndex)) ∨
    (¬ Wakes slice context index fail timeout system actions ∧
      ¬ StaysInLoop slice context index timeout loopIndex system ∧
      ¬ RestartsAt slice context timeout system actions loopIndex ∧
      ¬ RestartsAt slice context timeout system actions (slice.skipMarkers (index + 1)))

end

/-! ## Places of the slice -/

section

variable {slice : LoadedSlice} {index : ℕ} {instruction : Instruction}

theorem LoadedSlice.le_skipMarkers (slice : LoadedSlice) (index : ℕ) :
    index ≤ slice.skipMarkers index := Nat.le_add_right ..

theorem skipMarkers_marker (h : slice.instructions[index]? = some instruction)
    (hmarker : isMarker instruction = true) :
    slice.skipMarkers index = slice.skipMarkers (index + 1) := by
  obtain ⟨hlt, hget⟩ := List.getElem?_eq_some_iff.mp h
  rw [LoadedSlice.skipMarkers, LoadedSlice.skipMarkers, List.drop_eq_getElem_cons hlt, hget]
  simp only [List.takeWhile_cons, hmarker, if_true, List.length_cons]
  omega

theorem skipMarkers_self (h : slice.instructions[index]? = some instruction)
    (hmarker : isMarker instruction = false) : slice.skipMarkers index = index := by
  obtain ⟨hlt, hget⟩ := List.getElem?_eq_some_iff.mp h
  rw [LoadedSlice.skipMarkers, List.drop_eq_getElem_cons hlt, hget]
  simp [hmarker]

/-- An instruction that is not a marker is not skipped. -/
theorem skipMarkers_le {start : ℕ} (hle : start ≤ index)
    (h : slice.instructions[index]? = some instruction) (hmarker : isMarker instruction = false) :
    slice.skipMarkers start ≤ index := by
  induction hle using Nat.decreasingInduction with
  | self => exact (skipMarkers_self h hmarker).le
  | of_succ k hk ih =>
    obtain ⟨hlt, -⟩ := List.getElem?_eq_some_iff.mp h
    have hget : slice.instructions[k]? = some slice.instructions[k] :=
      List.getElem?_eq_getElem (by omega)
    cases hk' : isMarker slice.instructions[k] with
    | true => exact (skipMarkers_marker hget hk').trans_le ih
    | false => exact (skipMarkers_self hget hk').trans_le (by omega)

theorem place_position (slice : LoadedSlice) (index : ℕ) :
    slice.place (slice.position index) = some (slice.skipMarkers index) := by
  simp [LoadedSlice.place, LoadedSlice.position]

theorem nextPosition_position (slice : LoadedSlice) (index : ℕ) :
    nextPosition (slice.position index) = slice.position (index + 1) := rfl

/-- Every recorded index is the index of its label. -/
theorem collect_isLabel {plan : TranslationPlan} {offset : ℕ} {instructions : List Instruction}
    {label target : ℕ} (hmem : (label, target) ∈ (plan.collect offset instructions).labels) :
    (label, target) ∈ plan.labels ∨
      offset ≤ target ∧ instructions[target - offset]? = some (.label label) := by
  induction instructions generalizing plan offset with
  | nil => exact .inl hmem
  | cons first rest ih =>
    rcases ih hmem with hrecord | ⟨hle, hget⟩
    · by_cases hlabel : ∃ name, first = .label name
      · obtain ⟨name, rfl⟩ := hlabel
        rcases List.mem_cons.mp hrecord with heq | hold
        · cases heq
          exact .inr ⟨le_rfl, by simp⟩
        · exact .inl hold
      · left
        unfold TranslationPlan.record at hrecord
        split at hrecord
        next => exact absurd ⟨_, rfl⟩ hlabel
        next => split at hrecord <;> exact hrecord
    · refine .inr ⟨by omega, ?_⟩
      rw [show target - offset = (target - (offset + 1)) + 1 by omega, List.getElem?_cons_succ]
      exact hget

theorem labelBlock_isLabel {operand : Operand} {target : ℕ}
    (h : labelBlock slice.plan.labels operand = .ok target) :
    ∃ label, operand = .label label ∧ slice.plan.labels.lookup label = some target ∧
      slice.instructions[target]? = some (.label label) := by
  obtain ⟨label, rfl, hlookup⟩ := mem_resolve.mp (labelBlock_ok_iff.mp h)
  obtain ⟨before, after, heq, -⟩ := List.lookup_eq_some_iff.mp hlookup
  have hmem : (label, target) ∈ slice.plan.labels := by
    rw [heq]
    exact List.mem_append_right before List.mem_cons_self
  rcases collect_isLabel hmem with hnil | ⟨-, hget⟩
  · exact absurd hnil List.not_mem_nil
  · exact ⟨label, rfl, hlookup, hget⟩

theorem blockForInstruction_le (plan : TranslationPlan) (index : ℕ) :
    blockForInstruction plan index ≤ index := by
  unfold blockForInstruction
  induction plan.blockStarts with
  | nil => exact Nat.zero_le _
  | cons start rest ih =>
    rw [List.filter_cons]
    split
    next hle => simpa using ⟨by simpa using hle, ih⟩
    next => exact ih

theorem loopBlock_le (plan : TranslationPlan) (instructions : List Instruction) (index : ℕ) :
    loopBlock plan instructions index ≤ index := by
  unfold loopBlock
  split
  next loopIndex hfind =>
    have hmem := List.mem_of_find?_eq_some hfind
    have hlt : loopIndex < index := by simpa using hmem
    exact (blockForInstruction_le plan loopIndex).trans hlt.le
  next => exact blockForInstruction_le plan index

end

/-! ## The compiled wait -/

section

variable {slice : LoadedSlice} {context : WaitContext} {index : ℕ} {fail timeout : Operand}
variable {loopIndex : ℕ} {system : ReceiveSystem Word Word}
variable {actions : List (ReceiveAction Word)}
variable {compiled : Option ℕ × ReceiveSystem Word Word}

theorem timeoutNumber_iff {term : Word} (hread : readOperandTerm context.registers timeout =
    .ok term) (milliseconds : ℕ) :
    TimeoutNumber context timeout milliseconds ↔ smallMilliseconds term = some milliseconds := by
  simp [TimeoutNumber, hread, Except.map]

@[simp] theorem mailbox_recordTimeout (process : ReceiveProcess Word Word)
    (milliseconds : Option ℕ) : (recordTimeout process milliseconds).mailbox = process.mailbox := by
  unfold recordTimeout
  split <;> rfl

@[simp] theorem savePointer_jitReceiveWaitTimeout (process : ReceiveProcess Word Word)
    (term : Word) :
    (jitReceiveWaitTimeout process term).2.mailbox.savePointer = process.mailbox.savePointer := by
  unfold jitReceiveWaitTimeout
  simp only
  split_ifs <;> simp [Mailbox.currentMessage, Mailbox.drainArrival]

/-- Without a timeout of its own the helper leaves the process where it would go on. -/
theorem resumePosition_jitReceiveWaitTimeout (system : ReceiveSystem Word Word) {term : Word}
    (hread : readOperandTerm context.registers timeout = .ok term) (fired : List ℕ) :
    (ReplacesTimeout context timeout system →
        (jitReceiveWaitTimeout system.process term).2.resumePosition fired =
          system.process.codePosition) ∧
      (¬ ReplacesTimeout context timeout system →
        (jitReceiveWaitTimeout system.process term).2.resumePosition fired =
          system.process.resumePosition fired) := by
  simp only [ReplacesTimeout, timeoutNumber_iff hread, MessageWaiting]
  unfold jitReceiveWaitTimeout
  simp only
  cases hmessage : system.process.mailbox.currentMessage.1 with
  | some message => simp [ReceiveProcess.resumePosition, ReceiveProcess.firedTimeout]
  | none =>
    cases hnumber : smallMilliseconds term with
    | none => simp [recordTimeout, ReceiveProcess.resumePosition, ReceiveProcess.firedTimeout]
    | some milliseconds =>
      cases milliseconds with
      | zero => simp [ReceiveProcess.resumePosition, ReceiveProcess.firedTimeout]
      | succ milliseconds =>
        cases hposition : system.process.codePosition with
        | none =>
          simp [recordTimeout, ReceiveProcess.resumePosition, ReceiveProcess.firedTimeout,
            hposition]
        | some position =>
          simp [recordTimeout, ReceiveProcess.resumePosition, ReceiveProcess.firedTimeout,
            hposition]

theorem chargeReduction_iff {reductions : ℕ} :
    chargeReduction reductions = true ↔ ¬ 1 < reductions := by
  simp only [chargeReduction, beq_iff_eq]
  omega

theorem status_jitReceiveWaitTimeout (process : ReceiveProcess Word Word) (term : Word) :
    (jitReceiveWaitTimeout process term).1 =
      if process.mailbox.currentMessage.1.isSome then .newMessage
      else if smallMilliseconds term = some 0 then .timeout else .waiting := by
  unfold jitReceiveWaitTimeout
  simp only
  split_ifs <;> rfl

/-- The branch that compiled code takes after the helper, as the answer of the helper and the
reductions that are left decide it. -/
theorem translateWaitTimeout_ok {result : Edge × ReceiveProcess Word Word}
    (h : translateWaitTimeout slice context index fail timeout system.process = .ok result) :
    ∃ target term, labelBlock slice.plan.labels fail = .ok target ∧
      readOperandTerm context.registers timeout = .ok term ∧
      result.2 = (jitReceiveWaitTimeout system.process term).2 ∧
      (Stays context timeout system → result.1 = .to
        (if system.process.mailbox.currentMessage.1.isSome then
          loopBlock slice.plan slice.instructions index else target)) ∧
      (¬ Stays context timeout system → result.1 = .leave) := by
  unfold translateWaitTimeout at h
  obtain ⟨target, htarget, h⟩ := except_bind_ok_iff.mp h
  obtain ⟨term, hread, h⟩ := except_bind_ok_iff.mp h
  cases h
  refine ⟨target, term, htarget, hread, rfl, ?_⟩
  simp only [Stays, timeoutNumber_iff hread, MessageWaiting, chargeReduction_iff,
    status_jitReceiveWaitTimeout]
  by_cases hcharge : 1 < context.reductions
  · by_cases hmessage : system.process.mailbox.currentMessage.1.isSome = true
    · simp [hcharge, hmessage, branchWaitStatus]
    · by_cases hzero : smallMilliseconds term = some 0
      · simp [hcharge, hmessage, hzero, branchWaitStatus]
      · simp [hcharge, hmessage, hzero, branchWaitStatus]
  · simp [hcharge]

/-- Compiled code goes on in the slice, or the slice has ended with a yield. -/
theorem compiledWait_ok
    (h : compiledWait slice context index fail timeout system = .ok compiled) :
    ∃ target term, labelBlock slice.plan.labels fail = .ok target ∧
      readOperandTerm context.registers timeout = .ok term ∧
      compiled.2.process = (jitReceiveWaitTimeout system.process term).2 ∧
      (Stays context timeout system → compiled.1 = some (slice.skipMarkers
        (if system.process.mailbox.currentMessage.1.isSome then
          loopBlock slice.plan slice.instructions index else target))) ∧
      (¬ Stays context timeout system → compiled.1 = none ∧
        compiled.2 = { system with process := compiled.2.process, stage := .yielded }) := by
  unfold compiledWait at h
  cases hresult : translateWaitTimeout slice context index fail timeout system.process with
  | error e =>
    rw [hresult] at h
    cases h
  | ok result =>
    obtain ⟨target, term, htarget, hread, hprocess, hstays, hleaves⟩ :=
      translateWaitTimeout_ok hresult
    rw [hresult] at h
    refine ⟨target, term, htarget, hread, ?_⟩
    by_cases hs : Stays context timeout system
    · obtain ⟨edge, process⟩ := result
      obtain rfl := hstays hs
      cases h
      exact ⟨hprocess, fun _ => rfl, fun hnot => absurd hs hnot⟩
    · obtain ⟨edge, process⟩ := result
      obtain rfl := hleaves hs
      cases h
      exact ⟨hprocess, fun hstay => absurd hstay hs, fun _ => ⟨rfl, rfl⟩⟩

theorem resumedAt_none {t : ReceiveSystem Word Word} (h : t.stage ≠ .running) :
    resumedAt slice t = none := if_neg h

/-- A process resumes where the state in which its slice begins says. -/
theorem resumedAt_run {t : ReceiveSystem Word Word} (hrunning : system.stage ≠ .running)
    (hstage : system.stage ≠ .waited) (hstart : system.sliceStart actions = some t) :
    resumedAt slice (system.run actions) =
      (system.process.resumePosition t.expiredTimers).bind slice.place := by
  obtain ⟨hrun, hposition⟩ := ReceiveSystem.run_resumed hstart
  have hrests := ReceiveSystem.sliceStart_rests hrunning hstart
  rw [resumedAt, if_pos hrun, hposition, ReceiveProcess.resumePosition,
    ReceiveProcess.resumePosition, ReceiveProcess.firedTimeout, ReceiveProcess.firedTimeout,
    hrests.codePosition, hrests.receiveTimeout, (hrests.armed hstage).2]

/-- After a yield the process restarts where it was when the compiled code was entered. -/
theorem restartsAt_iff {term : Word}
    (hread : readOperandTerm context.registers timeout = .ok term)
    (hleaves : ¬ Stays context timeout system) (target : ℕ) :
    RestartsAt slice context timeout system actions target ↔
      resumedAt slice ({ system with
        process := (jitReceiveWaitTimeout system.process term).2
        stage := .yielded }.run actions) = some target := by
  have halike : ReceiveSystem.Alike { system with stage := .yielded }
      { system with process := (jitReceiveWaitTimeout system.process term).2, stage := .yielded } :=
    ⟨rfl, .inl rfl, rfl, rfl, rfl, rfl, rfl⟩
  have htimers := halike.sliceStart actions
  rw [RestartsAt, and_iff_right hleaves]
  cases hstart : ReceiveSystem.sliceStart { system with
      process := (jitReceiveWaitTimeout system.process term).2, stage := .yielded } actions with
  | none =>
    rw [resumedAt_none (ReceiveSystem.run_asleep (by simp) hstart).stage]
    rw [hstart] at htimers
    have hasleep := Option.map_eq_none_iff.mp htimers.symm
    simp [hasleep]
  | some t =>
    rw [resumedAt_run (by simp) (by simp) hstart]
    rw [hstart, Option.map_some, eq_comm, Option.map_eq_some_iff] at htimers
    obtain ⟨start, horiginal, hexpired⟩ := htimers
    obtain ⟨hreplaced, hkept⟩ :=
      resumePosition_jitReceiveWaitTimeout system hread t.expiredTimers
    simp only [horiginal, Option.some.injEq, exists_eq_left', hexpired]
    by_cases hreplaces : ReplacesTimeout context timeout system
    · simp [hreplaces, hreplaced hreplaces]
    · simp [hreplaces, hkept hreplaces]

/-! ## Where each of them goes on -/

section

variable (hloop : ReceiveLoop slice index fail timeout loopIndex)

include hloop

theorem ReceiveLoop.failTarget : ∃ target, labelBlock slice.plan.labels fail = .ok target ∧
    slice.skipMarkers target = loopIndex := by
  have h := hloop.failLabel
  cases htarget : labelBlock slice.plan.labels fail with
  | error e =>
    rw [htarget] at h
    cases h
  | ok target =>
    rw [htarget] at h
    exact ⟨target, rfl, Except.ok.inj h⟩

theorem ReceiveLoop.loopIndex_ne : loopIndex ≠ slice.skipMarkers (index + 1) := by
  have hbefore := hloop.before
  have hafter := slice.le_skipMarkers (index + 1)
  omega

/-- The block of the last receive before the wait does not reach beyond the wait. -/
theorem ReceiveLoop.loopBlock_ne :
    slice.skipMarkers (loopBlock slice.plan slice.instructions index) ≠
      slice.skipMarkers (index + 1) := by
  have hle := skipMarkers_le (loopBlock_le slice.plan slice.instructions index) hloop.wait rfl
  have hafter := slice.le_skipMarkers (index + 1)
  omega

theorem ReceiveLoop.compiled_place (actions : List (ReceiveAction Word))
    (h : compiledWait slice context index fail timeout system = .ok compiled) :
    ((compiledOutcome slice actions compiled).place = some (slice.skipMarkers (index + 1)) ↔
        RestartsAt slice context timeout system actions (slice.skipMarkers (index + 1))) ∧
      ((compiledOutcome slice actions compiled).place = some loopIndex ↔
        StaysInLoop slice context index timeout loopIndex system ∨
          RestartsAt slice context timeout system actions loopIndex) := by
  obtain ⟨target, term, htarget, hread, hprocess, hstays, hleaves⟩ := compiledWait_ok h
  rw [compiledOutcome]
  by_cases hs : Stays context timeout system
  · have hnot : ∀ place, ¬ RestartsAt slice context timeout system actions place :=
      fun place hrestarts => hrestarts.1 hs
    obtain ⟨failTarget, hfail, hskip⟩ := hloop.failTarget
    obtain rfl : target = failTarget := Except.ok.inj (htarget.symm.trans hfail)
    rw [hstays hs, Option.some_or]
    simp only [Option.some.injEq, hnot, or_false, iff_false, StaysInLoop, hs, true_and,
      MessageWaiting]
    split_ifs with hmessage
    · exact ⟨hloop.loopBlock_ne, by simp [hmessage]⟩
    · exact ⟨hskip.trans_ne hloop.loopIndex_ne, by simp [hskip, hmessage]⟩
  · obtain ⟨hnone, hyielded⟩ := hleaves hs
    rw [hnone, Option.none_or, hyielded, hprocess]
    simp only [StaysInLoop, hs, false_and, false_or]
    exact ⟨(restartsAt_iff hread hs _).symm, (restartsAt_iff hread hs _).symm⟩

/-- Parked, the process is at the receive and its timer, if it has one, goes on after the
wait. -/
theorem ReceiveLoop.interpretedWait_ok {parked : ReceiveSystem Word Word}
    (h : interpretedWait slice context index fail timeout system = .ok parked) :
    parked.stage = .waited ∧
      parked.process.mailbox.savePointer = system.process.mailbox.savePointer ∧
      parked.process.codePosition.bind slice.place = some loopIndex ∧
      ∀ waiting, parked.process.receiveTimeout = some waiting →
        slice.place waiting.timeoutPosition = some (slice.skipMarkers (index + 1)) := by
  obtain ⟨target, htarget, hskip⟩ := hloop.failTarget
  obtain ⟨label, rfl, hlookup, hlabel⟩ := labelBlock_isLabel htarget
  have hposition : slice.labelPosition (.label label) = .ok (slice.position target) := by
    simp [LoadedSlice.labelPosition, operandLabel, hlookup, bind, Except.bind]
  rw [skipMarkers_marker hlabel rfl] at hskip
  cases hnumber : timeoutMilliseconds context timeout with
  | error e => simp [interpretedWait, waitTimeout, hposition, hnumber, bind, Except.bind,
      Except.map] at h
  | ok milliseconds =>
    have hparked : parked = { system with
        stage := .waited
        process := { system.process with
          codePosition := some (slice.position (target + 1))
          receiveTimeout := milliseconds.map fun milliseconds =>
            ⟨slice.position (index + 1), milliseconds⟩ } } := by
      simpa [interpretedWait, waitTimeout, hposition, hnumber, bind, Except.bind, Except.map,
        nextPosition_position, eq_comm] using h
    subst hparked
    refine ⟨rfl, rfl, ?_, ?_⟩
    · simp [place_position, hskip]
    · intro waiting hwaiting
      obtain ⟨number, -, rfl⟩ := Option.map_eq_some_iff.mp hwaiting
      exact place_position slice (index + 1)

theorem ReceiveLoop.interpreted_place (context : WaitContext)
    (system : ReceiveSystem Word Word) (actions : List (ReceiveAction Word)) :
    ((interpretedOutcome slice context index fail timeout system actions).place =
          some (slice.skipMarkers (index + 1)) ↔
        Expires slice context index fail timeout system actions) ∧
      ((interpretedOutcome slice context index fail timeout system actions).place =
          some loopIndex ↔
        Wakes slice context index fail timeout system actions ∧
          ¬ Expires slice context index fail timeout system actions) := by
  have hne := hloop.loopIndex_ne
  unfold interpretedOutcome Expires Wakes
  cases hparked : interpretedWait slice context index fail timeout system with
  | error e => simp
  | ok parked =>
    obtain ⟨hstage, -, hreceive, hafter⟩ := hloop.interpretedWait_ok hparked
    have hrunning : parked.stage ≠ .running := by simp [hstage]
    cases hstart : parked.sliceStart actions with
    | none =>
      have hasleep := ReceiveSystem.run_asleep hrunning hstart
      simp [resumedAt_none hasleep.stage, hstart]
    | some start =>
      have hrests := ReceiveSystem.sliceStart_rests hrunning hstart
      obtain ⟨hrun, hposition⟩ := ReceiveSystem.run_resumed hstart
      simp only [resumedAt, if_pos hrun, hposition, ReceiveProcess.resumePosition,
        Except.ok.injEq, exists_and_left, exists_eq_left', hstart, Option.some.injEq]
      cases hfired : start.process.firedTimeout start.expiredTimers with
      | none => simp [hrests.codePosition, hreceive, hne]
      | some position =>
        have hplace : slice.place position = some (slice.skipMarkers (index + 1)) := by
          unfold ReceiveProcess.firedTimeout at hfired
          split at hfired
          next waiting armed hwaiting harmed =>
            split at hfired
            · cases hfired
              exact hafter waiting (hrests.receiveTimeout.symm.trans hwaiting)
            · cases hfired
          next => cases hfired
        simp [hplace, hne.symm]

/-- Both outcomes have the save pointer of the state they start from. -/
theorem ReceiveLoop.savePointer_eq
    (h : compiledWait slice context index fail timeout system = .ok compiled) :
    (compiledOutcome slice actions compiled).savePointer =
      (interpretedOutcome slice context index fail timeout system actions).savePointer := by
  obtain ⟨target, term, -, -, hprocess, -, -⟩ := compiledWait_ok h
  rw [compiledOutcome, ReceiveSystem.run_savePointer, hprocess, savePointer_jitReceiveWaitTimeout]
  unfold interpretedOutcome
  cases hparked : interpretedWait slice context index fail timeout system with
  | error e => rfl
  | ok parked =>
    exact ((hloop.interpretedWait_ok hparked).2.1.symm).trans
      (ReceiveSystem.run_savePointer actions).symm

end

/-- Of two places that exclude each other both are right in one of three ways. -/
theorem places_agree_iff {expires wakes after stays restarts : Prop} (hwakes : expires → wakes)
    (hexclusive : after → ¬ (stays ∨ restarts)) :
    ((after ↔ expires) ∧ (stays ∨ restarts ↔ wakes ∧ ¬ expires)) ↔
      (expires ∧ after) ∨ (wakes ∧ ¬ expires ∧ (stays ∨ restarts)) ∨
        (¬ wakes ∧ ¬ stays ∧ ¬ restarts ∧ ¬ after) := by
  tauto

/-- The compiled wait goes on where the interpreted one does exactly when one of these holds: the
timer fires first and the compiled code has left and restarts after the wait; the process is woken
before and the compiled code goes back to this receive; nobody wakes the process and the compiled
code does neither. -/
theorem wait_timeout_agrees_iff (hloop : ReceiveLoop slice index fail timeout loopIndex)
    (hcompiled : compiledWait slice context index fail timeout system = .ok compiled) :
    (compiledOutcome slice actions compiled).Agrees
        (interpretedOutcome slice context index fail timeout system actions)
        (slice.skipMarkers (index + 1)) loopIndex ↔
      WaitMeets slice context index fail timeout loopIndex system actions := by
  obtain ⟨hcompiledAfter, hcompiledLoop⟩ := hloop.compiled_place actions hcompiled
  obtain ⟨hafter, hback⟩ := hloop.interpreted_place context system actions
  have hwakes : Expires slice context index fail timeout system actions →
      Wakes slice context index fail timeout system actions := by
    rintro ⟨parked, start, hparked, hstart, -⟩
    exact ⟨parked, start, hparked, hstart⟩
  have hexclusive :
      RestartsAt slice context timeout system actions (slice.skipMarkers (index + 1)) →
        ¬ (StaysInLoop slice context index timeout loopIndex system ∨
          RestartsAt slice context timeout system actions loopIndex) := by
    intro hrestarts hreturns
    have hsame := (hcompiledAfter.mpr hrestarts).symm.trans (hcompiledLoop.mpr hreturns)
    exact hloop.loopIndex_ne (Option.some.inj hsame).symm
  rw [WaitMeets, ← places_agree_iff hwakes hexclusive]
  constructor
  · rintro ⟨hsameAfter, hsameLoop, -⟩
    rw [hcompiledAfter, hafter] at hsameAfter
    rw [hcompiledLoop, hback] at hsameLoop
    exact ⟨hsameAfter, hsameLoop⟩
  · rintro ⟨hsameAfter, hsameLoop⟩
    exact ⟨by rwa [hcompiledAfter, hafter], by rwa [hcompiledLoop, hback],
      hloop.savePointer_eq hcompiled⟩

/-! ## A receive with timeout zero -/

/-- The receive that the tests of the interpreter run, with timeout zero. -/
def receiveAfterZero : LoadedSlice where
  moduleName := 1
  entry := 0
  instructions := [.label 10, .loopRec (.label 20) (.x 0), .removeMessage, .return_, .label 20,
    .waitTimeout (.label 10) (.unsigned 0), .timeout, .return_]

def freshContext : WaitContext := ⟨⟨fun _ => Word.nil, []⟩, [], 4000⟩

/-- A process with an empty mailbox in compiled code that was entered at the slice. -/
def emptyReceiver : ReceiveSystem Word Word where
  process := ⟨.new, some ⟨1, 0⟩, none, none⟩
  stage := .running
  waiting := false
  runnable := false
  pending := []
  wakes := 0
  expiredTimers := []
  wheel := []
  lastTimer := 0

theorem receiveLoop_receiveAfterZero :
    ReceiveLoop receiveAfterZero 5 (.label 10) (.unsigned 0) 1 where
  accepted := rfl
  wait := rfl
  receive := ⟨.label 20, .x 0, rfl, rfl⟩
  failLabel := rfl
  before := by decide

/-- The process parks, its timer fires and wakes it, and its slice begins. -/
def timerFires : List (ReceiveAction Word) :=
  [.owner, .owner, .owner, .owner, .fire 1, .wake, .owner]

/-- The process is there for a message of its mailbox when it has parked. -/
def messageStands : List (ReceiveAction Word) := [.owner, .owner, .owner, .owner, .owner]

def mailReceiver : ReceiveSystem Word Word :=
  { emptyReceiver with
    process := { emptyReceiver.process with mailbox := ⟨[], [Word.nil], 0, none⟩ } }

theorem wait_timeout_agrees_message :
    (compiledOutcome receiveAfterZero messageStands
        (some 1, { mailReceiver with stage := .running })).Agrees
      (interpretedOutcome receiveAfterZero freshContext 5 (.label 10) (.unsigned 0) mailReceiver
        messageStands)
      (receiveAfterZero.skipMarkers 6) 1 ↔
    WaitMeets receiveAfterZero freshContext 5 (.label 10) (.unsigned 0) 1 mailReceiver
      messageStands :=
  wait_timeout_agrees_iff receiveLoop_receiveAfterZero rfl

/-- On a timeout of zero compiled code goes back to the receive; the interpreter goes on after
the wait. -/
theorem not_wait_timeout_agrees :
    ¬ ∀ (slice : LoadedSlice) (context : WaitContext) (index : ℕ) (fail timeout : Operand)
        (loopIndex : ℕ) (system : ReceiveSystem Word Word)
        (compiled : Option ℕ × ReceiveSystem Word Word) (actions : List (ReceiveAction Word)),
      ReceiveLoop slice index fail timeout loopIndex →
      compiledWait slice context index fail timeout system = .ok compiled →
      ParkSettled slice context index fail timeout system actions →
      (compiled.2.run actions).Settled →
      (compiledOutcome slice actions compiled).Agrees
        (interpretedOutcome slice context index fail timeout system actions)
        (slice.skipMarkers (index + 1)) loopIndex := by
  intro h
  have hsettled : ParkSettled receiveAfterZero freshContext 5 (.label 10) (.unsigned 0)
      emptyReceiver timerFires := by
    intro parked hparked
    cases hparked
    exact .inl rfl
  have hagrees := h receiveAfterZero freshContext 5 (.label 10) (.unsigned 0) 1 emptyReceiver
    (some 1, emptyReceiver) timerFires receiveLoop_receiveAfterZero rfl hsettled (.inl rfl)
  exact absurd (hagrees.loop.mp rfl) (by decide)

end

end Beamr.Jit
