import Mathlib.Logic.Function.Basic
import Mathlib.Tactic.Common

/-!
# Suspensions and their completions

One process that suspends under a call id, the parties that publish completions for it, and the
gate at the start of a slice that consumes an event of the current suspension. Each access to a map
of the scheduler is a step of its own. The log and the last two fields of the state say what
happened and to what the operations and timers belong. No step reads them.
-/
namespace Beamr.Scheduler

inductive SuspensionKind
  | hostAwait
  | dirtyCall
  | hook
  deriving DecidableEq

structure CodePosition where
  moduleName : ℕ
  instructionPointer : ℕ
  deriving DecidableEq

structure SuspensionRecord where
  callId : ℕ
  kind : SuspensionKind
  position : Option CodePosition
  wakeOnMessage : Bool
  deriving DecidableEq

structure SuspensionMirror where
  callId : ℕ
  kind : SuspensionKind
  wakeOnMessage : Bool
  deriving DecidableEq

/-- What a native asks for when it suspends. -/
structure SuspendRequest where
  timeout : Bool
  wakeOnMessage : Bool
  deriving DecidableEq

/-- A result for the parked call, or a dirty completion that may ask for another suspension. -/
inductive SuspensionPayload
  | host
  | dirty (suspend : Option SuspendRequest)
  deriving DecidableEq

structure PendingSuspensionResult where
  callId : ℕ
  payload : SuspensionPayload
  deriving DecidableEq

/-- The call id of `resume_process` before a suspension can be seen. -/
def resumeAnyHook : ℕ := 0

/-- What ended a suspension without a result. -/
inductive SuspensionCause
  | fileIo (own : Bool)
  | timeout (own : Bool)
  | message
  | resume
  deriving DecidableEq

inductive SuspensionEvent
  | applied (record : SuspensionRecord) (position : Option CodePosition) (resultId : ℕ)
  | replaced (old new : ℕ)
  | ended (record : SuspensionRecord) (cause : SuspensionCause)
  deriving DecidableEq

/-- The steps of the gate, each with one access to a map. -/
inductive GateStage
  | dropMirror
  | dropOrphan
  | plainTimer
  | takeResult
  | applyMirror (record : SuspensionRecord) (result : PendingSuspensionResult)
  | applyMarks (record : SuspensionRecord) (result : PendingSuspensionResult)
  | dirtySuspend (suspend : SuspendRequest)
  | dropStale
  | fileIo
  | fileIoMirror
  | fileIoMarks
  | timer
  | endMirror
  | resume
  | resumeMirror
  | staleResume
  deriving DecidableEq

inductive SliceStage
  | parked
  | gate (stage : GateStage)
  | running
  | exited
  deriving DecidableEq

/-- The parties beside the process, each with what it does next. -/
inductive AwaitThread
  | checkMirror (callId : ℕ) (payload : SuspensionPayload)
  | storeResult (callId : ℕ) (payload : SuspensionPayload)
  | recheckResult
  | insertResume (resumeId : ℕ)
  | recheckResume
  | insertFileIo (op : ℕ)
  | recheckFileIo
  | insertMark (timer : ℕ)
  | recheckMark
  deriving DecidableEq

structure AwaitSystem where
  stage : SliceStage
  suspension : Option SuspensionRecord
  codePosition : Option CodePosition
  lastCallId : ℕ
  receiveTimeout : Option CodePosition
  receiveTimerRef : Option ℕ
  /-- The suspend request of the native that runs, with its call id. -/
  request : Option (ℕ × SuspendRequest)
  inTable : Bool
  mirror : Option SuspensionMirror
  result : Option PendingSuspensionResult
  pendingResume : Option ℕ
  fileIoResult : Option ℕ
  fileIoPending : List (ℕ × Bool)
  fileIoCanceled : List ℕ
  fileIoOrphans : List ℕ
  inRing : List ℕ
  lastOp : ℕ
  expiredTimers : List ℕ
  wheel : List ℕ
  lastTimer : ℕ
  threads : List AwaitThread
  log : List SuspensionEvent
  /-- The operations that the last native has submitted. -/
  ownOps : List ℕ
  /-- The suspension for which a receive timer was armed. -/
  timerOwner : ℕ → Option ℕ

namespace AwaitSystem

variable (s : AwaitSystem)

/-- A process that has not run yet. -/
def new : AwaitSystem where
  stage := .parked
  suspension := none
  codePosition := none
  lastCallId := 0
  receiveTimeout := none
  receiveTimerRef := none
  request := none
  inTable := true
  mirror := none
  result := none
  pendingResume := none
  fileIoResult := none
  fileIoPending := []
  fileIoCanceled := []
  fileIoOrphans := []
  inRing := []
  lastOp := 0
  expiredTimers := []
  wheel := []
  lastTimer := 0
  threads := []
  log := []
  ownOps := []
  timerOwner := fun _ => none

def note (event : SuspensionEvent) : AwaitSystem := { s with log := s.log ++ [event] }

def start (thread : AwaitThread) : AwaitSystem := { s with threads := s.threads ++ [thread] }

def goto (stage : GateStage) : AwaitSystem := { s with stage := .gate stage }

/-- The armed receive timer, if it has fired and has a position to go on at. -/
def firedTimeout : Option CodePosition :=
  match s.receiveTimeout, s.receiveTimerRef with
  | some position, some armed => if armed ∈ s.expiredTimers then some position else none
  | _, _ => none

/-- `apply_expired_receive_timer`. -/
def applyExpiredReceiveTimer : AwaitSystem :=
  match s.firedTimeout with
  | some position =>
    { s with expiredTimers := [], receiveTimerRef := none, codePosition := some position }
  | none => { s with expiredTimers := [] }

/-- The armed receive timer was armed for this suspension. -/
def ownsTimer (callId : ℕ) : Bool :=
  match s.receiveTimerRef with
  | some armed => decide (s.timerOwner armed = some callId)
  | none => false

def clearReceiveTimeout : AwaitSystem :=
  { s with receiveTimeout := none, receiveTimerRef := none }

/-- Arms a timer if the process waits with a timeout and none is armed. -/
def registerReceiveTimer : AwaitSystem :=
  match s.receiveTimeout, s.receiveTimerRef with
  | some _, none =>
    { s with
      lastTimer := s.lastTimer + 1
      receiveTimerRef := some (s.lastTimer + 1)
      wheel := s.wheel ++ [s.lastTimer + 1]
      timerOwner := Function.update s.timerOwner (s.lastTimer + 1) (s.suspension.map (·.callId)) }
  | _, _ => s

/-- The arm of a process that waits. -/
def wait : AwaitSystem := { s.registerReceiveTimer with stage := .parked }

def setSuspension (callId : ℕ) (kind : SuspensionKind) (wakeOnMessage : Bool) : AwaitSystem :=
  { s with suspension := some ⟨callId, kind, s.codePosition, wakeOnMessage⟩ }

def registerSuspensionMirror (callId : ℕ) (kind : SuspensionKind) (wakeOnMessage : Bool) :
    AwaitSystem :=
  { s with mirror := some ⟨callId, kind, wakeOnMessage⟩ }

/-- A suspension under the next call id. -/
def suspend (kind : SuspensionKind) (wakeOnMessage : Bool) : AwaitSystem :=
  ({ s with lastCallId := s.lastCallId + 1 }.setSuspension
    (s.lastCallId + 1) kind wakeOnMessage).registerSuspensionMirror
    (s.lastCallId + 1) kind wakeOnMessage

/-- A suspend request with a timeout goes on where it is parked. -/
def requestTimeout (timeout : Bool) : AwaitSystem :=
  if timeout then { s with receiveTimeout := s.codePosition } else s

/-- Takes the result if it is the one of the suspension. -/
def takeResult (record : SuspensionRecord) : AwaitSystem :=
  match s.result with
  | some result =>
    if result.callId = record.callId then
      { s with
        suspension := none
        result := none
        stage := .gate (.applyMirror record result) }
    else s.goto .dropStale
  | none => s.goto .dropStale

/-- Drops the result of another suspension and goes on by the kind of this one. -/
def dropStale (record : SuspensionRecord) : AwaitSystem :=
  let s := { s with
    result := s.result.filter fun result => decide (result.callId = record.callId) }
  match record.kind with
  | .hostAwait => s.goto .fileIo
  | .dirtyCall => { s with stage := .parked }
  | .hook => s.goto .resume

/-- What is left to do after a result has been applied. -/
def afterApplied : SuspensionPayload → SliceStage
  | .host => .running
  | .dirty none => .running
  | .dirty (some suspend) => .gate (.dirtySuspend suspend)

/-- A file operation that is complete ends a host await, whichever operation it is. -/
def consumeFileIo (record : SuspensionRecord) : AwaitSystem :=
  match s.fileIoResult with
  | some op =>
    { s.clearReceiveTimeout.note (.ended record (.fileIo (decide (op ∈ s.ownOps)))) with
      suspension := none
      stage := .gate .fileIoMirror }
  | none => s.goto .timer

/-- A host await without a result and without a file operation. -/
def consumeTimer (record : SuspensionRecord) : AwaitSystem :=
  if s.firedTimeout.isSome then
    { s.applyExpiredReceiveTimer.note (.ended record (.timeout (s.ownsTimer record.callId))) with
      suspension := none
      stage := .gate .endMirror }
  else if record.wakeOnMessage then
    { s.applyExpiredReceiveTimer.note (.ended record .message) with
      suspension := none
      stage := .gate .endMirror }
  else s.applyExpiredReceiveTimer.wait

/-- A resume for this suspension, or for any suspension of a hook. -/
def consumeResume (record : SuspensionRecord) : AwaitSystem :=
  match s.pendingResume with
  | some resume =>
    if resume = resumeAnyHook ∨ resume = record.callId then
      { s.note (.ended record .resume) with
        suspension := none
        pendingResume := none
        stage := .gate .resumeMirror }
    else s.goto .staleResume
  | none => s.goto .staleResume

/-- One step of `consume_suspension_event`, with the repark of a process that has no event. -/
def runGate : GateStage → AwaitSystem
  | .dropMirror => { s with mirror := none }.goto .dropOrphan
  | .dropOrphan => { s with result := none }.goto .plainTimer
  | .plainTimer => { s.applyExpiredReceiveTimer with stage := .running }
  | .takeResult => s.suspension.elim s s.takeResult
  | .applyMirror record result =>
    if record.position = s.codePosition then
      { s.clearReceiveTimeout with mirror := none }.goto (.applyMarks record result)
    else { s with mirror := none, stage := .exited }
  | .applyMarks record result =>
    { s.note (.applied record s.codePosition result.callId) with
      expiredTimers := []
      stage := afterApplied result.payload }
  | .dirtySuspend suspend =>
    if s.codePosition.isSome then
      ((s.requestTimeout suspend.timeout).suspend .hostAwait suspend.wakeOnMessage).wait
    else { s with stage := .exited }
  | .dropStale => s.suspension.elim s s.dropStale
  | .fileIo => s.suspension.elim s s.consumeFileIo
  | .fileIoMirror => { s with mirror := none }.goto .fileIoMarks
  | .fileIoMarks => { s with expiredTimers := [], stage := .running }
  | .timer => s.suspension.elim s s.consumeTimer
  | .endMirror => { s with mirror := none, stage := .running }
  | .resume => s.suspension.elim s s.consumeResume
  | .resumeMirror => { s with mirror := none }.goto .plainTimer
  | .staleResume =>
    { s with
      pendingResume := s.pendingResume.filter fun resume =>
        decide (resume = resumeAnyHook ∨ s.suspension.map (·.callId) = some resume)
      stage := .parked }

/-- What a running slice does. A native is entered with a context of its own. -/
inductive AwaitSliceStep
  | moveTo (position : Option CodePosition)
  | enterNative
  | requestSuspend (request : SuspendRequest)
  | cancelSuspend
  | submit
  | track (op : ℕ) (active : Bool)
  | takeFileIo
  | cancelFileIo (op : ℕ)
  | waitTimeout (position : CodePosition)
  | clearReceiveTimeout
  | handleSuspend
  | dirtyCall
  | hookSuspend
  | wait
  | yield
  | exit
  deriving DecidableEq

/-- `request_suspend_flavor`: the call id is mirrored before the native returns. -/
def requestSuspend (request : SuspendRequest) : AwaitSystem :=
  { s with
    lastCallId := s.lastCallId + 1
    request := some (s.lastCallId + 1, request) }.registerSuspensionMirror
    (s.lastCallId + 1) .hostAwait request.wakeOnMessage

/-- The mirror goes with the request unless it is one of another call id. -/
def cancelSuspend : AwaitSystem :=
  { s with
    request := none
    mirror := s.mirror.filter fun mirror => decide (s.request.map (·.1) ≠ some mirror.callId) }

def track (op : ℕ) (active : Bool) : AwaitSystem :=
  if op ∈ s.fileIoOrphans then
    { s with fileIoOrphans := s.fileIoOrphans.erase op, fileIoResult := some op }
  else { s with fileIoPending := s.fileIoPending ++ [(op, active)] }

/-- Cancels one operation; the result of one that is on its way is not reached. -/
def cancelFileIo (op : ℕ) : AwaitSystem :=
  if (s.fileIoPending.lookup op).isSome then
    { s with
      fileIoPending := s.fileIoPending.filter fun pending => decide (pending.1 ≠ op)
      fileIoCanceled := s.fileIoCanceled ++ [op] }
  else s

/-- A native that asked for a suspension parks at its call instruction. -/
def handleSuspend : AwaitSystem :=
  match s.request with
  | some (callId, request) =>
    if s.codePosition.isSome then
      ({ s.requestTimeout request.timeout with request := none }.setSuspension callId .hostAwait
        request.wakeOnMessage).wait
    else { s with stage := .exited }
  | none => s

def runSlice : AwaitSliceStep → AwaitSystem
  | .moveTo position => { s with codePosition := position }
  | .enterNative => { s with request := none, ownOps := [] }
  | .requestSuspend request => s.requestSuspend request
  | .cancelSuspend => s.cancelSuspend
  | .submit =>
    { s with
      lastOp := s.lastOp + 1
      inRing := s.inRing ++ [s.lastOp + 1]
      ownOps := s.ownOps ++ [s.lastOp + 1] }
  | .track op active => s.track op active
  | .takeFileIo => { s with fileIoResult := none }
  | .cancelFileIo op => s.cancelFileIo op
  | .waitTimeout position => { s with receiveTimeout := some position }
  | .clearReceiveTimeout => s.clearReceiveTimeout
  | .handleSuspend => s.handleSuspend
  | .dirtyCall => { s.suspend .dirtyCall false with ownOps := [], stage := .parked }
  | .hookSuspend => { s.suspend .hook false with stage := .parked }
  | .wait => s.wait
  | .yield => { s with stage := .parked }
  | .exit => { s with stage := .exited }

/-- A newer result stays, and the one of an older call id is dropped. -/
def storeResult (callId : ℕ) (payload : SuspensionPayload) : AwaitSystem :=
  match s.result with
  | some pending =>
    if callId < pending.callId then s
    else
      { s.note (.replaced pending.callId callId) with
        result := some ⟨callId, payload⟩ }.start .recheckResult
  | none => { s with result := some ⟨callId, payload⟩ }.start .recheckResult

def runThread : AwaitThread → AwaitSystem
  | .checkMirror callId payload =>
    if s.mirror.map (·.callId) = some callId then s.start (.storeResult callId payload) else s
  | .storeResult callId payload => s.storeResult callId payload
  | .recheckResult => if s.inTable then s else { s with result := none }
  | .insertResume resumeId => { s with pendingResume := some resumeId }.start .recheckResume
  | .recheckResume => if s.inTable then s else { s with pendingResume := none }
  | .insertFileIo op => { s with fileIoResult := some op }.start .recheckFileIo
  | .recheckFileIo => if s.inTable then s else { s with fileIoResult := none }
  | .insertMark timer => { s with expiredTimers := s.expiredTimers ++ [timer] }.start .recheckMark
  | .recheckMark => if s.inTable then s else { s with expiredTimers := [] }

inductive AwaitAction
  | sliceStart
  | gateStep
  | slice (step : AwaitSliceStep)
  | advance (thread : AwaitThread)
  | publishSuspensionResult (callId : ℕ) (payload : SuspensionPayload)
  | publishSuspensionResultCurrent (kind : SuspensionKind) (payload : SuspensionPayload)
  | resumeProcess
  | drainFileIo (op : ℕ)
  | fireTimer (timer : ℕ)
  | terminate
  deriving DecidableEq

/-- Any wake may start a slice of a parked process; the gate comes first. -/
def sliceStart : AwaitSystem :=
  if s.stage = .parked ∧ s.inTable = true then
    s.goto (if s.suspension.isSome then .takeResult else .dropMirror)
  else s

/-- Resolves the call id from the mirror when it publishes. -/
def publishSuspensionResultCurrent (kind : SuspensionKind) (payload : SuspensionPayload) :
    AwaitSystem :=
  match s.mirror with
  | some mirror => if mirror.kind = kind then s.start (.checkMirror mirror.callId payload) else s
  | none => s

def resumeProcess : AwaitSystem :=
  match s.mirror with
  | some mirror => if mirror.kind = .hook then s.start (.insertResume mirror.callId) else s
  | none => s.start (.insertResume resumeAnyHook)

/-- A completion of the ring: an active receive goes to the mailbox. -/
def drainFileIo (op : ℕ) : AwaitSystem :=
  if op ∈ s.inRing then
    let t := { s with inRing := s.inRing.erase op }
    match s.fileIoPending.lookup op with
    | some active =>
      let t := { t with fileIoPending := s.fileIoPending.filter fun other => decide (other.1 ≠ op) }
      if active then t else t.start (.insertFileIo op)
    | none =>
      if op ∈ s.fileIoCanceled then { t with fileIoCanceled := s.fileIoCanceled.erase op }
      else { t with fileIoOrphans := s.fileIoOrphans ++ [op] }
  else s

def fireTimer (timer : ℕ) : AwaitSystem :=
  if timer ∈ s.wheel then
    let t := { s with wheel := s.wheel.erase timer }
    if s.inTable then t.start (.insertMark timer) else t
  else s

def step (s : AwaitSystem) : AwaitAction → AwaitSystem
  | .sliceStart => s.sliceStart
  | .gateStep =>
    match s.stage with
    | .gate stage => s.runGate stage
    | _ => s
  | .slice sliceStep => if s.stage = .running then s.runSlice sliceStep else s
  | .advance thread =>
    if thread ∈ s.threads then { s with threads := s.threads.erase thread }.runThread thread else s
  | .publishSuspensionResult callId payload => s.start (.checkMirror callId payload)
  | .publishSuspensionResultCurrent kind payload => s.publishSuspensionResultCurrent kind payload
  | .resumeProcess => s.resumeProcess
  | .drainFileIo op => s.drainFileIo op
  | .fireTimer timer => s.fireTimer timer
  | .terminate => { s with inTable := false }

end AwaitSystem

/-- What may end a suspension without a result: a host await that messages do not wake is ended by
its own operation or timeout, and only a hook suspension by a resume. -/
def SuspensionCause.Suits (record : SuspensionRecord) : SuspensionCause → Prop
  | .fileIo own => record.kind = .hostAwait ∧ (record.wakeOnMessage = false → own = true)
  | .timeout own => record.kind = .hostAwait ∧ (record.wakeOnMessage = false → own = true)
  | .message => record.kind = .hostAwait ∧ record.wakeOnMessage = true
  | .resume => record.kind = .hook

def SuspensionEvent.Proper : SuspensionEvent → Prop
  | .applied record position resultId => resultId = record.callId ∧ position = record.position
  | .replaced old new => old ≤ new
  | .ended record cause => cause.Suits record

def SuspensionEvent.appliedId : SuspensionEvent → Option ℕ
  | .applied record _ _ => some record.callId
  | _ => none

namespace AwaitSystem

/-- Completions are applied to their own suspension, once, and a process runs only when its
suspension has ended. -/
structure AppliesOwn (s : AwaitSystem) : Prop where
  proper : ∀ event ∈ s.log, event.Proper
  once : (s.log.filterMap SuspensionEvent.appliedId).Nodup
  ended : s.stage = .running → s.suspension = none

/-- When the gate looks for a file operation, one that is complete was submitted by the native that
parked, and when it looks at the timer, a timer that has fired was armed for the suspension. A
suspension that messages wake need not meet this. -/
def MeetsOwn (s : AwaitSystem) : AwaitAction → Prop
  | .gateStep => ∀ record, s.suspension = some record → record.wakeOnMessage = false →
    (s.stage = .gate .fileIo → ∀ op, s.fileIoResult = some op → op ∈ s.ownOps) ∧
    (s.stage = .gate .timer → s.firedTimeout.isSome = true → s.ownsTimer record.callId = true)
  | _ => True

end AwaitSystem
end Beamr.Scheduler
