import Beamr.Messaging.Mailbox
import Beamr.Scheduler.Clocks

/-!
# Sends to a local process

A send ticks the clock of its sender, lets the receiver observe the clock, compares the delivery
with the replay log, and puts a copy of the message into a mailbox. Each of the four may have
happened when a later one fails.
-/
namespace Beamr.Messaging

open Scheduler (saturatingSucc)

/-! ## The replay log -/

inductive RecordedDeliveryKind
  | message | exitSignal | downMessage | runtimeMessage
  deriving DecidableEq

structure RecordedMessageDelivery (Term : Type) where
  order : ℕ
  kind : RecordedDeliveryKind
  senderPid : Option ℕ
  receiverPid : ℕ
  senderClock : ℕ
  receiverClock : ℕ
  message : Term

inductive ReplayEvent (Term Other : Type)
  | messageDelivery (recorded : RecordedMessageDelivery Term)
  | other (event : Other)

/-- The values that the text of a mismatch shows. -/
inductive ReplayMismatch (Term Other : Type)
  | exhausted (cursor : ℕ)
  | delivery (kind : RecordedDeliveryKind) (senderPid : Option ℕ) (receiverPid : ℕ)
      (message : Term) (recorded : RecordedMessageDelivery Term) (cursor : ℕ)
  | eventKind (recorded : Other) (cursor : ℕ)
  | clocks (senderClock receiverClock recordedSender recordedReceiver : ℕ)

structure ReplayDriver (Term Other : Type) where
  log : List (ReplayEvent Term Other)
  cursor : ℕ

section

variable {Term Other : Type}

namespace ReplayDriver

def advanceCursor (d : ReplayDriver Term Other) : ReplayDriver Term Other :=
  { d with cursor := d.cursor + 1 }

/-- The next event of the log, if it is this delivery. -/
def nextMessageDelivery [BEq Term] (d : ReplayDriver Term Other) (kind : RecordedDeliveryKind)
    (senderPid : Option ℕ) (receiverPid : ℕ) (message : Term) :
    Except (ReplayMismatch Term Other) (RecordedMessageDelivery Term) × ReplayDriver Term Other :=
  match d.log[d.cursor]? with
  | none => (.error (.exhausted d.cursor), d)
  | some (.messageDelivery recorded) =>
    if recorded.kind = kind ∧ recorded.senderPid = senderPid ∧
        recorded.receiverPid = receiverPid ∧ recorded.message == message then
      (.ok recorded, d.advanceCursor)
    else (.error (.delivery kind senderPid receiverPid message recorded d.cursor), d)
  | some (.other event) => (.error (.eventKind event d.cursor), d)

end ReplayDriver

/-- The comparison of a delivery with the log, for the clocks after it. -/
def checkDelivery [BEq Term] (driver : Option (ReplayDriver Term Other))
    (senderPid receiverPid : ℕ) (message : Term) (senderClock receiverClock : ℕ) :
    Except (ReplayMismatch Term Other) Unit × Option (ReplayDriver Term Other) :=
  match driver with
  | none => (.ok (), none)
  | some d =>
    match d.nextMessageDelivery .message (some senderPid) receiverPid message with
    | (.error mismatch, d) => (.error mismatch, some d)
    | (.ok recorded, d) =>
      if recorded.senderClock ≠ senderClock ∨ recorded.receiverClock ≠ receiverClock then
        (.error (.clocks senderClock receiverClock recorded.senderClock recorded.receiverClock),
          some d)
      else (.ok (), some d)

end

/-! ## Processes -/

inductive SendError
  | heapFull (requested available : ℕ)
  | invalidBoxedTerm

/-- The errors of a send. -/
inductive SendFailure (Term Other : Type)
  | heapFull (requested available : ℕ)
  | badarg
  | replayMismatch (detail : ReplayMismatch Term Other)

def sendError {Term Other : Type} : SendError → SendFailure Term Other
  | .heapFull requested available => .heapFull requested available
  | .invalidBoxedTerm => .badarg

structure ProcessBody (K Term Heap : Type) where
  logicalClock : ℕ
  heap : Heap
  mailbox : Mailbox K Term

/-- What the scheduler holds of a process: its body, or while the body is in a slice the encoded
messages for it, or nothing any more. -/
inductive ProcessSlot (K Term Heap Payload : Type)
  | present (process : ProcessBody K Term Heap)
  | executing (pendingLocalMessages : List Payload)
  | absent

/-- The process in its slice, the other processes, the replay driver if the run is a replay, and
the pids that have been woken. -/
structure SendState (K Term Heap Payload Other : Type) where
  pid : ℕ
  process : ProcessBody K Term Heap
  bodies : ℕ → Option (ProcessSlot K Term Heap Payload)
  driver : Option (ReplayDriver Term Other)
  woken : List ℕ

structure LocalSendRequest (Term : Type) where
  targetPid : ℕ
  senderPid : ℕ
  message : Term
  senderClock : ℕ

section

variable {K Term Heap Payload Other : Type}

namespace ProcessBody

def tickLogicalClock (p : ProcessBody K Term Heap) : ProcessBody K Term Heap :=
  { p with logicalClock := saturatingSucc p.logicalClock }

def observeMessageClock (p : ProcessBody K Term Heap) (senderClock : ℕ) :
    ProcessBody K Term Heap :=
  { p with logicalClock := saturatingSucc (max p.logicalClock senderClock) }

def setLogicalClock (p : ProcessBody K Term Heap) (clock : ℕ) : ProcessBody K Term Heap :=
  { p with logicalClock := clock }

/-- A failed copy may have used some of the heap. -/
def send (copyTerm : Term → Heap → Except SendError Term × Heap) (p : ProcessBody K Term Heap)
    (message : Term) : Except SendError Unit × ProcessBody K Term Heap :=
  match copyTerm message p.heap with
  | (.error error, heap) => (.error error, { p with heap })
  | (.ok copied, heap) => (.ok (), { p with heap, mailbox := p.mailbox.enqueueCopied copied })

end ProcessBody

/-! ## The two ways of a send -/

namespace SendState

variable [BEq Term] (copyTerm : Term → Heap → Except SendError Term × Heap)
  (encodeTerm : Term → Option Payload) (s : SendState K Term Heap Payload Other)

def sendToSelf (message : Term) :
    Except (SendFailure Term Other) Unit × SendState K Term Heap Payload Other :=
  let previousClock := s.process.logicalClock
  let ticked := s.process.tickLogicalClock
  let observed := ticked.observeMessageClock ticked.logicalClock
  match checkDelivery s.driver s.pid s.pid message ticked.logicalClock observed.logicalClock with
  | (.error mismatch, driver) =>
    (.error (.replayMismatch mismatch),
      { s with process := observed.setLogicalClock previousClock, driver })
  | (.ok (), driver) =>
    match observed.send copyTerm message with
    | (.error error, process) => (.error (sendError error), { s with process, driver })
    | (.ok (), process) => (.ok (), { s with process, driver })

/-- The scheduler's facility. A message that cannot be copied or encoded is dropped, as is one for
a process that is gone. -/
def sendLocal (request : LocalSendRequest Term) :
    Except (ReplayMismatch Term Other) Unit × SendState K Term Heap Payload Other :=
  match s.bodies request.targetPid with
  | none => (.ok (), s)
  | some (.present process) =>
    let previousReceiverClock := process.logicalClock
    let observed := process.observeMessageClock request.senderClock
    match checkDelivery s.driver request.senderPid request.targetPid request.message
        request.senderClock observed.logicalClock with
    | (.error mismatch, driver) =>
      (.error mismatch, { s with
        bodies := Function.update s.bodies request.targetPid
          (some (.present (observed.setLogicalClock previousReceiverClock)))
        driver })
    | (.ok (), driver) =>
      match observed.send copyTerm request.message with
      | (.error _, process) =>
        (.ok (), { s with
          bodies := Function.update s.bodies request.targetPid (some (.present process)), driver })
      | (.ok (), process) =>
        (.ok (), { s with
          bodies := Function.update s.bodies request.targetPid (some (.present process))
          driver
          woken := s.woken ++ [request.targetPid] })
  | some (.executing pending) =>
    match encodeTerm request.message with
    | none => (.ok (), s)
    | some payload =>
      (.ok (), { s with
        bodies := Function.update s.bodies request.targetPid
          (some (.executing (pending ++ [payload])))
        woken := s.woken ++ [request.targetPid] })
  | some .absent => (.ok (), s)

def sendLocalViaFacility (targetPid : ℕ) (message : Term) :
    Except (SendFailure Term Other) Unit × SendState K Term Heap Payload Other :=
  let previousSenderClock := s.process.logicalClock
  let process := s.process.tickLogicalClock
  match sendLocal copyTerm encodeTerm { s with process }
      ⟨targetPid, s.pid, message, process.logicalClock⟩ with
  | (.error mismatch, s) =>
    (.error (.replayMismatch mismatch),
      { s with process := s.process.setLogicalClock previousSenderClock })
  | (.ok (), s) => (.ok (), s)

end SendState

end

/-! ## The log and a delivery -/

section

variable {Term Other : Type} [BEq Term] {driver : Option (ReplayDriver Term Other)}
  {senderPid receiverPid senderClock receiverClock : ℕ} {message : Term}

/-- The next event of the log is the delivery of this message. -/
def ReplayDriver.Expects (d : ReplayDriver Term Other) (senderPid receiverPid : ℕ)
    (message : Term) (recorded : RecordedMessageDelivery Term) : Prop :=
  d.log[d.cursor]? = some (.messageDelivery recorded) ∧ recorded.kind = .message ∧
    recorded.senderPid = some senderPid ∧ recorded.receiverPid = receiverPid ∧
      recorded.message == message

/-- No replay, or the log goes on with the delivery of this message. -/
def Expects (driver : Option (ReplayDriver Term Other)) (senderPid receiverPid : ℕ)
    (message : Term) : Prop :=
  ∀ d, driver = some d → ∃ recorded, d.Expects senderPid receiverPid message recorded

theorem ReplayDriver.nextMessageDelivery_cases (d : ReplayDriver Term Other)
    (senderPid receiverPid : ℕ) (message : Term) :
    (∃ recorded, d.Expects senderPid receiverPid message recorded ∧
      d.nextMessageDelivery .message (some senderPid) receiverPid message =
        (.ok recorded, d.advanceCursor)) ∨
    (¬ (∃ recorded, d.Expects senderPid receiverPid message recorded) ∧
      ∃ mismatch, d.nextMessageDelivery .message (some senderPid) receiverPid message =
        (.error mismatch, d)) := by
  unfold nextMessageDelivery
  split
  next hevent => exact .inr ⟨fun ⟨_, hevent', _⟩ => by simp [hevent] at hevent', _, rfl⟩
  next recorded hevent =>
    split
    next hsame => exact .inl ⟨recorded, ⟨hevent, hsame⟩, rfl⟩
    next hdiffer =>
      refine .inr ⟨fun ⟨other, hevent', hsame⟩ => hdiffer ?_, _, rfl⟩
      cases hevent.symm.trans hevent'
      exact hsame
  next hevent => exact .inr ⟨fun ⟨_, hevent', _⟩ => by simp [hevent] at hevent', _, rfl⟩

/-- A refused delivery leaves the position in the log alone; a delivery that the log has moves it
on by one, also when the clocks are not the recorded ones. -/
theorem checkDelivery_cases (driver : Option (ReplayDriver Term Other))
    (senderPid receiverPid : ℕ) (message : Term) (senderClock receiverClock : ℕ) :
    (Expects driver senderPid receiverPid message ∧
      ∃ result, checkDelivery driver senderPid receiverPid message senderClock receiverClock =
        (result, driver.map (·.advanceCursor))) ∨
    (¬ Expects driver senderPid receiverPid message ∧
      ∃ mismatch, checkDelivery driver senderPid receiverPid message senderClock receiverClock =
        (.error mismatch, driver)) := by
  cases driver with
  | none => exact .inl ⟨fun _ h => absurd h (by simp), _, rfl⟩
  | some d =>
    obtain ⟨recorded, hexpects, heq⟩ | ⟨hnot, mismatch, heq⟩ :=
      d.nextMessageDelivery_cases senderPid receiverPid message
    · refine .inl ⟨fun _ h => ?_, ?_⟩
      · cases h
        exact ⟨recorded, hexpects⟩
      · simp only [checkDelivery, heq]
        split
        · exact ⟨_, rfl⟩
        · exact ⟨_, rfl⟩
    · refine .inr ⟨fun h => hnot (h d rfl), mismatch, ?_⟩
      simp only [checkDelivery, heq]

/-- A delivery is accepted when the log has it with the clocks of now. -/
theorem checkDelivery_eq_ok_iff {next : Option (ReplayDriver Term Other)} :
    checkDelivery driver senderPid receiverPid message senderClock receiverClock =
      (.ok (), next) ↔
      next = driver.map (·.advanceCursor) ∧ ∀ d, driver = some d →
        ∃ recorded, d.Expects senderPid receiverPid message recorded ∧
          recorded.senderClock = senderClock ∧ recorded.receiverClock = receiverClock := by
  cases driver with
  | none => simp [checkDelivery, eq_comm]
  | some d =>
    obtain ⟨recorded, hexpects, heq⟩ | ⟨hnot, mismatch, heq⟩ :=
      d.nextMessageDelivery_cases senderPid receiverPid message
    · have hclocks : (∃ other, d.Expects senderPid receiverPid message other ∧
          other.senderClock = senderClock ∧ other.receiverClock = receiverClock) ↔
          recorded.senderClock = senderClock ∧ recorded.receiverClock = receiverClock := by
        constructor
        · intro ⟨other, hother, hclocks⟩
          cases hother.1.symm.trans hexpects.1
          exact hclocks
        · exact fun hclocks => ⟨recorded, hexpects, hclocks⟩
      simp only [checkDelivery, heq, Option.some.injEq, forall_eq', hclocks, Option.map_some]
      split
      next hdiffer =>
        simp only [Prod.mk.injEq, reduceCtorEq, false_and, false_iff, not_and]
        exact fun _ hsame hsame' => hdiffer.elim (· hsame) (· hsame')
      next hsame =>
        simp only [ne_eq, not_or, not_not] at hsame
        simp [hsame, eq_comm]
    · simp only [checkDelivery, heq, Option.some.injEq, forall_eq', Prod.mk.injEq, reduceCtorEq,
        false_and, false_iff, not_and]
      exact fun _ ⟨recorded, hexpects, _⟩ => hnot ⟨recorded, hexpects⟩

end

/-! ## What a send does -/

section

variable {K Term Heap Payload Other : Type}

/-- A copy of the message came to the end of the mailbox. -/
def ProcessBody.Appended (copyTerm : Term → Heap → Except SendError Term × Heap) (message : Term)
    (p p' : ProcessBody K Term Heap) : Prop :=
  ∃ copied, copyTerm message p.heap = (.ok copied, p'.heap) ∧
    p'.mailbox = p.mailbox.enqueueCopied copied

/-- The message could not be copied and the mailbox is as before. -/
def ProcessBody.Dropped (copyTerm : Term → Heap → Except SendError Term × Heap) (message : Term)
    (p p' : ProcessBody K Term Heap) : Prop :=
  ∃ error, copyTerm message p.heap = (.error error, p'.heap) ∧ p'.mailbox = p.mailbox

theorem ProcessBody.send_ok {copyTerm : Term → Heap → Except SendError Term × Heap}
    {message : Term} {p p' : ProcessBody K Term Heap} (h : p.send copyTerm message = (.ok (), p')) :
    p'.logicalClock = p.logicalClock ∧ p.Appended copyTerm message p' := by
  unfold send at h
  split at h
  next => cases h
  next copied heap hcopy =>
    cases h
    exact ⟨rfl, copied, hcopy, rfl⟩

theorem ProcessBody.send_error {copyTerm : Term → Heap → Except SendError Term × Heap}
    {message : Term} {p p' : ProcessBody K Term Heap} {error : SendError}
    (h : p.send copyTerm message = (.error error, p')) :
    p'.logicalClock = p.logicalClock ∧ p.Dropped copyTerm message p' := by
  unfold send at h
  split at h
  next heap hcopy =>
    cases h
    exact ⟨rfl, error, hcopy, rfl⟩
  next => cases h

namespace SendState

variable [BEq Term] {copyTerm : Term → Heap → Except SendError Term × Heap}
  {encodeTerm : Term → Option Payload} {s s' : SendState K Term Heap Payload Other}
  {target : ℕ} {message : Term}

/-- What an error leaves as it was: every mailbox in any case, the clocks when it is a mismatch,
and the position in the log when the log does not go on with this delivery. -/
structure Undone (s s' : SendState K Term Heap Payload Other) (target : ℕ) (message : Term)
    (failure : SendFailure Term Other) : Prop where
  mailbox : s'.process.mailbox = s.process.mailbox
  bodies : s'.bodies = s.bodies
  woken : s'.woken = s.woken
  process : ∀ detail, failure = .replayMismatch detail → s'.process = s.process
  driver : ¬ Expects s.driver s.pid target message → s'.driver = s.driver

/-- The clock counts the send and the delivery. -/
structure SentToSelf (copyTerm : Term → Heap → Except SendError Term × Heap)
    (s s' : SendState K Term Heap Payload Other) (message : Term) : Prop where
  clock : s'.process.logicalClock = saturatingSucc (saturatingSucc s.process.logicalClock)
  appended : s.process.Appended copyTerm message s'.process
  bodies : s'.bodies = s.bodies
  woken : s'.woken = s.woken
  driver : s'.driver = s.driver.map (·.advanceCursor)

/-- The slot of the target decides what comes of the message. -/
structure SentTo (copyTerm : Term → Heap → Except SendError Term × Heap)
    (encodeTerm : Term → Option Payload) (s s' : SendState K Term Heap Payload Other)
    (target : ℕ) (message : Term) (senderClock : ℕ) : Prop where
  others : ∀ pid ≠ target, s'.bodies pid = s.bodies pid
  present : ∀ p, s.bodies target = some (.present p) → ∃ p',
    s'.bodies target = some (.present p') ∧
      p'.logicalClock = saturatingSucc (max p.logicalClock senderClock) ∧
      s'.driver = s.driver.map (·.advanceCursor) ∧
      (p.Appended copyTerm message p' ∧ s'.woken = s.woken ++ [target] ∨
        p.Dropped copyTerm message p' ∧ s'.woken = s.woken)
  executing : ∀ pending, s.bodies target = some (.executing pending) →
    s'.bodies target = some (.executing (pending ++ (encodeTerm message).toList)) ∧
      s'.driver = s.driver ∧
      s'.woken = s.woken ++ (encodeTerm message).toList.map fun _ => target
  gone : s.bodies target = none ∨ s.bodies target = some .absent →
    s'.bodies = s.bodies ∧ s'.driver = s.driver ∧ s'.woken = s.woken

theorem sendToSelf_error {failure : SendFailure Term Other}
    (h : s.sendToSelf copyTerm message = (.error failure, s')) :
    Undone s s' s.pid message failure := by
  simp only [sendToSelf] at h
  split at h
  next mismatch driver hcheck =>
    cases h
    refine ⟨rfl, rfl, rfl, fun _ _ => rfl, fun hnot => ?_⟩
    obtain ⟨hexpects, -⟩ | ⟨-, _, heq⟩ := checkDelivery_cases s.driver s.pid s.pid message
      s.process.tickLogicalClock.logicalClock
      (s.process.tickLogicalClock.observeMessageClock
        s.process.tickLogicalClock.logicalClock).logicalClock
    · exact absurd hexpects hnot
    · exact (Prod.mk.inj (hcheck.symm.trans heq)).2
  next driver hcheck =>
    obtain ⟨-, hlog⟩ := checkDelivery_eq_ok_iff.1 hcheck
    split at h
    next error process hsend =>
      cases h
      obtain ⟨-, _, -, hmailbox⟩ := ProcessBody.send_error hsend
      refine ⟨hmailbox, rfl, rfl, fun detail hdetail => ?_, fun hnot => ?_⟩
      · cases error <;> cases hdetail
      · refine absurd (fun d hd => ?_) hnot
        obtain ⟨recorded, hexpects, -⟩ := hlog d hd
        exact ⟨recorded, hexpects⟩
    next => cases h

theorem sendToSelf_ok (h : s.sendToSelf copyTerm message = (.ok (), s')) :
    SentToSelf copyTerm s s' message := by
  simp only [sendToSelf] at h
  split at h
  next => cases h
  next driver hcheck =>
    obtain ⟨hdriver, -⟩ := checkDelivery_eq_ok_iff.1 hcheck
    split at h
    next => cases h
    next process hsend =>
      cases h
      obtain ⟨hclock, happended⟩ := ProcessBody.send_ok hsend
      refine ⟨hclock.trans ?_, happended, rfl, rfl, hdriver⟩
      simp [ProcessBody.observeMessageClock, ProcessBody.tickLogicalClock]

/-- An error of the facility is a mismatch, and the receiver has its clock back. -/
theorem sendLocal_error {request : LocalSendRequest Term} {mismatch : ReplayMismatch Term Other}
    (h : s.sendLocal copyTerm encodeTerm request = (.error mismatch, s')) :
    ∃ driver, s' = { s with driver } ∧
      (¬ Expects s.driver request.senderPid request.targetPid request.message →
        driver = s.driver) := by
  simp only [sendLocal] at h
  split at h
  next => cases h
  next process hslot =>
    split at h
    next mismatch driver hcheck =>
      cases h
      have hbody : (process.observeMessageClock request.senderClock).setLogicalClock
          process.logicalClock = process := rfl
      refine ⟨driver, by rw [hbody, ← hslot, Function.update_eq_self], fun hnot => ?_⟩
      obtain ⟨hexpects, -⟩ | ⟨-, _, heq⟩ := checkDelivery_cases s.driver request.senderPid
        request.targetPid request.message request.senderClock
        (process.observeMessageClock request.senderClock).logicalClock
      · exact absurd hexpects hnot
      · exact (Prod.mk.inj (hcheck.symm.trans heq)).2
    next =>
      split at h
      next => cases h
      next => cases h
  next pending hslot =>
    split at h
    next => cases h
    next => cases h
  next => cases h

theorem sendLocal_ok {request : LocalSendRequest Term}
    (h : s.sendLocal copyTerm encodeTerm request = (.ok (), s')) :
    s'.process = s.process ∧
      SentTo copyTerm encodeTerm s s' request.targetPid request.message request.senderClock := by
  simp only [sendLocal] at h
  split at h
  next hslot =>
    cases h
    exact ⟨rfl, fun _ _ => rfl, by simp [hslot], by simp [hslot], fun _ => ⟨rfl, rfl, rfl⟩⟩
  next process hslot =>
    split at h
    next => cases h
    next driver hcheck =>
      obtain ⟨hdriver, -⟩ := checkDelivery_eq_ok_iff.1 hcheck
      split at h
      next error process' hsend =>
        cases h
        obtain ⟨hclock, hdropped⟩ := ProcessBody.send_error hsend
        refine ⟨rfl, fun pid hne => Function.update_of_ne hne _ _, fun p hp => ?_, by simp [hslot],
          by simp [hslot]⟩
        cases hslot.symm.trans hp
        exact ⟨process', Function.update_self _ _ _, hclock, hdriver, .inr ⟨hdropped, rfl⟩⟩
      next process' hsend =>
        cases h
        obtain ⟨hclock, happended⟩ := ProcessBody.send_ok hsend
        refine ⟨rfl, fun pid hne => Function.update_of_ne hne _ _, fun p hp => ?_, by simp [hslot],
          by simp [hslot]⟩
        cases hslot.symm.trans hp
        exact ⟨process', Function.update_self _ _ _, hclock, hdriver, .inl ⟨happended, rfl⟩⟩
  next pending hslot =>
    split at h
    next hencode =>
      cases h
      refine ⟨rfl, fun _ _ => rfl, by simp [hslot], fun pending' hpending => ?_, by simp [hslot]⟩
      cases hslot.symm.trans hpending
      simp [hencode, hslot]
    next payload hencode =>
      cases h
      refine ⟨rfl, fun pid hne => Function.update_of_ne hne _ _, by simp [hslot],
        fun pending' hpending => ?_, by simp [hslot]⟩
      cases hslot.symm.trans hpending
      simp [hencode]
  next hslot =>
    cases h
    exact ⟨rfl, fun _ _ => rfl, by simp [hslot], by simp [hslot], fun _ => ⟨rfl, rfl, rfl⟩⟩

/-- No error of a send touches a mailbox, a mismatch restores the clocks, and a refusal by the
replay driver leaves its position as well. A send to another process has no other error. Without
an error the sender's clock has counted the send, the message has been appended once, or dropped
when there is nobody to copy it for or no copy of it. -/
theorem send_effects (copyTerm : Term → Heap → Except SendError Term × Heap)
    (encodeTerm : Term → Option Payload) (s : SendState K Term Heap Payload Other) (target : ℕ)
    (message : Term) :
    (∀ failure s', s.sendToSelf copyTerm message = (.error failure, s') →
      Undone s s' s.pid message failure) ∧
    (∀ failure s', s.sendLocalViaFacility copyTerm encodeTerm target message =
        (.error failure, s') →
      Undone s s' target message failure ∧ ∃ detail, failure = .replayMismatch detail) ∧
    (∀ s', s.sendToSelf copyTerm message = (.ok (), s') → SentToSelf copyTerm s s' message) ∧
    (∀ s', s.sendLocalViaFacility copyTerm encodeTerm target message = (.ok (), s') →
      s'.process = s.process.tickLogicalClock ∧
        SentTo copyTerm encodeTerm s s' target message s'.process.logicalClock) := by
  refine ⟨fun failure s' h => sendToSelf_error h, fun failure s' h => ?_,
    fun s' h => sendToSelf_ok h, fun s' h => ?_⟩
  · simp only [sendLocalViaFacility] at h
    split at h
    next mismatch s'' hsend =>
      cases h
      obtain ⟨driver, rfl, hdriver⟩ := sendLocal_error hsend
      exact ⟨⟨rfl, rfl, rfl, fun _ _ => rfl, hdriver⟩, mismatch, rfl⟩
    next => cases h
  · simp only [sendLocalViaFacility] at h
    split at h
    next => cases h
    next s'' hsend =>
      cases h
      obtain ⟨hprocess, hsent⟩ := sendLocal_ok hsend
      rw [hprocess]
      exact ⟨rfl, hsent.others, hsent.present, hsent.executing, hsent.gone⟩

/-- One process with the pid 1 and the clock 0. -/
def aloneState : SendState Unit ℕ Unit ℕ Unit where
  pid := 1
  process := ⟨0, (), .new⟩
  bodies := fun _ => none
  driver := none
  woken := []

/-- A send to itself moves the clock by two, and a send to nobody succeeds. -/
theorem not_send_exact :
    aloneState.sendToSelf (fun message _ => (.ok message, ())) 7 =
      (.ok (), { aloneState with process := ⟨2, (), ⟨[7], [], 0, none⟩⟩ }) ∧
    aloneState.sendLocalViaFacility (fun message _ => (.ok message, ())) some 2 7 =
      (.ok (), { aloneState with process := ⟨1, (), .new⟩ }) :=
  ⟨rfl, rfl⟩

end SendState

end

end Beamr.Messaging
