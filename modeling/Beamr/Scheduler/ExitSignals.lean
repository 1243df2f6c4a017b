import Beamr.Distribution.Control
import Beamr.Lib.Checkout
import Beamr.Lib.Runs

/-!
# Exit signals and the trap-exit flag

A process as far as exit signals and remote links are concerned. A worker that runs it has the body
with the flag, and the slot keeps a view with a copy of the flag from the start of the slice. Exit
signals look at whichever of the two is in the slot, and setters write only one of them.
-/
namespace Beamr.Scheduler

open Checkout (Entry Slot)
open Distribution (RemotePid)

inductive PendingExitSource
  | ofLocal (pid : ℕ)
  | ofRemote (pid : RemotePid)
  deriving DecidableEq

inductive RemoteExitKind
  | linkExit
  | direct
  deriving DecidableEq

inductive LinkError
  | noProc
  | noCaller
  deriving DecidableEq

/-- Remote links are an ordered set. -/
def addRemoteLink (links : List RemotePid) (pid : RemotePid) : List RemotePid :=
  if pid ∈ links then links else links ++ [pid]

def removeRemoteLink (links : List RemotePid) (pid : RemotePid) : List RemotePid :=
  links.filter (· ≠ pid)

structure TrapBody where
  trapExit : Bool
  exited : Bool
  remoteLinks : List RemotePid
  exitMessages : List (PendingExitSource × ExitReason)

structure TrapMetadata where
  trapExit : Bool
  remoteLinks : List RemotePid
  pendingExitMessages : List (PendingExitSource × ExitReason)

namespace TrapBody

variable (p : TrapBody)

def snapshot : TrapMetadata := ⟨p.trapExit, p.remoteLinks, []⟩

def terminate : TrapBody := { p with exited := true, exitMessages := [] }

/-- Without room for the message the process is terminated. -/
def enqueueExitMessage (source : PendingExitSource) (reason : ExitReason) (room : Bool) :
    TrapBody :=
  if room then { p with exitMessages := p.exitMessages ++ [(source, terminalReason reason)] }
  else p.terminate

/-- The links that others removed meanwhile go, and those that others added come. -/
def mergeRemoteLinks (links : List RemotePid) : TrapBody :=
  { p with remoteLinks := links.foldl addRemoteLink (p.remoteLinks.filter (· ∈ links)) }

def enqueuePending (pending : List (PendingExitSource × ExitReason)) (room : ℕ → Bool) :
    TrapBody :=
  pending.zipIdx.foldl (fun p message => p.enqueueExitMessage message.1.1 message.1.2
    (room message.2)) p

def merge (room : ℕ → Bool) (m : TrapMetadata) : TrapBody :=
  (p.mergeRemoteLinks m.remoteLinks).enqueuePending m.pendingExitMessages room

end TrapBody

/-- A process, its exit tombstone, whether the worker that runs it has read the tombstone, and the
value that the flag was set to last. -/
structure TrapProcess where
  entry : Entry TrapBody TrapMetadata
  tombstone : Option ExitReason
  condemned : Bool
  flag : Bool

/-- What others and the process itself do. `room` says whether there is room for a message, for
each of those that waited in the slot at the return of the body. -/
inductive TrapAction
  | takeRunnable
  | storeRunnable (room : ℕ → Bool)
  | readTombstone
  | finalize
  | processFlag (value : Bool)
  | nativeSetTrapExit (value : Bool)
  | schedulerSetTrapExit (value : Bool)
  | exitSignal (caller : ℕ) (reason : ExitReason) (room : Bool)
  | processExitSignal (source : ℕ) (reason : ExitReason) (room : Bool)
  | processRemoteExitSignal (source : RemotePid) (reason : ExitReason) (kind : RemoteExitKind)
    (room : Bool)
  | establishRemoteLink (remote : RemotePid)
  | removeRemoteLink (remote : RemotePid)
  | terminateProcess (reason : ExitReason)
  | evictTombstone

/-- `SchedulerLinkFacility::set_trap_exit`. -/
def setTrapExit (e : Entry TrapBody TrapMetadata) (value : Bool) :
    Except LinkError (Bool × Entry TrapBody TrapMetadata) :=
  match e.slot with
  | .present p => .ok (p.trapExit, { e with slot := .present { p with trapExit := value } })
  | _ => .error .noCaller

namespace TrapProcess

def spawn (trapExit : Bool) : TrapProcess :=
  ⟨.insert ⟨trapExit, false, [], []⟩, none, false, trapExit⟩

variable (s : TrapProcess)

def remoteLinks : List RemotePid :=
  (s.entry.value TrapBody.remoteLinks TrapMetadata.remoteLinks).getD []

def insertTombstone (reason : ExitReason) : TrapProcess :=
  { s with tombstone := s.tombstone.or (some reason) }

/-- What all exit signals have in common. A kill clears the flag of a stored or of a running
target only on some of the paths. -/
def receive (source : PendingExitSource) (reason : ExitReason) (room : Bool)
    (clearsStored clearsRunning : Bool) : TrapProcess :=
  match s.entry.slot with
  | .present p =>
    if p.exited then s
    else if shouldDie reason p.trapExit then
      let p := if clearsStored && reason = .kill then { p with trapExit := false } else p
      { s with entry := { s.entry with slot := .present p.terminate } }.insertTombstone
        (terminalReason reason)
    else if p.trapExit then
      { s with
        entry := { s.entry with slot := .present (p.enqueueExitMessage source reason room) } }
    else s
  | .executing m =>
    if shouldDie reason m.trapExit then
      let m := if clearsRunning && reason = .kill then { m with trapExit := false } else m
      { s with entry := { s.entry with slot := .executing m } }.insertTombstone
        (terminalReason reason)
    else if m.trapExit then
      let m := { m with pendingExitMessages := m.pendingExitMessages ++ [(source, reason)] }
      { s with entry := { s.entry with slot := .executing m } }
    else s
  | .absent => s

/-- A call of `exit/2`. -/
def exitSignal (caller : ℕ) (reason : ExitReason) (room : Bool) : TrapProcess :=
  s.receive (.ofLocal caller) reason room false false

/-- The exit of a linked process of this node. -/
def processExitSignal (source : ℕ) (reason : ExitReason) (room : Bool) : TrapProcess :=
  s.receive (.ofLocal source) reason room true true

/-- Whether the process is gone or terminated, as the slot shows it. -/
def hasExited : Bool :=
  match s.entry.slot with
  | .present p => p.exited
  | .executing _ => false
  | .absent => true

def establishRemoteLink (remote : RemotePid) : Bool × TrapProcess :=
  if s.hasExited then (false, s)
  else
    (true, { s with
      entry := s.entry.modify
        (fun p => { p with remoteLinks := addRemoteLink p.remoteLinks remote })
        (fun m => { m with remoteLinks := addRemoteLink m.remoteLinks remote }) })

def removeRemoteLink (remote : RemotePid) : Bool × TrapProcess :=
  (decide (remote ∈ s.remoteLinks), { s with
    entry := s.entry.modify
      (fun p => { p with remoteLinks := Scheduler.removeRemoteLink p.remoteLinks remote })
      (fun m => { m with remoteLinks := Scheduler.removeRemoteLink m.remoteLinks remote }) })

/-- An exit signal from another node. One that comes through a link needs the link, which it
takes away. -/
def processRemoteExitSignal (source : RemotePid) (reason : ExitReason) (kind : RemoteExitKind)
    (room : Bool) : TrapProcess :=
  if s.hasExited then s
  else
    match kind with
    | .linkExit =>
      let (removed, s) := s.removeRemoteLink source
      if removed then s.receive (.ofRemote source) reason room false true else s
    | .direct => s.receive (.ofRemote source) reason room false true

def step : TrapAction → TrapProcess
  | .takeRunnable => { s with entry := s.entry.take TrapBody.snapshot }
  | .storeRunnable room => { s with entry := s.entry.store fun p => p.merge room }
  | .readTombstone => { s with condemned := s.condemned || s.tombstone.isSome }
  | .finalize => if s.condemned || s.hasExited then { s with entry := s.entry.remove } else s
  | .processFlag value =>
    if s.entry.held.isSome then
      match setTrapExit s.entry value with
      | .ok (_, entry) => { s with entry := entry, flag := value }
      | .error _ => s
    else s
  | .nativeSetTrapExit value =>
    if s.entry.held.isSome then
      { s with entry := s.entry.edit fun p => { p with trapExit := value }, flag := value }
    else s
  | .schedulerSetTrapExit value =>
    match setTrapExit s.entry value with
    | .ok (_, entry) => { s with entry := entry, flag := value }
    | .error _ => s
  | .exitSignal caller reason room => s.exitSignal caller reason room
  | .processExitSignal source reason room => s.processExitSignal source reason room
  | .processRemoteExitSignal source reason kind room =>
    s.processRemoteExitSignal source reason kind room
  | .establishRemoteLink remote => (s.establishRemoteLink remote).2
  | .removeRemoteLink remote => (s.removeRemoteLink remote).2
  | .terminateProcess reason => { s.insertTombstone reason with entry := s.entry.remove }
  | .evictTombstone => { s with tombstone := none }

/-! ## What an exit signal is to do -/

/-- A process that is neither gone nor terminated. -/
def Lives : Prop := ∃ p, s.entry.body? = some p ∧ s.entry.slot ≠ .absent ∧ p.exited = false

/-- A process that is not marked either. A marked one is finalized by its worker after the
slice. -/
def Alive : Prop := s.tombstone = none ∧ s.condemned = false ∧ s.Lives

/-- The exit messages the process has got, with those that wait for the end of its slice. -/
def exitMessages : List (PendingExitSource × ExitReason) :=
  (s.entry.body?.map TrapBody.exitMessages).getD [] ++
    match s.entry.slot with
    | .executing m => m.pendingExitMessages.map fun message => (message.1, terminalReason message.2)
    | _ => []

/-- The exit signal that reaches the process in a step. -/
def signal? : TrapAction → Option (PendingExitSource × ExitReason)
  | .exitSignal caller reason _ => some (.ofLocal caller, reason)
  | .processExitSignal source reason _ => some (.ofLocal source, reason)
  | .processRemoteExitSignal source reason kind _ =>
    if kind = .direct ∨ source ∈ s.remoteLinks then some (.ofRemote source, reason) else none
  | _ => none

/-- A process that traps exits gets a message of any signal but a kill, and one that does not is
terminated by any signal but a normal exit. -/
structure Answered (s s' : TrapProcess) (source : PendingExitSource) (reason : ExitReason) :
    Prop where
  traps : s.flag = true → reason ≠ .kill →
    s'.Alive ∧ s'.exitMessages = s.exitMessages ++ [(source, reason)]
  dies : s.flag = false → reason ≠ .normal → ¬ s'.Alive

/-- The flag is authoritative in a step: a running process can set it, a signal is answered as the
process has set it, nothing else than a signal or the end of the process touches its exit messages,
and a process that is to die stays so. -/
structure Heeds (s : TrapProcess) (a : TrapAction) : Prop where
  sets : ∀ value, a = .processFlag value → s.entry.held.isSome →
    ∃ result, setTrapExit s.entry value = .ok result
  answers : ∀ source reason, s.signal? a = some (source, reason) → s.Alive →
    Answered s (s.step a) source reason
  keeps : s.signal? a = none → (∀ reason, a ≠ .terminateProcess reason) → s.Alive →
    (s.step a).Alive ∧ (s.step a).exitMessages = s.exitMessages
  final : ¬ s.Alive → ¬ (s.step a).Alive

/-- A stored process that traps exits has room for the message, and the view of a running one has
the flag as it was set last; a kill is not concerned, nor is a normal exit that nobody traps. -/
def Receptive (reason : ExitReason) (room : Bool) : Prop :=
  s.Alive →
    match s.entry.slot with
    | .present _ => s.flag = true → reason ≠ .kill → room = true
    | .executing m => m.trapExit = s.flag ∨ reason = .kill ∨ reason = .normal ∧ s.flag = false
    | .absent => True

/-- No running process calls `process_flag/2`, every signal that reaches the process finds it
receptive, there is room for all messages that waited in the slot, and the tombstone of a process
that lives is not evicted before its worker reads it. -/
def Settled : TrapAction → Prop
  | .processFlag _ => s.entry.held = none
  | .exitSignal _ reason room => s.Receptive reason room
  | .processExitSignal _ reason room => s.Receptive reason room
  | .processRemoteExitSignal source reason kind room =>
    kind = .direct ∨ source ∈ s.remoteLinks → s.Receptive reason room
  | .storeRunnable room =>
    s.Alive → ∀ m, s.entry.slot = .executing m → ∀ i < m.pendingExitMessages.length, room i = true
  | .evictTombstone => s.tombstone ≠ none → s.condemned = false → ¬ s.Lives
  | _ => True

/-- The flag of the body is the value that was set last. -/
structure Regular : Prop where
  sound : s.entry.Sound
  flag : ∀ p, s.entry.body? = some p → s.entry.slot ≠ .absent → p.exited = false →
    p.trapExit = s.flag

end TrapProcess

theorem shouldDie_true (reason : ExitReason) : shouldDie reason true = decide (reason = .kill) := by
  simp [shouldDie]

theorem shouldDie_false (reason : ExitReason) :
    shouldDie reason false = decide (reason ≠ .normal) := by
  cases reason <;> rfl

theorem terminalReason_of_ne {reason : ExitReason} (h : reason ≠ .kill) :
    terminalReason reason = reason := by
  cases reason <;> first | rfl | exact absurd rfl h

namespace TrapBody

variable (p : TrapBody)

@[simp] theorem exited_terminate : p.terminate.exited = true := rfl

@[simp] theorem mergeRemoteLinks_exited (links : List RemotePid) :
    (p.mergeRemoteLinks links).exited = p.exited := rfl

theorem exited_enqueueExitMessage (source : PendingExitSource) (reason : ExitReason)
    (room : Bool) :
    (p.enqueueExitMessage source reason room).exited = (p.exited || !room) := by
  cases room <;> simp [enqueueExitMessage]

theorem trapExit_enqueueExitMessage (source : PendingExitSource) (reason : ExitReason)
    (room : Bool) : (p.enqueueExitMessage source reason room).trapExit = p.trapExit := by
  cases room <;> rfl

theorem trapExit_enqueuePending (pending : List (PendingExitSource × ExitReason))
    (room : ℕ → Bool) : (p.enqueuePending pending room).trapExit = p.trapExit := by
  rw [enqueuePending]
  refine List.foldlRecOn (motive := fun q : TrapBody => q.trapExit = p.trapExit) _ _ rfl ?_
  intro q hq message _
  rw [trapExit_enqueueExitMessage, hq]

/-- A terminated process stays so. -/
theorem exited_foldl_enqueue (h : p.exited = true)
    (messages : List ((PendingExitSource × ExitReason) × ℕ)) (room : ℕ → Bool) :
    (messages.foldl (fun q message => q.enqueueExitMessage message.1.1 message.1.2
      (room message.2)) p).exited = true := by
  refine List.foldlRecOn (motive := fun q : TrapBody => q.exited = true) _ _ h ?_
  intro q hq message _
  rw [exited_enqueueExitMessage, hq, Bool.true_or]

/-- The messages that waited, from the `k`-th on. -/
theorem foldl_enqueue_of_room {pending : List (PendingExitSource × ExitReason)} {room : ℕ → Bool}
    {k : ℕ} (h : ∀ i < pending.length, room (k + i) = true) :
    (pending.zipIdx k).foldl (fun q message => q.enqueueExitMessage message.1.1 message.1.2
        (room message.2)) p =
      { p with exitMessages := p.exitMessages ++
          pending.map fun message => (message.1, terminalReason message.2) } := by
  induction pending generalizing k p with
  | nil => simp
  | cons message rest ih =>
    have hfirst : room k = true := h 0 (Nat.succ_pos _)
    have hrest : ∀ i < rest.length, room (k + 1 + i) = true := by
      intro i hi
      rw [Nat.add_right_comm]
      exact h (i + 1) (Nat.succ_lt_succ hi)
    rw [List.zipIdx_cons, List.foldl_cons, ih _ hrest, enqueueExitMessage, if_pos hfirst]
    simp

theorem enqueuePending_of_room {pending : List (PendingExitSource × ExitReason)}
    {room : ℕ → Bool} (h : ∀ i < pending.length, room i = true) :
    p.enqueuePending pending room =
      { p with exitMessages := p.exitMessages ++
          pending.map fun message => (message.1, terminalReason message.2) } := by
  apply foldl_enqueue_of_room
  intro i hi
  rw [Nat.zero_add]
  exact h i hi

theorem room_of_foldl_enqueue {pending : List (PendingExitSource × ExitReason)}
    {room : ℕ → Bool} {k : ℕ}
    (h : ((pending.zipIdx k).foldl (fun q message => q.enqueueExitMessage message.1.1 message.1.2
        (room message.2)) p).exited = false) :
    ∀ i < pending.length, room (k + i) = true := by
  induction pending generalizing k p with
  | nil => exact fun i hi => absurd hi (Nat.not_lt_zero i)
  | cons message rest ih =>
    intro i hi
    rw [List.zipIdx_cons, List.foldl_cons] at h
    cases i with
    | zero =>
      by_contra hroom
      have hfalse : room k = false := Bool.eq_false_of_not_eq_true hroom
      have hexited : (p.enqueueExitMessage message.1 message.2 (room k)).exited = true := by
        rw [exited_enqueueExitMessage, hfalse, Bool.not_false, Bool.or_true]
      rw [exited_foldl_enqueue _ hexited] at h
      cases h
    | succ i =>
      have hrest := ih _ h i (Nat.lt_of_succ_lt_succ hi)
      rwa [Nat.add_right_comm] at hrest

/-- A message without room terminates the process for good. -/
theorem room_of_enqueuePending {pending : List (PendingExitSource × ExitReason)}
    {room : ℕ → Bool} (h : (p.enqueuePending pending room).exited = false) :
    ∀ i < pending.length, room i = true := by
  intro i hi
  have hroom := p.room_of_foldl_enqueue h i hi
  rwa [Nat.zero_add] at hroom

theorem exited_of_enqueuePending {pending : List (PendingExitSource × ExitReason)}
    {room : ℕ → Bool} (h : (p.enqueuePending pending room).exited = false) :
    p.exited = false := by
  by_contra hp
  have hexited := p.exited_foldl_enqueue (Bool.eq_true_of_not_eq_false hp) pending.zipIdx room
  rw [enqueuePending, hexited] at h
  cases h

end TrapBody

namespace TrapProcess

variable {s : TrapProcess}

/-- Where the body of a process that lives is. -/
theorem Lives.cases (h : s.Lives) (hs : s.entry.Sound) :
    (∃ p, s.entry = ⟨.present p, none⟩ ∧ p.exited = false) ∨
      ∃ m p, s.entry = ⟨.executing m, some p⟩ ∧ p.exited = false := by
  obtain ⟨⟨slot, held⟩, tombstone, condemned, flag⟩ := s
  obtain ⟨p, hp, hslot, hlive⟩ := h
  cases slot with
  | absent => exact absurd rfl hslot
  | present q =>
    obtain rfl : held = none := hs
    obtain rfl : q = p := Option.some.inj hp
    exact .inl ⟨q, rfl, hlive⟩
  | executing m =>
    obtain ⟨q, rfl⟩ := Option.isSome_iff_exists.mp hs
    obtain rfl : q = p := Option.some.inj hp
    exact .inr ⟨m, q, rfl, hlive⟩

theorem lives_present {p : TrapBody} (tombstone : Option ExitReason) (condemned flag : Bool) :
    (⟨⟨.present p, none⟩, tombstone, condemned, flag⟩ : TrapProcess).Lives ↔ p.exited = false := by
  simp [Lives, Entry.body?]

theorem lives_executing {m : TrapMetadata} {p : TrapBody} (tombstone : Option ExitReason)
    (condemned flag : Bool) :
    (⟨⟨.executing m, some p⟩, tombstone, condemned, flag⟩ : TrapProcess).Lives ↔
      p.exited = false := by
  simp [Lives, Entry.body?]

theorem not_alive_insertTombstone (reason : ExitReason) : ¬ (s.insertTombstone reason).Alive := by
  intro h
  have hnone := h.1
  rw [insertTombstone, Option.or_eq_none_iff] at hnone
  cases hnone.2

/-- A stored process that lives answers a signal if it has room for the message. -/
theorem answered_present_iff {p : TrapBody} (hlive : p.exited = false)
    (source : PendingExitSource) (reason : ExitReason) (room clearsStored clearsRunning : Bool) :
    Answered ⟨⟨.present p, none⟩, none, false, p.trapExit⟩
        (receive ⟨⟨.present p, none⟩, none, false, p.trapExit⟩ source reason room clearsStored
          clearsRunning) source reason ↔
      (p.trapExit = true → reason ≠ .kill → room = true) := by
  cases htrap : p.trapExit with
  | false =>
    refine iff_of_true ⟨fun h => absurd h Bool.false_ne_true, ?_⟩
      fun h => absurd h Bool.false_ne_true
    intro _ hreason
    rw [receive]
    simp only [hlive, htrap, shouldDie_false, hreason, ne_eq, not_false_eq_true, decide_true,
      if_true, Bool.false_eq_true, if_false]
    exact not_alive_insertTombstone _
  | true =>
    by_cases hreason : reason = .kill
    · exact iff_of_true ⟨fun _ h => absurd hreason h, fun h => absurd h.symm Bool.false_ne_true⟩
        fun _ h => absurd hreason h
    · have hreceive : receive ⟨⟨.present p, none⟩, none, false, true⟩ source reason room
          clearsStored clearsRunning =
          ⟨⟨.present (p.enqueueExitMessage source reason room), none⟩, none, false, true⟩ := by
        simp [receive, hlive, htrap, shouldDie_true, hreason]
      rw [hreceive]
      constructor
      · intro h _ _
        have halive := (lives_present _ _ _).mp (h.traps rfl hreason).1.2.2
        rw [TrapBody.exited_enqueueExitMessage, hlive] at halive
        simpa using halive
      · intro h
        obtain rfl : room = true := h rfl hreason
        refine ⟨fun _ _ => ⟨⟨rfl, rfl, (lives_present _ _ _).mpr hlive⟩, ?_⟩,
          fun h => absurd h.symm Bool.false_ne_true⟩
        simp [exitMessages, Entry.body?, TrapBody.enqueueExitMessage,
          terminalReason_of_ne hreason]

/-- What a signal does to a running process that is not marked, by the flag in its view. -/
theorem receive_executing {m : TrapMetadata} {p : TrapBody} (flag : Bool)
    (source : PendingExitSource) {reason : ExitReason} (hreason : reason ≠ .kill)
    (room clearsStored clearsRunning : Bool) :
    receive ⟨⟨.executing m, some p⟩, none, false, flag⟩ source reason room clearsStored
        clearsRunning =
      if m.trapExit then
        let m := { m with pendingExitMessages := m.pendingExitMessages ++ [(source, reason)] }
        ⟨⟨.executing m, some p⟩, none, false, flag⟩
      else if reason = .normal then ⟨⟨.executing m, some p⟩, none, false, flag⟩
      else ⟨⟨.executing m, some p⟩, some (terminalReason reason), false, flag⟩ := by
  cases hm : m.trapExit with
  | false =>
    by_cases hnormal : reason = .normal
    · simp [receive, hm, shouldDie_false, hnormal]
    · simp [receive, hm, shouldDie_false, hnormal, hreason, insertTombstone]
  | true => simp [receive, hm, shouldDie_true, hreason]

/-- A running process that lives answers a signal if the view in its slot has the flag. -/
theorem answered_executing_iff {m : TrapMetadata} {p : TrapBody} (hlive : p.exited = false)
    (source : PendingExitSource) (reason : ExitReason) (room clearsStored clearsRunning : Bool) :
    Answered ⟨⟨.executing m, some p⟩, none, false, p.trapExit⟩
        (receive ⟨⟨.executing m, some p⟩, none, false, p.trapExit⟩ source reason room clearsStored
          clearsRunning) source reason ↔
      (m.trapExit = p.trapExit ∨ reason = .kill ∨ reason = .normal ∧ p.trapExit = false) := by
  by_cases hkill : reason = .kill
  · refine iff_of_true ⟨fun _ h => absurd hkill h, fun _ _ => ?_⟩ (.inr (.inl hkill))
    simp only [receive, hkill, shouldDie, decide_true, Bool.true_or, if_true]
    exact not_alive_insertTombstone _
  · rw [receive_executing _ _ hkill]
    cases hm : m.trapExit with
    | false =>
      simp only [Bool.false_eq_true, if_false, hkill, false_or]
      split
      next hnormal =>
        cases hp : p.trapExit with
        | false =>
          exact iff_of_true
            ⟨fun h => absurd h Bool.false_ne_true, fun _ h => absurd hnormal h⟩ (.inl rfl)
        | true =>
          refine iff_of_false (fun h => ?_) (by simp)
          have hmessages := (h.traps rfl hkill).2
          simp at hmessages
      next hnormal =>
        have hmarked (flag : Bool) : ¬ (⟨⟨.executing m, some p⟩, some (terminalReason reason),
            false, flag⟩ : TrapProcess).Alive := fun h => Option.some_ne_none _ h.1
        cases hp : p.trapExit with
        | false =>
          exact iff_of_true ⟨fun h => absurd h Bool.false_ne_true, fun _ _ => hmarked false⟩
            (.inl rfl)
        | true =>
          exact iff_of_false (fun h => hmarked true (h.traps rfl hkill).1) (by simp)
    | true =>
      simp only [if_true, hkill, false_or]
      have halive (m : TrapMetadata) (flag : Bool) :
          (⟨⟨.executing m, some p⟩, none, false, flag⟩ : TrapProcess).Alive :=
        ⟨rfl, rfl, (lives_executing _ _ _).mpr hlive⟩
      cases hp : p.trapExit with
      | false =>
        constructor
        · intro h
          by_contra hnormal
          rw [not_or, not_and] at hnormal
          exact h.dies rfl (fun heq => hnormal.2 heq rfl) (halive _ _)
        · rintro (h | ⟨hnormal, _⟩)
          · exact absurd h.symm Bool.false_ne_true
          · exact ⟨fun h => absurd h Bool.false_ne_true, fun _ h => absurd hnormal h⟩
      | true =>
        refine iff_of_true ⟨fun _ _ => ⟨halive _ _, ?_⟩, fun h => absurd h.symm Bool.false_ne_true⟩
          (.inl rfl)
        simp [exitMessages, Entry.body?, terminalReason_of_ne hkill]

/-- A process that is not marked, with its body in the slot or with a worker. -/
theorem Alive.cases (h : s.Alive) (hs : s.Regular) :
    (∃ p : TrapBody, p.exited = false ∧ s = ⟨⟨.present p, none⟩, none, false, p.trapExit⟩) ∨
      ∃ (m : TrapMetadata) (p : TrapBody), p.exited = false ∧
        s = ⟨⟨.executing m, some p⟩, none, false, p.trapExit⟩ := by
  have hflag := hs.flag
  have hentry := h.2.2.cases hs.sound
  obtain ⟨entry, tombstone, condemned, flag⟩ := s
  obtain rfl : tombstone = none := h.1
  obtain rfl : condemned = false := h.2.1
  rcases hentry with ⟨p, rfl, hlive⟩ | ⟨m, p, rfl, hlive⟩
  · obtain rfl : p.trapExit = flag := hflag p rfl (by simp) hlive
    exact .inl ⟨p, hlive, rfl⟩
  · obtain rfl : p.trapExit = flag := hflag p rfl (by simp) hlive
    exact .inr ⟨m, p, hlive, rfl⟩

theorem answered_receive_iff (hs : s.Regular) (h : s.Alive) (source : PendingExitSource)
    (reason : ExitReason) (room clearsStored clearsRunning : Bool) :
    Answered s (s.receive source reason room clearsStored clearsRunning) source reason ↔
      s.Receptive reason room := by
  rw [Receptive, imp_iff_right h]
  rcases h.cases hs with ⟨p, hlive, rfl⟩ | ⟨m, p, hlive, rfl⟩
  · exact answered_present_iff hlive ..
  · exact answered_executing_iff hlive ..

/-! ### Steps -/

theorem regular_spawn (trapExit : Bool) : (spawn trapExit).Regular where
  sound := Entry.sound_insert _
  flag p hp _ _ := by
    obtain rfl := Option.some.inj hp
    rfl

section Shapes

variable {p : TrapBody} {m : TrapMetadata} {held : Option TrapBody}
  {tombstone : Option ExitReason} {condemned flag : Bool}

theorem regular_present :
    (⟨⟨.present p, held⟩, tombstone, condemned, flag⟩ : TrapProcess).Regular ↔
      held = none ∧ (p.exited = false → p.trapExit = flag) := by
  constructor
  · intro h
    obtain rfl : held = none := h.sound
    exact ⟨rfl, h.flag p rfl (by simp)⟩
  · rintro ⟨rfl, hflag⟩
    refine ⟨rfl, ?_⟩
    intro q hq _
    obtain rfl : p = q := Option.some.inj hq
    exact hflag

theorem regular_executing :
    (⟨⟨.executing m, held⟩, tombstone, condemned, flag⟩ : TrapProcess).Regular ↔
      ∃ p, held = some p ∧ (p.exited = false → p.trapExit = flag) := by
  constructor
  · intro h
    obtain ⟨p, rfl⟩ := Option.isSome_iff_exists.mp h.sound
    exact ⟨p, rfl, h.flag p rfl (by simp)⟩
  · rintro ⟨p, rfl, hflag⟩
    refine ⟨rfl, ?_⟩
    intro q hq _
    obtain rfl : p = q := Option.some.inj hq
    exact hflag

theorem regular_absent :
    (⟨⟨.absent, held⟩, tombstone, condemned, flag⟩ : TrapProcess).Regular :=
  ⟨trivial, fun _ _ h => absurd rfl h⟩

end Shapes

theorem Regular.receive (hs : s.Regular) (source : PendingExitSource) (reason : ExitReason)
    (room clearsStored clearsRunning : Bool) :
    (s.receive source reason room clearsStored clearsRunning).Regular := by
  obtain ⟨⟨slot, held⟩, tombstone, condemned, flag⟩ := s
  cases slot with
  | absent => exact regular_absent
  | present p =>
    obtain ⟨rfl, hflag⟩ := regular_present.mp hs
    rw [TrapProcess.receive]
    dsimp only
    split
    next => exact hs
    next hlive =>
      split
      next =>
        refine regular_present.mpr ⟨rfl, fun h => ?_⟩
        cases h
      next =>
        split
        next =>
          refine regular_present.mpr ⟨rfl, fun _ => ?_⟩
          rw [TrapBody.trapExit_enqueueExitMessage]
          exact hflag (Bool.eq_false_of_not_eq_true hlive)
        next => exact hs
  | executing m =>
    obtain ⟨p, rfl, hflag⟩ := regular_executing.mp hs
    rw [TrapProcess.receive]
    dsimp only
    split
    next => exact regular_executing.mpr ⟨p, rfl, hflag⟩
    next =>
      split
      next => exact regular_executing.mpr ⟨p, rfl, hflag⟩
      next => exact hs

theorem alive_of_receive {source : PendingExitSource} {reason : ExitReason}
    {room clearsStored clearsRunning : Bool} (hs : s.Regular)
    (h : (s.receive source reason room clearsStored clearsRunning).Alive) : s.Alive := by
  obtain ⟨⟨slot, held⟩, tombstone, condemned, flag⟩ := s
  rw [receive] at h
  cases slot with
  | absent => exact h
  | present p =>
    obtain ⟨rfl, hflag⟩ := regular_present.mp hs
    dsimp only at h
    split at h
    next => exact h
    next hlive =>
      split at h
      next => exact absurd h (not_alive_insertTombstone _)
      next =>
        split at h
        next => exact ⟨h.1, h.2.1, (lives_present _ _ _).mpr (Bool.eq_false_of_not_eq_true hlive)⟩
        next => exact h
  | executing m =>
    obtain ⟨p, rfl, hflag⟩ := regular_executing.mp hs
    dsimp only at h
    split at h
    next => exact absurd h (not_alive_insertTombstone _)
    next =>
      split at h
      next => exact ⟨h.1, h.2.1, (lives_executing _ _ _).mpr ((lives_executing _ _ _).mp h.2.2)⟩
      next => exact h

/-- A step that neither marks nor terminates a process, brings none back and leaves its exit
messages alone. -/
structure Undisturbed (s s' : TrapProcess) : Prop where
  alive : s'.Alive ↔ s.Alive
  exitMessages : s.Alive → s'.exitMessages = s.exitMessages

theorem Undisturbed.refl (s : TrapProcess) : Undisturbed s s := ⟨Iff.rfl, fun _ => rfl⟩

theorem undisturbed_take (hs : s.Regular) :
    Undisturbed s { s with entry := s.entry.take TrapBody.snapshot } ∧
      TrapProcess.Regular { s with entry := s.entry.take TrapBody.snapshot } := by
  obtain ⟨⟨slot, held⟩, tombstone, condemned, flag⟩ := s
  cases slot with
  | absent => exact ⟨.refl _, hs⟩
  | executing m => exact ⟨.refl _, hs⟩
  | present p =>
    obtain ⟨rfl, hflag⟩ := regular_present.mp hs
    refine ⟨⟨?_, fun _ => ?_⟩, regular_executing.mpr ⟨p, rfl, hflag⟩⟩
    · simp only [Alive, Entry.take, lives_present, lives_executing]
    · simp [exitMessages, Entry.take, Entry.body?, TrapBody.snapshot]

/-- The return of a body that finds room for what waited in the slot. -/
theorem undisturbed_store (hs : s.Regular) {room : ℕ → Bool} (h : s.Alive)
    (hroom : ∀ m, s.entry.slot = .executing m →
      ∀ i < m.pendingExitMessages.length, room i = true) :
    TrapProcess.Alive { s with entry := s.entry.store fun p => p.merge room } ∧
      exitMessages { s with entry := s.entry.store fun p => p.merge room } = s.exitMessages := by
  rcases h.cases hs with ⟨p, hlive, rfl⟩ | ⟨m, p, hlive, rfl⟩
  · exact ⟨h, rfl⟩
  · have hmerge := (p.mergeRemoteLinks m.remoteLinks).enqueuePending_of_room (hroom m rfl)
    have hstore : Entry.store (fun p : TrapBody => p.merge room) ⟨.executing m, some p⟩ =
        ⟨.present _, none⟩ := congrArg Entry.insert hmerge
    rw [hstore]
    refine ⟨⟨rfl, rfl, (lives_present _ _ _).mpr hlive⟩, ?_⟩
    simp [exitMessages, Entry.body?, TrapBody.mergeRemoteLinks]

theorem regular_store (hs : s.Regular) (room : ℕ → Bool) :
    TrapProcess.Regular { s with entry := s.entry.store fun p => p.merge room } := by
  obtain ⟨⟨slot, held⟩, tombstone, condemned, flag⟩ := s
  cases slot with
  | absent => cases held <;> exact regular_absent
  | present p =>
    obtain ⟨rfl, hflag⟩ := regular_present.mp hs
    exact hs
  | executing m =>
    obtain ⟨p, rfl, hflag⟩ := regular_executing.mp hs
    refine regular_present.mpr ⟨rfl, ?_⟩
    intro hlive
    refine (TrapBody.trapExit_enqueuePending _ _ _).trans ?_
    exact hflag ((p.mergeRemoteLinks m.remoteLinks).exited_of_enqueuePending hlive)

theorem alive_of_store (hs : s.Regular) {room : ℕ → Bool}
    (h : TrapProcess.Alive { s with entry := s.entry.store fun p => p.merge room }) :
    s.Alive ∧ ∀ m, s.entry.slot = .executing m →
      ∀ i < m.pendingExitMessages.length, room i = true := by
  obtain ⟨⟨slot, held⟩, tombstone, condemned, flag⟩ := s
  cases slot with
  | absent =>
    obtain ⟨_, _, p, hp, hslot, _⟩ := h
    cases held with
    | none => exact absurd rfl hslot
    | some body => exact absurd rfl hslot
  | present p =>
    obtain ⟨rfl, hflag⟩ := regular_present.mp hs
    exact ⟨h, fun m hm => by cases hm⟩
  | executing m =>
    obtain ⟨p, rfl, hflag⟩ := regular_executing.mp hs
    have hlive := (lives_present _ _ _).mp h.2.2
    refine ⟨⟨h.1, h.2.1, (lives_executing _ _ _).mpr ?_⟩, ?_⟩
    · exact (p.mergeRemoteLinks m.remoteLinks).exited_of_enqueuePending hlive
    · intro m' hm
      obtain rfl : m = m' := by simpa using hm
      exact (p.mergeRemoteLinks m.remoteLinks).room_of_enqueuePending hlive

theorem undisturbed_modify (hs : s.Regular) {onBody : TrapBody → TrapBody}
    {onMetadata : TrapMetadata → TrapMetadata}
    (hbody : ∀ p, (onBody p).trapExit = p.trapExit ∧ (onBody p).exited = p.exited ∧
      (onBody p).exitMessages = p.exitMessages)
    (hmetadata : ∀ m, (onMetadata m).pendingExitMessages = m.pendingExitMessages) :
    Undisturbed s { s with entry := s.entry.modify onBody onMetadata } ∧
      TrapProcess.Regular { s with entry := s.entry.modify onBody onMetadata } := by
  obtain ⟨⟨slot, held⟩, tombstone, condemned, flag⟩ := s
  cases slot with
  | absent => exact ⟨.refl _, hs⟩
  | present p =>
    obtain ⟨rfl, hflag⟩ := regular_present.mp hs
    obtain ⟨htrap, hexited, hmessages⟩ := hbody p
    refine ⟨⟨?_, fun _ => ?_⟩, regular_present.mpr ⟨rfl, ?_⟩⟩
    · simp only [Alive, Entry.modify, lives_present, hexited]
    · simp [exitMessages, Entry.modify, Entry.body?, hmessages]
    · rwa [htrap, hexited]
  | executing m =>
    obtain ⟨p, rfl, hflag⟩ := regular_executing.mp hs
    refine ⟨⟨?_, fun _ => ?_⟩, regular_executing.mpr ⟨p, rfl, hflag⟩⟩
    · simp only [Alive, Entry.modify, lives_executing]
    · simp [exitMessages, Entry.modify, Entry.body?, hmetadata]

theorem undisturbed_establishRemoteLink (hs : s.Regular) (remote : RemotePid) :
    Undisturbed s (s.establishRemoteLink remote).2 ∧ (s.establishRemoteLink remote).2.Regular := by
  rw [establishRemoteLink]
  split
  next => exact ⟨.refl s, hs⟩
  next => exact undisturbed_modify hs (fun _ => ⟨rfl, rfl, rfl⟩) fun _ => rfl

theorem undisturbed_removeRemoteLink (hs : s.Regular) (remote : RemotePid) :
    Undisturbed s (s.removeRemoteLink remote).2 ∧ (s.removeRemoteLink remote).2.Regular :=
  undisturbed_modify hs (fun _ => ⟨rfl, rfl, rfl⟩) fun _ => rfl

theorem hasExited_eq_false (h : s.Alive) (hs : s.Regular) : s.hasExited = false := by
  rcases h.cases hs with ⟨p, hlive, rfl⟩ | ⟨m, p, hlive, rfl⟩
  · exact hlive
  · rfl

/-- A running process can not set its flag, because its body is not in its slot. -/
theorem setTrapExit_of_held {e : Entry TrapBody TrapMetadata} (he : e.Sound)
    (h : e.held.isSome) (value : Bool) : setTrapExit e value = .error .noCaller := by
  obtain ⟨slot, held⟩ := e
  cases slot with
  | present p =>
    obtain rfl : held = none := he
    cases h
  | executing m => rfl
  | absent => rfl

theorem undisturbed_schedulerSetTrapExit (hs : s.Regular) (value : Bool) :
    Undisturbed s (s.step (.schedulerSetTrapExit value)) ∧
      (s.step (.schedulerSetTrapExit value)).Regular := by
  obtain ⟨⟨slot, held⟩, tombstone, condemned, flag⟩ := s
  cases slot with
  | present p =>
    obtain ⟨rfl, hflag⟩ := regular_present.mp hs
    refine ⟨⟨?_, fun _ => rfl⟩, regular_present.mpr ⟨rfl, fun _ => rfl⟩⟩
    simp only [Alive, step, setTrapExit, lives_present]
  | executing m => exact ⟨.refl _, hs⟩
  | absent => exact ⟨.refl _, hs⟩

theorem undisturbed_nativeSetTrapExit (hs : s.Regular) (value : Bool) :
    Undisturbed s (s.step (.nativeSetTrapExit value)) ∧
      (s.step (.nativeSetTrapExit value)).Regular := by
  rw [step]
  split
  next hheld =>
    obtain ⟨⟨slot, held⟩, tombstone, condemned, flag⟩ := s
    cases slot with
    | present p =>
      obtain ⟨rfl, -⟩ := regular_present.mp hs
      cases hheld
    | executing m =>
      obtain ⟨p, rfl, -⟩ := regular_executing.mp hs
      refine ⟨⟨?_, fun _ => rfl⟩, regular_executing.mpr ⟨_, rfl, fun _ => rfl⟩⟩
      simp only [Alive, Entry.edit, Option.map_some, lives_executing]
    | absent =>
      refine ⟨⟨iff_of_false ?_ ?_, fun h => ?_⟩, regular_absent⟩
      · exact fun h => h.2.2.elim fun _ hp => hp.2.1 rfl
      · exact fun h => h.2.2.elim fun _ hp => hp.2.1 rfl
      · exact h.2.2.elim fun _ hp => absurd rfl hp.2.1
  next => exact ⟨.refl s, hs⟩

theorem undisturbed_finalize (hs : s.Regular) :
    Undisturbed s (s.step .finalize) ∧ (s.step .finalize).Regular := by
  rw [step]
  split
  next hdead =>
    have hnot : ¬ s.Alive := by
      intro h
      rw [h.2.1, hasExited_eq_false h hs] at hdead
      cases hdead
    refine ⟨⟨iff_of_false (fun h => ?_) hnot, fun h => absurd h hnot⟩, regular_absent⟩
    exact h.2.2.elim fun _ hp => hp.2.1 rfl
  next => exact ⟨.refl s, hs⟩

theorem undisturbed_readTombstone (s : TrapProcess) : Undisturbed s (s.step .readTombstone) := by
  refine ⟨?_, fun _ => rfl⟩
  constructor
  · rintro ⟨htombstone, hcondemned, hlives⟩
    exact ⟨htombstone, (Bool.or_eq_false_iff.mp hcondemned).1, hlives⟩
  · rintro ⟨htombstone, hcondemned, hlives⟩
    refine ⟨htombstone, ?_, hlives⟩
    rw [step, hcondemned, htombstone]
    rfl

theorem Regular.step (hs : s.Regular) (a : TrapAction) : (s.step a).Regular := by
  cases a with
  | takeRunnable => exact (undisturbed_take hs).2
  | storeRunnable room => exact regular_store hs room
  | readTombstone => exact ⟨hs.sound, hs.flag⟩
  | finalize => exact (undisturbed_finalize hs).2
  | processFlag value =>
    rw [TrapProcess.step]
    split
    next hheld => rwa [setTrapExit_of_held hs.sound hheld]
    next => exact hs
  | nativeSetTrapExit value => exact (undisturbed_nativeSetTrapExit hs value).2
  | schedulerSetTrapExit value => exact (undisturbed_schedulerSetTrapExit hs value).2
  | exitSignal caller reason room => exact hs.receive ..
  | processExitSignal source reason room => exact hs.receive ..
  | processRemoteExitSignal source reason kind room =>
    have hremove := (undisturbed_removeRemoteLink hs source).2
    rw [TrapProcess.step, processRemoteExitSignal.eq_def]
    split
    next => exact hs
    next =>
      cases kind with
      | direct => exact hs.receive ..
      | linkExit =>
        dsimp only
        split
        next => exact hremove.receive ..
        next => exact hremove
  | establishRemoteLink remote => exact (undisturbed_establishRemoteLink hs remote).2
  | removeRemoteLink remote => exact (undisturbed_removeRemoteLink hs remote).2
  | terminateProcess reason => exact regular_absent
  | evictTombstone => exact ⟨hs.sound, hs.flag⟩

/-- A step that brings no signal, and is not the call of `process_flag/2`, has the flag heeded as
long as it leaves what matters alone. -/
theorem heeds_of_undisturbed {a : TrapAction} (hflag : ∀ value, a ≠ .processFlag value)
    (hsignal : s.signal? a = none) (h : Undisturbed s (s.step a)) : s.Heeds a where
  sets value ha := absurd ha (hflag value)
  answers source reason ha := by
    rw [hsignal] at ha
    cases ha
  keeps _ _ halive := ⟨h.alive.mpr halive, h.exitMessages halive⟩
  final hdead halive := hdead (h.alive.mp halive)

/-- A step that brings a signal has the flag heeded if it answers the signal. -/
theorem heeds_signal_iff {a : TrapAction} (hflag : ∀ value, a ≠ .processFlag value)
    {source : PendingExitSource} {reason : ExitReason}
    (hsignal : s.signal? a = some (source, reason)) (hfinal : (s.step a).Alive → s.Alive) :
    s.Heeds a ↔ (s.Alive → Answered s (s.step a) source reason) := by
  constructor
  · exact fun h => h.answers source reason hsignal
  · intro h
    refine ⟨fun value ha => absurd ha (hflag value), ?_, ?_, fun hdead halive => ?_⟩
    · intro source' reason' ha halive
      rw [hsignal] at ha
      obtain ⟨rfl, rfl⟩ := Prod.mk.inj (Option.some.inj ha)
      exact h halive
    · intro hnone
      rw [hsignal] at hnone
      cases hnone
    · exact hdead (hfinal halive)

theorem heeds_receive_iff (hs : s.Regular) {a : TrapAction}
    (hflag : ∀ value, a ≠ .processFlag value) {source : PendingExitSource} {reason : ExitReason}
    {room clearsStored clearsRunning : Bool}
    (hsignal : s.signal? a = some (source, reason))
    (hstep : s.step a = s.receive source reason room clearsStored clearsRunning) :
    s.Heeds a ↔ s.Receptive reason room := by
  rw [heeds_signal_iff hflag hsignal fun h => alive_of_receive hs (hstep ▸ h), hstep]
  constructor
  · exact fun h halive => (answered_receive_iff hs halive ..).mp (h halive) halive
  · exact fun h halive => (answered_receive_iff hs halive ..).mpr h

theorem receive_of_hasExited (h : s.hasExited = true) (source : PendingExitSource)
    (reason : ExitReason) (room clearsStored clearsRunning : Bool) :
    s.receive source reason room clearsStored clearsRunning = s := by
  obtain ⟨⟨slot, held⟩, tombstone, condemned, flag⟩ := s
  cases slot with
  | absent => rfl
  | present p => exact if_pos h
  | executing m => cases h

theorem step_direct (source : RemotePid) (reason : ExitReason) (room : Bool) :
    s.step (.processRemoteExitSignal source reason .direct room) =
      s.receive (.ofRemote source) reason room false true := by
  rw [step, processRemoteExitSignal.eq_def]
  split
  next h => rw [receive_of_hasExited h]
  next => rfl

theorem step_linkExit (h : s.hasExited = false) (source : RemotePid) (reason : ExitReason)
    (room : Bool) :
    s.step (.processRemoteExitSignal source reason .linkExit room) =
      if source ∈ s.remoteLinks then
        (s.removeRemoteLink source).2.receive (.ofRemote source) reason room false true
      else (s.removeRemoteLink source).2 := by
  rw [step, processRemoteExitSignal.eq_def, if_neg (Bool.not_eq_true _ ▸ h)]
  simp only [removeRemoteLink, decide_eq_true_eq]

/-- A signal through a remote link that is there finds the process as it was but for the link. -/
theorem answered_linkExit_iff (hs : s.Regular) (h : s.Alive) {source : RemotePid}
    (hlinked : source ∈ s.remoteLinks) (reason : ExitReason) (room : Bool) :
    Answered s (s.step (.processRemoteExitSignal source reason .linkExit room))
        (.ofRemote source) reason ↔ s.Receptive reason room := by
  obtain ⟨hsame, hregular⟩ := undisturbed_removeRemoteLink hs source
  have hanswered := answered_receive_iff hregular (hsame.alive.mpr h) (.ofRemote source) reason room
    false true
  rw [step_linkExit (hasExited_eq_false h hs), if_pos hlinked]
  have hreceptive : (s.removeRemoteLink source).2.Receptive reason room ↔
      s.Receptive reason room := by
    rw [Receptive, Receptive, hsame.alive]
    rcases h.cases hs with ⟨p, hlive, rfl⟩ | ⟨m, p, hlive, rfl⟩ <;> rfl
  rw [← hreceptive, ← hanswered]
  constructor
  · rintro ⟨htraps, hdies⟩
    exact ⟨hsame.exitMessages h ▸ htraps, hdies⟩
  · rintro ⟨htraps, hdies⟩
    exact ⟨hsame.exitMessages h ▸ htraps, hdies⟩

theorem heeds_processRemoteExitSignal_iff (hs : s.Regular) (source : RemotePid)
    (reason : ExitReason) (kind : RemoteExitKind) (room : Bool) :
    s.Heeds (.processRemoteExitSignal source reason kind room) ↔
      s.Settled (.processRemoteExitSignal source reason kind room) := by
  rw [Settled]
  by_cases hsent : kind = .direct ∨ source ∈ s.remoteLinks
  · have hsignal : s.signal? (.processRemoteExitSignal source reason kind room) =
        some (.ofRemote source, reason) := if_pos hsent
    rw [imp_iff_right hsent]
    cases kind with
    | direct => exact heeds_receive_iff hs (by simp) hsignal (step_direct source reason room)
    | linkExit =>
      have hlinked : source ∈ s.remoteLinks := hsent.resolve_left (by simp)
      obtain ⟨hsame, hregular⟩ := undisturbed_removeRemoteLink hs source
      rw [heeds_signal_iff (by simp) hsignal ?_]
      · constructor
        · exact fun h halive => (answered_linkExit_iff hs halive hlinked ..).mp (h halive) halive
        · exact fun h halive => (answered_linkExit_iff hs halive hlinked ..).mpr h
      · intro h
        cases hexited : s.hasExited with
        | true =>
          rw [step, processRemoteExitSignal.eq_def, if_pos hexited] at h
          exact h
        | false =>
          rw [step_linkExit hexited, if_pos hlinked] at h
          exact hsame.alive.mp (alive_of_receive hregular h)
  · have hsignal : s.signal? (.processRemoteExitSignal source reason kind room) = none :=
      if_neg hsent
    refine iff_of_true (heeds_of_undisturbed (by simp) hsignal ?_) fun h => absurd h hsent
    obtain ⟨hdirect, hlinked⟩ := not_or.mp hsent
    obtain rfl : kind = .linkExit := by cases kind <;> first | rfl | exact absurd rfl hdirect
    cases hexited : s.hasExited with
    | true =>
      rw [step, processRemoteExitSignal.eq_def, if_pos hexited]
      exact .refl s
    | false =>
      rw [step_linkExit hexited, if_neg hlinked]
      exact (undisturbed_removeRemoteLink hs source).1

/-- The flag is heeded in a step exactly when the step is settled. -/
theorem heeds_iff (hs : s.Regular) (a : TrapAction) : s.Heeds a ↔ s.Settled a := by
  cases a with
  | takeRunnable =>
    exact iff_of_true (heeds_of_undisturbed (by simp) rfl (undisturbed_take hs).1) trivial
  | readTombstone =>
    exact iff_of_true (heeds_of_undisturbed (by simp) rfl (undisturbed_readTombstone s)) trivial
  | finalize =>
    exact iff_of_true (heeds_of_undisturbed (by simp) rfl (undisturbed_finalize hs).1) trivial
  | nativeSetTrapExit value =>
    exact iff_of_true
      (heeds_of_undisturbed (by simp) rfl (undisturbed_nativeSetTrapExit hs value).1) trivial
  | schedulerSetTrapExit value =>
    exact iff_of_true
      (heeds_of_undisturbed (by simp) rfl (undisturbed_schedulerSetTrapExit hs value).1) trivial
  | establishRemoteLink remote =>
    exact iff_of_true
      (heeds_of_undisturbed (by simp) rfl (undisturbed_establishRemoteLink hs remote).1) trivial
  | removeRemoteLink remote =>
    exact iff_of_true
      (heeds_of_undisturbed (by simp) rfl (undisturbed_removeRemoteLink hs remote).1) trivial
  | exitSignal caller reason room => exact heeds_receive_iff hs (by simp) rfl rfl
  | processExitSignal source reason room => exact heeds_receive_iff hs (by simp) rfl rfl
  | processRemoteExitSignal source reason kind room =>
    exact heeds_processRemoteExitSignal_iff hs source reason kind room
  | processFlag value =>
    rw [Settled]
    constructor
    · intro h
      by_contra hheld
      have hsome := Option.isSome_iff_ne_none.mpr hheld
      obtain ⟨result, hresult⟩ := h.sets value rfl hsome
      rw [setTrapExit_of_held hs.sound hsome] at hresult
      cases hresult
    · intro hheld
      have hstep : s.step (.processFlag value) = s := by
        rw [step, hheld]
        rfl
      refine ⟨fun _ _ h => ?_, fun _ _ h => (by cases h), fun _ _ halive => ?_, fun hdead => ?_⟩
      · rw [hheld] at h
        cases h
      · rw [hstep]
        exact ⟨halive, rfl⟩
      · rwa [hstep]
  | storeRunnable room =>
    rw [Settled]
    constructor
    · intro h halive
      exact (alive_of_store hs (h.keeps rfl (by simp) halive).1).2
    · intro hroom
      refine ⟨by simp, fun _ _ h => (by cases h), fun _ _ halive => ?_, fun hdead halive => ?_⟩
      · exact undisturbed_store hs halive (hroom halive)
      · exact hdead (alive_of_store hs halive).1
  | terminateProcess reason =>
    refine iff_of_true ⟨by simp, fun _ _ h => (by cases h), fun _ h => absurd rfl (h reason), ?_⟩
      trivial
    intro _ halive
    exact halive.2.2.elim fun _ hp => hp.2.1 rfl
  | evictTombstone =>
    rw [Settled]
    constructor
    · intro h htombstone hcondemned hlives
      exact h.final (fun halive => htombstone halive.1) ⟨rfl, hcondemned, hlives⟩
    · intro h
      refine ⟨by simp, fun _ _ h => (by cases h), fun _ _ halive => ?_, fun hdead halive => ?_⟩
      · exact ⟨⟨rfl, halive.2⟩, rfl⟩
      · by_cases htombstone : s.tombstone = none
        · exact hdead ⟨htombstone, halive.2⟩
        · exact h htombstone halive.2.1 halive.2.2

end TrapProcess

/-- Trap-exit is authoritative in a run exactly when every step of the run is settled. -/
theorem trap_exit_authoritative_iff (trapExit : Bool) (actions : List TrapAction) :
    Runs.Meets TrapProcess.step TrapProcess.Heeds (.spawn trapExit) actions ↔
      Runs.Meets TrapProcess.step TrapProcess.Settled (.spawn trapExit) actions :=
  Runs.meets_congr (I := TrapProcess.Regular) (fun _ a hs => hs.step a)
    (fun _ a hs => TrapProcess.heeds_iff hs a) (TrapProcess.regular_spawn trapExit) actions

/-- A process can not set the flag by `process_flag/2`. A native process that sets it is ended by
an exit signal in the same slice, and one that clears it survives one. -/
theorem not_trap_exit_authoritative :
    ¬ Runs.Meets TrapProcess.step TrapProcess.Heeds (.spawn false)
        [.takeRunnable, .processFlag true] ∧
    ¬ Runs.Meets TrapProcess.step TrapProcess.Heeds (.spawn false)
        [.takeRunnable, .nativeSetTrapExit true, .processExitSignal 1 .error true] ∧
    ¬ Runs.Meets TrapProcess.step TrapProcess.Heeds (.spawn true)
        [.takeRunnable, .nativeSetTrapExit false, .processExitSignal 1 .error true] := by
  refine ⟨fun h => ?_, fun h => ?_, fun h => ?_⟩
  · obtain ⟨result, hresult⟩ := h.2.1.sets true rfl rfl
    cases hresult
  · have hanswer := h.2.2.1.answers (.ofLocal 1) .error rfl
      ⟨rfl, rfl, (TrapProcess.lives_executing _ _ _).mpr rfl⟩
    cases (hanswer.traps rfl (by decide)).1.1
  · have hanswer := h.2.2.1.answers (.ofLocal 1) .error rfl
      ⟨rfl, rfl, (TrapProcess.lives_executing _ _ _).mpr rfl⟩
    exact hanswer.dies rfl (by decide) ⟨rfl, rfl, (TrapProcess.lives_executing _ _ _).mpr rfl⟩

end Beamr.Scheduler
