import Beamr.Scheduler.Tombstones

/-!
# Exit outcomes, events and watches

Any number of terminal callers, takers and watchers over one store, step by step. The writer
mutex makes the installation of an outcome one step; the publication of its event, the removal of
the watch entry and each send into a watch slot follow outside it. A watch first arms its slot and
then consults the durable record. The logs list what was published, taken, inserted and evicted.
What the subscriber's bounded queue makes of a published event is left out.
-/
namespace Beamr.Scheduler

/-- How far a terminal caller is. Only the caller that installed the outcome goes on after the
mutex is released, and it is done when no slot is left to send to. -/
inductive Stage
  | skipped
  | publish
  | fire
  | sending (watchIds : List ℕ)
  deriving DecidableEq

def Stage.done : Stage := .sending []

structure TerminalCall (R O : Type) where
  pid : ℕ
  reason : R
  outcome : O
  stage : Stage

/-- A watch is armed before its check; the check answers that the process has exited or hands out
the handle, which may be dropped. -/
inductive WatchPhase (R : Type)
  | armed
  | live
  | alreadyExited (reason : R)
  | dropped

/-- `inbox` is the slot's channel, which holds one notification; `received` is what the owner of
the handle took out of it. -/
structure ExitWatch (R : Type) where
  pid : ℕ
  phase : WatchPhase R
  inbox : Option (ℕ × R)
  received : List (ℕ × R)

structure ExitSystem (R O : Type) where
  store : BoundedTombstones R O
  /-- Ids of the armed slots of each pid. -/
  watches : ℕ → List ℕ
  /-- Every watch registered so far, by its id. -/
  handles : List (ExitWatch R)
  /-- Every terminal caller so far, in the order of their turns at the writer mutex. -/
  calls : List (TerminalCall R O)
  published : List (ℕ × R)
  taken : List (ℕ × R × O)
  inserted : List ℕ
  evicted : List ℕ

inductive ExitAction (R O : Type)
  | insertOutcome (pid : ℕ) (reason : R) (outcome : O)
  | publish (call : ℕ)
  | fire (call : ℕ)
  | send (call : ℕ)
  | takeOutcome (pid : ℕ)
  | register (pid : ℕ)
  | check (watchId : ℕ)
  | recv (watchId : ℕ)
  | drop (watchId : ℕ)

/-- `try_send` into the slot: a full slot and a dropped receiver absorb the notification. -/
def ExitWatch.trySend {R : Type} (w : ExitWatch R) (pid : ℕ) (reason : R) : ExitWatch R :=
  match w.phase, w.inbox with
  | .dropped, _ => w
  | _, some _ => w
  | _, none => { w with inbox := some (pid, reason) }

/-- The notifications that the owner of a watch has or can still receive. -/
def ExitWatch.notifications {R : Type} (w : ExitWatch R) : List (ℕ × R) :=
  match w.phase with
  | .armed => []
  | .live => w.received ++ w.inbox.toList
  | .alreadyExited reason => [(w.pid, reason)]
  | .dropped => w.received

namespace ExitSystem

variable {R O : Type}

def start (R O : Type) (capacity : ℕ) : ExitSystem R O where
  store := .withCapacity R O capacity
  watches _ := []
  handles := []
  calls := []
  published := []
  taken := []
  inserted := []
  evicted := []

variable (s : ExitSystem R O)

/-- The first terminal caller of a pid. -/
def first (pid : ℕ) : Option (TerminalCall R O) := s.calls.find? (·.pid == pid)

def setStage (call : ℕ) (c : TerminalCall R O) (stage : Stage) : ExitSystem R O :=
  { s with calls := s.calls.set call { c with stage } }

def deregister (pid watchId : ℕ) : ExitSystem R O :=
  { s with watches := Function.update s.watches pid ((s.watches pid).filter (· != watchId)) }

def setHandle (watchId : ℕ) (w : ExitWatch R) : ExitSystem R O :=
  { s with handles := s.handles.set watchId w }

def insertOutcome (pid : ℕ) (reason : R) (outcome : O) : ExitSystem R O :=
  let insertion := s.store.insertOutcome pid reason outcome
  { s with
    store := insertion.store
    calls := s.calls ++ [⟨pid, reason, outcome,
      if insertion.publishEvent then .publish else .skipped⟩]
    inserted := if pid ∈ s.store.order then s.inserted else s.inserted ++ [pid]
    evicted := s.evicted ++ insertion.evicted.toList }

def publish (call : ℕ) (c : TerminalCall R O) : ExitSystem R O :=
  { s.setStage call c .fire with published := s.published ++ [(c.pid, c.reason)] }

def fire (call : ℕ) (c : TerminalCall R O) : ExitSystem R O :=
  { s.setStage call c (.sending (s.watches c.pid)) with
    watches := Function.update s.watches c.pid [] }

def send (call : ℕ) (c : TerminalCall R O) (watchId : ℕ) (rest : List ℕ) : ExitSystem R O :=
  match s.handles[watchId]? with
  | none => s.setStage call c (.sending rest)
  | some w => (s.setHandle watchId (w.trySend c.pid c.reason)).setStage call c (.sending rest)

def takeOutcome (pid : ℕ) : ExitSystem R O :=
  { s with
    store := (s.store.takeOutcome pid).2
    taken := s.taken ++ (s.store.takeOutcome pid).1.toList.map fun o => (pid, o.1, o.2) }

def register (pid : ℕ) : ExitSystem R O :=
  { s with
    handles := s.handles ++ [⟨pid, .armed, none, []⟩]
    watches := Function.update s.watches pid (s.watches pid ++ [s.handles.length]) }

def check (watchId : ℕ) (w : ExitWatch R) : ExitSystem R O :=
  match w.phase with
  | .armed =>
    match s.store.finalizedReason w.pid with
    | some reason => s.setHandle watchId { w with phase := .alreadyExited reason }
    | none => s.setHandle watchId { w with phase := .live }
  | _ => s

def recv (watchId : ℕ) (w : ExitWatch R) : ExitSystem R O :=
  match w.phase, w.inbox with
  | .live, some notification =>
    s.setHandle watchId { w with inbox := none, received := w.received ++ [notification] }
  | _, _ => s

/-- The handle of an already exited process is dropped by the registration itself. -/
def drop (watchId : ℕ) (w : ExitWatch R) : ExitSystem R O :=
  match w.phase with
  | .armed => s
  | .live => (s.setHandle watchId { w with phase := .dropped }).deregister w.pid watchId
  | .alreadyExited _ => s.deregister w.pid watchId
  | .dropped => s

/-- One step of any thread; a step that is not due changes nothing. -/
def step : ExitAction R O → ExitSystem R O
  | .insertOutcome pid reason outcome => s.insertOutcome pid reason outcome
  | .publish call =>
    match s.calls[call]? with
    | some c => if c.stage = .publish then s.publish call c else s
    | none => s
  | .fire call =>
    match s.calls[call]? with
    | some c => if c.stage = .fire then s.fire call c else s
    | none => s
  | .send call =>
    match s.calls[call]? with
    | some c =>
      match c.stage with
      | .sending (watchId :: rest) => s.send call c watchId rest
      | _ => s
    | none => s
  | .takeOutcome pid => s.takeOutcome pid
  | .register pid => s.register pid
  | .check watchId =>
    match s.handles[watchId]? with
    | some w => s.check watchId w
    | none => s
  | .recv watchId =>
    match s.handles[watchId]? with
    | some w => s.recv watchId w
    | none => s
  | .drop watchId =>
    match s.handles[watchId]? with
    | some w => s.drop watchId w
    | none => s

end ExitSystem

end Beamr.Scheduler
