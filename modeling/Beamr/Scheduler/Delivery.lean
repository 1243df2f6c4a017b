import Beamr.Lib.Runs
import Beamr.Messaging.Mailbox

/-!
# Delivery of signals

How signals reach the mailbox of a process. The body of a process that runs is checked out of
its slot, and what arrives meanwhile waits in lists of the slot, one for each kind of signal,
until the body is stored back. A message to a stored process goes through the arrival queue,
while exit and DOWN messages go straight to the scan list.
-/
namespace Beamr.Scheduler

open Messaging (Mailbox)

inductive ExitReason
  | normal
  | kill
  | killed
  | error
  | noConnection
  | noProc
  | workerCrashed
  deriving DecidableEq, Repr

/-- The reason that others see. -/
def terminalReason : ExitReason → ExitReason
  | .kill => .killed
  | reason => reason

/-- Whether an exit signal ends its target. -/
def shouldDie (reason : ExitReason) (trapExit : Bool) : Bool :=
  reason = .kill || (reason ≠ .normal && !trapExit)

/-- Something delivered to a mailbox. -/
inductive Signal (M : Type)
  | message (sender : ℕ) (content : M)
  | exit (source : ℕ) (reason : ExitReason)
  | down (reference target : ℕ) (reason : ExitReason)
  /-- From no process of this node: input and output, sockets, other nodes, tables. -/
  | other (content : M)

/-- The process of this node that a signal comes from. -/
def Signal.source? {M : Type} : Signal M → Option ℕ
  | .message sender _ => some sender
  | .exit source _ => some source
  | .down _ target _ => some target
  | .other _ => none

/-! ## The receiver -/

/-- The part of a process that delivery uses. The history lists what was ever put on the scan
list, in order. -/
structure Body (M : Type) where
  mailbox : Mailbox Unit (Signal M)
  trapExit : Bool
  exited : Bool
  history : List (Signal M)

/-- What a slot keeps while its body is checked out. -/
structure Metadata (M : Type) where
  trapExit : Bool
  pendingExit : List (Signal M)
  pendingDown : List (Signal M)
  pendingIo : List (Signal M)
  pendingDistribution : List (Signal M)
  pendingLocal : List (Signal M)
  pendingEtsTransfer : List (Signal M)
  pendingUdp : List (Signal M)
  pendingTcp : List (Signal M)

inductive Slot (M : Type)
  | present
  | executing (metadata : Metadata M)
  | absent

/-- A process as a receiver. The body is in the slot when the slot is present, and with the
worker otherwise; `produced` lists the signals of other processes in the order in which they
were sent to it. -/
structure Receiver (M : Type) where
  pid : ℕ
  slot : Slot M
  body : Body M
  produced : List (Signal M)

/-- How the room for a message is found: at once, after a collection (which drains the arrival
queue first), or not at all. -/
inductive Allocation
  | plain
  | collected
  | failed
  deriving DecidableEq

namespace Body

variable {M : Type}

/-- Queued signals in the order in which the owner comes to see them, with those it has taken
out again. -/
def seen (b : Body M) : List (Signal M) := b.history ++ b.mailbox.arrival

def drain (b : Body M) : Body M :=
  { b with mailbox := b.mailbox.drainArrival, history := b.history ++ b.mailbox.arrival }

def push (b : Body M) (signal : Signal M) : Body M :=
  { b with mailbox := b.mailbox.pushOwned signal, history := b.history ++ [signal] }

def terminate (b : Body M) : Body M :=
  { b with mailbox := .new, exited := true, history := [] }

/-- An exit or DOWN message; without room the process is terminated. -/
def enqueue (b : Body M) (signal : Signal M) : Allocation → Body M
  | .plain => b.push signal
  | .collected => b.drain.push signal
  | .failed => b.terminate

/-- Any other message that waited in the slot; without room it is dropped. -/
def deliver (b : Body M) (signal : Signal M) : Allocation → Body M
  | .plain => b.push signal
  | .collected => b.drain.push signal
  | .failed => b

/-- The pending lists in the order in which they are merged at store-back. -/
def merge (b : Body M) (m : Metadata M) (outcome : Signal M → Allocation) : Body M :=
  let exits := m.pendingExit.foldl (fun b s => b.enqueue s (outcome s)) b
  let downs := m.pendingDown.foldl (fun b s => b.enqueue s (outcome s)) exits
  (m.pendingIo ++ m.pendingDistribution ++ m.pendingLocal ++ m.pendingEtsTransfer ++
    m.pendingUdp ++ m.pendingTcp).foldl (fun b s => b.deliver s (outcome s)) downs

end Body

/-! ## Steps -/

/-- Lists of the slot for signals from no process of this node. -/
inductive OutsideQueue
  | io
  | distribution
  | etsTransfer
  | udp
  | tcp

def Metadata.pushOutside {M : Type} (m : Metadata M) (signal : Signal M) :
    OutsideQueue → Metadata M
  | .io => { m with pendingIo := m.pendingIo ++ [signal] }
  | .distribution => { m with pendingDistribution := m.pendingDistribution ++ [signal] }
  | .etsTransfer => { m with pendingEtsTransfer := m.pendingEtsTransfer ++ [signal] }
  | .udp => { m with pendingUdp := m.pendingUdp ++ [signal] }
  | .tcp => { m with pendingTcp := m.pendingTcp ++ [signal] }

inductive Action (M : Type)
  /-- A send by another process; `accepted` says whether the message could be copied into the
  heap of a stored receiver, or encoded for a running one. -/
  | sendLocal (sender : ℕ) (content : M) (accepted : Bool)
  /-- A send of the receiver to itself, in the hand of the worker. -/
  | sendToSelf (content : M)
  /-- An exit signal, through a link or by a call. -/
  | exitSignal (source : ℕ) (reason : ExitReason) (allocation : Allocation)
  | down (reference target : ℕ) (reason : ExitReason) (allocation : Allocation)
  | outside (content : M) (queue : OutsideQueue) (allocation : Allocation)
  | takeRunnable
  /-- The owner peeks, or a collection runs. -/
  | drainArrival
  | advanceSavePointer
  | removeCurrentMessage
  | setTrapExit (value : Bool)
  | storeRunnable (outcome : Signal M → Allocation)
  | finalize

namespace Receiver

variable {M : Type}

def sendLocal (r : Receiver M) (sender : ℕ) (content : M) (accepted : Bool) : Receiver M :=
  let signal := Signal.message sender content
  let r := { r with produced := r.produced ++ [signal] }
  match r.slot with
  | .present =>
    if accepted then
      { r with body.mailbox := r.body.mailbox.enqueueCopied signal }
    else r
  | .executing m =>
    if accepted then
      { r with slot := .executing { m with pendingLocal := m.pendingLocal ++ [signal] } }
    else r
  | .absent => r

/-- An exit signal: it ends the process, becomes a message, or is ignored. A running process
that is to end is only marked, which its worker looks at after the slice. -/
def exitSignal (r : Receiver M) (source : ℕ) (reason : ExitReason) (allocation : Allocation) :
    Receiver M :=
  let signal := Signal.exit source reason
  let r := { r with produced := r.produced ++ [signal] }
  match r.slot with
  | .present =>
    if r.body.exited then r
    else if shouldDie reason r.body.trapExit then
      { r with body := r.body.terminate, slot := .absent }
    else if r.body.trapExit then
      { r with body := r.body.enqueue signal allocation }
    else r
  | .executing m =>
    if shouldDie reason m.trapExit then r
    else if m.trapExit then
      { r with slot := .executing { m with pendingExit := m.pendingExit ++ [signal] } }
    else r
  | .absent => r

def down (r : Receiver M) (reference target : ℕ) (reason : ExitReason)
    (allocation : Allocation) : Receiver M :=
  let signal := Signal.down reference target reason
  let r := { r with produced := r.produced ++ [signal] }
  match r.slot with
  | .present =>
    if r.body.exited then r
    else { r with body := r.body.enqueue signal allocation }
  | .executing m =>
    { r with slot := .executing { m with pendingDown := m.pendingDown ++ [signal] } }
  | .absent => r

def outside (r : Receiver M) (content : M) (queue : OutsideQueue) (allocation : Allocation) :
    Receiver M :=
  match r.slot with
  | .present => { r with body := r.body.deliver (.other content) allocation }
  | .executing m => { r with slot := .executing (m.pushOutside (.other content) queue) }
  | .absent => r

/-- The worker checks the body out; the slot keeps empty lists. -/
def takeRunnable (r : Receiver M) : Receiver M :=
  match r.slot with
  | .present =>
    { r with slot := .executing ⟨r.body.trapExit, [], [], [], [], [], [], [], []⟩ }
  | _ => r

def storeRunnable (r : Receiver M) (outcome : Signal M → Allocation) : Receiver M :=
  match r.slot with
  | .executing m => { r with body := r.body.merge m outcome, slot := .present }
  | _ => r

def step (r : Receiver M) : Action M → Receiver M
  | .sendLocal sender content accepted => r.sendLocal sender content accepted
  | .sendToSelf content =>
    { r with body.mailbox := r.body.mailbox.enqueueCopied (.message r.pid content) }
  | .exitSignal source reason allocation => r.exitSignal source reason allocation
  | .down reference target reason allocation => r.down reference target reason allocation
  | .outside content queue allocation => r.outside content queue allocation
  | .takeRunnable => r.takeRunnable
  | .drainArrival => { r with body := r.body.drain }
  | .advanceSavePointer => { r with body.mailbox := r.body.mailbox.advanceSavePointer }
  | .removeCurrentMessage =>
    { r with
      body.mailbox := r.body.drain.mailbox.removeCurrentMessage.2
      body.history := r.body.drain.history }
  | .setTrapExit value => { r with body.trapExit := value }
  | .storeRunnable outcome => r.storeRunnable outcome
  | .finalize => { r with slot := .absent }

end Receiver

/-! ## Order of the signals of one process -/

section

variable {M : Type}

/-- The signals of one process. -/
def fromProcess (p : ℕ) (signals : List (Signal M)) : List (Signal M) :=
  signals.filter fun s => s.source? = some p

@[simp] theorem fromProcess_nil (p : ℕ) : fromProcess p ([] : List (Signal M)) = [] := rfl

@[simp] theorem fromProcess_append (p : ℕ) (a b : List (Signal M)) :
    fromProcess p (a ++ b) = fromProcess p a ++ fromProcess p b := List.filter_append ..

@[simp] theorem fromProcess_other (p : ℕ) (content : M) (rest : List (Signal M)) :
    fromProcess p (.other content :: rest) = fromProcess p rest := rfl

theorem fromProcess_singleton_of_ne {p : ℕ} {s : Signal M} (h : s.source? ≠ some p) :
    fromProcess p [s] = [] := by
  simp [fromProcess, h]

/-- The owner sees the signals of a process in the order in which they were sent. -/
def InOrder (r : Receiver M) (p : ℕ) : Prop :=
  (fromProcess p r.body.seen).Sublist (fromProcess p r.produced)

/-- The lists of the slot that signals of processes wait in; a slot with its body has none. -/
def Slot.queues : Slot M → List (List (Signal M))
  | .executing m => [m.pendingExit, m.pendingDown, m.pendingLocal]
  | _ => [[]]

/-- The lists of the slot that no signal of a process waits in. -/
def Slot.outsideQueue : Slot M → List (Signal M)
  | .executing m =>
    m.pendingIo ++ m.pendingDistribution ++ m.pendingEtsTransfer ++ m.pendingUdp ++ m.pendingTcp
  | _ => []

/-- Each list of the slot alone continues what the owner sees, and the other lists are from
outside. -/
structure Ordered (p : ℕ) (r : Receiver M) : Prop where
  queues : ∀ q ∈ r.slot.queues,
    (fromProcess p r.body.seen ++ fromProcess p q).Sublist (fromProcess p r.produced)
  outside : fromProcess p r.slot.outsideQueue = []

theorem Ordered.inOrder {p : ℕ} {r : Receiver M} (h : Ordered p r) : InOrder r p := by
  have hsome : ∃ q, q ∈ r.slot.queues := by
    cases r.slot with
    | executing m => exact ⟨m.pendingExit, List.mem_cons_self⟩
    | _ => exact ⟨[], List.mem_cons_self⟩
  obtain ⟨q, hq⟩ := hsome
  exact (List.sublist_append_left _ _).trans (h.queues q hq)

/-! ### The body -/

namespace Body

variable (p : ℕ) (b : Body M) (s : Signal M)

@[simp] theorem seen_drain : b.drain.seen = b.seen := by
  simp [seen, drain, Mailbox.drainArrival]

@[simp] theorem seen_terminate : b.terminate.seen = [] := rfl

theorem seen_push : (b.push s).seen = b.history ++ [s] ++ b.mailbox.arrival := rfl

variable {p b s}

theorem arrival_enqueue (h : fromProcess p b.mailbox.arrival = []) (allocation : Allocation) :
    fromProcess p (b.enqueue s allocation).mailbox.arrival = [] := by
  cases allocation with
  | plain => exact h
  | collected => rfl
  | failed => rfl

theorem arrival_deliver (h : fromProcess p b.mailbox.arrival = []) (allocation : Allocation) :
    fromProcess p (b.deliver s allocation).mailbox.arrival = [] := by
  cases allocation with
  | plain => exact h
  | collected => rfl
  | failed => exact h

/-- A push behind an empty arrival queue appends to what the owner sees. -/
theorem seen_push_sublist (h : fromProcess p b.mailbox.arrival = [] ∨ s.source? ≠ some p) :
    (fromProcess p (b.push s).seen).Sublist (fromProcess p b.seen ++ fromProcess p [s]) := by
  rw [seen_push, seen, fromProcess_append, fromProcess_append, fromProcess_append]
  rcases h with h | h
  · rw [h]
    simp
  · rw [fromProcess_singleton_of_ne h]
    simp

theorem seen_drain_push : (b.drain.push s).seen = b.seen ++ [s] := by
  simp [seen, push, drain, Mailbox.drainArrival, Mailbox.pushOwned]

theorem seen_enqueue_sublist (allocation : Allocation)
    (h : fromProcess p b.mailbox.arrival = [] ∨ s.source? ≠ some p ∨ allocation ≠ .plain) :
    (fromProcess p (b.enqueue s allocation).seen).Sublist
      (fromProcess p b.seen ++ fromProcess p [s]) := by
  cases allocation with
  | plain =>
    apply seen_push_sublist
    rcases h with h | h | h
    · exact .inl h
    · exact .inr h
    · exact absurd rfl h
  | collected =>
    rw [enqueue, seen_drain_push, fromProcess_append]
  | failed => exact List.nil_sublist _

theorem seen_deliver_sublist (allocation : Allocation)
    (h : fromProcess p b.mailbox.arrival = [] ∨ s.source? ≠ some p) :
    (fromProcess p (b.deliver s allocation).seen).Sublist
      (fromProcess p b.seen ++ fromProcess p [s]) := by
  cases allocation with
  | plain => exact seen_push_sublist h
  | collected =>
    rw [deliver, seen_drain_push, fromProcess_append]
  | failed => exact List.sublist_append_left _ _

/-- A list of signals merged one by one, when the process has nothing in the arrival queue or
nothing in the list. -/
theorem seen_foldl_sublist {f : Body M → Signal M → Body M}
    (harrival : ∀ b s, fromProcess p b.mailbox.arrival = [] →
      fromProcess p (f b s).mailbox.arrival = [])
    (hseen : ∀ b s, (fromProcess p b.mailbox.arrival = [] ∨ s.source? ≠ some p) →
      (fromProcess p (f b s).seen).Sublist (fromProcess p b.seen ++ fromProcess p [s]))
    {signals : List (Signal M)}
    (h : fromProcess p b.mailbox.arrival = [] ∨ fromProcess p signals = []) :
    (fromProcess p (signals.foldl f b).seen).Sublist
      (fromProcess p b.seen ++ fromProcess p signals) := by
  induction signals generalizing b with
  | nil => simp
  | cons s rest ih =>
    have hsplit : fromProcess p (s :: rest) = fromProcess p [s] ++ fromProcess p rest :=
      fromProcess_append p [s] rest
    have hfirst : fromProcess p b.mailbox.arrival = [] ∨ s.source? ≠ some p := by
      rcases h with h | h
      · exact .inl h
      · right
        intro hs
        rw [hsplit] at h
        simp [fromProcess, hs] at h
    have hrest : fromProcess p (f b s).mailbox.arrival = [] ∨ fromProcess p rest = [] := by
      rcases h with h | h
      · exact .inl (harrival b s h)
      · rw [hsplit] at h
        exact .inr (List.append_eq_nil_iff.mp h).2
    have hlater := ih hrest
    have hnow := (hseen b s hfirst).append_right (fromProcess p rest)
    rw [hsplit, ← List.append_assoc]
    exact hlater.trans hnow

theorem arrival_foldl {f : Body M → Signal M → Body M}
    (harrival : ∀ b s, fromProcess p b.mailbox.arrival = [] →
      fromProcess p (f b s).mailbox.arrival = [])
    (signals : List (Signal M)) (h : fromProcess p b.mailbox.arrival = []) :
    fromProcess p (signals.foldl f b).mailbox.arrival = [] := by
  induction signals generalizing b with
  | nil => exact h
  | cons s rest ih => exact ih (harrival b s h)

/-- The merge when the process has signals in at most one of the arrival queue and the lists of
exits, DOWNs and messages. -/
theorem seen_merge_sublist {m : Metadata M} (outcome : Signal M → Allocation)
    (hunmixed : [b.mailbox.arrival, m.pendingExit, m.pendingDown, m.pendingLocal].Pairwise
      fun x y => fromProcess p x = [] ∨ fromProcess p y = [])
    (houtside : fromProcess p (Slot.executing m).outsideQueue = []) :
    ∃ q ∈ (Slot.executing m).queues,
      (fromProcess p (b.merge m outcome).seen).Sublist
        (fromProcess p b.seen ++ fromProcess p q) := by
  simp only [List.pairwise_cons, List.mem_cons, List.not_mem_nil, or_false, forall_eq_or_imp,
    forall_eq] at hunmixed
  obtain ⟨⟨hexit, hdown, hlocal⟩, ⟨hexitDown, hexitLocal⟩, hdownLocal, -⟩ := hunmixed
  have hothers : fromProcess p (m.pendingIo ++ m.pendingDistribution ++ m.pendingLocal ++
      m.pendingEtsTransfer ++ m.pendingUdp ++ m.pendingTcp) = fromProcess p m.pendingLocal := by
    simp only [Slot.outsideQueue, fromProcess_append, List.append_eq_nil_iff] at houtside
    obtain ⟨⟨⟨⟨hio, hdistribution⟩, hets⟩, hudp⟩, htcp⟩ := houtside
    simp [hio, hdistribution, hets, hudp, htcp]
  let exits := m.pendingExit.foldl (fun b s => b.enqueue s (outcome s)) b
  let downs := m.pendingDown.foldl (fun b s => b.enqueue s (outcome s)) exits
  have harrival : ∀ (b : Body M) (s : Signal M), fromProcess p b.mailbox.arrival = [] →
      fromProcess p (b.enqueue s (outcome s)).mailbox.arrival = [] :=
    fun b s h => arrival_enqueue h (outcome s)
  have henqueue : ∀ (b : Body M) (s : Signal M),
      (fromProcess p b.mailbox.arrival = [] ∨ s.source? ≠ some p) →
      (fromProcess p (b.enqueue s (outcome s)).seen).Sublist
        (fromProcess p b.seen ++ fromProcess p [s]) :=
    fun b s h => seen_enqueue_sublist (outcome s) (h.imp id .inl)
  have hexits : (fromProcess p exits.seen).Sublist
      (fromProcess p b.seen ++ fromProcess p m.pendingExit) :=
    seen_foldl_sublist harrival henqueue hexit
  have hdowns : (fromProcess p downs.seen).Sublist
      (fromProcess p exits.seen ++ fromProcess p m.pendingDown) :=
    seen_foldl_sublist harrival henqueue (hdown.imp (arrival_foldl harrival _) id)
  have hrest : (fromProcess p (b.merge m outcome).seen).Sublist
      (fromProcess p downs.seen ++ fromProcess p m.pendingLocal) := by
    rw [← hothers]
    apply seen_foldl_sublist (fun b s h => arrival_deliver h (outcome s))
      (fun b s h => seen_deliver_sublist (outcome s) h)
    rw [hothers]
    exact hlocal.imp (fun h => arrival_foldl harrival _ (arrival_foldl harrival _ h)) id
  have htotal : (fromProcess p (b.merge m outcome).seen).Sublist
      (fromProcess p b.seen ++ fromProcess p m.pendingExit ++ fromProcess p m.pendingDown ++
        fromProcess p m.pendingLocal) :=
    hrest.trans ((hdowns.trans (hexits.append_right _)).append_right _)
  by_cases hx : fromProcess p m.pendingExit = []
  · by_cases hd : fromProcess p m.pendingDown = []
    · refine ⟨m.pendingLocal, by simp [Slot.queues], ?_⟩
      simpa [hx, hd] using htotal
    · refine ⟨m.pendingDown, by simp [Slot.queues], ?_⟩
      simpa [hx, hdownLocal.resolve_left hd] using htotal
  · refine ⟨m.pendingExit, by simp [Slot.queues], ?_⟩
    simpa [hexitDown.resolve_left hx, hexitLocal.resolve_left hx] using htotal

end Body

/-! ### Steps and runs -/

/-- An exit or DOWN message that is put on the scan list at once finds no signal of its sender
in the arrival queue, and a body is stored back only when no process has signals in two of the
arrival queue and the lists of exits, DOWNs and messages. -/
def Unmixed (r : Receiver M) : Action M → Prop
  | .exitSignal source reason .plain =>
    (match r.slot with
      | .present => !r.body.exited && r.body.trapExit && !shouldDie reason r.body.trapExit
      | _ => false) →
      fromProcess source r.body.mailbox.arrival = []
  | .down _ target _ .plain =>
    (match r.slot with
      | .present => !r.body.exited
      | _ => false) →
      fromProcess target r.body.mailbox.arrival = []
  | .storeRunnable _ =>
    match r.slot with
    | .executing m =>
      ∀ p ≠ r.pid, [r.body.mailbox.arrival, m.pendingExit, m.pendingDown, m.pendingLocal].Pairwise
        fun x y => fromProcess p x = [] ∨ fromProcess p y = []
    | _ => True
  | _ => True

/-- What the owner sees with a list of the slot grows at the end only, by signals that were
produced meanwhile. -/
theorem Ordered.extend {p : ℕ} {r r' : Receiver M} (h : Ordered p r)
    (hqueues : ∀ q' ∈ r'.slot.queues, ∃ q ∈ r.slot.queues, ∃ new,
      (fromProcess p r'.body.seen ++ fromProcess p q').Sublist
        (fromProcess p r.body.seen ++ fromProcess p q ++ new) ∧
      (fromProcess p r.produced ++ new).Sublist (fromProcess p r'.produced))
    (houtside : fromProcess p r'.slot.outsideQueue = []) : Ordered p r' := by
  refine ⟨?_, houtside⟩
  intro q' hq'
  obtain ⟨q, hq, new, hview, hproduced⟩ := hqueues q' hq'
  exact hview.trans (((h.queues q hq).append_right new).trans hproduced)

section

variable {p pid : ℕ} {slot : Slot M} {body : Body M} {produced : List (Signal M)}
  {m : Metadata M}

/-- A signal that only the record of produced signals shows. -/
theorem Ordered.produce (h : Ordered p ⟨pid, slot, body, produced⟩) (s : Signal M) :
    Ordered p ⟨pid, slot, body, produced ++ [s]⟩ := by
  refine h.extend ?_ h.outside
  intro q hq
  exact ⟨q, hq, [], by simp, by simp⟩

/-- A change of the body of a stored process that appends at most the new signal. -/
theorem Ordered.present (h : Ordered p ⟨pid, .present, body, produced⟩) (s : Signal M)
    {b : Body M}
    (hb : (fromProcess p b.seen).Sublist (fromProcess p body.seen ++ fromProcess p [s])) :
    Ordered p ⟨pid, .present, b, produced ++ [s]⟩ := by
  refine h.extend ?_ h.outside
  intro q' hq'
  have hnil : q' = [] := List.mem_singleton.mp hq'
  subst hnil
  refine ⟨[], List.mem_singleton.mpr rfl, fromProcess p [s], ?_, by simp⟩
  simpa using hb

/-- A signal that joins one list of a running process. -/
theorem Ordered.executing {m' : Metadata M}
    (h : Ordered p ⟨pid, .executing m, body, produced⟩) (s : Signal M)
    (hqueues : ∀ q' ∈ (Slot.executing m').queues, q' ∈ (Slot.executing m).queues ∨
      ∃ q ∈ (Slot.executing m).queues, q' = q ++ [s])
    (houtside : (Slot.executing m').outsideQueue = (Slot.executing m).outsideQueue) :
    Ordered p ⟨pid, .executing m', body, produced ++ [s]⟩ := by
  refine h.extend ?_ (houtside ▸ h.outside)
  intro q' hq'
  rcases hqueues q' hq' with hq | ⟨q, hq, rfl⟩
  · exact ⟨q', hq, [], by simp, by simp⟩
  · exact ⟨q, hq, fromProcess p [s], by simp, by simp⟩

/-- The slot is taken away, with a body that shows no more than before. -/
theorem Ordered.absent (h : Ordered p ⟨pid, slot, body, produced⟩) {b : Body M}
    (hb : (fromProcess p b.seen).Sublist (fromProcess p body.seen)) :
    Ordered p ⟨pid, .absent, b, produced⟩ := by
  refine ⟨?_, rfl⟩
  intro q hq
  have hnil : q = [] := List.mem_singleton.mp hq
  subst hnil
  simpa using hb.trans h.inOrder

theorem Ordered.sendLocal {r : Receiver M} (h : Ordered p r) (sender : ℕ) (content : M)
    (accepted : Bool) : Ordered p (r.sendLocal sender content accepted) := by
  obtain ⟨pid, slot, body, produced⟩ := r
  cases slot with
  | present =>
    cases accepted with
    | true =>
      apply h.present
      simp [Body.seen, Mailbox.enqueueCopied]
    | false => exact h.produce _
  | executing m =>
    cases accepted with
    | true =>
      apply h.executing
      · simp [Slot.queues]
      · rfl
    | false => exact h.produce _
  | absent => exact h.produce _

theorem Ordered.exitSignal {r : Receiver M} (h : Ordered p r) (source : ℕ)
    (reason : ExitReason) (allocation : Allocation)
    (hunmixed : Unmixed r (.exitSignal source reason allocation)) :
    Ordered p (r.exitSignal source reason allocation) := by
  obtain ⟨pid, slot, body, produced⟩ := r
  cases slot with
  | present =>
    unfold Receiver.exitSignal
    dsimp only
    split
    next => exact h.produce _
    next hlive =>
      split
      next => exact (h.produce _).absent (List.nil_sublist _)
      next hspared =>
        split
        next htrap =>
          apply h.present
          apply Body.seen_enqueue_sublist
          cases allocation with
          | plain =>
            by_cases hp : source = p
            · subst hp
              left
              apply hunmixed
              rw [htrap] at hspared
              simp [hlive, hspared, htrap]
            · right
              left
              simpa [Signal.source?] using hp
          | collected => exact .inr (.inr nofun)
          | failed => exact .inr (.inr nofun)
        next => exact h.produce _
  | executing m =>
    unfold Receiver.exitSignal
    dsimp only
    split
    next => exact h.produce _
    next =>
      split
      next =>
        apply h.executing
        · simp [Slot.queues]
        · rfl
      next => exact h.produce _
  | absent => exact h.produce _

theorem Ordered.down {r : Receiver M} (h : Ordered p r) (reference target : ℕ)
    (reason : ExitReason) (allocation : Allocation)
    (hunmixed : Unmixed r (.down reference target reason allocation)) :
    Ordered p (r.down reference target reason allocation) := by
  obtain ⟨pid, slot, body, produced⟩ := r
  cases slot with
  | present =>
    unfold Receiver.down
    dsimp only
    split
    next => exact h.produce _
    next hlive =>
      apply h.present
      apply Body.seen_enqueue_sublist
      cases allocation with
      | plain =>
        by_cases hp : target = p
        · subst hp
          left
          apply hunmixed
          simp [hlive]
        · right
          left
          simpa [Signal.source?] using hp
      | collected => exact .inr (.inr nofun)
      | failed => exact .inr (.inr nofun)
  | executing m =>
    apply h.executing
    · simp [Slot.queues]
    · rfl
  | absent => exact h.produce _

/-- A body that shows the same signals of the process. -/
theorem Ordered.sameSeen (h : Ordered p ⟨pid, slot, body, produced⟩) {b : Body M}
    (hb : (fromProcess p b.seen).Sublist (fromProcess p body.seen)) :
    Ordered p ⟨pid, slot, b, produced⟩ := by
  refine h.extend ?_ h.outside
  intro q hq
  refine ⟨q, hq, [], ?_, by simp⟩
  rw [List.append_nil]
  exact hb.append_right _

theorem Ordered.outsideSignal {r : Receiver M} (h : Ordered p r) (content : M)
    (queue : OutsideQueue) (allocation : Allocation) :
    Ordered p (r.outside content queue allocation) := by
  obtain ⟨pid, slot, body, produced⟩ := r
  cases slot with
  | present =>
    apply h.sameSeen
    have hseen := Body.seen_deliver_sublist allocation (b := body) (p := p)
      (s := Signal.other content) (.inr nofun)
    simpa using hseen
  | executing m =>
    have hold := h.outside
    simp only [Slot.outsideQueue, fromProcess_append, List.append_eq_nil_iff] at hold
    obtain ⟨⟨⟨⟨hio, hdistribution⟩, hets⟩, hudp⟩, htcp⟩ := hold
    refine ⟨?_, ?_⟩
    · cases queue <;> exact h.queues
    · cases queue <;>
        simp [Receiver.outside, Metadata.pushOutside, Slot.outsideQueue, hio, hdistribution, hets,
          hudp, htcp]
  | absent => exact h

theorem Ordered.takeRunnable {r : Receiver M} (h : Ordered p r) : Ordered p r.takeRunnable := by
  obtain ⟨pid, slot, body, produced⟩ := r
  cases slot with
  | present =>
    refine h.extend ?_ rfl
    intro q' hq'
    have hnil : q' = [] := by simpa [Slot.queues, Receiver.takeRunnable] using hq'
    subst hnil
    exact ⟨[], List.mem_singleton.mpr rfl, [], by simp [Receiver.takeRunnable],
      by simp [Receiver.takeRunnable]⟩
  | executing m => exact h
  | absent => exact h

theorem Ordered.storeRunnable {r : Receiver M} (h : Ordered p r) (hp : p ≠ r.pid)
    (outcome : Signal M → Allocation) (hunmixed : Unmixed r (.storeRunnable outcome)) :
    Ordered p (r.storeRunnable outcome) := by
  obtain ⟨pid, slot, body, produced⟩ := r
  cases slot with
  | executing m =>
    obtain ⟨q, hq, hseen⟩ := Body.seen_merge_sublist outcome (hunmixed p hp) h.outside
    refine h.extend ?_ rfl
    intro q' hq'
    have hnil : q' = [] := List.mem_singleton.mp hq'
    subst hnil
    refine ⟨q, hq, [], ?_, by simp [Receiver.storeRunnable]⟩
    simpa [Receiver.storeRunnable] using hseen
  | present => exact h
  | absent => exact h

theorem Ordered.step {r : Receiver M} (h : Ordered p r) (hp : p ≠ r.pid) (a : Action M)
    (hunmixed : Unmixed r a) : Ordered p (r.step a) := by
  cases a with
  | sendLocal sender content accepted => exact h.sendLocal sender content accepted
  | sendToSelf content =>
    apply h.sameSeen
    have hother : (Signal.message r.pid content).source? ≠ some p := by
      simpa [Signal.source?] using hp.symm
    have hnone := fromProcess_singleton_of_ne hother
    simp [Body.seen, Mailbox.enqueueCopied, hnone]
  | exitSignal source reason allocation => exact h.exitSignal source reason allocation hunmixed
  | down reference target reason allocation =>
    exact h.down reference target reason allocation hunmixed
  | outside content queue allocation => exact h.outsideSignal content queue allocation
  | takeRunnable => exact h.takeRunnable
  | drainArrival =>
    apply h.sameSeen
    rw [Body.seen_drain]
  | advanceSavePointer => exact h.sameSeen (List.Sublist.refl _)
  | removeCurrentMessage =>
    apply h.sameSeen
    simp [Body.seen, Body.drain]
  | setTrapExit value => exact h.sameSeen (List.Sublist.refl _)
  | storeRunnable outcome => exact h.storeRunnable hp outcome hunmixed
  | finalize => exact h.absent (List.Sublist.refl _)

end

theorem Receiver.step_pid (r : Receiver M) (a : Action M) : (r.step a).pid = r.pid := by
  cases a with
  | sendLocal sender content accepted =>
    simp only [Receiver.step, Receiver.sendLocal]
    split <;> (try split) <;> rfl
  | exitSignal source reason allocation =>
    simp only [Receiver.step, Receiver.exitSignal]
    split <;> (try split) <;> (try split) <;> (try split) <;> rfl
  | down reference target reason allocation =>
    simp only [Receiver.step, Receiver.down]
    split <;> (try split) <;> rfl
  | outside content queue allocation =>
    simp only [Receiver.step, Receiver.outside]
    split <;> rfl
  | takeRunnable =>
    simp only [Receiver.step, Receiver.takeRunnable]
    split <;> rfl
  | storeRunnable outcome =>
    simp only [Receiver.step, Receiver.storeRunnable]
    split <;> rfl
  | _ => rfl

/-- A stored process with an empty mailbox. -/
def Receiver.start (M : Type) (pid : ℕ) (trapExit : Bool) : Receiver M :=
  ⟨pid, .present, ⟨.new, trapExit, false, []⟩, []⟩

/-- In a run whose deliveries and store-backs are unmixed, a process sees the signals of any
other process in the order in which they were sent. -/
theorem run_inOrder (M : Type) (pid : ℕ) (trapExit : Bool) (actions : List (Action M))
    (h : Runs.Meets Receiver.step Unmixed (Receiver.start M pid trapExit) actions) (p : ℕ)
    (hp : p ≠ pid) :
    InOrder (actions.foldl Receiver.step (Receiver.start M pid trapExit)) p := by
  have hstep : ∀ (r : Receiver M) (a : Action M), (p ≠ r.pid ∧ Ordered p r) → Unmixed r a →
      (p ≠ (r.step a).pid ∧ Ordered p (r.step a)) := by
    intro r a hr ha
    exact ⟨(r.step_pid a).symm ▸ hr.1, hr.2.step hr.1 a ha⟩
  have hstart : Ordered p (Receiver.start M pid trapExit) := by
    refine ⟨?_, rfl⟩
    intro q hq
    have hnil : q = [] := List.mem_singleton.mp hq
    subst hnil
    exact List.Sublist.refl _
  exact (h.invariant hstep ⟨hp, hstart⟩).2.inOrder

/-- A message, drained by its receiver, and then the exit of its sender. -/
theorem run_inOrder_received :
    InOrder ([.sendLocal 1 () true, .takeRunnable, .drainArrival, .storeRunnable fun _ => .plain,
      .exitSignal 1 .error .plain].foldl Receiver.step (Receiver.start Unit 0 true)) 1 := by
  apply run_inOrder Unit 0 true _ _ 1 (by decide)
  refine ⟨trivial, trivial, trivial, ?_, fun _ => rfl, trivial⟩
  intro p _
  simp [Receiver.step, Receiver.start, Receiver.sendLocal, Receiver.takeRunnable, Body.drain,
    Mailbox.drainArrival]

/-- A reply and the exit of its sender: the exit message overtakes the reply in the arrival
queue of a stored process, and in the lists of a running one. -/
theorem not_run_inOrder :
    ¬ InOrder ([.sendLocal 1 () true, .exitSignal 1 .error .plain].foldl Receiver.step
        (Receiver.start Unit 0 true)) 1 ∧
    ¬ InOrder ([.takeRunnable, .sendLocal 1 () true, .exitSignal 1 .error .plain,
        .storeRunnable fun _ => .plain].foldl Receiver.step (Receiver.start Unit 0 true)) 1 := by
  have hswapped : ¬ [Signal.exit 1 .error, .message 1 ()].Sublist
      [Signal.message 1 (), .exit 1 .error] := by
    intro h
    have heq := h.eq_of_length rfl
    simp at heq
  exact ⟨hswapped, hswapped⟩

end

end Beamr.Scheduler
