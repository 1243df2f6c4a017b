import Beamr.Distribution.ConnectionTable
import Beamr.Scheduler.ExitSignals

/-!
# Remote links of a process

The links of one process of this node with processes of other nodes, next to the connection table,
the stream of connection events and the handlers that are under way. A handler goes on one slot
access or one look at a connection at a time.
-/
namespace Beamr.Scheduler

open Checkout (Entry Slot)
open Distribution (RemotePid ConnectionManager ConnectionEvent ConnectionAction DistConnection)

/-- What ends a remote link. The return of a failed `link_remote` says whether somebody had
acknowledged the link. -/
inductive LinkEnd
  | wireExit
  | noConnection
  | unlink
  | unwound (acknowledged : Bool)
  | died
  deriving DecidableEq

inductive LinkEvent
  | established (remote : RemotePid)
  | consumed (remote : RemotePid) (how : LinkEnd)
  deriving DecidableEq

def LinkEvent.Consumes (remote : RemotePid) : LinkEvent → Bool
  | .established _ => false
  | .consumed pid _ => pid = remote

/-- Where a handler is: with a down event in hand, with the collected links to be applied, in
`link_remote` with the link established or with the send refused, or in `apply_inbound_link` with
the link established, with its connection in hand, or with the connection found down. -/
inductive LinkHandler
  | connectionDown (node : Atom)
  | scan (affected : List RemotePid)
  | sendLink (target : RemotePid)
  | unwind (target : RemotePid)
  | getConnection (source : RemotePid)
  | readDown (source : RemotePid) (connection : DistConnection)
  | missed (source : RemotePid)
  deriving DecidableEq

/-- Whether a step of a process is neither about a single remote link nor a signal through one. -/
def TrapAction.leavesLinks : TrapAction → Bool
  | .establishRemoteLink _ => false
  | .removeRemoteLink _ => false
  | .processRemoteExitSignal _ _ .linkExit _ => false
  | _ => true

/-- The process, the connections with the number of events that were dispatched, the handlers, what
happened to the links, and the links that the peer or `link_remote` has acknowledged. -/
structure LinkSystem where
  pid : UInt64
  process : TrapProcess
  manager : ConnectionManager
  dispatched : ℕ
  handlers : List LinkHandler
  history : List LinkEvent
  acknowledged : RemotePid → Bool

inductive LinkAction
  | process (a : TrapAction) (h : a.leavesLinks)
  | connection (a : ConnectionAction)
  | dispatch
  | linkRemote (target : RemotePid)
  | unlinkRemote (target : RemotePid)
  | inboundLink (source : RemotePid)
  | inboundUnlink (source : RemotePid)
  | inboundExit (source : RemotePid) (reason : ExitReason) (room : Bool)
  | advance (handler : LinkHandler) (room : Bool)

/-- Whether both pids fit the wire. -/
def wireEncodable (pid : UInt64) (target : RemotePid) : Bool :=
  pid.toNat < 2 ^ 32 && target.pidNumber.toNat < 2 ^ 32 && target.serial.toNat < 2 ^ 32

def TrapProcess.gone (s : TrapProcess) : Bool :=
  match s.entry.slot with
  | .absent => true
  | _ => false

namespace LinkSystem

def new (pid : UInt64) (trapExit : Bool) : LinkSystem :=
  ⟨pid, .spawn trapExit, .new, 0, [], [], fun _ => false⟩

variable (s : LinkSystem)

def links : List RemotePid := s.process.remoteLinks

def queue : List ConnectionEvent := s.manager.enqueued.drop s.dispatched

def handle (handler : LinkHandler) : LinkSystem := { s with handlers := s.handlers ++ [handler] }

def acknowledge (remote : RemotePid) : LinkSystem :=
  if remote ∈ s.links then
    { s with acknowledged := Function.update s.acknowledged remote true }
  else s

/-- Nothing is logged for a link that is there already. -/
def establish (remote : RemotePid) : Bool × LinkSystem :=
  let (established, process) := s.process.establishRemoteLink remote
  (established, { s with
    process := process
    history := s.history ++
      if established && remote ∉ s.links then [.established remote] else [] })

def consume (remote : RemotePid) (how : LinkEnd) : LinkSystem :=
  { s with
    history := s.history ++ [.consumed remote how]
    acknowledged := Function.update s.acknowledged remote false }

def remove (remote : RemotePid) (how : LinkEnd) : LinkSystem :=
  let (removed, process) := s.process.removeRemoteLink remote
  if removed then { s with process := process }.consume remote how
  else { s with process := process }

/-- An exit signal through a link. -/
def linkExit (source : RemotePid) (reason : ExitReason) (room : Bool) (how : LinkEnd) :
    LinkSystem :=
  let process := s.process.processRemoteExitSignal source reason .linkExit room
  if !s.process.hasExited && source ∈ s.links then { s with process := process }.consume source how
  else { s with process := process }

/-- A step of the process. Its links go with it. -/
def stepProcess (a : TrapAction) : LinkSystem :=
  let process := s.process.step a
  { s with
    process := process
    history := s.history ++
      if process.gone then s.links.dedup.map fun remote => .consumed remote .died else [] }

/-- `link_remote` stores and sends the serial 0. -/
def linkRemote (target : RemotePid) : LinkSystem :=
  let target := { target with serial := 0 }
  let (established, s) := s.establish target
  if established then s.handle (.sendLink target) else s

def unlinkRemote (target : RemotePid) : LinkSystem := s.remove { target with serial := 0 } .unlink

def applyInboundLink (source : RemotePid) : LinkSystem :=
  let (established, s) := s.establish source
  if established then (s.acknowledge source).handle (.getConnection source) else s

def dispatch : LinkSystem :=
  match s.queue with
  | [] => s
  | .up _ :: _ => { s with dispatched := s.dispatched + 1 }
  | .down event :: _ =>
    { s with dispatched := s.dispatched + 1 }.handle (.connectionDown event.node)

/-- The next step of a handler that is taken out of the list. -/
def advance (room : Bool) : LinkHandler → LinkSystem
  | .connectionDown node => s.handle (.scan (s.links.filter (·.node = node)))
  | .scan [] => s
  | .scan (remote :: rest) =>
    (s.linkExit remote .noConnection room .noConnection).handle (.scan rest)
  | .sendLink target =>
    if wireEncodable s.pid target && (s.manager.table target.node).isSome then s.acknowledge target
    else s.handle (.unwind target)
  | .unwind target => s.remove target (.unwound (s.acknowledged target))
  | .getConnection source =>
    match s.manager.table source.node with
    | none => s.handle (.missed source)
    | some connection => s.handle (.readDown source connection)
  | .readDown source connection =>
    if s.manager.isDown connection then s.handle (.missed source) else s
  | .missed source => s.linkExit source .noConnection room .noConnection

/-- One step of some thread of the node with this name. -/
def step (atoms : AtomTable) (localNodeName : List UInt8) (s : LinkSystem) :
    LinkAction → LinkSystem
  | .process a _ => s.stepProcess a
  | .connection a => { s with manager := s.manager.step atoms localNodeName a }
  | .dispatch => s.dispatch
  | .linkRemote target => s.linkRemote target
  | .unlinkRemote target => s.unlinkRemote target
  | .inboundLink source => s.applyInboundLink source
  | .inboundUnlink source => s.remove source .unlink
  | .inboundExit source reason room => s.linkExit source reason room .wireExit
  | .advance handler room =>
    if handler ∈ s.handlers then
      { s with handlers := s.handlers.erase handler }.advance room handler
    else s

/-! ## The life of a link -/

/-- All handlers have finished, and all events and connections marked down were handled. -/
structure Quiescent : Prop where
  handlers : s.handlers = []
  queue : s.queue = []
  reaping : s.manager.reaping = []

/-- Each link was consumed once if it is not there any more and not yet otherwise, none that was
acknowledged by the return of a failed `link_remote`, and a live process keeps none with a node
whose connection is down once all has been handled. -/
structure LinksEndOnce : Prop where
  consumed : ∀ remote, s.history.count (.established remote) =
    s.history.countP (LinkEvent.Consumes remote) + if remote ∈ s.links then 1 else 0
  unwound : ∀ remote, LinkEvent.consumed remote (.unwound true) ∉ s.history
  converted : s.Quiescent → s.process.Lives → ∀ remote ∈ s.links,
    ∃ connection, s.manager.table remote.node = some connection ∧
      s.manager.isDown connection = false

/-- No failed `link_remote` takes an acknowledged link away. -/
def KeepsAcknowledged (s : LinkSystem) : LinkAction → Prop
  | .advance (.unwind target) _ =>
    LinkHandler.unwind target ∈ s.handlers → target ∈ s.links → s.acknowledged target = false
  | _ => True

end LinkSystem

/-! ## Links of a process -/

theorem mem_addRemoteLink {links : List RemotePid} {pid remote : RemotePid} :
    remote ∈ addRemoteLink links pid ↔ remote = pid ∨ remote ∈ links := by
  rw [addRemoteLink]
  split
  next h => exact ⟨.inr, fun hor => hor.elim (fun heq => heq ▸ h) id⟩
  next => rw [List.mem_append, List.mem_singleton, or_comm]

theorem mem_removeRemoteLink {links : List RemotePid} {pid remote : RemotePid} :
    remote ∈ removeRemoteLink links pid ↔ remote ≠ pid ∧ remote ∈ links := by
  simp [removeRemoteLink, and_comm]

theorem mem_foldl_addRemoteLink {links start : List RemotePid} {remote : RemotePid} :
    remote ∈ links.foldl addRemoteLink start ↔ remote ∈ start ∨ remote ∈ links := by
  induction links generalizing start with
  | nil => simp
  | cons pid rest ih =>
    rw [List.foldl_cons, ih, mem_addRemoteLink, List.mem_cons]
    tauto

namespace TrapBody

variable (p : TrapBody)

/-- The view of the slot is authoritative in both directions. -/
theorem mem_mergeRemoteLinks {links : List RemotePid} {remote : RemotePid} :
    remote ∈ (p.mergeRemoteLinks links).remoteLinks ↔ remote ∈ links := by
  rw [mergeRemoteLinks, mem_foldl_addRemoteLink, List.mem_filter, decide_eq_true_eq]
  exact ⟨fun h => h.elim And.right id, .inr⟩

theorem remoteLinks_enqueueExitMessage (source : PendingExitSource) (reason : ExitReason)
    (room : Bool) : (p.enqueueExitMessage source reason room).remoteLinks = p.remoteLinks := by
  cases room <;> rfl

theorem remoteLinks_enqueuePending (pending : List (PendingExitSource × ExitReason))
    (room : ℕ → Bool) : (p.enqueuePending pending room).remoteLinks = p.remoteLinks := by
  rw [enqueuePending]
  refine List.foldlRecOn (motive := fun q : TrapBody => q.remoteLinks = p.remoteLinks) _ _ rfl ?_
  intro q hq message _
  rw [remoteLinks_enqueueExitMessage, hq]

theorem mem_merge {room : ℕ → Bool} {m : TrapMetadata} {remote : RemotePid} :
    remote ∈ (p.merge room m).remoteLinks ↔ remote ∈ m.remoteLinks := by
  rw [merge, remoteLinks_enqueuePending, mem_mergeRemoteLinks]

end TrapBody

namespace TrapProcess

variable {s : TrapProcess}

/-- The links as a set, which the order in which a merge leaves them does not matter to. -/
def linkSet (s : TrapProcess) : Option (Set RemotePid) :=
  s.entry.value (fun p => {r | r ∈ p.remoteLinks}) fun m => {r | r ∈ m.remoteLinks}

theorem mem_remoteLinks_iff {remote : RemotePid} :
    remote ∈ s.remoteLinks ↔ ∃ links, s.linkSet = some links ∧ remote ∈ links := by
  rw [remoteLinks, linkSet, Entry.value, Entry.value]
  cases s.entry.slot <;> simp

theorem mem_remoteLinks_congr {s' : TrapProcess} (h : s'.linkSet = s.linkSet)
    (remote : RemotePid) : remote ∈ s'.remoteLinks ↔ remote ∈ s.remoteLinks := by
  rw [mem_remoteLinks_iff, mem_remoteLinks_iff, h]

theorem linkSet_receive (source : PendingExitSource) (reason : ExitReason)
    (room clearsStored clearsRunning : Bool) :
    (s.receive source reason room clearsStored clearsRunning).linkSet = s.linkSet := by
  obtain ⟨⟨slot, held⟩, tombstone, condemned, flag⟩ := s
  rw [receive]
  cases slot with
  | absent => rfl
  | present p =>
    dsimp only
    split
    next => rfl
    next =>
      split
      next => cases clearsStored && decide (reason = .kill) <;> rfl
      next =>
        split
        next => exact congrArg some (congrArg (fun links : List RemotePid => {r | r ∈ links})
          (p.remoteLinks_enqueueExitMessage ..))
        next => rfl
  | executing m =>
    dsimp only
    split
    next => cases clearsRunning && decide (reason = .kill) <;> rfl
    next => split <;> rfl

/-- The links of a process that is not gone are touched by nothing but operations on them. -/
theorem mem_remoteLinks_step (hs : s.Regular) {a : TrapAction} (ha : a.leavesLinks)
    (hgone : (s.step a).gone = false) (remote : RemotePid) :
    remote ∈ (s.step a).remoteLinks ↔ remote ∈ s.remoteLinks := by
  cases a with
  | takeRunnable =>
    have hlinks : (s.step .takeRunnable).linkSet = s.linkSet := Entry.value_take fun _ => rfl
    exact mem_remoteLinks_congr hlinks remote
  | storeRunnable room =>
    have hlinks : (s.step (.storeRunnable room)).linkSet = s.linkSet :=
      Entry.value_store (fun p m => Set.ext fun _ => p.mem_merge) hs.sound
    exact mem_remoteLinks_congr hlinks remote
  | readTombstone => exact Iff.rfl
  | finalize =>
    rw [step] at hgone ⊢
    split at hgone
    next => cases hgone
    next h => rw [if_neg h]
  | processFlag value =>
    rw [step]
    split
    next hheld => rw [setTrapExit_of_held hs.sound hheld]
    next => exact Iff.rfl
  | nativeSetTrapExit value =>
    rw [step]
    split <;> exact Iff.rfl
  | schedulerSetTrapExit value =>
    obtain ⟨⟨slot, held⟩, tombstone, condemned, flag⟩ := s
    cases slot <;> exact Iff.rfl
  | exitSignal caller reason room =>
    exact mem_remoteLinks_congr (linkSet_receive ..) remote
  | processExitSignal source reason room =>
    exact mem_remoteLinks_congr (linkSet_receive ..) remote
  | processRemoteExitSignal source reason kind room =>
    cases kind with
    | linkExit => cases ha
    | direct =>
      rw [step_direct]
      exact mem_remoteLinks_congr (linkSet_receive ..) remote
  | establishRemoteLink remote => cases ha
  | removeRemoteLink remote => cases ha
  | terminateProcess reason => cases hgone
  | evictTombstone => exact Iff.rfl

theorem remoteLinks_of_gone (h : s.gone = true) : s.remoteLinks = [] := by
  obtain ⟨⟨slot, held⟩, tombstone, condemned, flag⟩ := s
  cases slot with
  | absent => rfl
  | present p => cases h
  | executing m => cases h

theorem mem_remoteLinks_establish {pid remote : RemotePid} :
    remote ∈ (s.establishRemoteLink pid).2.remoteLinks ↔
      (s.establishRemoteLink pid).1 = true ∧ remote = pid ∨ remote ∈ s.remoteLinks := by
  rw [establishRemoteLink]
  split
  next => simp
  next h =>
    obtain ⟨⟨slot, held⟩, tombstone, condemned, flag⟩ := s
    cases slot with
    | absent => exact absurd rfl h
    | present p => simpa [remoteLinks, Entry.modify, Entry.value] using mem_addRemoteLink
    | executing m => simpa [remoteLinks, Entry.modify, Entry.value] using mem_addRemoteLink

theorem mem_remoteLinks_remove {pid remote : RemotePid} :
    remote ∈ (s.removeRemoteLink pid).2.remoteLinks ↔ remote ≠ pid ∧ remote ∈ s.remoteLinks := by
  obtain ⟨⟨slot, held⟩, tombstone, condemned, flag⟩ := s
  cases slot with
  | absent => simp [removeRemoteLink, remoteLinks, Entry.modify, Entry.value]
  | present p => exact mem_removeRemoteLink
  | executing m => exact mem_removeRemoteLink

theorem mem_remoteLinks_linkExit {pid remote : RemotePid} (reason : ExitReason) (room : Bool) :
    remote ∈ (s.processRemoteExitSignal pid reason .linkExit room).remoteLinks ↔
      (s.hasExited = false → remote ≠ pid) ∧ remote ∈ s.remoteLinks := by
  cases h : s.hasExited with
  | true =>
    rw [processRemoteExitSignal.eq_def, if_pos h]
    simp
  | false =>
    have hstep := step_linkExit h pid reason room
    rw [step] at hstep
    rw [hstep]
    split
    next => rw [mem_remoteLinks_congr (linkSet_receive ..), mem_remoteLinks_remove]; simp
    next => rw [mem_remoteLinks_remove]; simp

theorem lives_of_receive (hs : s.Regular) {source : PendingExitSource} {reason : ExitReason}
    {room clearsStored clearsRunning : Bool}
    (h : (s.receive source reason room clearsStored clearsRunning).Lives) : s.Lives := by
  obtain ⟨⟨slot, held⟩, tombstone, condemned, flag⟩ := s
  rw [receive] at h
  cases slot with
  | absent => exact h
  | present p =>
    obtain ⟨rfl, -⟩ := regular_present.mp hs
    rw [lives_present]
    dsimp only at h
    split at h
    next => exact (lives_present _ _ _).mp h
    next hlive => exact Bool.eq_false_of_not_eq_true hlive
  | executing m =>
    obtain ⟨p, rfl, -⟩ := regular_executing.mp hs
    rw [lives_executing]
    dsimp only at h
    split at h
    next => exact (lives_executing _ _ _).mp h
    next => split at h <;> exact (lives_executing _ _ _).mp h

theorem lives_of_modify (hs : s.Regular) {onBody : TrapBody → TrapBody}
    {onMetadata : TrapMetadata → TrapMetadata} (hbody : ∀ p, (onBody p).exited = p.exited)
    (h : Lives { s with entry := s.entry.modify onBody onMetadata }) : s.Lives := by
  obtain ⟨⟨slot, held⟩, tombstone, condemned, flag⟩ := s
  cases slot with
  | absent => exact h
  | present p =>
    obtain ⟨rfl, -⟩ := regular_present.mp hs
    have hlive := (lives_present _ _ _).mp h
    exact (lives_present _ _ _).mpr ((hbody p).symm.trans hlive)
  | executing m =>
    obtain ⟨p, rfl, -⟩ := regular_executing.mp hs
    exact (lives_executing _ _ _).mpr ((lives_executing _ _ _).mp h)

theorem lives_of_remove (hs : s.Regular) {remote : RemotePid}
    (h : (s.removeRemoteLink remote).2.Lives) : s.Lives := by
  rw [removeRemoteLink] at h
  refine lives_of_modify hs ?_ h
  exact fun _ => rfl

theorem lives_of_establish (hs : s.Regular) {remote : RemotePid}
    (h : (s.establishRemoteLink remote).2.Lives) : s.Lives := by
  rw [establishRemoteLink] at h
  split at h
  next => exact h
  next =>
    refine lives_of_modify hs ?_ h
    exact fun _ => rfl

/-- A process that lives has lived before. -/
theorem lives_of_step (hs : s.Regular) {a : TrapAction} (h : (s.step a).Lives) : s.Lives := by
  cases a with
  | takeRunnable =>
    obtain ⟨⟨slot, held⟩, tombstone, condemned, flag⟩ := s
    cases slot with
    | absent => exact h
    | executing m => exact h
    | present p =>
      obtain ⟨rfl, -⟩ := regular_present.mp hs
      exact (lives_present _ _ _).mpr ((lives_executing _ _ _).mp h)
  | storeRunnable room =>
    obtain ⟨⟨slot, held⟩, tombstone, condemned, flag⟩ := s
    cases slot with
    | absent =>
      obtain ⟨p, hp, hslot, -⟩ := h
      cases held <;> exact absurd rfl hslot
    | present p =>
      obtain ⟨rfl, -⟩ := regular_present.mp hs
      exact h
    | executing m =>
      obtain ⟨p, rfl, -⟩ := regular_executing.mp hs
      have hlive := (lives_present _ _ _).mp h
      exact (lives_executing _ _ _).mpr
        ((p.mergeRemoteLinks m.remoteLinks).exited_of_enqueuePending hlive)
  | readTombstone => exact h
  | finalize =>
    rw [step] at h
    split at h
    next => exact h.elim fun _ hp => absurd rfl hp.2.1
    next => exact h
  | processFlag value =>
    rw [step] at h
    split at h
    next hheld => rwa [setTrapExit_of_held hs.sound hheld] at h
    next => exact h
  | nativeSetTrapExit value =>
    rw [step] at h
    split at h
    next hheld =>
      obtain ⟨⟨slot, held⟩, tombstone, condemned, flag⟩ := s
      cases slot with
      | absent => exact h.elim fun _ hp => absurd rfl hp.2.1
      | present p =>
        obtain ⟨rfl, -⟩ := regular_present.mp hs
        cases hheld
      | executing m =>
        obtain ⟨p, rfl, -⟩ := regular_executing.mp hs
        exact (lives_executing _ _ _).mpr
          ((lives_executing (p := { p with trapExit := value }) _ _ _).mp h)
    next => exact h
  | schedulerSetTrapExit value =>
    obtain ⟨⟨slot, held⟩, tombstone, condemned, flag⟩ := s
    cases slot with
    | absent => exact h
    | executing m => exact h
    | present p =>
      obtain ⟨rfl, -⟩ := regular_present.mp hs
      exact (lives_present _ _ _).mpr
        ((lives_present (p := { p with trapExit := value }) _ _ _).mp h)
  | exitSignal caller reason room => exact lives_of_receive hs h
  | processExitSignal source reason room => exact lives_of_receive hs h
  | processRemoteExitSignal source reason kind room =>
    cases kind with
    | direct =>
      rw [step_direct] at h
      exact lives_of_receive hs h
    | linkExit =>
      cases hexited : s.hasExited with
      | true =>
        rw [step, processRemoteExitSignal.eq_def, if_pos hexited] at h
        exact h
      | false =>
        have hregular := (undisturbed_removeRemoteLink hs source).2
        rw [step_linkExit hexited] at h
        split at h
        next => exact lives_of_remove hs (lives_of_receive hregular h)
        next => exact lives_of_remove hs h
  | establishRemoteLink remote => exact lives_of_establish hs h
  | removeRemoteLink remote => exact lives_of_remove hs h
  | terminateProcess reason => exact h.elim fun _ hp => absurd rfl hp.2.1
  | evictTombstone => exact h

theorem hasExited_of_lives (hs : s.Regular) (h : s.Lives) : s.hasExited = false := by
  obtain ⟨⟨slot, held⟩, tombstone, condemned, flag⟩ := s
  cases slot with
  | absent => exact h.elim fun _ hp => absurd rfl hp.2.1
  | executing m => rfl
  | present p =>
    obtain ⟨rfl, -⟩ := regular_present.mp hs
    exact (lives_present _ _ _).mp h

theorem gone_of_lives (h : s.Lives) : s.gone = false := by
  obtain ⟨⟨slot, held⟩, tombstone, condemned, flag⟩ := s
  cases slot with
  | absent => exact h.elim fun _ hp => absurd rfl hp.2.1
  | executing m => rfl
  | present p => rfl

end TrapProcess
namespace LinkSystem

variable {s s' : LinkSystem}

/-! ## The history -/

/-- The first part of the claim: a link that is there was established once more often than it was
consumed, and any other as often. -/
def Balanced (s : LinkSystem) : Prop :=
  ∀ remote, s.history.count (.established remote) =
    s.history.countP (LinkEvent.Consumes remote) + if remote ∈ s.links then 1 else 0

/-- A step whose events say how the links have changed. -/
theorem Balanced.append (h : s.Balanced) {more : List LinkEvent}
    (hhistory : s'.history = s.history ++ more)
    (hmore : ∀ remote, more.count (.established remote) + (if remote ∈ s.links then 1 else 0) =
      more.countP (LinkEvent.Consumes remote) + if remote ∈ s'.links then 1 else 0) :
    s'.Balanced := by
  intro remote
  have hbefore := h remote
  have hchange := hmore remote
  rw [hhistory, List.count_append, List.countP_append]
  omega

theorem Balanced.congr (h : s.Balanced) (hhistory : s'.history = s.history)
    (hlinks : ∀ remote, remote ∈ s'.links ↔ remote ∈ s.links) : s'.Balanced := by
  intro remote
  rw [hhistory, h remote]
  simp only [hlinks]

theorem count_established_singleton (pid remote : RemotePid) :
    [LinkEvent.established pid].count (.established remote) = if remote = pid then 1 else 0 := by
  by_cases h : remote = pid
  · simp [h]
  · simp [h, Ne.symm h]

theorem countP_consumed_singleton (pid remote : RemotePid) (how : LinkEnd) :
    [LinkEvent.consumed pid how].countP (LinkEvent.Consumes remote) =
      if remote = pid then 1 else 0 := by
  by_cases h : remote = pid
  · simp [LinkEvent.Consumes, h]
  · simp [LinkEvent.Consumes, h, Ne.symm h]

theorem Balanced.establish (h : s.Balanced) (pid : RemotePid) : (s.establish pid).2.Balanced := by
  have hhistory : (s.establish pid).2.history = s.history ++
      if (s.process.establishRemoteLink pid).1 && decide (pid ∉ s.links) then [.established pid]
      else [] := rfl
  refine h.append hhistory fun remote => ?_
  have hlinks : remote ∈ (s.establish pid).2.links ↔
      (s.process.establishRemoteLink pid).1 = true ∧ remote = pid ∨ remote ∈ s.links :=
    TrapProcess.mem_remoteLinks_establish
  simp only [hlinks]
  by_cases hnew : (s.process.establishRemoteLink pid).1 = true ∧ pid ∉ s.links
  · rw [if_pos (by simpa using hnew), count_established_singleton]
    by_cases hpid : remote = pid
    · simp [hpid, hnew.1, hnew.2, LinkEvent.Consumes]
    · simp [hpid, LinkEvent.Consumes]
  · rw [if_neg (by simpa using hnew)]
    have hsame : (s.process.establishRemoteLink pid).1 = true ∧ remote = pid ∨ remote ∈ s.links ↔
        remote ∈ s.links := by
      refine or_iff_right_of_imp ?_
      rintro ⟨hok, rfl⟩
      exact not_not.mp fun hnot => hnew ⟨hok, hnot⟩
    simp [hsame]

/-- A link is taken away with an event, and any other stays. -/
theorem Balanced.consume (h : s.Balanced) {pid : RemotePid} {how : LinkEnd}
    (hhistory : s'.history = s.history ++ [.consumed pid how]) (hpid : pid ∈ s.links)
    (hlinks : ∀ remote, remote ∈ s'.links ↔ remote ≠ pid ∧ remote ∈ s.links) : s'.Balanced := by
  refine h.append hhistory fun remote => ?_
  rw [countP_consumed_singleton]
  simp only [hlinks]
  by_cases hremote : remote = pid
  · simp [hremote, hpid]
  · simp [hremote]

theorem Balanced.remove (h : s.Balanced) (pid : RemotePid) (how : LinkEnd) :
    (s.remove pid how).Balanced := by
  rw [LinkSystem.remove]
  dsimp only
  split
  next hremoved =>
    exact h.consume rfl (decide_eq_true_iff.mp hremoved) fun _ => TrapProcess.mem_remoteLinks_remove
  next hremoved =>
    refine h.congr rfl fun remote => TrapProcess.mem_remoteLinks_remove.trans ?_
    refine and_iff_right_of_imp ?_
    rintro hmem rfl
    exact hremoved (decide_eq_true hmem)

theorem Balanced.linkExit (h : s.Balanced) (source : RemotePid) (reason : ExitReason)
    (room : Bool) (how : LinkEnd) : (s.linkExit source reason room how).Balanced := by
  rw [LinkSystem.linkExit]
  split
  next hlinked =>
    obtain ⟨hexited, hmem⟩ := Bool.and_eq_true_iff.mp hlinked
    rw [Bool.not_eq_true'] at hexited
    refine h.consume rfl (decide_eq_true_iff.mp hmem) fun remote => ?_
    exact (TrapProcess.mem_remoteLinks_linkExit reason room).trans
      (and_congr_left' (imp_iff_right hexited))
  next hlinked =>
    refine h.congr rfl fun remote => (TrapProcess.mem_remoteLinks_linkExit reason room).trans ?_
    refine and_iff_right_of_imp ?_
    rintro hmem hexited rfl
    exact hlinked (Bool.and_eq_true_iff.mpr ⟨by rw [hexited]; rfl, decide_eq_true hmem⟩)

theorem countP_consumed_map (remotes : List RemotePid) (remote : RemotePid) (how : LinkEnd) :
    (remotes.map fun pid => LinkEvent.consumed pid how).countP (LinkEvent.Consumes remote) =
      remotes.count remote := by
  rw [List.countP_map, List.count]
  refine List.countP_congr fun pid _ => ?_
  simp [LinkEvent.Consumes]

theorem Balanced.stepProcess (h : s.Balanced) (hs : s.process.Regular) {a : TrapAction}
    (ha : a.leavesLinks) : (s.stepProcess a).Balanced := by
  have hlinks : (s.stepProcess a).links = (s.process.step a).remoteLinks := rfl
  cases hgone : (s.process.step a).gone with
  | false =>
    refine h.congr ?_ fun remote => TrapProcess.mem_remoteLinks_step hs ha hgone remote
    rw [LinkSystem.stepProcess, hgone]
    exact List.append_nil _
  | true =>
    have hhistory : (s.stepProcess a).history = s.history ++
        if (s.process.step a).gone then s.links.dedup.map fun remote => .consumed remote .died
        else [] := rfl
    refine h.append hhistory fun remote => ?_
    rw [if_pos hgone, countP_consumed_map, List.count_dedup, hlinks,
      TrapProcess.remoteLinks_of_gone hgone, List.count_eq_zero_of_not_mem]
    · simp
    · simp

end LinkSystem

/-! ## Every link is watched -/

/-- Handlers that come to look at a link. -/
def LinkHandler.Covers (remote : RemotePid) : LinkHandler → Prop
  | .connectionDown node => node = remote.node
  | .scan affected => remote ∈ affected
  | .sendLink target => target = remote
  | .unwind target => target = remote
  | .getConnection source => source = remote
  | .readDown _ _ => False
  | .missed source => source = remote

namespace LinkSystem

variable {s s' : LinkSystem} {pending : RemotePid → Prop}

/-- Its session is open, or the event of its end is to be dispatched, or a handler will come. -/
def Covered (s : LinkSystem) (remote : RemotePid) : Prop :=
  (s.manager.table remote.node).isSome ∨
    (∃ event, event.node = remote.node ∧ ConnectionEvent.down event ∈ s.queue) ∨
    ∃ handler ∈ s.handlers, handler.Covers remote

/-- All links of a live process are covered but for those whose handler has just been taken out of
the list. -/
structure Watched (s : LinkSystem) (pending : RemotePid → Prop) : Prop where
  regular : s.process.Regular
  tracks : s.manager.Tracks
  reaps : s.manager.Reaps
  dispatched : s.dispatched ≤ s.manager.enqueued.length
  balanced : s.Balanced
  covered : s.process.Lives → ∀ remote ∈ s.links, pending remote ∨ s.Covered remote

/-- A step of the process that establishes no link. -/
structure Shrinks (s s' : LinkSystem) : Prop where
  manager : s'.manager = s.manager
  dispatched : s'.dispatched = s.dispatched
  handlers : s'.handlers = s.handlers
  regular : s.process.Regular → s'.process.Regular
  lives : s.process.Regular → s'.process.Lives → s.process.Lives
  links : s.process.Regular → s'.process.Lives → ∀ remote ∈ s'.links, remote ∈ s.links
  balanced : s.process.Regular → s.Balanced → s'.Balanced

theorem covered_congr (hmanager : s'.manager = s.manager)
    (hdispatched : s'.dispatched = s.dispatched) (hhandlers : s'.handlers = s.handlers) (remote : RemotePid) :
    s'.Covered remote ↔ s.Covered remote := by
  rw [Covered, Covered, queue, queue, hmanager, hdispatched, hhandlers]

theorem Watched.shrink (h : s.Watched pending) (hshrinks : Shrinks s s') :
    s'.Watched pending where
  regular := hshrinks.regular h.regular
  tracks := hshrinks.manager ▸ h.tracks
  reaps := hshrinks.manager ▸ h.reaps
  dispatched := by
    rw [hshrinks.dispatched, hshrinks.manager]
    exact h.dispatched
  balanced := hshrinks.balanced h.regular h.balanced
  covered hlives remote hremote := by
    rw [covered_congr hshrinks.manager hshrinks.dispatched hshrinks.handlers]
    exact h.covered (hshrinks.lives h.regular hlives) remote
      (hshrinks.links h.regular hlives remote hremote)

theorem Watched.close (h : s.Watched pending)
    (hcovered : s.process.Lives → ∀ remote ∈ s.links, pending remote → s.Covered remote) :
    s.Watched fun _ => False :=
  { h with
    covered := fun hlives remote hremote =>
      .inr ((h.covered hlives remote hremote).elim (hcovered hlives remote hremote) id) }

theorem Watched.handle (h : s.Watched pending) (handler : LinkHandler) :
    (s.handle handler).Watched fun remote => pending remote ∧ ¬ handler.Covers remote :=
  { h with
    covered := fun hlives remote hremote => by
      by_cases hcovers : handler.Covers remote
      · exact .inr (.inr (.inr ⟨handler, List.mem_append_right _ (List.mem_singleton_self _),
          hcovers⟩))
      · rcases h.covered hlives remote hremote with hpending | hopen | hevent |
          ⟨other, hother, hcov⟩
        · exact .inl ⟨hpending, hcovers⟩
        · exact .inr (.inl hopen)
        · exact .inr (.inr (.inl hevent))
        · exact .inr (.inr (.inr ⟨other, List.mem_append_left _ hother, hcov⟩)) }

/-- A handler that is taken out of the list leaves what it covers. -/
theorem Watched.erase (h : s.Watched fun _ => False) (handler : LinkHandler) :
    Watched { s with handlers := s.handlers.erase handler } fun remote => handler.Covers remote :=
  { h with
    covered := fun hlives remote hremote => by
      rcases h.covered hlives remote hremote with hfalse | hopen | hevent | ⟨other, hother, hcov⟩
      · exact hfalse.elim
      · exact .inr (.inl hopen)
      · exact .inr (.inr (.inl hevent))
      · by_cases hsame : other = handler
        · exact .inl (hsame ▸ hcov)
        · exact .inr (.inr (.inr ⟨other, (List.mem_erase_of_ne hsame).mpr hother, hcov⟩)) }

/-! ### Steps of the process -/

theorem shrinks_remove (s : LinkSystem) (pid : RemotePid) (how : LinkEnd) :
    Shrinks s (s.remove pid how) := by
  have hprocess : (s.remove pid how).process = (s.process.removeRemoteLink pid).2 := by
    rw [remove]
    dsimp only
    split <;> rfl
  refine ⟨?_, ?_, ?_, ?_, ?_, ?_, fun _ h => h.remove pid how⟩
  · rw [remove]; dsimp only; split <;> rfl
  · rw [remove]; dsimp only; split <;> rfl
  · rw [remove]; dsimp only; split <;> rfl
  · intro hs
    rw [hprocess]
    exact (TrapProcess.undisturbed_removeRemoteLink hs pid).2
  · intro hs hlives
    rw [hprocess] at hlives
    exact TrapProcess.lives_of_remove hs hlives
  · intro _ _ remote hremote
    rw [links, hprocess] at hremote
    exact (TrapProcess.mem_remoteLinks_remove.mp hremote).2

theorem mem_links_remove (pid : RemotePid) (how : LinkEnd) {remote : RemotePid}
    (h : remote ∈ (s.remove pid how).links) : remote ≠ pid := by
  rw [links, remove] at h
  dsimp only at h
  split at h <;> exact (TrapProcess.mem_remoteLinks_remove.mp h).1

theorem linkExit_process (source : RemotePid) (reason : ExitReason) (room : Bool) (how : LinkEnd) :
    (s.linkExit source reason room how).process =
      s.process.step (.processRemoteExitSignal source reason .linkExit room) := by
  rw [linkExit]
  split <;> rfl

theorem shrinks_linkExit (s : LinkSystem) (source : RemotePid) (reason : ExitReason) (room : Bool)
    (how : LinkEnd) : Shrinks s (s.linkExit source reason room how) := by
  refine ⟨?_, ?_, ?_, ?_, ?_, ?_, fun _ h => h.linkExit source reason room how⟩
  · rw [linkExit]; split <;> rfl
  · rw [linkExit]; split <;> rfl
  · rw [linkExit]; split <;> rfl
  · intro hs
    rw [linkExit_process]
    exact hs.step _
  · intro hs hlives
    rw [linkExit_process] at hlives
    exact TrapProcess.lives_of_step hs hlives
  · intro _ _ remote hremote
    rw [links, linkExit_process] at hremote
    exact ((TrapProcess.mem_remoteLinks_linkExit reason room).mp hremote).2

/-- A live process has lost the link that a signal came through. -/
theorem mem_links_linkExit (hs : s.process.Regular) {source : RemotePid} {reason : ExitReason}
    {room : Bool} {how : LinkEnd} (hlives : (s.linkExit source reason room how).process.Lives)
    {remote : RemotePid} (h : remote ∈ (s.linkExit source reason room how).links) :
    remote ≠ source := by
  rw [links, linkExit_process] at h
  rw [linkExit_process] at hlives
  have hexited := TrapProcess.hasExited_of_lives hs (TrapProcess.lives_of_step hs hlives)
  exact ((TrapProcess.mem_remoteLinks_linkExit reason room).mp h).1 hexited

theorem shrinks_stepProcess (s : LinkSystem) {a : TrapAction} (ha : a.leavesLinks) :
    Shrinks s (s.stepProcess a) where
  manager := rfl
  dispatched := rfl
  handlers := rfl
  regular hs := hs.step a
  lives hs hlives := TrapProcess.lives_of_step hs hlives
  links hs hlives remote :=
    (TrapProcess.mem_remoteLinks_step hs ha (TrapProcess.gone_of_lives hlives) remote).mp
  balanced hs h := h.stepProcess hs ha

/-! ### Other steps -/

theorem watched_new (pid : UInt64) (trapExit : Bool) :
    (new pid trapExit).Watched fun _ => False where
  regular := TrapProcess.regular_spawn trapExit
  tracks := .new
  reaps := .new
  dispatched := Nat.le_refl _
  balanced _ := rfl
  covered _ _ h := absurd h List.not_mem_nil

/-- After the establishment of a link its handler is to be put into the list. -/
theorem Watched.establish (h : s.Watched fun _ => False) (pid : RemotePid) :
    (s.establish pid).2.Watched fun remote => remote = pid where
  regular := (TrapProcess.undisturbed_establishRemoteLink h.regular pid).2
  tracks := h.tracks
  reaps := h.reaps
  dispatched := h.dispatched
  balanced := h.balanced.establish pid
  covered hlives remote hremote := by
    rcases TrapProcess.mem_remoteLinks_establish.mp hremote with ⟨-, hpid⟩ | hremote
    · exact .inl hpid
    · exact .inr ((h.covered (TrapProcess.lives_of_establish h.regular hlives) remote
        hremote).resolve_left id)

/-- A refused establishment leaves the process as it is. -/
theorem Watched.establish_refused (h : s.Watched fun _ => False) {pid : RemotePid}
    (hrefused : (s.establish pid).1 ≠ true) : (s.establish pid).2.Watched fun _ => False := by
  refine { h.establish pid with covered := fun hlives remote hremote => ?_ }
  rcases TrapProcess.mem_remoteLinks_establish.mp hremote with ⟨hok, -⟩ | hremote
  · exact absurd hok hrefused
  · exact h.covered (TrapProcess.lives_of_establish h.regular hlives) remote hremote

theorem Watched.acknowledge (h : s.Watched pending) (pid : RemotePid) :
    (s.acknowledge pid).Watched pending := by
  rw [LinkSystem.acknowledge]
  split
  next =>
    exact ⟨h.regular, h.tracks, h.reaps, h.dispatched, h.balanced, h.covered⟩
  next => exact h

theorem Watched.linkRemote (h : s.Watched fun _ => False) (target : RemotePid) :
    (s.linkRemote target).Watched fun _ => False := by
  rw [LinkSystem.linkRemote]
  dsimp only
  split
  next =>
    refine ((h.establish _).handle _).close fun _ remote _ hpending => ?_
    exact absurd hpending.1.symm hpending.2
  next hrefused => exact h.establish_refused hrefused

theorem Watched.applyInboundLink (h : s.Watched fun _ => False) (source : RemotePid) :
    (s.applyInboundLink source).Watched fun _ => False := by
  rw [LinkSystem.applyInboundLink]
  dsimp only
  split
  next =>
    refine (((h.establish source).acknowledge source).handle _).close fun _ remote _ hpending => ?_
    exact absurd hpending.1.symm hpending.2
  next hrefused => exact h.establish_refused hrefused

theorem Watched.connection (h : s.Watched fun _ => False) (atoms : AtomTable)
    (localNodeName : List UInt8) (a : ConnectionAction) :
    Watched { s with manager := s.manager.step atoms localNodeName a } fun _ => False := by
  obtain ⟨more, hmore, htable⟩ := s.manager.step_enqueued atoms localNodeName a
  refine ⟨h.regular, h.tracks.step atoms localNodeName a,
    h.reaps.step h.tracks atoms localNodeName a, ?_, h.balanced, ?_⟩
  · dsimp only
    rw [hmore, List.length_append]
    exact Nat.le_trans h.dispatched (Nat.le_add_right ..)
  · intro hlives remote hremote
    have hqueue : queue { s with manager := s.manager.step atoms localNodeName a } =
        s.queue ++ more := by
      rw [queue, queue, hmore, List.drop_append_of_le_length h.dispatched]
    right
    rw [Covered, hqueue]
    rcases h.covered hlives remote hremote with hfalse | hopen | ⟨event, hnode, hevent⟩ | hhandler
    · exact hfalse.elim
    · rcases htable remote.node hopen with hopen | ⟨event, hnode, hevent⟩
      · exact .inl hopen
      · exact .inr (.inl ⟨event, hnode, List.mem_append_right _ hevent⟩)
    · exact .inr (.inl ⟨event, hnode, List.mem_append_left _ hevent⟩)
    · exact .inr (.inr hhandler)

theorem Watched.dispatch (h : s.Watched fun _ => False) : s.dispatch.Watched fun _ => False := by
  have hnext {e : ConnectionEvent} {rest : List ConnectionEvent} (hqueue : s.queue = e :: rest) :
      Watched { s with dispatched := s.dispatched + 1 } fun remote =>
        ∃ event, event.node = remote.node ∧ e = .down event := by
    have hlength : s.dispatched < s.manager.enqueued.length := by
      by_contra hle
      rw [queue, List.drop_eq_nil_of_le (Nat.le_of_not_lt hle)] at hqueue
      cases hqueue
    have hrest : queue { s with dispatched := s.dispatched + 1 } = rest := by
      rw [queue] at hqueue ⊢
      rw [← List.tail_drop, hqueue]
      rfl
    refine ⟨h.regular, h.tracks, h.reaps, hlength, h.balanced, fun hlives remote hremote => ?_⟩
    rw [Covered, hrest]
    rcases h.covered hlives remote hremote with hfalse | hopen | ⟨event, hnode, hevent⟩ | hhandler
    · exact hfalse.elim
    · exact .inr (.inl hopen)
    · rw [hqueue] at hevent
      rcases List.mem_cons.mp hevent with hfirst | hevent
      · exact .inl ⟨event, hnode, hfirst.symm⟩
      · exact .inr (.inr (.inl ⟨event, hnode, hevent⟩))
    · exact .inr (.inr (.inr hhandler))
  rw [LinkSystem.dispatch]
  split
  next => exact h
  next hqueue =>
    refine (hnext hqueue).close fun _ remote _ hpending => ?_
    obtain ⟨_, _, hup⟩ := hpending
    cases hup
  next event _ hqueue =>
    refine ((hnext hqueue).handle (.connectionDown event.node)).close fun _ remote _ hpending => ?_
    obtain ⟨⟨event', hnode, heq⟩, hcovers⟩ := hpending
    cases heq
    exact absurd hnode hcovers

theorem Watched.advance (h : s.Watched fun _ => False) (handler : LinkHandler) (room : Bool) :
    (advance { s with handlers := s.handlers.erase handler } room handler).Watched
      fun _ => False := by
  have herase := h.erase handler
  generalize { s with handlers := s.handlers.erase handler } = s₀ at herase ⊢
  cases handler with
  | connectionDown node =>
    refine (herase.handle _).close fun _ remote hremote hpending => ?_
    exact absurd (List.mem_filter.mpr ⟨hremote, decide_eq_true hpending.1.symm⟩) hpending.2
  | scan affected =>
    cases affected with
    | nil => exact herase.close fun _ _ _ hpending => absurd hpending List.not_mem_nil
    | cons first rest =>
      have hshrinks := shrinks_linkExit s₀ first .noConnection room .noConnection
      refine ((herase.shrink hshrinks).handle (.scan rest)).close ?_
      intro hlives remote hremote hpending
      have hne := mem_links_linkExit herase.regular hlives hremote
      exact absurd ((List.mem_cons.mp hpending.1).resolve_left hne) hpending.2
  | sendLink target =>
    rw [LinkSystem.advance]
    split
    next hsent =>
      refine (herase.acknowledge target).close fun _ remote _ hpending => ?_
      obtain rfl : target = remote := hpending
      refine .inl ?_
      have hmanager : (s₀.acknowledge target).manager = s₀.manager := by
        rw [LinkSystem.acknowledge]
        split <;> rfl
      rw [hmanager]
      exact (Bool.and_eq_true_iff.mp hsent).2
    next =>
      exact (herase.handle (.unwind target)).close fun _ _ _ hpending =>
        absurd hpending.1 hpending.2
  | unwind target =>
    refine (herase.shrink (shrinks_remove s₀ target _)).close fun _ remote hremote hpending => ?_
    exact absurd hpending.symm (mem_links_remove target _ hremote)
  | getConnection source =>
    rw [LinkSystem.advance]
    split
    next =>
      exact (herase.handle (.missed source)).close fun _ _ _ hpending =>
        absurd hpending.1 hpending.2
    next connection hconnection =>
      refine (herase.handle (.readDown source connection)).close fun _ remote _ hpending => ?_
      obtain rfl : source = remote := hpending.1
      exact .inl (Option.isSome_iff_exists.mpr ⟨connection, hconnection⟩)
  | readDown source connection =>
    rw [LinkSystem.advance]
    split
    next => exact (herase.handle (.missed source)).close fun _ _ _ hpending => hpending.1.elim
    next => exact herase.close fun _ _ _ hpending => hpending.elim
  | missed source =>
    refine (herase.shrink (shrinks_linkExit s₀ source _ room _)).close ?_
    intro hlives remote hremote hpending
    exact absurd hpending.symm (mem_links_linkExit herase.regular hlives hremote)

theorem Watched.step (h : s.Watched fun _ => False) (atoms : AtomTable)
    (localNodeName : List UInt8) (a : LinkAction) :
    (s.step atoms localNodeName a).Watched fun _ => False := by
  cases a with
  | process a ha => exact h.shrink (shrinks_stepProcess s ha)
  | connection a => exact h.connection atoms localNodeName a
  | dispatch => exact h.dispatch
  | linkRemote target => exact h.linkRemote target
  | unlinkRemote target => exact h.shrink (shrinks_remove ..)
  | inboundLink source => exact h.applyInboundLink source
  | inboundUnlink source => exact h.shrink (shrinks_remove ..)
  | inboundExit source reason room => exact h.shrink (shrinks_linkExit ..)
  | advance handler room =>
    rw [LinkSystem.step]
    split
    next => exact h.advance handler room
    next => exact h

/-! ## Acknowledged links -/

def NoneUnwound (s : LinkSystem) : Prop :=
  ∀ remote, LinkEvent.consumed remote (.unwound true) ∉ s.history

/-- Once all has been handled, only an open session covers a link. -/
theorem Watched.linksEndOnce_iff (h : s.Watched fun _ => False) :
    s.LinksEndOnce ↔ s.NoneUnwound := by
  refine ⟨LinksEndOnce.unwound, fun hnone => ⟨h.balanced, hnone, ?_⟩⟩
  rintro ⟨hhandlers, hqueue, hreaping⟩ hlives remote hremote
  rcases h.covered hlives remote hremote with hfalse | hopen | ⟨event, _, hevent⟩ |
    ⟨handler, hhandler, _⟩
  · exact hfalse.elim
  · obtain ⟨connection, hconnection⟩ := Option.isSome_iff_exists.mp hopen
    refine ⟨connection, hconnection, Bool.eq_false_of_not_eq_true fun hdown => ?_⟩
    obtain ⟨reason, hreason⟩ := h.reaps.down _ connection hconnection hdown
    rw [hreaping] at hreason
    cases hreason
  · rw [hqueue] at hevent
    cases hevent
  · rw [hhandlers] at hhandler
    cases hhandler

theorem noneUnwound_append_iff (h : s.NoneUnwound) {more : List LinkEvent}
    (hhistory : s'.history = s.history ++ more) :
    s'.NoneUnwound ↔ ∀ remote, LinkEvent.consumed remote (.unwound true) ∉ more := by
  refine forall_congr' fun remote => ?_
  rw [hhistory, List.mem_append, not_or]
  exact and_iff_right (h remote)

theorem noneUnwound_establish (h : s.NoneUnwound) (pid : RemotePid) :
    (s.establish pid).2.NoneUnwound := by
  have hhistory : (s.establish pid).2.history = s.history ++
      if (s.process.establishRemoteLink pid).1 && decide (pid ∉ s.links) then [.established pid]
      else [] := rfl
  refine (noneUnwound_append_iff h hhistory).mpr fun remote => ?_
  split <;> simp

theorem noneUnwound_remove_iff (h : s.NoneUnwound) (pid : RemotePid) (how : LinkEnd) :
    (s.remove pid how).NoneUnwound ↔ (pid ∈ s.links → how ≠ .unwound true) := by
  rw [remove]
  dsimp only
  split
  next hremoved =>
    have hmem : pid ∈ s.links := decide_eq_true_iff.mp hremoved
    rw [imp_iff_right hmem]
    refine (noneUnwound_append_iff h rfl).trans ?_
    simp [eq_comm]
  next hremoved =>
    refine iff_of_true h fun hmem => absurd (decide_eq_true hmem) hremoved

theorem noneUnwound_linkExit (h : s.NoneUnwound) (source : RemotePid) (reason : ExitReason)
    (room : Bool) {how : LinkEnd} (hhow : how ≠ .unwound true) :
    (s.linkExit source reason room how).NoneUnwound := by
  rw [linkExit]
  split
  next =>
    refine (noneUnwound_append_iff h rfl).mpr ?_
    simp [Ne.symm hhow]
  next => exact h

theorem noneUnwound_stepProcess (h : s.NoneUnwound) (a : TrapAction) :
    (s.stepProcess a).NoneUnwound := by
  have hhistory : (s.stepProcess a).history = s.history ++
      if (s.process.step a).gone then s.links.dedup.map fun remote => .consumed remote .died
      else [] := rfl
  refine (noneUnwound_append_iff h hhistory).mpr fun remote => ?_
  split <;> simp

theorem noneUnwound_acknowledge (h : s.NoneUnwound) (pid : RemotePid) :
    (s.acknowledge pid).NoneUnwound := by
  rw [acknowledge]
  split <;> exact h

/-- Only the return of a failed `link_remote` may take an acknowledged link away. -/
theorem noneUnwound_step_iff (h : s.NoneUnwound) (atoms : AtomTable) (localNodeName : List UInt8)
    (a : LinkAction) :
    (s.step atoms localNodeName a).NoneUnwound ↔ s.KeepsAcknowledged a := by
  cases a with
  | process a ha => exact iff_of_true (noneUnwound_stepProcess h a) trivial
  | connection a => exact iff_of_true h trivial
  | dispatch =>
    refine iff_of_true ?_ trivial
    rw [step, dispatch]
    split <;> exact h
  | linkRemote target =>
    refine iff_of_true ?_ trivial
    rw [step, linkRemote]
    dsimp only
    split <;> exact noneUnwound_establish h _
  | unlinkRemote target =>
    exact iff_of_true ((noneUnwound_remove_iff h _ _).mpr fun _ => by simp) trivial
  | inboundLink source =>
    refine iff_of_true ?_ trivial
    rw [step, applyInboundLink]
    dsimp only
    split
    next => exact noneUnwound_acknowledge (noneUnwound_establish h source) source
    next => exact noneUnwound_establish h source
  | inboundUnlink source =>
    exact iff_of_true ((noneUnwound_remove_iff h _ _).mpr fun _ => by simp) trivial
  | inboundExit source reason room =>
    exact iff_of_true (noneUnwound_linkExit h source reason room (by simp)) trivial
  | advance handler room =>
    rw [step]
    split
    next hmem =>
      have herase : NoneUnwound { s with handlers := s.handlers.erase handler } := h
      cases handler with
      | unwind target =>
        rw [KeepsAcknowledged, imp_iff_right hmem]
        exact (noneUnwound_remove_iff herase target _).trans (by simp [links])
      | connectionDown node => exact iff_of_true herase trivial
      | scan affected =>
        refine iff_of_true ?_ trivial
        cases affected with
        | nil => exact herase
        | cons first rest => exact noneUnwound_linkExit herase first _ room (by simp)
      | sendLink target =>
        refine iff_of_true ?_ trivial
        rw [advance]
        split
        next => exact noneUnwound_acknowledge herase target
        next => exact herase
      | getConnection source =>
        refine iff_of_true ?_ trivial
        rw [advance]
        split <;> exact herase
      | readDown source connection =>
        refine iff_of_true ?_ trivial
        rw [advance]
        split <;> exact herase
      | missed source =>
        exact iff_of_true (noneUnwound_linkExit herase source _ room (by simp)) trivial
    next hmem =>
      refine iff_of_true h ?_
      cases handler with
      | unwind target => exact fun h => absurd h hmem
      | _ => trivial

/-- Every remote link ends once all along a run, and is converted when its node is lost, exactly if
no failed `link_remote` takes an acknowledged link away. -/
theorem remote_links_end_once_iff (atoms : AtomTable) (localNodeName : List UInt8) (pid : UInt64)
    (trapExit : Bool) (actions : List LinkAction) :
    (∀ n, ((actions.take n).foldl (step atoms localNodeName) (new pid trapExit)).LinksEndOnce) ↔
      Runs.Meets (step atoms localNodeName) KeepsAcknowledged (new pid trapExit) actions := by
  have hwatched : ∀ n, ((actions.take n).foldl (step atoms localNodeName)
      (new pid trapExit)).Watched fun _ => False := by
    intro n
    exact List.foldlRecOn (motive := fun s : LinkSystem => s.Watched fun _ => False)
      (actions.take n) _ (watched_new pid trapExit) fun _ hs a _ => hs.step atoms localNodeName a
  rw [← Runs.forall_take_iff (I := fun s => Watched s (fun _ => False) ∧ s.NoneUnwound) ?_ ?_]
  · exact forall_congr' fun n =>
      (hwatched n).linksEndOnce_iff.trans (and_iff_right (hwatched n)).symm
  · rintro s a ⟨hs, hnone⟩
    exact (and_iff_right (hs.step atoms localNodeName a)).trans
      (noneUnwound_step_iff hnone atoms localNodeName a)
  · exact ⟨watched_new pid trapExit, fun _ => List.not_mem_nil⟩

/-- A link that the peer established, with its connection gone and the event not handled yet. The
process links again, which is refused, and the link is taken away without a signal. -/
theorem not_remote_links_end_once :
    ¬ ([.connection (.register 0 .inbound 0), .inboundLink ⟨0, 7, 0⟩,
        .connection (.markDown 0 .readError), .connection (.connectionDown 0),
        .linkRemote ⟨0, 7, 0⟩, .advance (.sendLink ⟨0, 7, 0⟩) true,
        .advance (.unwind ⟨0, 7, 0⟩) true].foldl
      (step .withCommonAtoms (AtomTable.ascii "z")) (new 1 true)).LinksEndOnce := by
  intro h
  refine h.unwound ⟨0, 7, 0⟩ ?_
  decide +kernel

end LinkSystem
end Beamr.Scheduler
