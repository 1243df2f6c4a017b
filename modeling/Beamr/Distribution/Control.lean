import Beamr.Distribution.ProcessGroups
import Beamr.Etf.Decode
import Beamr.Scheduler.Delivery

/-!
# Control frames

`distribution::control` and `distribution::control_link`. A control frame is a tuple, decoded on the
heap of a process of its own, that asks the node to deliver a payload or to change its links or
process groups. The sinks of the node are called at most once for a frame.
-/
namespace Beamr.Distribution

open Etf Term ByteOrder

structure RemotePid where
  node : Atom
  pidNumber : UInt64
  serial : UInt64
  deriving DecidableEq

inductive ControlMessage
  | send (toPid : UInt64)
  | regSend (toName : Atom)
  | pgJoin (scope group node : Atom) (pidNumber serial : UInt64)
  | pgLeave (scope group node : Atom) (pidNumber serial : UInt64)
  | link (source : RemotePid) (toPid : UInt64)
  | unlink (source : RemotePid) (toPid : UInt64)
  | exit (source : RemotePid) (toPid : UInt64) (reason : Scheduler.ExitReason)
  | exit2 (source : RemotePid) (toPid : UInt64) (reason : Scheduler.ExitReason)
  deriving DecidableEq

inductive ControlError
  | invalidFrame
  | decode (error : DecodeError)
  | invalidControl
  | misAddressed
  deriving DecidableEq

namespace ControlOp

def link : ℤ := 1
def send : ℤ := 2
def exit : ℤ := 3
def unlink : ℤ := 4
def regSend : ℤ := 6
def exit2 : ℤ := 8

end ControlOp

def pgUpdate : ℤ := 101

def pgJoinTag : ℤ := 1
def pgLeaveTag : ℤ := 2

/-! ## Frames -/

def encodeFrame (table : AtomTable) (control message : Value) :
    Except EncodeError (List UInt8) := do
  let controlEtf ← encodeTerm table control
  let payloadEtf ← encodeTerm table message
  let controlLen ← u32Of controlEtf.length
  let payloadLen ← u32Of payloadEtf.length
  .ok (beBytes 4 controlLen ++ beBytes 4 payloadLen ++ controlEtf ++ payloadEtf)

/-- The control tuple of an update, whose member carries the name of this node. -/
def pgUpdateTerm (localNode : Atom) : PgUpdate → Value
  | .join scope group pid => .tuple [smallInt 101, smallInt 1, .atom scope,
      .atom group, .pid (.remote localNode pid 0)]
  | .leave scope group pid => .tuple [smallInt 101, smallInt 2, .atom scope,
      .atom group, .pid (.remote localNode pid 0)]

def encodePgUpdateFrame (table : AtomTable) (update : PgUpdate) (localNode : Atom) :
    Except EncodeError (List UInt8) :=
  encodeFrame table (pgUpdateTerm localNode update) .nil

/-- The control and the payload of a frame. -/
def splitFrame (frame : List UInt8) : Except ControlError (List UInt8 × List UInt8) :=
  if frame.length < 8 then .error .invalidFrame
  else
    let controlLen := beNat (frame.take 4)
    let payloadLen := beNat ((frame.drop 4).take 4)
    if 8 + controlLen + payloadLen = frame.length then
      .ok ((frame.drop 8).take controlLen, (frame.drop (8 + controlLen)).take payloadLen)
    else .error .invalidFrame

/-! ## Decoding -/

section Decode

/-- The heap of the process a control frame is decoded on. Fresh it has room for 64 words. -/
structure ControlHeap (H : Type) where
  context : DecodeContext H
  fresh : H
  limit : 64 ≤ context.maxHeapWords
  grants : ∀ requests : List ℕ, requests.sum ≤ 64 →
    ∃ heap, requests.foldlM context.allocWords fresh = some heap

/-- A heap that counts its free words grants what is free. -/
theorem foldlM_free (requests : List ℕ) {free : ℕ} (h : requests.sum ≤ free) :
    ∃ heap, requests.foldlM (fun free n => if n ≤ free then some (free - n) else none) free =
      some heap := by
  induction requests generalizing free with
  | nil => exact ⟨free, rfl⟩
  | cons n rest ih =>
    rw [List.sum_cons] at h
    obtain ⟨heap, hheap⟩ := ih (show rest.sum ≤ free - n by omega)
    refine ⟨heap, ?_⟩
    rw [List.foldlM_cons, if_pos (by omega)]
    exact hheap

def countingHeap : ControlHeap ℕ where
  context := ⟨131072, fun free n => if n ≤ free then some (free - n) else none⟩
  fresh := 64
  limit := by decide
  grants := fun requests h => foldlM_free requests h

def asSmallInt : Value → Option ℤ
  | .number (.smallInt n) => some n.value
  | _ => none

def asAtom : Value → Option Atom
  | .atom a => some a
  | _ => none

def asPid : Value → Option PidRef
  | .pid p => some p
  | _ => none

def remotePid : PidRef → Option RemotePid
  | .local _ => none
  | .remote node number serial => some ⟨node, number, serial⟩

/-- An element of the control tuple as a value of a kind. -/
def field {α : Type} (elements : List Value) (i : ℕ) (kind : Value → Option α) :
    Except ControlError α :=
  match elements[i]?.bind kind with
  | some a => .ok a
  | none => .error .invalidControl

def refuseIf (p : Bool) (e : ControlError) : Except ControlError Unit := if p then .error e else .ok ()

def isNodeLessMarker (atoms : AtomTable) (node : Atom) : Bool :=
  atoms.resolve node == some nonodeNohost

/-- The node a frame is for is this one, where the receiver says which it is. -/
def elsewhere (localNode : Option Atom) (node : Atom) : Bool := localNode.any (· != node)

def decodePgUpdate (elements : List Value) : Except ControlError ControlMessage := do
  let tag ← field elements 1 asSmallInt
  let scope ← field elements 2 asAtom
  let group ← field elements 3 asAtom
  let member ← field elements 4 fun v => (asPid v).bind remotePid
  if tag = pgJoinTag then .ok (.pgJoin scope group member.node member.pidNumber member.serial)
  else if tag = pgLeaveTag then
    .ok (.pgLeave scope group member.node member.pidNumber member.serial)
  else .error .invalidControl

/-- Both ends of a link control are processes of a named node. -/
def linkEndpoints (atoms : AtomTable) (localNode : Option Atom) (elements : List Value) :
    Except ControlError (RemotePid × UInt64) := do
  let source ← field elements 1 fun v => (asPid v).bind remotePid
  refuseIf (isNodeLessMarker atoms source.node) .invalidControl
  let target ← field elements 2 fun v => (asPid v).bind remotePid
  refuseIf (isNodeLessMarker atoms target.node) .invalidControl
  refuseIf (elsewhere localNode target.node) .misAddressed
  .ok (source, target.pidNumber)

def atomNormal : Atom := 6
def atomKill : Atom := 7
def atomNoproc : Atom := 18
def atomKilled : Atom := 20
def atomNoconnection : Atom := 66

def exitReasonFromWire (atom : Atom) : Scheduler.ExitReason :=
  if atom = atomNormal then .normal
  else if atom = atomKill then .kill
  else if atom = atomKilled then .killed
  else if atom = atomNoconnection then .noConnection
  else if atom = atomNoproc then .noProc
  else .error

def wireReason (elements : List Value) : Except ControlError Scheduler.ExitReason := do
  .ok (exitReasonFromWire (← field elements 3 asAtom))

def sendTarget (atoms : AtomTable) (localNode : Option Atom) (elements : List Value) :
    Except ControlError UInt64 := do
  let target ← field elements 2 asPid
  refuseIf (target.node.any fun node => elsewhere localNode node && !isNodeLessMarker atoms node)
    .misAddressed
  .ok target.pidNumber

/-- The message of a decoded control tuple. -/
def controlMessage (atoms : AtomTable) (localNode : Option Atom) :
    Value → Except ControlError ControlMessage
  | .tuple elements =>
    let op := elements[0]?.bind asSmallInt
    if op = some ControlOp.send ∧ elements.length = 3 then do
      .ok (.send (← sendTarget atoms localNode elements))
    else if op = some ControlOp.regSend ∧ elements.length = 4 then do
      .ok (.regSend (← field elements 3 asAtom))
    else if op = some pgUpdate ∧ elements.length = 5 then decodePgUpdate elements
    else if op = some ControlOp.link ∧ elements.length = 3 then do
      let ends ← linkEndpoints atoms localNode elements
      .ok (.link ends.1 ends.2)
    else if op = some ControlOp.unlink ∧ elements.length = 3 then do
      let ends ← linkEndpoints atoms localNode elements
      .ok (.unlink ends.1 ends.2)
    else if op = some ControlOp.exit ∧ elements.length = 4 then do
      let ends ← linkEndpoints atoms localNode elements
      .ok (.exit ends.1 ends.2 (← wireReason elements))
    else if op = some ControlOp.exit2 ∧ elements.length = 4 then do
      let ends ← linkEndpoints atoms localNode elements
      .ok (.exit2 ends.1 ends.2 (← wireReason elements))
    else .error .invalidControl
  | _ => .error .invalidControl

variable {H : Type} (heap : ControlHeap H) (inflate : InflateStream)

/-- The term of a control frame, with the atoms it interned. -/
def decodeControlTerm (atoms : AtomTable) (controlEtf : List UInt8) :
    Except DecodeError (Value × AtomTable) :=
  match decodeTermWithOptions heap.context {} inflate ⟨atoms, heap.fresh⟩ controlEtf with
  | .error e => .error e
  | .ok (decoded, s) => .ok (decoded.term, s.atoms)

def decodeControlAddressed (atoms : AtomTable) (localNode : Option Atom)
    (controlEtf : List UInt8) : Except ControlError (ControlMessage × AtomTable) :=
  match decodeControlTerm heap inflate atoms controlEtf with
  | .error e => .error (.decode e)
  | .ok (term, atoms) =>
    match controlMessage atoms localNode term with
    | .error e => .error e
    | .ok message => .ok (message, atoms)

end Decode

/-! ## Dispatch -/

inductive LinkSignal
  | link
  | unlink
  | linkExit (reason : Scheduler.ExitReason)
  | exit2 (reason : Scheduler.ExitReason)
  deriving DecidableEq

/-- A call of the link sink on behalf of a process of another node. -/
structure LinkCall where
  source : RemotePid
  toPid : UInt64
  signal : LinkSignal
  deriving DecidableEq

/-- What the node hands to the dispatcher: how a delivery answers, the registered names, whether
there are sinks for groups and links, and the node it trusts the frame to come from. -/
structure ControlSinks where
  deliverPayload : UInt64 → List UInt8 → Bool
  registry : Option (Atom → Option UInt64)
  pg : Bool
  links : Bool
  originNode : Option Atom
  localNode : Option Atom

/-- The node behind the sinks: its groups, and the calls of the other sinks so far. -/
structure Received where
  atoms : AtomTable
  pg : PgState
  links : List LinkCall
  payloads : List (UInt64 × List UInt8)

namespace ControlSinks

variable (sinks : ControlSinks)

def deliver (toPid : UInt64) (payload : List UInt8) (r : Received) : Bool × Received :=
  (sinks.deliverPayload toPid payload, { r with payloads := r.payloads ++ [(toPid, payload)] })

/-- A link control of a process that is not of the origin is dropped. -/
def linkSink (source : RemotePid) : Bool :=
  if sinks.originNode.any (source.node != ·) then false else sinks.links

def callLink (call : LinkCall) (r : Received) : Bool × Received :=
  if sinks.linkSink call.source then (true, { r with links := r.links ++ [call] }) else (false, r)

def callPg (edit : PgState → PgState) (r : Received) : Bool × Received :=
  if sinks.pg then (true, { r with pg := edit r.pg }) else (false, r)

def dispatch (payload : List UInt8) (r : Received) : ControlMessage → Bool × Received
  | .send toPid => sinks.deliver toPid payload r
  | .regSend toName =>
    match sinks.registry.bind (· toName) with
    | none => (false, r)
    | some pid => sinks.deliver pid payload r
  | .pgJoin scope group node pidNumber serial =>
    sinks.callPg (·.applyRemoteJoin scope group node pidNumber serial) r
  | .pgLeave scope group node pidNumber serial =>
    sinks.callPg (·.applyRemoteLeave scope group node pidNumber serial) r
  | .link source toPid => sinks.callLink ⟨source, toPid, .link⟩ r
  | .unlink source toPid => sinks.callLink ⟨source, toPid, .unlink⟩ r
  | .exit source toPid reason => sinks.callLink ⟨source, toPid, .linkExit reason⟩ r
  | .exit2 source toPid reason => sinks.callLink ⟨source, toPid, .exit2 reason⟩ r

end ControlSinks

/-- Dispatches a frame to the sinks. A frame that is refused changes nothing. -/
def dispatchFrame {H : Type} (heap : ControlHeap H) (inflate : InflateStream)
    (sinks : ControlSinks) (controlEtf payloadEtf : List UInt8) (r : Received) :
    Except ControlError Bool × Received :=
  match decodeControlAddressed heap inflate r.atoms sinks.localNode controlEtf with
  | .error e => (.error e, r)
  | .ok (message, atoms) =>
    let (answer, r) := sinks.dispatch payloadEtf { r with atoms } message
    (.ok answer, r)

end Beamr.Distribution
