import Mathlib.Data.List.Basic

/-!
# Mailbox

Senders append to the arrival queue; the owner moves arrivals to its scan list and takes
messages out of the scan list at the save pointer. A receive marker remembers a position of
the scan list under a key.
-/
namespace Beamr.Messaging

structure Mailbox (K M : Type) where
  arrival : List M
  scanList : List M
  savePointer : ℕ
  recvMarker : Option (K × ℕ)

namespace Mailbox

variable {K M : Type}

def new : Mailbox K M := ⟨[], [], 0, none⟩

def drainArrival (m : Mailbox K M) : Mailbox K M :=
  { m with arrival := [], scanList := m.scanList ++ m.arrival }

/-- The message under the save pointer, after draining. -/
def currentMessage (m : Mailbox K M) : Option M × Mailbox K M :=
  (m.drainArrival.scanList[m.savePointer]?, m.drainArrival)

def advanceSavePointer (m : Mailbox K M) : Mailbox K M :=
  { m with savePointer := min (m.savePointer + 1) m.scanList.length }

/-- Takes the message under the save pointer and starts scanning again. -/
def removeCurrentMessage (m : Mailbox K M) : Option M × Mailbox K M :=
  match m.drainArrival.scanList[m.savePointer]? with
  | some message =>
    (some message, { m.drainArrival with
      scanList := m.drainArrival.scanList.eraseIdx m.savePointer
      savePointer := 0 })
  | none => (none, m.drainArrival)

@[simp] theorem arrival_removeCurrentMessage (m : Mailbox K M) :
    m.removeCurrentMessage.2.arrival = [] := by
  unfold removeCurrentMessage
  split <;> rfl

def resetSavePointer (m : Mailbox K M) : Mailbox K M :=
  { m with savePointer := 0 }

/-! ## Receive markers -/

/-- The position after the messages that have arrived. -/
def reserveSaveMarker (m : Mailbox K M) : ℕ × Mailbox K M :=
  (m.drainArrival.scanList.length, m.drainArrival)

def setSavePointer (m : Mailbox K M) (marker : ℕ) : Mailbox K M :=
  { m.drainArrival with savePointer := min marker m.drainArrival.scanList.length }

def bindRecvMarker (m : Mailbox K M) (key : K) (marker : ℕ) : Mailbox K M :=
  { m.drainArrival with recvMarker := some (key, min marker m.drainArrival.scanList.length) }

/-- Whether the key is bound, and the mailbox with its save pointer at the bound position. -/
def useRecvMarker [BEq K] (m : Mailbox K M) (key : K) : Bool × Mailbox K M :=
  match m.recvMarker with
  | none => (false, m)
  | some (boundKey, marker) =>
    if boundKey != key then (false, m)
    else (true, m.setSavePointer marker)

def clearRecvMarker [BEq K] (m : Mailbox K M) (key : K) : Mailbox K M :=
  if m.recvMarker.any fun bound => bound.1 == key then { m with recvMarker := none }
  else m

/-! ## Delivery -/

/-- A message whose storage the owner has already goes straight to the scan list. -/
def pushOwned (m : Mailbox K M) (message : M) : Mailbox K M :=
  { m with scanList := m.scanList ++ [message] }

/-- The sender's end of the queue. -/
def enqueueCopied (m : Mailbox K M) (message : M) : Mailbox K M :=
  { m with arrival := m.arrival ++ [message] }

/-! ## Selective receive -/

/-- The first message that the matcher accepts; a matcher may remember what it has tested. -/
def firstMatch (accepts : List M → M → Bool) : List M → List M → Option ℕ
  | _, [] => none
  | tested, message :: rest =>
    if accepts tested message then some 0
    else (firstMatch accepts (tested ++ [message]) rest).map (· + 1)

/-- Takes the first acceptable message from the save pointer on; without one the save pointer
moves to the end. -/
def receive (m : Mailbox K M) (accepts : List M → M → Bool) : Option M × Mailbox K M :=
  let drained := m.drainArrival
  let start := min m.savePointer drained.scanList.length
  match firstMatch accepts [] (drained.scanList.drop start) with
  | some offset =>
    (drained.scanList[start + offset]?, { drained with
      scanList := drained.scanList.eraseIdx (start + offset)
      savePointer := 0 })
  | none => (none, { drained with savePointer := drained.scanList.length })

end Mailbox

end Beamr.Messaging
