import Beamr.Term.Tagged

/-!
# Returning from compiled code

What the interpreter does when compiled code returns, and the send helper. A helper that fails
parks its error on the process and leaves compiled code through the deopt exit; the error is
looked at before the status, so that exit does not restart the function.
-/
namespace Beamr.Jit

open Term

def jitStatusException : ℕ := 1

def jitStatusDeopt : ℕ := 2

def jitStatusYield : ℕ := 3

def jitDeoptSentinel : Word := BitVec.ofInt 64 (-1)

def jitYieldSentinel : Word := BitVec.ofInt 64 (-2)

/-- Status and value of a compiled function. -/
structure JitReturn where
  status : ℕ
  value : Word

/-- What helpers left on the process: an error, the end of a nested run, a yield. -/
structure Parked (ε τ : Type) where
  execError : Option ε
  transfer : Option τ
  yield : Bool

/-- How the call of a compiled function goes on. -/
inductive NativeOutcome (ε τ : Type)
  | error (e : ε)
  | transfer (t : τ)
  | yield
  /-- The exception on the process is offered to its handlers. -/
  | raised
  /-- The function starts again in the interpreter. -/
  | restart
  | returned (value : Word)

def callNative {ε τ : Type} (parked : Parked ε τ) (returned : JitReturn) :
    NativeOutcome ε τ :=
  match parked.execError, parked.transfer with
  | some e, _ => .error e
  | none, some t => .transfer t
  | none, none =>
    if parked.yield then .yield
    else if returned.status = jitStatusException then .raised
    else if returned.status = jitStatusDeopt then .restart
    else if returned.status = jitStatusYield then .yield
    else if returned.value = jitYieldSentinel then .yield
    else if returned.value = jitDeoptSentinel then .restart
    else .returned returned.value

/-! ## Send -/

inductive SendStatus
  | sent
  | abort
  deriving DecidableEq

/-- A process id: of this node, or of another. -/
inductive PidRef
  | localPid (number : ℕ)
  | remote

/-- What the send helper reaches through the process; a missing facility is `none`. -/
structure SendServices (ε : Type) where
  pid : ℕ
  pidRef : Word → Option PidRef
  badarg : ε
  noConnection : ε
  sendRemote : Option (Word → Word → Except ε Unit)
  sendToSelf : Word → Except ε Unit
  sendLocal : Option (ℕ → Word → Except ε Unit)

/-- An arm of the send helper: the status with the error it parks. -/
def sendReturn {ε : Type} : Except ε Unit → SendStatus × Option ε
  | .ok _ => (.sent, none)
  | .error e => (.abort, some e)

def jitSendMessage {ε : Type} (services : SendServices ε) (dest message : Word) :
    SendStatus × Option ε :=
  match services.pidRef dest with
  | none => (.abort, some services.badarg)
  | some .remote =>
    match services.sendRemote with
    | none => (.abort, some services.noConnection)
    | some send => sendReturn (send dest message)
  | some (.localPid number) =>
    if number = services.pid then sendReturn (services.sendToSelf message)
    else
      match services.sendLocal with
      | some send => sendReturn (send number message)
      | none => (.sent, none)

theorem sendReturn_abort {ε : Type} {result : Except ε Unit}
    (h : (sendReturn result).1 ≠ .sent) : ∃ e, (sendReturn result).2 = some e := by
  cases result with
  | ok _ => exact absurd rfl h
  | error e => exact ⟨e, rfl⟩

/-- A send that does not succeed has parked its error. -/
theorem jitSendMessage_abort {ε : Type} {services : SendServices ε} {dest message : Word}
    (h : (jitSendMessage services dest message).1 ≠ .sent) :
    ∃ e, (jitSendMessage services dest message).2 = some e := by
  unfold jitSendMessage at h ⊢
  split
  next => exact ⟨_, rfl⟩
  next hremote =>
    split
    next => exact ⟨_, rfl⟩
    next send hsend =>
      simp only [hremote, hsend] at h
      exact sendReturn_abort h
  next number hlocal =>
    simp only [hlocal] at h
    split
    next hself =>
      rw [if_pos hself] at h
      exact sendReturn_abort h
    next hself =>
      rw [if_neg hself] at h
      split
      next send hsend =>
        simp only [hsend] at h
        exact sendReturn_abort h
      next hsend =>
        simp only [hsend] at h
        exact absurd rfl h

/-- An abort of a send ends the call with the error of the send. -/
theorem callNative_abort {ε τ : Type} {services : SendServices ε} {dest message : Word}
    (h : (jitSendMessage services dest message).1 ≠ .sent) (parked : Parked ε τ)
    (returned : JitReturn)
    (hparked : parked.execError = (jitSendMessage services dest message).2) :
    ∃ e, callNative parked returned = .error e := by
  obtain ⟨e, he⟩ := jitSendMessage_abort h
  refine ⟨e, ?_⟩
  unfold callNative
  rw [hparked, he]

end Beamr.Jit
