import Beamr.Interpreter.Basic

/-!
# Operands of compiled code

How compiled code reads and writes the operands of an instruction. The translator
refuses operands it cannot read; X registers are loaded without a bounds check, and
a Y register the frame does not have reads as nil and drops writes.
-/
namespace Beamr.Jit

open Loader Term Interpreter

inductive JitError where
  | emptyFunction
  | unsupportedOperand
  | unsupportedOpcode
  | unknownLabel (label : ℕ)
  deriving DecidableEq, Repr

/-- Where compiled code goes on. -/
inductive Exit
  | next
  | fail
  | deopt
  deriving DecidableEq

inductive Register
  | x (index : ℕ)
  | y (index : ℕ)
  deriving DecidableEq

def registerOperand : Operand → Except JitError Register
  | .x index => .ok (.x index)
  | .y index => .ok (.y index)
  | .typedRegister register _ => registerOperand register
  | _ => .error .unsupportedOperand

def jitYRead (registers : Registers) (index : ℕ) : Word :=
  if index < 2 ^ 16 then registers.y[index]?.getD Word.nil else Word.nil

def jitYWrite (registers : Registers) (index : ℕ) (w : Word) : Registers :=
  if index < 2 ^ 16 then registers.setY index w else registers

def readRegisterTerm (registers : Registers) : Register → Word
  | .x index => registers.x index
  | .y index => jitYRead registers index

def writeRegisterTerm (registers : Registers) (w : Word) : Register → Registers
  | .x index => registers.setX index w
  | .y index => jitYWrite registers index w

def smallIntConstant (value : ℤ) : Except JitError Word :=
  match trySmallInt value with
  | some w => .ok w
  | none => .error .unsupportedOperand

def readOperandTerm (registers : Registers) : Operand → Except JitError Word
  | .integer value => smallIntConstant value
  | .unsigned value => smallIntConstant value
  | .atom (some a) => .ok (Word.ofAtom a)
  | .atom none => .ok Word.nil
  | operand => (registerOperand operand).map (readRegisterTerm registers)

/-- Payload of a word with the tag of small integers; any other word leaves. -/
def checkedSmallIntPayload (w : Word) : Option (BitVec 64) :=
  if w &&& 7#64 = 0#64 then some (w.sshiftRight 3) else none

theorem checkedSmallIntPayload_eq (w : Word) :
    checkedSmallIntPayload w = if w.isSmallInt then some (w.sshiftRight 3) else none := by
  have htag : w &&& 7#64 = 0#64 ↔ w.tagBits = 0 := by
    rw [Word.tagBits]
    exact ⟨fun h => by rw [h]; rfl, fun h => BitVec.eq_of_toNat_eq h⟩
  simp only [checkedSmallIntPayload, htag, Word.isSmallInt_iff]

theorem registerOperand_read {registers : Registers} {literals : List Word} {operand : Operand}
    {register : Register} {w : Word} (haccepted : registerOperand operand = .ok register)
    (hread : readTerm registers literals operand = .ok w) :
    readRegisterTerm registers register = w := by
  fun_induction registerOperand operand with
  | case1 index =>
    cases haccepted
    exact (readTerm_x.mp hread).2.2
  | case2 index =>
    cases haccepted
    obtain ⟨hlt, hy⟩ := readTerm_y.mp hread
    rw [readRegisterTerm, jitYRead, if_pos hlt, hy, Option.getD_some]
  | case3 register type ih => exact ih haccepted (by rwa [readTerm] at hread)
  | case4 => cases haccepted

theorem smallIntConstant_ok {value : ℤ} {v : Word} :
    smallIntConstant value = .ok v ↔ trySmallInt value = some v := by
  rw [smallIntConstant]
  cases trySmallInt value <;> simp

/-- Compiled code reads what the interpreter reads. -/
theorem readOperandTerm_eq {registers : Registers} {literals : List Word} {operand : Operand}
    {v w : Word} (haccepted : readOperandTerm registers operand = .ok v)
    (hread : readTerm registers literals operand = .ok w) : v = w := by
  have hregister : ∀ {o : Operand}, (registerOperand o).map (readRegisterTerm registers) = .ok v →
      readTerm registers literals o = .ok w → v = w := by
    intro o hv hw
    cases ho : registerOperand o with
    | error e => rw [ho] at hv; cases hv
    | ok register =>
      rw [ho] at hv
      cases hv
      exact registerOperand_read ho hw
  unfold readOperandTerm at haccepted
  split at haccepted
  · next value =>
    rw [smallIntConstant_ok] at haccepted
    rw [readTerm, readSmallInt, haccepted] at hread
    exact Except.ok.inj hread
  · next value =>
    rw [smallIntConstant_ok] at haccepted
    rw [readTerm, readSmallInt, haccepted] at hread
    exact Except.ok.inj hread
  · rw [readTerm] at hread
    exact (Except.ok.inj haccepted).symm.trans (Except.ok.inj hread)
  · rw [readTerm] at hread
    exact (Except.ok.inj haccepted).symm.trans (Except.ok.inj hread)
  · exact hregister haccepted hread

end Beamr.Jit
