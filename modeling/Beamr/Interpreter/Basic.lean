import Beamr.Loader.Opcodes
import Beamr.Term.Tagged

/-!
# Operands of the interpreter

Registers, and reading and writing the operands of an instruction. X registers are
the words of one flat buffer, Y registers those of the current stack frame.
-/
namespace Beamr.Interpreter

open Loader Term

/-- Errors of an instruction. An index past the end of the X buffer panics in the source. -/
inductive ExecError where
  | badarg
  | invalidOperand (context : String)
  | yRegisterOutOfBounds (index slots : ℕ)
  | indexOutOfBounds (index : ℕ)
  | invalidImport (index : ℕ)
  | guardBifUnavailable
  | heapFull (requested available : ℕ)
  | invalidLabel (label : ℕ)
  deriving DecidableEq, Repr

/-- Where an instruction that may branch goes on. -/
inductive Branch
  | next
  | fail
  deriving DecidableEq

structure Registers where
  x : ℕ → Word
  y : List Word

def xRegisterCount : ℕ := 1024

def u16FromU32 (value : ℕ) (context : String) : Except ExecError ℕ :=
  if value < 2 ^ 16 then .ok value else .error (.invalidOperand context)

/-- Integers that fit an immediate. -/
def trySmallInt (value : ℤ) : Option Word :=
  if h : -(2 ^ 60) ≤ value ∧ value < 2 ^ 60 then some (Word.ofSmallInt (.ofRange value h)) else none

def Registers.xReg (registers : Registers) (index : ℕ) : Except ExecError Word :=
  if index < xRegisterCount then .ok (registers.x index) else .error (.indexOutOfBounds index)

def Registers.yReg (registers : Registers) (index : ℕ) : Except ExecError Word :=
  match registers.y[index]? with
  | some w => .ok w
  | none => .error (.yRegisterOutOfBounds index registers.y.length)

def readSmallInt (value : ℤ) : Except ExecError Word :=
  match trySmallInt value with
  | some w => .ok w
  | none => .error .badarg

def readX (registers : Registers) (index : ℕ) : Except ExecError Word := do
  let n ← u16FromU32 index "X register"
  registers.xReg n

def readY (registers : Registers) (index : ℕ) : Except ExecError Word := do
  let n ← u16FromU32 index "Y register"
  registers.yReg n

def literalTerm (literals : List Word) (index : ℕ) : Except ExecError Word :=
  match literals[index]? with
  | some w => .ok w
  | none => .error (.invalidOperand "literal index")

def readTerm (registers : Registers) (literals : List Word) : Operand → Except ExecError Word
  | .integer value => readSmallInt value
  | .unsigned value => readSmallInt value
  | .atom (some a) => .ok (Word.ofAtom a)
  | .atom none => .ok Word.nil
  | .x index => readX registers index
  | .y index => readY registers index
  | .literal index => literalTerm literals index
  | .typedRegister register _ => readTerm registers literals register
  | _ => .error (.invalidOperand "term source")

theorem u16FromU32_bind {α : Type} {value : ℕ} {context : String} {f : ℕ → Except ExecError α}
    {a : α} : (u16FromU32 value context >>= f) = .ok a ↔ value < 2 ^ 16 ∧ f value = .ok a := by
  by_cases h : value < 2 ^ 16
  · rw [u16FromU32, if_pos h, and_iff_right h]
    rfl
  · rw [u16FromU32, if_neg h]
    exact ⟨fun hbind => (by cases hbind), fun hbind => absurd hbind.1 h⟩

theorem readTerm_x {registers : Registers} {literals : List Word} {index : ℕ} {w : Word} :
    readTerm registers literals (.x index) = .ok w ↔
      index < 2 ^ 16 ∧ index < xRegisterCount ∧ registers.x index = w := by
  rw [readTerm, readX, u16FromU32_bind, Registers.xReg]
  by_cases h : index < xRegisterCount
  · rw [if_pos h, Except.ok.injEq, and_iff_right h]
  · rw [if_neg h]
    exact ⟨fun hr => (by cases hr.2), fun hr => absurd hr.2.1 h⟩

theorem readTerm_y {registers : Registers} {literals : List Word} {index : ℕ} {w : Word} :
    readTerm registers literals (.y index) = .ok w ↔
      index < 2 ^ 16 ∧ registers.y[index]? = some w := by
  rw [readTerm, readY, u16FromU32_bind, Registers.yReg]
  cases registers.y[index]? with
  | none => exact ⟨fun hr => (by cases hr.2), fun hr => (by cases hr.2)⟩
  | some v => simp only [Except.ok.injEq, Option.some.injEq]

/-- One X register replaced. -/
def Registers.setX (registers : Registers) (index : ℕ) (w : Word) : Registers :=
  { registers with x := Function.update registers.x index w }

def Registers.setY (registers : Registers) (index : ℕ) (w : Word) : Registers :=
  { registers with y := registers.y.set index w }

def writeX (registers : Registers) (w : Word) (index : ℕ) : Except ExecError Registers := do
  let n ← u16FromU32 index "X register"
  if n < xRegisterCount then .ok (registers.setX n w) else .error (.indexOutOfBounds n)

def writeY (registers : Registers) (w : Word) (index : ℕ) : Except ExecError Registers := do
  let n ← u16FromU32 index "Y register"
  if n < registers.y.length then .ok (registers.setY n w)
  else .error (.yRegisterOutOfBounds n registers.y.length)

def writeTerm (registers : Registers) (w : Word) : Operand → Except ExecError Registers
  | .x index => writeX registers w index
  | .y index => writeY registers w index
  | .typedRegister register _ => writeTerm registers w register
  | _ => .error (.invalidOperand "term destination")

/-- An operand that names a register of the buffer or of a frame with so many slots. -/
def Writable (slots : ℕ) : Operand → Prop
  | .x index => index < xRegisterCount
  | .y index => index < 2 ^ 16 ∧ index < slots
  | .typedRegister register _ => Writable slots register
  | _ => False

theorem writeTerm_writable {registers : Registers} {destination : Operand}
    (h : Writable registers.y.length destination) (w : Word) :
    ∃ written, writeTerm registers w destination = .ok written := by
  fun_induction writeTerm registers w destination with
  | case1 index =>
    rw [Writable] at h
    have hindex : index < 2 ^ 16 := h.trans (by decide)
    exact ⟨registers.setX index w, u16FromU32_bind.mpr ⟨hindex, if_pos h⟩⟩
  | case2 index =>
    rw [Writable] at h
    exact ⟨registers.setY index w, u16FromU32_bind.mpr ⟨h.1, if_pos h.2⟩⟩
  | case3 register type ih =>
    rw [Writable] at h
    exact ih h
  | case4 operand hx hy ht =>
    exfalso
    unfold Writable at h
    split at h
    · exact hx _ rfl
    · exact hy _ rfl
    · exact ht _ _ rfl
    · exact h

end Beamr.Interpreter
