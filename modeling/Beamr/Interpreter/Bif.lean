import Beamr.Native.Arithmetic

/-!
# Guard BIFs

The interpreter's bif instructions: find the import, call the native it resolved to and
write the result, or take the fail label.
-/
namespace Beamr.Interpreter

open Loader Term Native

inductive ResolvedImportTarget
  | code
  | native (entry : NativeFunction)
  | denied
  | deferred
  | unresolved

structure ResolvedImport where
  arity : ℕ
  target : ResolvedImportTarget

/-- Words of an allocation operand; a fun needs seven. -/
def Allocation.wordCount : Loader.Allocation → ℕ
  | .words n => n
  | .floats n => n * 2
  | .funs n => n * 7
  | .unknown _ _ => 0

def operandUsize (operand : Operand) (context : String) : Except ExecError ℕ :=
  match operand with
  | .unsigned value => .ok value
  | .integer value => if 0 ≤ value then .ok value.toNat else .error (.invalidOperand context)
  | .allocation entries => .ok (entries.map Allocation.wordCount).sum
  | _ => .error (.invalidOperand context)

def operandLabel (operand : Operand) : Except ExecError ℕ :=
  match operand with
  | .label label => .ok label
  | .unsigned value => if value < 2 ^ 32 then .ok value else .error (.invalidOperand "label")
  | .integer value =>
    if 0 ≤ value ∧ value < 2 ^ 32 then .ok value.toNat else .error (.invalidOperand "label")
  | _ => .error (.invalidOperand "label")

structure ParsedBif where
  fail : Operand
  importIndex : Operand
  args : List Operand
  destination : Operand
  live : Option Operand
  expectedArity : ℕ

def bifArity : BifOp → ℕ
  | .bif0 => 0
  | .bif1 | .gcBif1 => 1
  | .bif2 | .gcBif2 => 2
  | .gcBif3 => 3

def parseBifOperands (op : BifOp) (operands : List Operand) : Except ExecError ParsedBif :=
  match op with
  | .bif0 =>
    match operands with
    | [importIndex, destination] =>
      .ok ⟨.label 0, importIndex, [], destination, none, 0⟩
    | _ => .error (.invalidOperand "bif0 operands")
  | .bif1 | .bif2 =>
    match operands with
    | fail :: importIndex :: rest =>
      if rest.length = bifArity op + 1 then
        .ok ⟨fail, importIndex, rest.take (bifArity op), rest.getD (bifArity op) (.label 0), none,
          bifArity op⟩
      else .error (.invalidOperand "bif operands")
    | _ => .error (.invalidOperand "bif operands")
  | .gcBif1 | .gcBif2 | .gcBif3 =>
    match operands with
    | fail :: second :: rest =>
      if rest.length = bifArity op + 1 then
        .ok ⟨fail, second, rest.take (bifArity op), rest.getD (bifArity op) (.label 0), none,
          bifArity op⟩
      else
        match rest with
        | importIndex :: rest =>
          if rest.length = bifArity op + 1 then
            .ok ⟨fail, importIndex, rest.take (bifArity op), rest.getD (bifArity op) (.label 0),
              some second, bifArity op⟩
          else .error (.invalidOperand "gc_bif operands")
        | [] => .error (.invalidOperand "gc_bif operands")
    | _ => .error (.invalidOperand "gc_bif operands")

/-- How a bif instruction goes on, with the word it wrote. -/
inductive BifOutcome
  | continue (written : Word) (context : Context)
  | jump (label : ℕ) (context : Context)

/-- Live registers of the instruction: all of them when it does not say. -/
def bifLive : Option Operand → Except ExecError ℕ
  | some operand => operandUsize operand "gc_bif live"
  | none => .ok 256

/-- Everything before the call: operands, live registers and the native of the import. -/
def resolveBif (imports : List ResolvedImport) (op : BifOp) (operands : List Operand) :
    Except ExecError (ParsedBif × ℕ × NativeFunction) := do
  let parsed ← parseBifOperands op operands
  let live ← bifLive parsed.live
  let index ← operandUsize parsed.importIndex "bif import index"
  match imports[index]? with
  | none => .error (.invalidImport index)
  | some resolved =>
    if resolved.arity ≠ parsed.expectedArity then .error (.invalidOperand "bif arity mismatch")
    else
      match resolved.target with
      | .native entry => .ok (parsed, live, entry)
      | _ => .error .guardBifUnavailable

/-- Write the result or take the fail label. -/
def finishBif (fail destination : Operand) : Except Word Word × Context → Except ExecError BifOutcome
  | (.ok result, context) => do
    let registers ← writeTerm context.registers result destination
    .ok (.continue result { context with registers })
  | (.error _, context) => do
    let label ← operandLabel fail
    if label = 0 then .error .badarg else .ok (.jump label context)

def bif_ (imports : List ResolvedImport) (literals : List Word) (memory : Memory)
    (registers : Registers) (op : BifOp) (operands : List Operand) :
    Except ExecError BifOutcome := do
  let (parsed, live, entry) ← resolveBif imports op operands
  let args ← parsed.args.mapM (readTerm registers literals)
  finishBif parsed.fail parsed.destination (entry.call ⟨memory, registers, live⟩ args)

end Beamr.Interpreter
