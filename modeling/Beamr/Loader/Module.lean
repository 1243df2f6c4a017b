import Beamr.Loader.Validate
import Beamr.Scheduler.Capabilities

/-!
# Loaded modules

What the loader makes of a parsed module: exports and labels as maps, and the tables of functions
and lines in the order of the code.
-/
namespace Beamr.Loader

open Scheduler (Capability)

inductive DirtySchedulerKind
  | cpu | io
  deriving DecidableEq

/-- A registered native function, by its address. -/
structure NativeEntry where
  function : ℕ
  dirtyKind : Option DirtySchedulerKind
  capability : Capability
  deriving DecidableEq

inductive Module.ResolvedImportTarget
  | code (module : Atom) (label : ℕ)
  | native (entry : NativeEntry)
  | denied (capability : Capability)
  | deferred (module function : Atom) (arity : ℕ)
  | unresolved (module function : Atom) (arity : ℕ)
  deriving DecidableEq

structure Module.ResolvedImport where
  module : Atom
  function : Atom
  arity : ℕ
  target : Module.ResolvedImportTarget
  deriving DecidableEq

open Loader.Module (ResolvedImport ResolvedImportTarget)

inductive ModuleOrigin
  | filesystem (path : String) | embedded | preloaded | fetched
  deriving DecidableEq

structure Module where
  name : Atom
  generation : ℕ
  origin : ModuleOrigin
  exports : Atom × ℕ → Option ℕ
  labelIndex : ℕ → Option ℕ
  code : List Instruction
  functionTable : List (ℕ × Atom × ℕ)
  lineTable : List (ℕ × ℕ)
  literals : List Literal
  resolvedImports : List ResolvedImport
  lambdas : List LambdaEntry
  stringTable : List UInt8
  lineInfo : List LineInfo

/-- A map collected from pairs: of those with one key, the last counts. -/
def collected {K V : Type} [DecidableEq K] (pairs : List (K × V)) (key : K) : Option V :=
  (pairs.reverse.find? fun pair => pair.1 = key).map Prod.snd

/-- `operand_usize` of the loader. -/
def operandIndex : Operand → Option ℕ
  | .unsigned value => some value
  | .integer value => if 0 ≤ value then some value.toNat else none
  | _ => none

/-- `operand_u8` of the loader. -/
def operandArity (operand : Operand) : Option ℕ :=
  (operandIndex operand).filter fun value => value < 2 ^ 8

def operandAtom : Operand → Option Atom
  | .atom (some atom) => some atom
  | _ => none

/-- `iter().enumerate().filter_map(..)` from the given index on. -/
def filterMapFrom {α β : Type} (f : ℕ → α → Option β) : ℕ → List α → List β
  | _, [] => []
  | ip, a :: rest =>
    match f ip a with
    | some b => b :: filterMapFrom f (ip + 1) rest
    | none => filterMapFrom f (ip + 1) rest

def labelEntry (ip : ℕ) : Instruction → Option (ℕ × ℕ)
  | .label label => some (label, ip)
  | _ => none

def functionEntry (ip : ℕ) : Instruction → Option (ℕ × Atom × ℕ)
  | .funcInfo _ function arity =>
    match operandAtom function, operandArity arity with
    | some function, some arity => some (ip, function, arity)
    | _, _ => none
  | _ => none

def lineEntry (ip : ℕ) : Instruction → Option (ℕ × ℕ)
  | .line index => (operandIndex index).map fun index => (ip, index)
  | _ => none

/-- The index from labels to instructions; `jit::aot` has one of its own that reads the same. -/
def labelIndex (instructions : List Instruction) : ℕ → Option ℕ :=
  collected (filterMapFrom labelEntry 0 instructions)

/-- `materialise` builds the constant pool, or refuses the literals. -/
def moduleFromParsed (materialise : List Literal → Except LoadError Unit) (parsed : ParsedModule)
    (resolvedImports : List ResolvedImport) (origin : ModuleOrigin) : Except LoadError Module := do
  materialise parsed.literals
  .ok {
    name := parsed.name
    generation := 0
    origin
    exports := collected (parsed.exports.map fun e => ((e.function, e.arity), e.label))
    labelIndex := labelIndex parsed.instructions
    code := parsed.instructions
    functionTable := filterMapFrom functionEntry 0 parsed.instructions
    lineTable := filterMapFrom lineEntry 0 parsed.instructions
    literals := parsed.literals
    resolvedImports
    lambdas := parsed.lambdas
    stringTable := parsed.stringTable
    lineInfo := parsed.lineInfo }

end Beamr.Loader
