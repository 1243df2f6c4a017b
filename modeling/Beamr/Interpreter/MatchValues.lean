import Beamr.Interpreter.MatchCommands

/-!
# Match instructions by the values they extract

What a match instruction does with the context it is given: where it goes on, which terms it
writes and where it leaves the context. Registers and the heap are left to the instructions
themselves. The decoders of UTF-8, UTF-16 and UTF-32 are read here.
-/
namespace Beamr.Interpreter

open Loader Term ByteOrder

/-! ## Unicode -/

/-- Encodings of a codepoint. -/
inductive Utf
  | utf8
  | utf16
  | utf32
  deriving DecidableEq

def validCodepoint (codepoint : ℕ) : Bool :=
  codepoint ≤ 0x10ffff && !(0xd800 ≤ codepoint && codepoint ≤ 0xdfff)

/-- What the first byte says: the bytes of the sequence, its first bits, and the least codepoint
that needs as many bytes. -/
def utf8Lead (first : UInt8) : Option (ℕ × ℕ × ℕ) :=
  if first ≤ 0x7f then some (1, first.toNat, 0)
  else if 0xc2 ≤ first ∧ first ≤ 0xdf then some (2, (first &&& 0x1f).toNat, 0x80)
  else if 0xe0 ≤ first ∧ first ≤ 0xef then some (3, (first &&& 0x0f).toNat, 0x800)
  else if 0xf0 ≤ first ∧ first ≤ 0xf4 then some (4, (first &&& 0x07).toNat, 0x10000)
  else none

/-- The loop over the bytes after the first. -/
def utf8Continue (codepoint : ℕ) : List UInt8 → Option ℕ
  | [] => some codepoint
  | byte :: rest =>
    if byte &&& 0xc0 ≠ 0x80 then none
    else utf8Continue (codepoint <<< 6 ||| (byte &&& 0x3f).toNat) rest

/-- The codepoint at the start of the bytes, with its bits. -/
def utf8Sequence : List UInt8 → Option (ℕ × ℕ)
  | [] => none
  | first :: rest => do
    let (needed, start, least) ← utf8Lead first
    if rest.length + 1 < needed then none
    else
      let codepoint ← utf8Continue start (rest.take (needed - 1))
      if codepoint < least ∨ validCodepoint codepoint = false then none
      else some (codepoint, needed * 8)

def utf16Surrogates (first second : ℕ) : Option (ℕ × ℕ) :=
  if 0xdc00 ≤ second ∧ second ≤ 0xdfff then
    let codepoint := 0x10000 + ((first - 0xd800) <<< 10 ||| (second - 0xdc00))
    if validCodepoint codepoint then some (codepoint, 32) else none
  else none

def utf32Codepoint (endian : Endian) (bytes : List UInt8) : Option (ℕ × ℕ) :=
  if validCodepoint (bytesValue endian bytes) then some (bytesValue endian bytes, 32) else none

section Decoders

variable (context : MatchContext) (memory : Memory)

def MatchContext.readU16 (byteOffset : ℕ) (endian : Endian) : Except ExecError (Option ℕ) :=
  if context.positionBits % 8 ≠ 0 then .ok none
  else if context.hasBits ((byteOffset + 2) * 8) = false then .ok none
  else
    match context.slice memory ((byteOffset + 2) * 8) with
    | none => .error .badarg
    | some bytes => .ok (some (bytesValue endian ((bytes.drop byteOffset).take 2)))

def decodeUtf8 : Except ExecError (Option (ℕ × ℕ)) :=
  if context.positionBits % 8 ≠ 0 then .ok none
  else
    match context.slice memory context.remainingBits with
    | none => .error .badarg
    | some bytes => .ok (utf8Sequence bytes)

def decodeUtf16 (endian : Endian) : Except ExecError (Option (ℕ × ℕ)) := do
  match ← context.readU16 memory 0 endian with
  | none => .ok none
  | some first =>
    if 0xd800 ≤ first ∧ first ≤ 0xdbff then
      match ← context.readU16 memory 2 endian with
      | none => .ok none
      | some second => .ok (utf16Surrogates first second)
    else if 0xdc00 ≤ first ∧ first ≤ 0xdfff then .ok none
    else .ok (some (first, 16))

def decodeUtf32 (endian : Endian) : Except ExecError (Option (ℕ × ℕ)) :=
  if context.positionBits % 8 ≠ 0 ∨ context.hasBits 32 = false then .ok none
  else
    match context.slice memory 32 with
    | none => .error .badarg
    | some bytes => .ok (utf32Codepoint endian bytes)

/-- The decoder of an encoding. -/
def decodeUtf (endian : Endian) : Utf → Except ExecError (Option (ℕ × ℕ))
  | .utf8 => decodeUtf8 context memory
  | .utf16 => decodeUtf16 context memory endian
  | .utf32 => decodeUtf32 context memory endian

end Decoders

/-! ## What a match does -/

/-- A term that a match writes. -/
inductive Extracted
  | integer (value : ℤ)
  | binary (bytes : List UInt8)
  | float (value : Float64)

/-- Where an instruction goes on, the terms it wrote in order, and the position it leaves. -/
structure MatchOutcome where
  branch : Branch
  writes : List (Operand × Extracted)
  positionBits : ℕ

/-- What one command does. -/
inductive MatchStep
  | matched (written : Option (Operand × Extracted)) (positionBits : ℕ)
  | failed

/-- The outcome of what follows a command, after what the command has written. -/
def MatchOutcome.after (written : Option (Operand × Extracted)) (outcome : MatchOutcome) :
    MatchOutcome :=
  { outcome with writes := written.toList ++ outcome.writes }

/-- The context moved to a position. -/
def MatchContext.moveTo (context : MatchContext) (bits : ℕ) : MatchContext :=
  { context with positionBits := bits }

section Steps

-- `f32::from_bits(_) as f64`
variable (widenSingle : ℕ → Float64) (context : MatchContext) (memory : Memory)

def MatchContext.testStep (passes : Bool) : MatchStep :=
  if passes then .matched none context.positionBits else .failed

def MatchContext.skipStep (bits : ℕ) : MatchStep :=
  if context.hasBits bits then .matched none (context.positionBits + bits) else .failed

def integerStep (size unit flags destination : Operand) : Except ExecError MatchStep := do
  match ← getIntegerValue context memory size unit flags with
  | none => .ok .failed
  | some (value, bits) => do
    let _ ← readSmallInt value
    .ok (.matched (some (destination, .integer value)) (context.positionBits + bits))

def floatStep (size unit flags destination : Operand) : Except ExecError MatchStep := do
  match ← getFloatValue widenSingle context memory size unit flags with
  | none => .ok .failed
  | some (value, bits) =>
    .ok (.matched (some (destination, .float value)) (context.positionBits + bits))

def binaryStep (size unit destination : Operand) : Except ExecError MatchStep := do
  match ← getBinaryBytes context memory size unit with
  | none => .ok .failed
  | some (bytes, bits) =>
    .ok (.matched (some (destination, .binary bytes)) (context.positionBits + bits))

def tailStep (destination : Operand) : Except ExecError MatchStep :=
  if context.positionBits % 8 ≠ 0 then .ok .failed
  else
    match context.slice memory context.remainingBits with
    | none => .error .badarg
    | some bytes => .ok (.matched (some (destination, .binary bytes)) context.totalBits)

def utfStep (utf : Utf) (flags destination : Operand) : Except ExecError MatchStep := do
  match ← decodeUtf context memory (.fromFlags flags) utf with
  | none => .ok .failed
  | some (codepoint, bits) => do
    let _ ← readSmallInt codepoint
    .ok (.matched (some (destination, .integer codepoint)) (context.positionBits + bits))

/-- `run_command_args`. -/
def commandStep (module : BinaryModule) : Command → Except ExecError MatchStep
  | (.ensureAtLeast, [stride, unit]) => do
    let stride ← operandUsize stride "bs_match ensure stride"
    let unit := max (← operandUsize unit "bs_match ensure unit") 1
    .ok (context.testStep (stride ≤ context.remainingBits ∧ context.remainingBits % unit = 0))
  | (.ensureExactly, [stride, _]) | (.ensureExactly, [stride]) => do
    let stride ← operandUsize stride "bs_match ensure exactly"
    .ok (context.testStep (context.remainingBits = stride))
  | (.integer, [_live, flags, size, unit, dst]) => integerStep context memory size unit flags dst
  | (.float, [_live, flags, size, unit, dst]) =>
    floatStep widenSingle context memory size unit flags dst
  | (.binary, [_live, _flags, size, unit, dst]) => binaryStep context memory size unit dst
  | (.skip, [stride]) => do
    let bits ← operandUsize stride "bs_match skip stride"
    .ok (context.skipStep bits)
  | (.getTail, [_live, dst]) | (.getTail, [_live, _, dst]) => tailStep context memory dst
  | (.exact, [_live, bits, value]) => do
    let bits ← operandUsize bits "bs_match exact bits"
    if context.hasBits bits then do
      if ← exactSegmentMatches module context memory bits value then
        .ok (.matched none (context.positionBits + bits))
      else .ok .failed
    else .ok .failed
  | _ => .error (.invalidOperand "bs_match command")

end Steps

/-! ## Instructions -/

/-- The match instructions, by the names of the loader. -/
inductive MatchOp
  | getInteger2
  | getBinary2
  | getUtf (utf : Utf)
  | skipBits2
  | testTail2
  | testUnit
  | bsMatch

/-- What `bs_get_utf` is given. -/
structure UtfOperands where
  fail : Operand
  context : Operand
  flags : Operand
  destination : Operand

/-- The name of a refused operand list. -/
def Utf.operandsName : Utf → String
  | .utf8 => "bs_get_utf8 operands"
  | .utf16 => "bs_get_utf16 operands"
  | .utf32 => "bs_get_utf32 operands"

def parseUtfGetOperands (operands : List Operand) (name : String) :
    Except ExecError UtfOperands :=
  match operands with
  | [fail, context, _live, flags, destination] => .ok ⟨fail, context, flags, destination⟩
  | [fail, context, flags, destination] => .ok ⟨fail, context, flags, destination⟩
  | _ => .error (.invalidOperand name)

/-- An instruction of one step goes on or to its fail label, where the context has not moved. -/
def MatchContext.conclude (context : MatchContext) (fail : Operand) :
    MatchStep → Except ExecError MatchOutcome
  | .matched written bits => .ok ⟨.next, written.toList, bits⟩
  | .failed => do
    let _ ← operandLabel fail
    .ok ⟨.fail, [], context.positionBits⟩

section Instructions

variable (widenSingle : ℕ → Float64) (module : BinaryModule) (memory : Memory)

/-- The commands in order; the first that does not match puts the context back where the
instruction found it. -/
def runCommandSteps (saved : ℕ) (fail : Operand) :
    MatchContext → List (Except ExecError Command) → Except ExecError MatchOutcome
  | context, [] => .ok ⟨.next, [], context.positionBits⟩
  | context, command :: rest => do
    match ← commandStep widenSingle context memory module (← command) with
    | .matched written bits => do
      let outcome ← runCommandSteps saved fail (context.moveTo bits) rest
      .ok (outcome.after written)
    | .failed => do
      let _ ← operandLabel fail
      .ok ⟨.fail, [], saved⟩

/-- The instruction on the context that its operand holds. -/
def runMatchOp (context : MatchContext) (op : MatchOp) (operands : List Operand) :
    Except ExecError MatchOutcome :=
  match op with
  | .getInteger2 => do
    let get ← parseGetOperands operands "bs_get_integer2"
    context.conclude get.fail
      (← integerStep context memory get.size get.unit get.flags get.destination)
  | .getBinary2 => do
    let get ← parseGetOperands operands "bs_get_binary2"
    context.conclude get.fail (← binaryStep context memory get.size get.unit get.destination)
  | .getUtf utf => do
    let get ← parseUtfGetOperands operands utf.operandsName
    context.conclude get.fail (← utfStep context memory utf get.flags get.destination)
  | .skipBits2 =>
    match operands with
    | [fail, _context, size, unit, _flags] => do
      let bits ← Matching.segmentBits size unit
      context.conclude fail (context.skipStep bits)
    | _ => .error (.invalidOperand "bs_skip_bits2 operands")
  | .testTail2 =>
    match operands with
    | [fail, _context, expected] => do
      let expected ← operandUsize expected "bs_test_tail2 remaining bits"
      context.conclude fail (context.testStep (context.remainingBits = expected))
    | _ => .error (.invalidOperand "bs_test_tail2 operands")
  | .testUnit =>
    match operands with
    | [fail, _context, unit] => do
      let unit ← operandUsize unit "bs_test_unit unit"
      if unit = 0 then .error .badarg
      else context.conclude fail (context.testStep (context.remainingBits % unit = 0))
    | _ => .error (.invalidOperand "bs_test_unit operands")
  | .bsMatch =>
    match operands with
    | fail :: _context :: rest => do
      let _ ← matchCommandsHeapNeed context (commandStream (commandOperands rest))
      runCommandSteps widenSingle module memory context.positionBits fail context
        (commandStream (commandOperands rest))
    | _ => .error (.invalidOperand "bs_match operands")

end Instructions

end Beamr.Interpreter
