import Beamr.Interpreter.MatchValues
import Beamr.Jit.Select

/-!
# Compiled binary matching

The match instructions as the translator lowers them: a call of a helper for each step, and a
branch to the fail block where the helper returns the null word or its failure word. The helpers
extract at byte boundaries only and leave the context where they moved it.
-/
namespace Beamr.Jit

open Loader Term Interpreter ByteOrder

/-! ## Helpers -/

/-- The word by which the helpers refuse. -/
def binaryHelperFailure : Word := BitVec.allOnes 64

mutual

/-- Flags as one number, those of a list joined. -/
def flagsToRaw : Operand → ℕ
  | .unsigned value => value
  | .integer value => if 0 ≤ value then value.toNat else 0
  | .list items => joinFlags 0 items
  | _ => 0

def joinFlags (bits : ℕ) : List Operand → ℕ
  | [] => bits
  | item :: rest => joinFlags (bits ||| flagsToRaw item) rest

end

def rawEndian (flags : ℕ) : Endian := if flagBit 1 flags ∨ flagBit 0 flags then .little else .big

def rawSegmentFlags (flags : ℕ) : SegmentFlags := ⟨rawEndian flags, flagBit 2 flags⟩

/-- What a helper returns, and where it leaves the context. -/
structure HelperResult (α : Type) where
  value : α
  positionBits : ℕ

section Helpers

variable (context : MatchContext) (memory : Memory)

/-- A refusal, which leaves the context alone. -/
def refusal : HelperResult Word := ⟨binaryHelperFailure, context.positionBits⟩

/-- The word of an extracted number, behind which the context is moved. -/
def extractedWord (value : ℤ) (bits : ℕ) : HelperResult Word :=
  match trySmallInt value with
  | none => refusal context
  | some term => ⟨term, context.positionBits + bits⟩

def jitBsGetInteger (sizeBits flags : ℕ) : HelperResult Word :=
  if sizeBits % 8 ≠ 0 ∨ context.positionBits % 8 ≠ 0 ∨ context.hasBits sizeBits = false then
    refusal context
  else
    match (context.slice memory sizeBits).bind fun bytes =>
        (decodeInteger bytes (rawSegmentFlags flags)).toOption with
    | none => refusal context
    | some value => extractedWord context value sizeBits

/-- The size that stands for whatever remains. -/
def remainingSize : ℕ := 2 ^ 64 - 1

/-- The bits that the helper is to extract. -/
def askedBits (sizeBits : ℕ) : ℕ :=
  if sizeBits = remainingSize then context.remainingBits else sizeBits

/-- The bytes of the binary that the helper makes; a refusal makes none. -/
def jitBsGetBinary (sizeBits : ℕ) : HelperResult (Option (List UInt8)) :=
  if askedBits context sizeBits % 8 ≠ 0 ∨ context.positionBits % 8 ≠ 0 ∨
      context.hasBits (askedBits context sizeBits) = false then
    ⟨none, context.positionBits⟩
  else
    match context.slice memory (askedBits context sizeBits) with
    | none => ⟨none, context.positionBits⟩
    | some bytes => ⟨some bytes, context.positionBits + askedBits context sizeBits⟩

def jitBsTestTail (expectedBits : ℕ) : Bool := context.remainingBits = expectedBits

def jitBsTestUnit (unit : ℕ) : Bool := unit ≠ 0 ∧ context.remainingBits % unit = 0

/-! ## Decoders of the helpers -/

def jitReadU16 (byteOffset : ℕ) (endian : Endian) : Option ℕ :=
  if context.positionBits % 8 ≠ 0 then none
  else if context.hasBits ((byteOffset + 2) * 8) = false then none
  else do
    let bytes ← context.slice memory ((byteOffset + 2) * 8)
    some (bytesValue endian ((bytes.drop byteOffset).take 2))

def jitDecodeUtf8 : Option (ℕ × ℕ) :=
  if context.positionBits % 8 ≠ 0 then none
  else do utf8Sequence (← context.slice memory context.remainingBits)

def jitDecodeUtf16 (endian : Endian) : Option (ℕ × ℕ) := do
  let first ← jitReadU16 context memory 0 endian
  if 0xd800 ≤ first ∧ first ≤ 0xdbff then
    utf16Surrogates first (← jitReadU16 context memory 2 endian)
  else if 0xdc00 ≤ first ∧ first ≤ 0xdfff then none
  else some (first, 16)

def jitDecodeUtf32 (endian : Endian) : Option (ℕ × ℕ) :=
  if context.positionBits % 8 ≠ 0 ∨ context.hasBits 32 = false then none
  else do utf32Codepoint endian (← context.slice memory 32)

def jitDecodeUtf (endian : Endian) : Utf → Option (ℕ × ℕ)
  | .utf8 => jitDecodeUtf8 context memory
  | .utf16 => jitDecodeUtf16 context memory endian
  | .utf32 => jitDecodeUtf32 context memory endian

def jitBsGetUtf (utf : Utf) (flags : ℕ) : HelperResult Word :=
  match jitDecodeUtf context memory (rawEndian flags) utf with
  | none => refusal context
  | some (codepoint, bits) => extractedWord context codepoint bits

end Helpers

/-! ## Lowered code -/

/-- A call of a helper with its constants, and the register its result goes to. -/
inductive MatchCall
  | getInteger (bits flags : ℕ) (destination : Operand)
  | getBinary (bits : ℕ) (destination : Operand)
  | getUtf (utf : Utf) (flags : ℕ) (destination : Operand)
  | testTail (bits : ℕ)
  | testUnit (unit : ℕ)

/-- What follows a call: the code goes on, or it branches to the fail block. -/
inductive CallStep
  | passed (written : Option (Operand × Extracted)) (positionBits : ℕ)
  | failed (positionBits : ℕ)

/-- `branch_to_fail_if_invalid_binary_result`, and the write where it goes on. -/
def checkedWord (result : HelperResult Word) (destination : Operand) : CallStep :=
  if result.value = 0 ∨ result.value = binaryHelperFailure then .failed result.positionBits
  else .passed (some (destination, .integer result.value.payload)) result.positionBits

/-- The pointer to a new binary is neither the null word nor the failure word. -/
def checkedBinary (result : HelperResult (Option (List UInt8))) (destination : Operand) :
    CallStep :=
  match result.value with
  | none => .failed result.positionBits
  | some bytes => .passed (some (destination, .binary bytes)) result.positionBits

def checkedTest (context : MatchContext) (result : Bool) : CallStep :=
  if result then .passed none context.positionBits else .failed context.positionBits

def MatchCall.run (context : MatchContext) (memory : Memory) : MatchCall → CallStep
  | .getInteger bits flags destination =>
    checkedWord (jitBsGetInteger context memory bits flags) destination
  | .getBinary bits destination => checkedBinary (jitBsGetBinary context memory bits) destination
  | .getUtf utf flags destination =>
    checkedWord (jitBsGetUtf context memory utf flags) destination
  | .testTail bits => checkedTest context (jitBsTestTail context bits)
  | .testUnit unit => checkedTest context (jitBsTestUnit context unit)

def registerOf (operand : Operand) : Option Register := (registerOperand operand).toOption

/-- Whether a write leaves the register of the context alone. -/
def leavesRegister (source destination : Operand) : Bool :=
  registerOf destination ≠ registerOf source

def keepsContext (source : Operand) (written : Option (Operand × Extracted)) : Bool :=
  written.all fun write => leavesRegister source write.1

/-- The calls in order, each with the term that the context's register holds by then. Of a term
that is no context a helper makes nothing. -/
def runCalls (memory : Memory) (source : Operand) :
    Bool → MatchContext → List MatchCall → MatchOutcome
  | _, context, [] => ⟨.next, [], context.positionBits⟩
  | false, context, _ :: _ => ⟨.fail, [], context.positionBits⟩
  | true, context, call :: rest =>
    match call.run context memory with
    | .passed written bits =>
      (runCalls memory source (keepsContext source written) (context.moveTo bits) rest).after
        written
    | .failed bits => ⟨.fail, [], bits⟩

/-- The lowered instruction, with the register that holds the context. -/
structure MatchCode where
  source : Operand
  calls : List MatchCall

def MatchCode.run (code : MatchCode) (context : MatchContext) (memory : Memory) : MatchOutcome :=
  runCalls memory code.source true context code.calls

/-! ## Lowering -/

def immediateU64 : Operand → Except JitError ℕ
  | .unsigned value => .ok value
  | .integer value => if 0 ≤ value then .ok value.toNat else .error .unsupportedOperand
  | _ => .error .unsupportedOperand

def lowerSegmentBits (size unit : Operand) : Except JitError ℕ := do
  let size ← immediateU64 size
  let unit ← immediateU64 unit
  if size * unit < 2 ^ 64 then .ok (size * unit) else .error .unsupportedOperand

/-- An operand that can be read or written: a register. An immediate holds no context. -/
def checkRegister (operand : Operand) : Except JitError Operand :=
  (registerOperand operand).map fun _ => operand

/-- The operands of a command of `bs_match` that the translator takes, with its sizes read. -/
inductive MatchCommand
  | ensureAtLeast (stride : Operand) (unit : ℕ)
  | ensureExactly (bits : ℕ)
  | integer (flags : Operand) (bits : ℕ) (destination : Operand)
  | binary (bits : ℕ) (destination : Operand)
  | getTail (destination : Operand)

/-- The number by which a command of the nested form starts. -/
def commandNumber : Operand → Option ℤ
  | .unsigned value => some value
  | .integer value => some value
  | _ => none

def parseMatchCommand : Operand → Except JitError MatchCommand
  | .list (tag :: args) =>
    match commandNumber tag, args with
    | some 0, [live, bits] => .ensureAtLeast live <$> immediateU64 bits
    | some 1, [bits, _unit] => .ensureExactly <$> immediateU64 bits
    | some 2, [_live, flags, size, unit, dst] => do
      .ok (.integer flags (← lowerSegmentBits size unit) (← checkRegister dst))
    | some 4, [_live, _flags, size, unit, dst] => do
      .ok (.binary (← lowerSegmentBits size unit) (← checkRegister dst))
    | some 6, [_live, dst] | some 6, [_live, _, dst] => .getTail <$> checkRegister dst
    | _, _ => .error .unsupportedOperand
  | _ => .error .unsupportedOperand

/-- The helper of a command and what it is called with. -/
def MatchCommand.call : MatchCommand → MatchCall
  | .ensureAtLeast _ unit => .testUnit unit
  | .ensureExactly bits => .testTail bits
  | .integer flags bits destination => .getInteger bits (flagsToRaw flags) destination
  | .binary bits destination => .getBinary bits destination
  | .getTail destination => .getBinary remainingSize destination

/-- The block of the first operand. -/
def failBlock (labels : List ℕ) (operands : List Operand) : Except JitError ℕ :=
  match operands with
  | fail :: _ => do knownLabel labels (← labelOperand fail)
  | [] => .error .unsupportedOperand

def lowerGetOperands (operands : List Operand) : Except JitError GetOperands :=
  (parseGetOperands operands "").mapError fun _ => .unsupportedOperand

def lowerUtfOperands (operands : List Operand) : Except JitError UtfOperands :=
  (parseUtfGetOperands operands "").mapError fun _ => .unsupportedOperand

/-- `bs_match` in the nested form; the flat form is refused. -/
def lowerBsMatch : List Operand → Except JitError MatchCode
  | _fail :: source :: rest =>
    if (commandOperands rest).all isNested then do
      let commands ← (commandOperands rest).mapM parseMatchCommand
      .ok ⟨← checkRegister source, commands.map MatchCommand.call⟩
    else .error .unsupportedOperand
  | _ => .error .unsupportedOperand

/-- The match instructions among those of `lower_binary_op`. -/
def lowerMatchOp (labels : List ℕ) (op : MatchOp) (operands : List Operand) :
    Except JitError MatchCode := do
  let _ ← failBlock labels operands
  match op with
  | .getInteger2 => do
    let get ← lowerGetOperands operands
    let bits ← lowerSegmentBits get.size get.unit
    .ok ⟨← checkRegister get.context,
      [.getInteger bits (flagsToRaw get.flags) (← checkRegister get.destination)]⟩
  | .getBinary2 => do
    let get ← lowerGetOperands operands
    let bits ← lowerSegmentBits get.size get.unit
    .ok ⟨← checkRegister get.context, [.getBinary bits (← checkRegister get.destination)]⟩
  | .getUtf utf => do
    let get ← lowerUtfOperands operands
    .ok ⟨← checkRegister get.context,
      [.getUtf utf (flagsToRaw get.flags) (← checkRegister get.destination)]⟩
  | .testTail2 =>
    match operands with
    | [_fail, source, expected] => do
      .ok ⟨← checkRegister source, [.testTail (← immediateU64 expected)]⟩
    | _ => .error .unsupportedOperand
  | .testUnit =>
    match operands with
    | [_fail, source, unit] => do
      .ok ⟨← checkRegister source, [.testUnit (← immediateU64 unit)]⟩
    | _ => .error .unsupportedOperand
  | .bsMatch => lowerBsMatch operands
  | .skipBits2 => .error .unsupportedOpcode

/-! ## Values of the helpers -/

theorem bytesValue_eq_zero_iff (endian : Endian) {bytes : List UInt8} :
    bytesValue endian bytes = 0 ↔ ∀ byte ∈ bytes, byte = 0 := by
  cases endian with
  | big => simp [bytesValue, beNat, leNat_eq_zero_iff]
  | little => exact leNat_eq_zero_iff

theorem toSigned_eq_zero_iff {w v : ℕ} (h : v < 2 ^ w) : toSigned w v = 0 ↔ v = 0 := by
  rw [toSigned]
  split
  next => simp
  next hlarge =>
    have hpos : 0 < 2 ^ (w - 1) := Nat.two_pow_pos _
    have hcast : (v : ℤ) < 2 ^ w := by exact_mod_cast h
    generalize (2 : ℤ) ^ w = modulus at hcast
    omega

/-- The number of some bytes is 0 when all of them are. -/
theorem decodeInteger_eq_zero_iff {bytes : List UInt8} {flags : SegmentFlags} {value : ℤ}
    (h : decodeInteger bytes flags = .ok value) : value = 0 ↔ ∀ byte ∈ bytes, byte = 0 := by
  have h8 : bytes.length ≤ 8 := by
    by_contra hlong
    rw [decodeInteger, if_pos (by omega)] at h
    cases h
  rcases Nat.eq_zero_or_pos bytes.length with hnil | hpos
  · obtain rfl := List.length_eq_zero_iff.mp hnil
    have hzero : decodeInteger [] flags = .ok 0 := by
      obtain ⟨endian, signed⟩ := flags
      cases endian <;> cases signed <;> rfl
    simpa using (Except.ok.inj (h.symm.trans hzero))
  · have hspec := decodeInteger_spec flags.endian flags.signed hpos h8
    have hlt := bytesValue_lt flags.endian bytes
    have hwide : bytesValue flags.endian bytes <
        2 ^ (if flags.signed then 8 * bytes.length else 64) := by
      split
      · exact hlt
      · exact hlt.trans_le (Nat.pow_le_pow_right (by norm_num) (by omega))
    rw [Except.ok.inj (h.symm.trans hspec), toSigned_eq_zero_iff hwide,
      bytesValue_eq_zero_iff]

theorem trySmallInt_isSome_iff {value : ℤ} :
    (trySmallInt value).isSome ↔ -(2 ^ 60) ≤ value ∧ value < 2 ^ 60 := by
  rw [trySmallInt]
  split
  next h => exact iff_of_true rfl h
  next h => exact iff_of_false (by simp) h

/-- The word of a number is never the failure word, and the null word only for 0. -/
theorem extractedWord_checked (context : MatchContext) (value : ℤ) (bits : ℕ)
    (destination : Operand) :
    checkedWord (extractedWord context value bits) destination =
      if -(2 ^ 60) ≤ value ∧ value < 2 ^ 60 then
        if value = 0 then .failed (context.positionBits + bits)
        else .passed (some (destination, .integer value)) (context.positionBits + bits)
      else .failed context.positionBits := by
  rw [extractedWord, trySmallInt]
  by_cases hsmall : -(2 ^ 60) ≤ value ∧ value < 2 ^ 60
  · have hpayload : (Word.ofSmallInt (.ofRange value hsmall)).payload = value :=
      Word.payload_ofSmallInt _
    have hword := Word.toInt_ofSmallInt (.ofRange value hsmall)
    change _ = 8 * value at hword
    have hzero : Word.ofSmallInt (.ofRange value hsmall) = 0 ↔ value = 0 := by
      rw [← BitVec.toInt_inj, hword]
      simp
    have hfailure : Word.ofSmallInt (.ofRange value hsmall) ≠ binaryHelperFailure := by
      intro h
      have hones : (binaryHelperFailure : Word).toInt = -1 := by decide
      rw [h, hones] at hword
      omega
    rw [dif_pos hsmall, if_pos hsmall]
    simp only [checkedWord, hzero, hfailure, or_false, hpayload]
  · rw [dif_neg hsmall, if_neg hsmall]
    simp [checkedWord, refusal]

theorem refusal_checked (context : MatchContext) (destination : Operand) :
    checkedWord (refusal context) destination = .failed context.positionBits := by
  simp [checkedWord, refusal]

/-! ## One step on both sides -/

/-- Both go on and have written the same, or both fail and the context has not moved. -/
def Agree (context : MatchContext) : Except ExecError MatchStep → CallStep → Prop
  | .ok (.matched written bits), .passed written' bits' => written = written' ∧ bits = bits'
  | .ok .failed, .failed bits => bits = context.positionBits
  | _, _ => False

section Conditions

variable (context : MatchContext) (memory : Memory)

/-- The segment does not fit; or it is whole bytes at a byte boundary, not all of them zero, and
both readings of the flags give them the same number, which fits a word. -/
def IntegerMeets (flags : Operand) (bits : ℕ) : Prop :=
  context.hasBits bits = false ∨
  ∃ bytes value, context.slice memory bits = some bytes ∧ (∃ byte ∈ bytes, byte ≠ 0) ∧
    decodeInteger bytes (.fromFlags flags) = .ok value ∧
    decodeInteger bytes (rawSegmentFlags (flagsToRaw flags)) = .ok value ∧
    -(2 ^ 60) ≤ value ∧ value < 2 ^ 60

/-- Whole bytes at a byte boundary, which are there when the segment fits. -/
def BinaryMeets (bits : ℕ) : Prop :=
  bits % 8 = 0 ∧ context.positionBits % 8 = 0 ∧
    (context.hasBits bits = false ∨ (context.slice memory bits).isSome)

/-- The tail starts inside a byte, or it is whole bytes that are there. -/
def TailMeets : Prop :=
  context.positionBits % 8 ≠ 0 ∨
    ((context.slice memory context.remainingBits).isSome ∧
      context.positionBits ≤ context.totalBits)

end Conditions

section Segments

variable {context : MatchContext} {memory : Memory} {size unit flags destination : Operand}
  {bits : ℕ}

theorem slice_unaligned (h : bits % 8 ≠ 0 ∨ context.positionBits % 8 ≠ 0) :
    context.slice memory bits = none := by
  rw [MatchContext.slice, if_pos h]

theorem aligned_of_slice {bytes : List UInt8} (h : context.slice memory bits = some bytes) :
    bits % 8 = 0 ∧ context.positionBits % 8 = 0 := by
  by_contra hunaligned
  rw [slice_unaligned (by omega)] at h
  cases h

theorem length_slice {bytes : List UInt8} (h : context.slice memory bits = some bytes) :
    bytes.length = bits / 8 := by
  obtain ⟨h1, h2⟩ := aligned_of_slice h
  rw [MatchContext.slice, if_neg (by omega)] at h
  obtain ⟨source, -, h⟩ := Option.bind_eq_some_iff.mp h
  split at h
  next hinside =>
    obtain rfl := Option.some.inj h
    rw [List.length_take, List.length_drop]
    omega
  next => cases h

theorem getInteger_run_unfit (raw : ℕ) (h : context.hasBits bits = false) :
    (MatchCall.getInteger bits raw destination).run context memory =
      .failed context.positionBits := by
  rw [MatchCall.run, jitBsGetInteger, if_pos (by simp [h]), refusal_checked]

theorem getInteger_run_none (raw : ℕ) (h : context.slice memory bits = none) :
    (MatchCall.getInteger bits raw destination).run context memory =
      .failed context.positionBits := by
  rw [MatchCall.run, jitBsGetInteger, h]
  split <;> exact refusal_checked context destination

theorem getInteger_run_error {raw : ℕ} {bytes : List UInt8} {e : ExecError}
    (h : context.slice memory bits = some bytes)
    (hdecode : decodeInteger bytes (rawSegmentFlags raw) = .error e) :
    (MatchCall.getInteger bits raw destination).run context memory =
      .failed context.positionBits := by
  rw [MatchCall.run, jitBsGetInteger, h, Option.bind_some, hdecode]
  split <;> exact refusal_checked context destination

theorem getInteger_run_ok {raw : ℕ} {bytes : List UInt8} {value : ℤ}
    (hfit : context.hasBits bits = true) (h : context.slice memory bits = some bytes)
    (hdecode : decodeInteger bytes (rawSegmentFlags raw) = .ok value) :
    (MatchCall.getInteger bits raw destination).run context memory =
      checkedWord (extractedWord context value bits) destination := by
  obtain ⟨h1, h2⟩ := aligned_of_slice h
  rw [MatchCall.run, jitBsGetInteger, if_neg (by simp [h1, h2, hfit]), h, Option.bind_some,
    hdecode]
  rfl

theorem integerStep_unfit (hbits : Matching.segmentBits size unit = .ok bits)
    (h : context.hasBits bits = false) :
    integerStep context memory size unit flags destination = .ok .failed := by
  rw [integerStep, getIntegerValue_eq, hbits]
  simp [h]

/-- What is read of a segment that fits is written. -/
theorem integerStep_fit (hbits : Matching.segmentBits size unit = .ok bits)
    (h : context.hasBits bits = true) :
    integerStep context memory size unit flags destination =
      (if bits = 0 then .ok 0
        else if bits % 8 = 0 ∧ context.positionBits % 8 = 0 then
          alignedInteger context memory (.fromFlags flags) bits
        else bitwiseInteger context memory (.fromFlags flags) bits) >>= fun value =>
      readSmallInt value >>= fun _ =>
        .ok (.matched (some (destination, .integer value)) (context.positionBits + bits)) := by
  rw [integerStep, getIntegerValue_eq, hbits, except_ok_bind, if_neg (by simp [h])]
  by_cases hzero : bits = 0
  · subst hzero
    rfl
  · rw [if_neg hzero, if_neg hzero]
    split
    · cases alignedInteger context memory (.fromFlags flags) bits <;> rfl
    · cases bitwiseInteger context memory (.fromFlags flags) bits <;> rfl

theorem readSmallInt_isOk_iff {value : ℤ} :
    (∃ word, readSmallInt value = .ok word) ↔ -(2 ^ 60) ≤ value ∧ value < 2 ^ 60 := by
  rw [← trySmallInt_isSome_iff, Option.isSome_iff_exists, readSmallInt]
  cases trySmallInt value <;> simp

/-- A number that does not fit a word is an error. -/
theorem integerStep_aligned (hbits : Matching.segmentBits size unit = .ok bits)
    (hfit : context.hasBits bits = true) (hpositive : bits ≠ 0) {bytes : List UInt8}
    (h : context.slice memory bits = some bytes) :
    integerStep context memory size unit flags destination =
      (decodeInteger bytes (.fromFlags flags) >>= fun value => readSmallInt value >>= fun _ =>
        .ok (.matched (some (destination, .integer value)) (context.positionBits + bits))) := by
  rw [integerStep_fit hbits hfit, if_neg hpositive, if_pos (aligned_of_slice h), alignedInteger, h]

theorem agree_passed_iff {step : Except ExecError MatchStep}
    {written : Option (Operand × Extracted)} {position : ℕ} :
    Agree context step (.passed written position) ↔ step = .ok (.matched written position) := by
  unfold Agree
  cases step with
  | error e => simp
  | ok step =>
    cases step with
    | failed => simp
    | matched written' position' => simp

theorem agree_failed_iff {step : Except ExecError MatchStep} {position : ℕ} :
    Agree context step (.failed position) ↔
      step = .ok .failed ∧ position = context.positionBits := by
  unfold Agree
  cases step with
  | error e => simp
  | ok step =>
    cases step with
    | failed => simp
    | matched written' position' => simp

theorem integerStep_ne_failed (hbits : Matching.segmentBits size unit = .ok bits)
    (hfit : context.hasBits bits = true) :
    integerStep context memory size unit flags destination ≠ .ok .failed := by
  intro h
  rw [integerStep_fit hbits hfit] at h
  obtain ⟨value, -, h⟩ := except_bind_ok_iff.mp h
  obtain ⟨word, -, h⟩ := except_bind_ok_iff.mp h
  cases h

/-- A segment is extracted alike. -/
theorem agree_integer_iff (hbits : Matching.segmentBits size unit = .ok bits) :
    Agree context (integerStep context memory size unit flags destination)
        ((MatchCall.getInteger bits (flagsToRaw flags) destination).run context memory) ↔
      IntegerMeets context memory flags bits := by
  cases hfit : context.hasBits bits with
  | false =>
    rw [getInteger_run_unfit _ hfit, agree_failed_iff, integerStep_unfit hbits hfit]
    exact iff_of_true ⟨rfl, rfl⟩ (.inl hfit)
  | true =>
    have hfailed : ∀ position,
        ¬ Agree context (integerStep context memory size unit flags destination)
          (.failed position) :=
      fun position h => integerStep_ne_failed hbits hfit (agree_failed_iff.mp h).1
    cases hslice : context.slice memory bits with
    | none =>
      rw [getInteger_run_none _ hslice]
      refine iff_of_false (hfailed _) ?_
      rintro (hunfit | ⟨bytes, value, hbytes, -⟩)
      · rw [hfit] at hunfit
        cases hunfit
      · rw [hslice] at hbytes
        cases hbytes
    | some bytes =>
      have hmeets : IntegerMeets context memory flags bits ↔ ∃ value,
          (∃ byte ∈ bytes, byte ≠ 0) ∧ decodeInteger bytes (.fromFlags flags) = .ok value ∧
          decodeInteger bytes (rawSegmentFlags (flagsToRaw flags)) = .ok value ∧
          -(2 ^ 60) ≤ value ∧ value < 2 ^ 60 := by
        rw [IntegerMeets, hfit, hslice]
        simp
      rw [hmeets]
      cases hraw : decodeInteger bytes (rawSegmentFlags (flagsToRaw flags)) with
      | error e =>
        rw [getInteger_run_error hslice hraw]
        refine iff_of_false (hfailed _) ?_
        rintro ⟨value, -, -, hvalue, -⟩
        cases hvalue
      | ok value =>
        have hnonzero : (∃ byte ∈ bytes, byte ≠ 0) ↔ value ≠ 0 := by
          rw [Ne, decodeInteger_eq_zero_iff hraw]
          simp
        rw [getInteger_run_ok hfit hslice hraw, extractedWord_checked]
        by_cases hsmall : -(2 ^ 60) ≤ value ∧ value < 2 ^ 60
        · by_cases hzero : value = 0
          · rw [if_pos hsmall, if_pos hzero]
            refine iff_of_false (hfailed _) ?_
            rintro ⟨value', hbyte, -⟩
            exact hnonzero.mp hbyte hzero
          · have hpositive : bits ≠ 0 := by
              rintro rfl
              have hnil := List.length_eq_zero_iff.mp (length_slice hslice)
              exact hzero ((decodeInteger_eq_zero_iff hraw).mpr (by simp [hnil]))
            rw [if_pos hsmall, if_neg hzero, agree_passed_iff,
              integerStep_aligned hbits hfit hpositive hslice, except_bind_ok_iff]
            constructor
            · rintro ⟨value', hvalue, hstep⟩
              obtain ⟨word, -, hstep⟩ := except_bind_ok_iff.mp hstep
              cases hstep
              exact ⟨value, hnonzero.mpr hzero, hvalue, rfl, hsmall⟩
            · rintro ⟨value', -, hvalue, heq, -⟩
              obtain rfl := Except.ok.inj heq
              obtain ⟨word, hword⟩ := readSmallInt_isOk_iff.mpr hsmall
              exact ⟨value, hvalue, by rw [hword]; rfl⟩
        · rw [if_neg hsmall]
          refine iff_of_false (hfailed _) ?_
          rintro ⟨value', -, -, hvalue, hsmall'⟩
          obtain rfl := Except.ok.inj hvalue
          exact hsmall hsmall'

end Segments

section Binaries

variable {context : MatchContext} {memory : Memory} {size unit destination : Operand} {bits : ℕ}

theorem getBinary_run_failed
    (h : context.hasBits (askedBits context bits) = false ∨
      context.slice memory (askedBits context bits) = none) :
    (MatchCall.getBinary bits destination).run context memory = .failed context.positionBits := by
  rw [MatchCall.run, jitBsGetBinary]
  split
  next => rfl
  next hfit =>
    have hnone : context.slice memory (askedBits context bits) = none := by
      rcases h with h | h
      · exact absurd (.inr (.inr h)) hfit
      · exact h
    rw [hnone]
    rfl

theorem getBinary_run_passed {bytes : List UInt8}
    (hfit : context.hasBits (askedBits context bits) = true)
    (h : context.slice memory (askedBits context bits) = some bytes) :
    (MatchCall.getBinary bits destination).run context memory =
      .passed (some (destination, .binary bytes))
        (context.positionBits + askedBits context bits) := by
  obtain ⟨h1, h2⟩ := aligned_of_slice h
  rw [MatchCall.run, jitBsGetBinary, if_neg (by simp [h1, h2, hfit]), h]
  rfl

theorem binaryStep_unaligned (hbits : Matching.segmentBits size unit = .ok bits)
    (h : bits % 8 ≠ 0 ∨ context.positionBits % 8 ≠ 0) :
    binaryStep context memory size unit destination = .error .badarg := by
  rw [binaryStep, getBinaryBytes, hbits, except_ok_bind, if_pos h]
  rfl

theorem binaryStep_aligned (hbits : Matching.segmentBits size unit = .ok bits)
    (h : ¬ (bits % 8 ≠ 0 ∨ context.positionBits % 8 ≠ 0)) :
    binaryStep context memory size unit destination =
      if context.hasBits bits = false then .ok .failed
      else (context.slice memory bits).elim (.error .badarg) fun bytes =>
        .ok (.matched (some (destination, .binary bytes)) (context.positionBits + bits)) := by
  rw [binaryStep, getBinaryBytes, hbits, except_ok_bind, if_neg h]
  split
  · rfl
  · cases context.slice memory bits <;> rfl

/-- A binary is extracted alike. -/
theorem agree_binary_iff (hbits : Matching.segmentBits size unit = .ok bits) :
    Agree context (binaryStep context memory size unit destination)
        ((MatchCall.getBinary bits destination).run context memory) ↔
      BinaryMeets context memory bits := by
  by_cases hunaligned : bits % 8 ≠ 0 ∨ context.positionBits % 8 ≠ 0
  · rw [binaryStep_unaligned hbits hunaligned]
    refine iff_of_false (fun h => ?_) fun h => by
      have h1 := h.1
      have h2 := h.2.1
      omega
    cases hcall : (MatchCall.getBinary bits destination).run context memory with
    | passed written position =>
      rw [hcall, agree_passed_iff] at h
      cases h
    | failed position =>
      rw [hcall, agree_failed_iff] at h
      cases h.1
  · have hasked : askedBits context bits = bits := by
      rw [askedBits, remainingSize, if_neg (by omega)]
    have hmeets : BinaryMeets context memory bits ↔
        context.hasBits bits = false ∨ (context.slice memory bits).isSome := by
      rw [BinaryMeets, ← and_assoc, and_iff_right (by omega)]
    rw [binaryStep_aligned hbits hunaligned, hmeets]
    cases hfit : context.hasBits bits with
    | false =>
      rw [getBinary_run_failed (by rw [hasked]; exact .inl hfit), agree_failed_iff]
      simp
    | true =>
      cases hslice : context.slice memory bits with
      | none =>
        rw [getBinary_run_failed (by rw [hasked]; exact .inr hslice), agree_failed_iff]
        simp
      | some bytes =>
        rw [getBinary_run_passed (by rw [hasked]; exact hfit) (by rw [hasked]; exact hslice),
          agree_passed_iff, hasked]
        simp

/-- So is a tail. -/
theorem agree_tail_iff :
    Agree context (tailStep context memory destination)
        ((MatchCall.getBinary remainingSize destination).run context memory) ↔
      TailMeets context memory := by
  have hasked : askedBits context remainingSize = context.remainingBits := if_pos rfl
  by_cases hunaligned : context.positionBits % 8 ≠ 0
  · rw [getBinary_run_failed (.inr (slice_unaligned (.inr hunaligned))), agree_failed_iff, tailStep,
      if_pos hunaligned]
    exact iff_of_true ⟨rfl, rfl⟩ (.inl hunaligned)
  · rw [TailMeets, or_iff_right hunaligned, tailStep, if_neg hunaligned]
    cases hslice : context.slice memory context.remainingBits with
    | none =>
      rw [getBinary_run_failed (by rw [hasked]; exact .inr hslice), agree_failed_iff]
      simp
    | some bytes =>
      have hfit : context.hasBits context.remainingBits = true ↔
          context.positionBits ≤ context.totalBits := by
        rw [MatchContext.hasBits, MatchContext.remainingBits, decide_eq_true_eq]
        omega
      by_cases hle : context.positionBits ≤ context.totalBits
      · have hend : context.positionBits + context.remainingBits = context.totalBits := by
          rw [MatchContext.remainingBits]
          omega
        rw [getBinary_run_passed (by rw [hasked]; exact hfit.mpr hle)
          (by rw [hasked]; exact hslice), agree_passed_iff, hasked, hend]
        simp [hle]
      · have hunfit : context.hasBits context.remainingBits = false := by
          rw [← Bool.not_eq_true, hfit]
          exact hle
        rw [getBinary_run_failed (by rw [hasked]; exact .inl hunfit), agree_failed_iff]
        simp [hle]

end Binaries

section Tests

variable {context : MatchContext} {memory : Memory}

/-- Two tests agree when both pass or both fail. -/
theorem agree_test_iff {a b : Bool} :
    Agree context (.ok (context.testStep a)) (checkedTest context b) ↔ a = b := by
  cases a <;> cases b <;> simp [MatchContext.testStep, checkedTest, Agree]

end Tests

/-! ## Codepoints -/

/-- The bits of a code unit. -/
def unitBits : Utf → ℕ
  | .utf8 => 8
  | .utf16 => 16
  | .utf32 => 32

/-- The next code unit is zero. -/
def StartsWithZero (context : MatchContext) (memory : Memory) (utf : Utf) : Prop :=
  context.hasBits (unitBits utf) = true ∧
    context.slice memory (unitBits utf) = some (List.replicate (unitBits utf / 8) 0)

/-- Both readings of the flags decode the same, and the next code unit is not zero. -/
def UtfMeets (context : MatchContext) (memory : Memory) (utf : Utf) (flags : Operand) : Prop :=
  ∃ decoded, decodeUtf context memory (.fromFlags flags) utf = .ok decoded ∧
    jitDecodeUtf context memory (rawEndian (flagsToRaw flags)) utf = decoded ∧
    ¬ StartsWithZero context memory utf

section Codepoints

variable {context : MatchContext} {memory : Memory} {bits : ℕ}

theorem slice_prefix {bytes : List UInt8} {shorter : ℕ}
    (h : context.slice memory bits = some bytes) (hle : shorter ≤ bits) (h8 : shorter % 8 = 0) :
    context.slice memory shorter = some (bytes.take (shorter / 8)) := by
  obtain ⟨h1, h2⟩ := aligned_of_slice h
  rw [MatchContext.slice, if_neg (by omega)] at h ⊢
  obtain ⟨source, hsource, h⟩ := Option.bind_eq_some_iff.mp h
  rw [hsource]
  split at h
  next hinside =>
    obtain rfl := Option.some.inj h
    change (if _ then _ else _) = _
    rw [if_pos (by omega), List.take_take, Nat.min_eq_left (by omega)]
  next => cases h

theorem slice_eq_zeros_iff {bytes : List UInt8} (endian : Endian)
    (h : context.slice memory bits = some bytes) :
    context.slice memory bits = some (List.replicate (bits / 8) 0) ↔
      bytesValue endian bytes = 0 := by
  rw [h, Option.some.injEq, List.eq_replicate_iff, and_iff_right (length_slice h),
    bytesValue_eq_zero_iff]

theorem utf8Lead_some {first : UInt8} {lead : ℕ × ℕ × ℕ} (h : utf8Lead first = some lead) :
    lead = (1, first.toNat, 0) ∨ 0x80 ≤ lead.2.2 ∧ 2 ≤ lead.1 := by
  unfold utf8Lead at h
  split_ifs at h <;> cases h
  · exact .inl rfl
  · exact .inr ⟨by norm_num, by norm_num⟩
  · exact .inr ⟨by norm_num, by norm_num⟩
  · exact .inr ⟨by norm_num, by norm_num⟩

/-- A codepoint of UTF-8 is 0 when the first byte is. -/
theorem utf8Sequence_spec {first : UInt8} {rest : List UInt8} {decoded : ℕ × ℕ}
    (h : utf8Sequence (first :: rest) = some decoded) :
    validCodepoint decoded.1 = true ∧ 0 < decoded.2 ∧ (decoded.1 = 0 ↔ first = 0) := by
  rw [utf8Sequence] at h
  obtain ⟨⟨needed, start, least⟩, hlead, h⟩ := Option.bind_eq_some_iff.mp h
  dsimp only at h
  split at h
  next => cases h
  next =>
    obtain ⟨codepoint, hcontinue, h⟩ := Option.bind_eq_some_iff.mp h
    split at h
    next => cases h
    next hvalid =>
      obtain rfl := Option.some.inj h
      have hmin : least ≤ codepoint ∧ validCodepoint codepoint = true := by
        simpa using hvalid
      have hfirst : first.toNat = 0 ↔ first = 0 := by
        rw [← UInt8.toNat_inj]
        rfl
      rcases utf8Lead_some hlead with heq | ⟨hleast, hneeded⟩
      · cases heq
        obtain rfl : first.toNat = codepoint := by simpa [utf8Continue] using hcontinue
        exact ⟨hmin.2, by norm_num, hfirst⟩
      · dsimp only at hleast hneeded
        refine ⟨hmin.2, by dsimp only; omega, iff_of_false (by dsimp only; omega) ?_⟩
        rintro rfl
        have hzero : utf8Lead 0 = some (1, 0, 0) := by decide
        rw [hzero] at hlead
        cases hlead
        omega

theorem utf8Sequence_zero (rest : List UInt8) : utf8Sequence (0 :: rest) = some (0, 8) := by
  have hlead : utf8Lead 0 = some (1, 0, 0) := by decide
  rw [utf8Sequence, hlead]
  simp [utf8Continue, validCodepoint]

theorem decodeUtf8_spec {decoded : Option (ℕ × ℕ)}
    (h : decodeUtf8 context memory = .ok decoded) :
    (∀ c ∈ decoded, validCodepoint c.1 = true ∧ 0 < c.2) ∧
      (StartsWithZero context memory .utf8 ↔ ∃ bits, decoded = some (0, bits)) := by
  rw [decodeUtf8] at h
  split at h
  next hunaligned =>
    cases h
    refine ⟨by simp, iff_of_false ?_ (by simp)⟩
    rintro ⟨-, hslice⟩
    rw [slice_unaligned (.inr hunaligned)] at hslice
    cases hslice
  next =>
    cases hslice : context.slice memory context.remainingBits with
    | none =>
      rw [hslice] at h
      cases h
    | some bytes =>
      rw [hslice] at h
      obtain rfl := Except.ok.inj h
      have haligned := aligned_of_slice hslice
      have hlength := length_slice hslice
      cases bytes with
      | nil =>
        refine ⟨by simp [utf8Sequence], iff_of_false ?_ (by simp [utf8Sequence])⟩
        rintro ⟨hfit, -⟩
        rw [MatchContext.hasBits, decide_eq_true_eq, unitBits] at hfit
        rw [MatchContext.remainingBits, List.length_nil] at hlength
        rw [MatchContext.remainingBits] at haligned
        omega
      | cons first rest =>
        have hremaining : 8 ≤ context.remainingBits := by
          rw [List.length_cons] at hlength
          omega
        have hstarts : StartsWithZero context memory .utf8 ↔ first = 0 := by
          have hfit : context.hasBits 8 = true := by
            rw [MatchContext.hasBits, decide_eq_true_eq]
            rw [MatchContext.remainingBits] at hremaining
            omega
          have hone : context.slice memory 8 = some [first] :=
            slice_prefix hslice hremaining rfl
          rw [StartsWithZero, unitBits, and_iff_right hfit, hone]
          simp
        rw [hstarts]
        constructor
        · intro c hc
          have hspec := utf8Sequence_spec hc
          exact ⟨hspec.1, hspec.2.1⟩
        · constructor
          · rintro rfl
            exact ⟨8, utf8Sequence_zero rest⟩
          · rintro ⟨width, hwidth⟩
            exact (utf8Sequence_spec hwidth).2.2.mp rfl

theorem readU16_ok {endian : Endian} {byteOffset : ℕ} {read : Option ℕ}
    (h : context.readU16 memory byteOffset endian = .ok read) :
    (read = none ∧ (context.positionBits % 8 ≠ 0 ∨
      context.hasBits ((byteOffset + 2) * 8) = false)) ∨
    ∃ bytes, context.hasBits ((byteOffset + 2) * 8) = true ∧
      context.slice memory ((byteOffset + 2) * 8) = some bytes ∧
      read = some (bytesValue endian ((bytes.drop byteOffset).take 2)) := by
  rw [MatchContext.readU16] at h
  split at h
  next hunaligned => exact .inl ⟨(Except.ok.inj h).symm, .inl hunaligned⟩
  next =>
    split at h
    next hunfit => exact .inl ⟨(Except.ok.inj h).symm, .inr hunfit⟩
    next hfit =>
      cases hslice : context.slice memory ((byteOffset + 2) * 8) with
      | none =>
        rw [hslice] at h
        cases h
      | some bytes =>
        rw [hslice] at h
        exact .inr ⟨bytes, by simpa using hfit, rfl, (Except.ok.inj h).symm⟩

theorem not_startsWithZero {utf : Utf}
    (h : context.positionBits % 8 ≠ 0 ∨ context.hasBits (unitBits utf) = false) :
    ¬ StartsWithZero context memory utf := by
  rintro ⟨hfit, hslice⟩
  rcases h with hunaligned | hunfit
  · rw [slice_unaligned (.inr hunaligned)] at hslice
    cases hslice
  · rw [hfit] at hunfit
    cases hunfit

theorem startsWithZero_iff {utf : Utf} (endian : Endian) {bytes : List UInt8}
    (hfit : context.hasBits (unitBits utf) = true)
    (h : context.slice memory (unitBits utf) = some bytes) :
    StartsWithZero context memory utf ↔ bytesValue endian bytes = 0 := by
  rw [StartsWithZero, and_iff_right hfit]
  exact slice_eq_zeros_iff endian h

theorem utf16Surrogates_spec {first second : ℕ} {decoded : ℕ × ℕ}
    (h : utf16Surrogates first second = some decoded) :
    validCodepoint decoded.1 = true ∧ 0 < decoded.2 ∧ decoded.1 ≠ 0 := by
  rw [utf16Surrogates] at h
  split at h
  next =>
    dsimp only at h
    split at h
    next hvalid =>
      cases h
      exact ⟨hvalid, by norm_num, by dsimp only; omega⟩
    next => cases h
  next => cases h

theorem validCodepoint_unit {unit : ℕ} (h : unit < 2 ^ 16)
    (hhigh : ¬ (0xd800 ≤ unit ∧ unit ≤ 0xdbff))
    (hlow : ¬ (0xdc00 ≤ unit ∧ unit ≤ 0xdfff)) : validCodepoint unit = true := by
  simp only [validCodepoint, Bool.and_eq_true, Bool.not_eq_true', decide_eq_true_eq,
    Bool.and_eq_false_iff, decide_eq_false_iff_not]
  omega

theorem decodeUtf16_spec {endian : Endian} {decoded : Option (ℕ × ℕ)}
    (h : decodeUtf16 context memory endian = .ok decoded) :
    (∀ c ∈ decoded, validCodepoint c.1 = true ∧ 0 < c.2) ∧
      (StartsWithZero context memory .utf16 ↔ ∃ bits, decoded = some (0, bits)) := by
  rw [decodeUtf16] at h
  obtain ⟨read, hread, h⟩ := except_bind_ok_iff.mp h
  rcases readU16_ok hread with ⟨rfl, hrefused⟩ | ⟨bytes, hfit, hslice, rfl⟩
  · obtain rfl := Except.ok.inj h
    exact ⟨by simp, iff_of_false (not_startsWithZero hrefused) (by simp)⟩
  · have hlength : bytes.length = 2 := length_slice hslice
    have hwhole : (bytes.drop 0).take 2 = bytes := by
      rw [List.drop_zero, ← hlength, List.take_length]
    have hlt : bytesValue endian bytes < 2 ^ 16 := by
      have := bytesValue_lt endian bytes
      rwa [hlength] at this
    rw [startsWithZero_iff endian hfit hslice]
    simp only [hwhole] at h
    generalize bytesValue endian bytes = first at h hlt
    split at h
    next hhigh =>
      obtain ⟨next, hnext, h⟩ := except_bind_ok_iff.mp h
      cases next with
      | none =>
        obtain rfl := Except.ok.inj h
        exact ⟨by simp, iff_of_false (by omega) (by simp)⟩
      | some second =>
        obtain rfl := Except.ok.inj h
        refine ⟨fun c hc => ?_, iff_of_false (by omega) ?_⟩
        · have hspec := utf16Surrogates_spec hc
          exact ⟨hspec.1, hspec.2.1⟩
        · rintro ⟨bits, hbits⟩
          exact (utf16Surrogates_spec hbits).2.2 rfl
    next hhigh =>
      split at h
      next hlow =>
        obtain rfl := Except.ok.inj h
        exact ⟨by simp, iff_of_false (by omega) (by simp)⟩
      next hlow =>
        obtain rfl := Except.ok.inj h
        refine ⟨fun c hc => ?_, by simp⟩
        obtain rfl := Option.some.inj hc
        exact ⟨validCodepoint_unit hlt hhigh hlow, by norm_num⟩

theorem decodeUtf32_spec {endian : Endian} {decoded : Option (ℕ × ℕ)}
    (h : decodeUtf32 context memory endian = .ok decoded) :
    (∀ c ∈ decoded, validCodepoint c.1 = true ∧ 0 < c.2) ∧
      (StartsWithZero context memory .utf32 ↔ ∃ bits, decoded = some (0, bits)) := by
  rw [decodeUtf32] at h
  split at h
  next hrefused =>
    obtain rfl := Except.ok.inj h
    exact ⟨by simp, iff_of_false (not_startsWithZero hrefused) (by simp)⟩
  next haccepted =>
    have hfit : context.hasBits 32 = true := by
      by_contra hunfit
      exact haccepted (.inr (by simpa using hunfit))
    cases hslice : context.slice memory 32 with
    | none =>
      rw [hslice] at h
      cases h
    | some bytes =>
      rw [hslice] at h
      obtain rfl := Except.ok.inj h
      rw [startsWithZero_iff endian hfit hslice, utf32Codepoint]
      split
      next hvalid =>
        refine ⟨fun c hc => ?_, by simp⟩
        obtain rfl := Option.some.inj hc
        exact ⟨hvalid, by norm_num⟩
      next hinvalid =>
        refine ⟨by simp, iff_of_false (fun hzero => hinvalid ?_) (by simp)⟩
        rw [hzero]
        rfl

/-- What a decoder finds is a codepoint, which is 0 when the code unit it starts with is. -/
theorem decodeUtf_spec {endian : Endian} {utf : Utf} {decoded : Option (ℕ × ℕ)}
    (h : decodeUtf context memory endian utf = .ok decoded) :
    (∀ c ∈ decoded, validCodepoint c.1 = true ∧ 0 < c.2) ∧
      (StartsWithZero context memory utf ↔ ∃ bits, decoded = some (0, bits)) := by
  cases utf with
  | utf8 => exact decodeUtf8_spec h
  | utf16 => exact decodeUtf16_spec h
  | utf32 => exact decodeUtf32_spec h

theorem jitReadU16_eq (byteOffset : ℕ) (endian : Endian) :
    jitReadU16 context memory byteOffset endian =
      (context.readU16 memory byteOffset endian).toOption.join := by
  rw [jitReadU16, MatchContext.readU16]
  split
  · rfl
  · split
    · rfl
    · cases context.slice memory ((byteOffset + 2) * 8) <;> rfl

/-- The decoders of the helpers are those of the interpreter, an error being a refusal. -/
theorem jitDecodeUtf_eq (endian : Endian) (utf : Utf) :
    jitDecodeUtf context memory endian utf =
      (decodeUtf context memory endian utf).toOption.join := by
  cases utf with
  | utf8 =>
    rw [jitDecodeUtf, decodeUtf, jitDecodeUtf8, decodeUtf8]
    split
    · rfl
    · cases context.slice memory context.remainingBits <;> rfl
  | utf16 =>
    rw [jitDecodeUtf, decodeUtf, jitDecodeUtf16, decodeUtf16, jitReadU16_eq, jitReadU16_eq]
    cases context.readU16 memory 0 endian with
    | error e => rfl
    | ok read =>
      cases read with
      | none => rfl
      | some first =>
        change (if _ then _ else _) = _
        rw [except_ok_bind]
        dsimp only
        split
        · cases context.readU16 memory 2 endian with
          | error e => rfl
          | ok next => cases next <;> rfl
        · split <;> rfl
  | utf32 =>
    rw [jitDecodeUtf, decodeUtf, jitDecodeUtf32, decodeUtf32]
    split
    · rfl
    · cases context.slice memory 32 <;> rfl

theorem small_of_validCodepoint {codepoint : ℕ} (h : validCodepoint codepoint = true) :
    -(2 ^ 60) ≤ (codepoint : ℤ) ∧ (codepoint : ℤ) < 2 ^ 60 := by
  have hle : codepoint ≤ 0x10ffff := by
    simp only [validCodepoint, Bool.and_eq_true, decide_eq_true_eq] at h
    exact h.1
  omega

theorem utfStep_ok {utf : Utf} {flags destination : Operand} {decoded : Option (ℕ × ℕ)}
    (h : decodeUtf context memory (.fromFlags flags) utf = .ok decoded) :
    utfStep context memory utf flags destination = .ok (decoded.elim .failed fun c =>
      .matched (some (destination, .integer c.1)) (context.positionBits + c.2)) := by
  rw [utfStep, h, except_ok_bind]
  cases decoded with
  | none => rfl
  | some c =>
    have hvalid := ((decodeUtf_spec h).1 c rfl).1
    obtain ⟨word, hword⟩ := readSmallInt_isOk_iff.mpr (small_of_validCodepoint hvalid)
    change (readSmallInt c.1 >>= fun _ => _) = _
    rw [hword]
    rfl

/-- A codepoint is extracted alike. -/
theorem agree_utf_iff {utf : Utf} {flags destination : Operand} :
    Agree context (utfStep context memory utf flags destination)
        ((MatchCall.getUtf utf (flagsToRaw flags) destination).run context memory) ↔
      UtfMeets context memory utf flags := by
  rw [UtfMeets, MatchCall.run, jitBsGetUtf]
  cases hread : decodeUtf context memory (.fromFlags flags) utf with
  | error e =>
    have hstep : utfStep context memory utf flags destination = .error e := by
      rw [utfStep, hread]
      rfl
    rw [hstep]
    refine iff_of_false (fun h => h) ?_
    rintro ⟨decoded, hdecoded, -⟩
    cases hdecoded
  | ok decoded =>
    have hspec := decodeUtf_spec hread
    rw [utfStep_ok hread]
    have hmeets : (∃ decoded', (Except.ok decoded : Except ExecError _) = .ok decoded' ∧
        jitDecodeUtf context memory (rawEndian (flagsToRaw flags)) utf = decoded' ∧
        ¬ StartsWithZero context memory utf) ↔
        jitDecodeUtf context memory (rawEndian (flagsToRaw flags)) utf = decoded ∧
          ¬ ∃ bits, decoded = some (0, bits) := by
      rw [← hspec.2]
      constructor
      · rintro ⟨found, hfound, hsame, hnonzero⟩
        obtain rfl := Except.ok.inj hfound
        exact ⟨hsame, hnonzero⟩
      · rintro ⟨hsame, hnonzero⟩
        exact ⟨decoded, rfl, hsame, hnonzero⟩
    rw [hmeets]
    cases hraw : jitDecodeUtf context memory (rawEndian (flagsToRaw flags)) utf with
    | none =>
      change Agree context _ (checkedWord (refusal context) destination) ↔ _
      rw [refusal_checked, agree_failed_iff]
      cases decoded <;> simp
    | some c =>
      have hvalid : validCodepoint c.1 = true ∧ 0 < c.2 := by
        rw [jitDecodeUtf_eq] at hraw
        cases hdecode : decodeUtf context memory (rawEndian (flagsToRaw flags)) utf with
        | error e =>
          rw [hdecode] at hraw
          cases hraw
        | ok found =>
          rw [hdecode] at hraw
          exact (decodeUtf_spec hdecode).1 c hraw
      change Agree context _ (checkedWord (extractedWord context c.1 c.2) destination) ↔ _
      rw [extractedWord_checked, if_pos (small_of_validCodepoint hvalid.1)]
      obtain ⟨codepoint, bits⟩ := c
      by_cases hzero : codepoint = 0
      · subst hzero
        rw [if_pos (Nat.cast_zero), agree_failed_iff]
        refine iff_of_false ?_ ?_
        · rintro ⟨-, hposition⟩
          have := hvalid.2
          dsimp only at this hposition
          omega
        · rintro ⟨rfl, hnone⟩
          exact hnone ⟨bits, rfl⟩
      · rw [if_neg (by simpa using hzero), agree_passed_iff]
        cases decoded with
        | none => simp
        | some found =>
          obtain ⟨codepoint', bits'⟩ := found
          simp only [Option.elim_some, Except.ok.injEq, MatchStep.matched.injEq, Option.some.injEq,
            Prod.mk.injEq, Extracted.integer.injEq, true_and, Nat.cast_inj, Nat.add_left_cancel_iff]
          constructor
          · rintro ⟨rfl, rfl⟩
            exact ⟨⟨rfl, rfl⟩, by simp [hzero]⟩
          · rintro ⟨⟨rfl, rfl⟩, -⟩
            exact ⟨rfl, rfl⟩

end Codepoints

end Beamr.Jit
