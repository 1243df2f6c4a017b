import Beamr.Interpreter.Construction

/-!
# Binary matching

A match context stands at a bit position of a binary. `bs_get_integer` reads whole bytes at a
byte boundary in one go and everything else bit by bit. Reading the sizes a binary was built with
gives back what was put in.
-/
namespace Beamr.Interpreter

open Loader Term ByteOrder BitField

/-! ## Contexts -/

namespace MatchContext

variable (context : MatchContext)

def hasBits (bits : ℕ) : Bool := context.positionBits + bits ≤ context.totalBits

/-- The bytes of the context's binary. -/
def source (memory : Memory) : Option (List UInt8) :=
  match memory.read context.sourceTerm with
  | .binary binary => some binary.asBytes
  | _ => none

/-- The bit loop, for `count` bits from `offset` on; at most 63 bits fit the accumulator. -/
def readBitsLoop (bytes : List UInt8) : ℕ → ℕ → ℕ → Option ℕ
  | 0, _, acc => some acc
  | count + 1, offset, acc => do
    let byte ← bytes[offset / 8]?
    let bit := (byte >>> UInt8.ofNat (7 - offset % 8)) &&& 1
    readBitsLoop bytes count (offset + 1) (acc <<< 1 ||| bit.toNat)

def readBitsBigEndian (memory : Memory) (posBits sizeBits : ℕ) : Option ℕ :=
  if posBits + sizeBits > context.totalBits then none
  else do
    let bytes ← context.source memory
    readBitsLoop bytes sizeBits posBits 0

/-- Whole bytes at a byte boundary. -/
def slice (memory : Memory) (bits : ℕ) : Option (List UInt8) :=
  if bits % 8 ≠ 0 ∨ context.positionBits % 8 ≠ 0 then none
  else do
    let start := context.positionBits / 8
    let len := bits / 8
    let bytes ← context.source memory
    if start + len ≤ bytes.length then some ((bytes.drop start).take len) else none

end MatchContext

/-! ## Integers -/

structure SegmentFlags where
  endian : Endian
  signed : Bool

def isSignedFlag : Operand → Bool
  | .unsigned value => flagBit 2 value
  | .integer value => flagBit 2 value
  | _ => false

def SegmentFlags.fromFlags (flags : Operand) : SegmentFlags where
  endian := .fromFlags flags
  signed := match flags with
    | .unsigned value => flagBit 2 value
    | .integer value => flagBit 2 value
    | .list items => items.any isSignedFlag
    | _ => false

def Matching.segmentBits (size unit : Operand) : Except ExecError ℕ := do
  let size ← operandUsize size "segment size"
  let unit ← operandUsize unit "segment unit"
  if size * unit < 2 ^ 64 then .ok (size * unit) else .error (.invalidOperand "segment size")

/-- Sign- or zero-extended bytes as an `i64`. -/
def decodeInteger (bytes : List UInt8) (flags : SegmentFlags) : Except ExecError ℤ :=
  if 8 < bytes.length then .error .badarg
  else
    let msb := match flags.endian with
      | .big => bytes.head?
      | .little => bytes.getLast?
    let negative := flags.signed && msb.any fun byte => byte &&& 0x80 != 0
    let fill := List.replicate (8 - bytes.length) (if negative then 0xff else 0x00)
    match flags.endian with
    | .big => .ok (toSigned 64 (beNat (fill ++ bytes)))
    | .little => .ok (toSigned 64 (leNat (bytes ++ fill)))

/-- The value and size of the next segment, or nothing when it does not fit. -/
def getIntegerValue (context : MatchContext) (memory : Memory) (size unit flags : Operand) :
    Except ExecError (Option (ℤ × ℕ)) := do
  let sizeBits ← Matching.segmentBits size unit
  let flags := SegmentFlags.fromFlags flags
  if context.hasBits sizeBits = false then .ok none
  else if sizeBits = 0 then .ok (some (0, 0))
  else if sizeBits % 8 = 0 ∧ context.positionBits % 8 = 0 then
    match context.slice memory sizeBits with
    | none => .error .badarg
    | some bytes => do
      let value ← decodeInteger bytes flags
      .ok (some (value, sizeBits))
  else if flags.endian = .little then .error .badarg
  else if 63 < sizeBits then .error .badarg
  else match context.readBitsBigEndian memory context.positionBits sizeBits with
    | none => .error .badarg
    | some unsigned =>
      let value : ℤ :=
        if flags.signed ∧ unsigned >>> (sizeBits - 1) &&& 1 = 1 then
          (unsigned : ℤ) - 2 ^ sizeBits
        else unsigned
      .ok (some (value, sizeBits))

/-! ## Instructions -/

structure GetOperands where
  fail : Operand
  context : Operand
  size : Operand
  unit : Operand
  flags : Operand
  destination : Operand

def parseGetOperands (operands : List Operand) (name : String) : Except ExecError GetOperands :=
  match operands with
  | [fail, context, _live, size, unit, flags, destination] =>
    .ok ⟨fail, context, size, unit, flags, destination⟩
  | [fail, context, size, unit, flags, destination] =>
    .ok ⟨fail, context, size, unit, flags, destination⟩
  | _ => .error (.invalidOperand name)

/-- The context an operand names, with its place on the heap. -/
def readContext (module : BinaryModule) (process : BinaryProcess) (operand : Operand) :
    Except ExecError (Word × MatchContext) := do
  let word ← readTerm process.registers module.constantPool operand
  match process.contexts word with
  | some context => .ok (word, context)
  | none => .error .badarg

def jumpLabel (process : BinaryProcess) (label : Operand) :
    Except ExecError (Branch × BinaryProcess) := do
  let _ ← operandLabel label
  .ok (.fail, process)

def setPositionBits (process : BinaryProcess) (word : Word) (context : MatchContext) (bits : ℕ) :
    BinaryProcess :=
  { process with
    contexts := Function.update process.contexts word (some { context with positionBits := bits }) }

def bsGetInteger (module : BinaryModule) (process : BinaryProcess) (operands : List Operand) :
    Except ExecError (Branch × BinaryProcess) := do
  let get ← parseGetOperands operands "bs_get_integer2"
  let (word, context) ← readContext module process get.context
  match ← getIntegerValue context process.memory get.size get.unit get.flags with
  | some (value, bits) => do
    let term ← readSmallInt value
    let registers ← writeTerm process.registers term get.destination
    .ok (.next, setPositionBits { process with registers := registers } word context
      (context.positionBits + bits))
  | none => jumpLabel process get.fail

/-- `bs_start_match`: `reserve` makes room, after a collection if need be, and `alloc` takes the
words of the context. -/
def bsStartMatch (reserve : BinaryProcess → Except ExecError BinaryProcess)
    (alloc : BinaryProcess → Except ExecError Word) (module : BinaryModule)
    (process : BinaryProcess) (fail source destination : Operand) :
    Except ExecError (Branch × BinaryProcess) := do
  let process ← reserve process
  let term ← readTerm process.registers module.constantPool source
  match process.contexts term with
  | some _ => do
    let registers ← writeTerm process.registers term destination
    .ok (.next, { process with registers := registers })
  | none =>
    match process.memory.read term with
    | .binary binary => do
      let word ← alloc process
      let registers ← writeTerm process.registers word destination
      .ok (.next, { process with
        registers := registers
        contexts := Function.update process.contexts word
          (some ⟨0, binary.asBytes.length * 8, term⟩) })
    | _ =>
      match fail with
      | .atom (some _) => .error .badarg
      | _ => jumpLabel process fail

/-! ## Reading a field -/

theorem shiftedBit_toNat (byte : UInt8) {k : ℕ} (hk : k < 8) :
    ((byte >>> UInt8.ofNat k) &&& 1).toNat = byte.toNat / 2 ^ k % 2 := by
  rw [UInt8.toNat_and, shiftRight_toNat byte hk]
  exact Nat.and_one_is_mod _

theorem MatchContext.readBitsLoop_eq {bytes : List UInt8} : ∀ {count offset acc : ℕ},
    offset + count ≤ 8 * bytes.length →
    readBitsLoop bytes count offset acc = some (acc * 2 ^ count + fieldAt bytes offset count) := by
  intro count
  induction count with
  | zero =>
    intro offset acc _
    simp [readBitsLoop, fieldAt, Nat.mod_one]
  | succ count ih =>
    intro offset acc h
    obtain ⟨b, hb, hbit⟩ := fieldAt_one (show offset < 8 * bytes.length by omega)
    have hlt : fieldAt bytes offset 1 < 2 ^ 1 := fieldAt_lt _ _ _
    have hacc : acc <<< 1 ||| ((b >>> UInt8.ofNat (7 - offset % 8)) &&& 1).toNat =
        acc * 2 + fieldAt bytes offset 1 := by
      rw [shiftedBit_toNat b (by omega), ← hbit, Nat.shiftLeft_eq, Nat.mul_comm,
        ← Nat.two_pow_add_eq_or_of_lt hlt, pow_one]
    rw [readBitsLoop, hb]
    simp only [Option.bind_eq_bind, Option.bind_some]
    rw [hacc, ih (by omega), Nat.add_comm count 1, fieldAt_add (by omega), pow_add]
    congr 1
    ring

/-- The sign bit of the first byte is the sign bit of the number. -/
theorem signBit_cons (b : UInt8) (rest : List UInt8) :
    (b &&& 0x80 != 0) = decide (256 ^ (rest.length + 1) ≤ 2 * beNat (b :: rest)) := by
  have hall : ∀ n < 256, (UInt8.ofNat n &&& 0x80 != 0) = decide (128 ≤ n) := by decide +kernel
  have hb := hall b.toNat b.toNat_lt
  rw [UInt8.ofNat_toNat] at hb
  have hrest := beNat_lt rest
  rw [hb, beNat_cons, pow_succ']
  generalize 256 ^ rest.length = p at hrest
  rw [decide_eq_decide]
  constructor
  · intro h
    nlinarith
  · intro h
    by_contra hlt
    nlinarith

/-- The big-endian branch of `decode_integer`, on up to seven bytes. -/
theorem decodeInteger_big {bytes : List UInt8} {signed : Bool} (h1 : 1 ≤ bytes.length)
    (h7 : bytes.length ≤ 7) : decodeInteger bytes ⟨.big, signed⟩ =
      .ok (if signed then toSigned (8 * bytes.length) (beNat bytes) else beNat bytes) := by
  have hlt := beNat_lt bytes
  have hfull : (256 : ℕ) ^ (8 - bytes.length) * 256 ^ bytes.length = 2 ^ 64 := by
    rw [← pow_add, Nat.sub_add_cancel (by omega)]
    rfl
  have hsmall : (256 : ℕ) ^ bytes.length ≤ 2 ^ 56 := by
    rw [pow_256]
    exact Nat.pow_le_pow_right (by norm_num) (by omega)
  have hhalf : 2 * 2 ^ (8 * bytes.length - 1) = 256 ^ bytes.length := by
    rw [pow_256, ← pow_succ', Nat.sub_add_cancel (by omega)]
  have hzero : toSigned 64 (beNat (List.replicate (8 - bytes.length) 0x00 ++ bytes)) =
      beNat bytes := by
    rw [beNat_append, beNat_replicate_zero, mul_zero, add_zero]
    exact toSigned_of_lt (by norm_num at hsmall ⊢; omega)
  have hones : toSigned 64 (beNat (List.replicate (8 - bytes.length) 0xff ++ bytes)) =
      (beNat bytes : ℤ) - 2 ^ (8 * bytes.length) := by
    have hpos : 0 < 256 ^ bytes.length := by positivity
    rw [beNat_append, beNat_replicate_ff, Nat.mul_sub, Nat.mul_comm, hfull, mul_one, toSigned,
      if_neg (by omega)]
    have hcast : ((2 ^ (8 * bytes.length) : ℕ) : ℤ) = 2 ^ (8 * bytes.length) := by push_cast; rfl
    rw [← hcast, ← pow_256]
    omega
  unfold decodeInteger
  rw [if_neg (by omega)]
  cases signed with
  | false => simp only [Bool.false_and, Bool.false_eq_true, if_false, hzero]
  | true =>
    obtain ⟨b, rest, rfl⟩ : ∃ b rest, bytes = b :: rest := by
      cases bytes with
      | nil => simp at h1
      | cons b rest => exact ⟨b, rest, rfl⟩
    rw [List.length_cons] at hhalf
    have hsign := signBit_cons b rest
    simp only [Bool.true_and, List.head?_cons, Option.any_some, hsign, if_true, decide_eq_true_eq]
    by_cases hneg : 256 ^ (rest.length + 1) ≤ 2 * beNat (b :: rest)
    · rw [if_pos hneg, hones, toSigned, if_neg (by rw [List.length_cons]; omega)]
    · rw [if_neg hneg, hzero, toSigned, if_pos (by rw [List.length_cons]; omega)]

/-- What a segment reads: the field, or its two's-complement reading. -/
def readField (signed : Bool) (bits value : ℕ) : ℤ := if signed then toSigned bits value else value

theorem toSigned_eq_ite {bits value : ℕ} (h1 : 1 ≤ bits) (hlt : value < 2 ^ bits) :
    toSigned bits value =
      if value >>> (bits - 1) &&& 1 = 1 then (value : ℤ) - 2 ^ bits else value := by
  have hhalf : 2 * 2 ^ (bits - 1) = 2 ^ bits := by rw [← pow_succ', Nat.sub_add_cancel h1]
  have hbit : value >>> (bits - 1) &&& 1 = value / 2 ^ (bits - 1) := by
    rw [Nat.and_one_is_mod, Nat.shiftRight_eq_div_pow]
    exact Nat.mod_eq_of_lt (Nat.div_lt_of_lt_mul (by rw [mul_comm, hhalf]; exact hlt))
  rw [toSigned, hbit]
  by_cases hsmall : value < 2 ^ (bits - 1)
  · rw [if_pos hsmall, Nat.div_eq_of_lt hsmall, if_neg (by norm_num)]
  · have hone : value / 2 ^ (bits - 1) = 1 :=
      Nat.div_eq_of_lt_le (by omega) (by omega)
    rw [if_neg hsmall, hone, if_pos rfl]

theorem readField_bounds {signed : Bool} {bits value : ℕ} (h1 : 1 ≤ bits) (h59 : bits ≤ 59)
    (hlt : value < 2 ^ bits) :
    -(2 ^ 60) ≤ readField signed bits value ∧ readField signed bits value < 2 ^ 60 := by
  have hpow : 2 ^ bits ≤ 2 ^ 59 := Nat.pow_le_pow_right (by norm_num) h59
  cases signed with
  | false =>
    simp only [readField, Bool.false_eq_true, if_false]
    omega
  | true =>
    have hfits := fitsSigned_toSigned (w := bits) (by omega) hlt
    have hhalf : (2 : ℤ) ^ (bits - 1) ≤ 2 ^ 60 := pow_le_pow_right₀ (by norm_num) (by omega)
    simp only [readField, if_true]
    exact ⟨by have := hfits.1; omega, by have := hfits.2; omega⟩

section Get

variable {context : MatchContext} {memory : Memory} {bytes : List UInt8} {size unit flags : Operand}
  {bits : ℕ}

/-- A segment that fits is read as the field at the position, on either path. -/
theorem getIntegerValue_spec (hsource : context.source memory = some bytes)
    (htotal : context.totalBits = 8 * bytes.length)
    (hbits : Matching.segmentBits size unit = .ok bits) (hbig : Endian.fromFlags flags = .big)
    (h1 : 1 ≤ bits) (h59 : bits ≤ 59) (hfit : context.positionBits + bits ≤ 8 * bytes.length) :
    getIntegerValue context memory size unit flags =
      .ok (some (readField (SegmentFlags.fromFlags flags).signed bits
        (fieldAt bytes context.positionBits bits), bits)) := by
  have hendian : (SegmentFlags.fromFlags flags).endian = .big := hbig
  have hhas : context.hasBits bits = true := by
    rw [MatchContext.hasBits, decide_eq_true_eq, htotal]
    exact hfit
  unfold getIntegerValue
  rw [hbits, except_ok_bind, hhas]
  simp only [Bool.true_eq_false, if_false]
  rw [if_neg (by omega)]
  generalize SegmentFlags.fromFlags flags = parsed at hendian ⊢
  obtain ⟨endian, signed⟩ := parsed
  obtain rfl : endian = .big := hendian
  by_cases haligned : bits % 8 = 0 ∧ context.positionBits % 8 = 0
  · have hpos : 8 * (context.positionBits / 8) = context.positionBits := by omega
    have hlen : 8 * (bits / 8) = bits := by omega
    have hinside : context.positionBits / 8 + bits / 8 ≤ bytes.length := by omega
    have hslice : context.slice memory bits =
        some ((bytes.drop (context.positionBits / 8)).take (bits / 8)) := by
      rw [MatchContext.slice, if_neg (by omega), hsource]
      simp only [Option.bind_eq_bind, Option.bind_some]
      rw [if_pos hinside]
    have hfield := fieldAt_slice hinside
    set taken := (bytes.drop (context.positionBits / 8)).take (bits / 8)
    have htaken : taken.length = bits / 8 := by
      rw [List.length_take, List.length_drop]
      omega
    rw [if_pos haligned, hslice]
    simp only
    rw [decodeInteger_big (by omega) (by omega), except_ok_bind, htaken, ← hfield, hpos, hlen]
    rfl
  · have hread : context.readBitsBigEndian memory context.positionBits bits =
        some (fieldAt bytes context.positionBits bits) := by
      rw [MatchContext.readBitsBigEndian, if_neg (by omega), hsource]
      simp only [Option.bind_eq_bind, Option.bind_some]
      rw [MatchContext.readBitsLoop_eq hfit, Nat.zero_mul, Nat.zero_add]
    have hlt := fieldAt_lt bytes context.positionBits bits
    rw [if_neg haligned, if_neg (by simp), if_neg (by omega), hread]
    cases signed with
    | false => simp [readField]
    | true => simp [readField, toSigned_eq_ite h1 hlt]

end Get

/-! ## Registers named by operands -/

inductive RegisterName
  | x (index : ℕ)
  | y (index : ℕ)
  deriving DecidableEq

def registerOf : Operand → Option RegisterName
  | .x index => some (.x index)
  | .y index => some (.y index)
  | .typedRegister register _ => registerOf register
  | _ => none

theorem writeX_ok {registers registers' : Registers} {w : Word} {index : ℕ}
    (h : writeX registers w index = .ok registers') :
    index < xRegisterCount ∧ index < 2 ^ 16 ∧ registers' = registers.setX index w := by
  obtain ⟨h16, h⟩ := u16FromU32_bind.mp h
  split_ifs at h with hlt
  exact ⟨hlt, h16, (Except.ok.inj h).symm⟩

theorem writeY_ok {registers registers' : Registers} {w : Word} {index : ℕ}
    (h : writeY registers w index = .ok registers') :
    index < registers.y.length ∧ index < 2 ^ 16 ∧ registers' = registers.setY index w := by
  obtain ⟨h16, h⟩ := u16FromU32_bind.mp h
  split_ifs at h with hlt
  exact ⟨hlt, h16, (Except.ok.inj h).symm⟩

/-- A register that was written holds the word. -/
theorem readTerm_written {registers registers' : Registers} {literals : List Word} {w : Word}
    {destination : Operand} (h : writeTerm registers w destination = .ok registers') :
    readTerm registers' literals destination = .ok w := by
  fun_induction writeTerm registers w destination with
  | case1 index =>
    obtain ⟨hlt, h16, rfl⟩ := writeX_ok h
    exact readTerm_x.mpr ⟨h16, hlt, by simp [Registers.setX]⟩
  | case2 index =>
    obtain ⟨hlt, h16, rfl⟩ := writeY_ok h
    exact readTerm_y.mpr ⟨h16, by simp [Registers.setY, hlt]⟩
  | case3 register type ih =>
    rw [readTerm]
    exact ih h
  | case4 operand hx hy ht => cases h

/-- What a write does to the two register files. -/
theorem writeTerm_registers {registers registers' : Registers} {w : Word} {destination : Operand}
    (h : writeTerm registers w destination = .ok registers') :
    registers'.y.length = registers.y.length ∧
      (∀ i, registerOf destination ≠ some (.x i) → registers'.x i = registers.x i) ∧
      ∀ i, registerOf destination ≠ some (.y i) → registers'.y[i]? = registers.y[i]? := by
  fun_induction writeTerm registers w destination with
  | case1 index =>
    obtain ⟨-, -, rfl⟩ := writeX_ok h
    refine ⟨rfl, fun i hi => ?_, fun _ _ => rfl⟩
    rw [registerOf, ne_eq, Option.some.injEq, RegisterName.x.injEq] at hi
    exact Function.update_of_ne (Ne.symm hi) _ _
  | case2 index =>
    obtain ⟨-, -, rfl⟩ := writeY_ok h
    refine ⟨List.length_set, fun _ _ => rfl, fun i hi => ?_⟩
    rw [registerOf, ne_eq, Option.some.injEq, RegisterName.y.injEq] at hi
    exact List.getElem?_set_ne hi
  | case3 register type ih =>
    rw [registerOf]
    exact ih h
  | case4 operand hx hy ht => cases h

theorem readX_congr {registers registers' : Registers} {index : ℕ}
    (h : registers'.x index = registers.x index) : readX registers' index = readX registers index := by
  unfold readX u16FromU32
  split_ifs
  · rw [except_ok_bind, except_ok_bind, Registers.xReg, Registers.xReg, h]
  · rfl

theorem readY_congr {registers registers' : Registers} {index : ℕ}
    (h : registers'.y[index]? = registers.y[index]?) (hlen : registers'.y.length = registers.y.length) :
    readY registers' index = readY registers index := by
  unfold readY u16FromU32
  split_ifs
  · rw [except_ok_bind, except_ok_bind, Registers.yReg, Registers.yReg, h, hlen]
  · rfl

/-- Operands of other registers read what they read before. -/
theorem readTerm_frame {registers registers' : Registers} {literals : List Word} {w : Word}
    {destination operand : Operand} (h : writeTerm registers w destination = .ok registers')
    (hne : registerOf operand ≠ registerOf destination) :
    readTerm registers' literals operand = readTerm registers literals operand := by
  obtain ⟨hlen, hx, hy⟩ := writeTerm_registers h
  fun_induction readTerm registers literals operand with
  | case5 index =>
    rw [registerOf] at hne
    rw [readTerm]
    exact readX_congr (hx index hne.symm)
  | case6 index =>
    rw [registerOf] at hne
    rw [readTerm]
    exact readY_congr (hy index hne.symm) hlen
  | case8 register type ih =>
    rw [registerOf] at hne
    rw [readTerm]
    exact ih hne
  | case9 operand h1 h2 h3 h4 h5 h6 h7 h8 =>
    unfold readTerm
    split <;> simp_all
  | _ => rw [readTerm]

/-! ## Successive segments -/

/-- The operands of one `bs_get_integer`, without the context's; the live count may be absent. -/
structure GetFields where
  fail : Operand
  live : Option Operand
  size : Operand
  unit : Operand
  flags : Operand
  destination : Operand

def GetFields.operands (context : Operand) (get : GetFields) : List Operand :=
  match get.live with
  | some live => [get.fail, context, live, get.size, get.unit, get.flags, get.destination]
  | none => [get.fail, context, get.size, get.unit, get.flags, get.destination]

def GetFields.signed (get : GetFields) : Bool := (SegmentFlags.fromFlags get.flags).signed

/-- One instruction after the other; the words they wrote, or nothing once one does not match. -/
def getIntegers (module : BinaryModule) (context : Operand) :
    BinaryProcess → List GetFields → Except ExecError (Option (List Word) × BinaryProcess)
  | process, [] => .ok (some [], process)
  | process, get :: gets => do
    let (branch, process) ← bsGetInteger module process (get.operands context)
    match branch with
    | .fail => .ok (none, process)
    | .next => do
      let word ← readTerm process.registers module.constantPool get.destination
      let (words, process) ← getIntegers module context process gets
      .ok (words.map (word :: ·), process)

/-- The context operand names a context at bit `pos` of a binary with these bytes. -/
def StandsAt (module : BinaryModule) (process : BinaryProcess) (context : Operand)
    (bytes : List UInt8) (pos : ℕ) : Prop :=
  ∃ word source, readTerm process.registers module.constantPool context = .ok word ∧
    process.contexts word = some ⟨pos, 8 * bytes.length, source⟩ ∧
    ∃ binary, process.memory.read source = .binary binary ∧ binary.asBytes = bytes

/-- The instruction asks for a big-endian integer of `bits` bits and writes to a register of its
own. -/
structure GetFields.Asks (get : GetFields) (context : Operand) (slots bits : ℕ) : Prop where
  size : Matching.segmentBits get.size get.unit = .ok bits
  big : Endian.fromFlags get.flags = .big
  writable : Writable slots get.destination
  apart : registerOf context ≠ registerOf get.destination

/-- `bs_start_match` leaves a context at the start of the binary. -/
theorem bsStartMatch_standsAt {reserve : BinaryProcess → Except ExecError BinaryProcess}
    {alloc : BinaryProcess → Except ExecError Word} {module : BinaryModule}
    {process reserved : BinaryProcess} {fail source destination : Operand} {term word : Word}
    {binary : BinaryRef} (hreserve : reserve process = .ok reserved)
    (hread : readTerm reserved.registers module.constantPool source = .ok term)
    (hnew : reserved.contexts term = none) (hbinary : reserved.memory.read term = .binary binary)
    (halloc : alloc reserved = .ok word) (hw : Writable reserved.registers.y.length destination) :
    ∃ started, bsStartMatch reserve alloc module process fail source destination =
        .ok (.next, started) ∧
      StandsAt module started destination binary.asBytes 0 := by
  obtain ⟨written, hwrite⟩ := writeTerm_writable hw word
  refine ⟨{ reserved with
    registers := written
    contexts := Function.update reserved.contexts word
      (some ⟨0, binary.asBytes.length * 8, term⟩) }, ?_, word, term, readTerm_written hwrite, ?_,
    binary, hbinary, rfl⟩
  · rw [bsStartMatch, hreserve, except_ok_bind, hread, except_ok_bind, hnew]
    simp only [hbinary]
    rw [halloc, except_ok_bind, hwrite]
    rfl
  · rw [Nat.mul_comm]
    exact Function.update_self _ _ _

section Run

variable {module : BinaryModule} {context : Operand} {bytes : List UInt8}

theorem parse_operands (get : GetFields) (context : Operand) (name : String) :
    parseGetOperands (get.operands context) name =
      .ok ⟨get.fail, context, get.size, get.unit, get.flags, get.destination⟩ := by
  unfold GetFields.operands
  cases get.live <;> rfl

/-- One instruction writes its field and moves the context behind it. -/
theorem bsGetInteger_spec {process : BinaryProcess} {get : GetFields} {pos bits : ℕ}
    (hstands : StandsAt module process context bytes pos)
    (hget : get.Asks context process.registers.y.length bits) (h1 : 1 ≤ bits) (h59 : bits ≤ 59)
    (hfit : pos + bits ≤ 8 * bytes.length) :
    ∃ next word, bsGetInteger module process (get.operands context) = .ok (.next, next) ∧
      readTerm next.registers module.constantPool get.destination = .ok word ∧
      (∀ memory, Native.integerOf memory word =
        some (readField get.signed bits (fieldAt bytes pos bits))) ∧
      StandsAt module next context bytes (pos + bits) ∧
      next.registers.y.length = process.registers.y.length := by
  obtain ⟨place, source, hread, hcontext, binary, hbinary, hbytes⟩ := hstands
  set value := readField get.signed bits (fieldAt bytes pos bits)
  have hsource : MatchContext.source ⟨pos, 8 * bytes.length, source⟩ process.memory = some bytes := by
    rw [MatchContext.source, hbinary]
    exact congrArg some hbytes
  have hvalue := getIntegerValue_spec hsource rfl hget.size hget.big h1 h59 hfit
  have hbounds : -(2 ^ 60) ≤ value ∧ value < 2 ^ 60 :=
    readField_bounds h1 h59 (fieldAt_lt bytes pos bits)
  set word := Word.ofSmallInt (.ofRange value hbounds)
  have hsmall : readSmallInt value = .ok word := by
    rw [readSmallInt, trySmallInt, dif_pos hbounds]
  obtain ⟨written, hwrite⟩ := writeTerm_writable hget.writable word
  refine ⟨setPositionBits { process with registers := written } place
    ⟨pos, 8 * bytes.length, source⟩ (pos + bits), word, ?_, readTerm_written hwrite, ?_,
    ⟨place, source, ?_, Function.update_self _ _ _, binary, hbinary, hbytes⟩,
    (writeTerm_registers hwrite).1⟩
  · rw [bsGetInteger, parse_operands, except_ok_bind]
    have hctx : readContext module process context =
        .ok (place, ⟨pos, 8 * bytes.length, source⟩) := by
      rw [readContext, hread, except_ok_bind, hcontext]
    simp only [hctx, except_ok_bind, hvalue]
    change (do
      let term ← readSmallInt value
      _) = _
    rw [hsmall, except_ok_bind, hwrite]
    rfl
  · intro memory
    rw [Native.integerOf_smallInt memory (Word.isSmallInt_ofSmallInt _)]
    exact congrArg some (Word.payload_ofSmallInt _)
  · rw [← hread]
    exact readTerm_frame hwrite hget.apart

/-- What the instructions read, segment by segment. -/
def readsOf : List Segment → List GetFields → List ℤ
  | segment :: segments, get :: gets =>
    readField get.signed segment.bits (ofSigned segment.bits segment.value) :: readsOf segments gets
  | _, _ => []

/-- From a place where the rest of the binary is the given segments, the run reads them all and
ends behind them. -/
theorem getIntegers_spec {segments : List Segment} : ∀ {gets : List GetFields}
    {process : BinaryProcess} {pos : ℕ},
    StandsAt module process context bytes pos →
    tailValue bytes pos = packed (segments.map Segment.field) →
    pos + totalBits (segments.map Segment.field) = 8 * bytes.length →
    (∀ s ∈ segments, 1 ≤ s.bits ∧ s.bits ≤ 59) →
    List.Forall₂ (fun s g => g.Asks context process.registers.y.length s.bits) segments gets →
    ∃ words final, getIntegers module context process gets = .ok (some words, final) ∧
      (∀ memory, words.map (Native.integerOf memory) = (readsOf segments gets).map some) ∧
      StandsAt module final context bytes (8 * bytes.length) := by
  induction segments with
  | nil =>
    intro gets process pos hstands _ hpos _ hgets
    cases hgets
    rw [List.map_nil, totalBits_nil, Nat.add_zero] at hpos
    exact ⟨[], process, rfl, fun _ => rfl, hpos ▸ hstands⟩
  | cons s segments ih =>
    intro gets process pos hstands htail hpos hsizes hgets
    cases hgets with
    | @cons _ get _ gets hget hgets =>
      obtain ⟨h1, h59⟩ := hsizes s (by simp)
      rw [List.map_cons] at htail hpos
      have hlt := Segment.field_lt segments
      obtain ⟨hfield, hrest⟩ := fieldAt_of_tail htail hpos hlt
      rw [totalBits_cons, ← Nat.add_assoc] at hpos
      change pos + s.bits + _ = _ at hpos
      obtain ⟨next, word, hrun, hword, hint, hnext, hslots⟩ :=
        bsGetInteger_spec hstands hget h1 h59 (by omega)
      rw [← hslots] at hgets
      obtain ⟨words, final, hwords, hints, hfinal⟩ := ih hnext hrest hpos
        (fun t ht => hsizes t (by simp [ht])) hgets
      refine ⟨word :: words, final, ?_, fun memory => ?_, hfinal⟩
      · rw [getIntegers, hrun, except_ok_bind]
        simp only
        rw [hword, except_ok_bind, hwords]
        rfl
      · rw [List.map_cons, hint memory, hints memory, hfield]
        rfl

/-- Integer segments come back as they were put in, modulo their sizes. -/
theorem bsCreateBin_getIntegers (singleBits : Float64 → ℕ)
    (allocate : BinaryProcess → List UInt8 → Except ExecError (Word × BinaryProcess))
    {process : BinaryProcess} {segments : List Segment}
    (hsegments : ∀ s ∈ segments,
      IntegerSegment process.registers process.memory module s.fields s.bits s.value)
    (hsizes : ∀ s ∈ segments, 1 ≤ s.bits ∧ s.bits ≤ 59)
    (htotal : (segments.map Segment.bits).sum % 8 = 0)
    (fail alloc live unit destination : Operand) :
    ∃ bytes,
      bytesBits bytes = (segments.flatMap fun s => msbBits s.bits (ofSigned s.bits s.value)) ∧
      bsCreateBin singleBits allocate module process [fail, alloc, live, unit, destination,
          .list (segments.flatMap fun s => s.fields.operands)] = (do
        let (binary, process) ← allocate process bytes
        let registers ← writeTerm process.registers binary destination
        .ok (.next, { process with registers := registers })) ∧
      ∀ (start : BinaryProcess) (context : Operand) (gets : List GetFields),
        StandsAt module start context bytes 0 →
        List.Forall₂ (fun s g => g.Asks context start.registers.y.length s.bits) segments gets →
        ∃ words final, getIntegers module context start gets = .ok (some words, final) ∧
          (∀ memory, words.map (Native.integerOf memory) = (readsOf segments gets).map some) ∧
          StandsAt module final context bytes (8 * bytes.length) := by
  have hsum : totalBits (segments.map Segment.field) = (segments.map Segment.bits).sum := by
    rw [totalBits, List.map_map]
    rfl
  rw [← hsum] at htotal
  obtain ⟨bytes, hconstruct, hlen, hval⟩ := construct_spec singleBits hsegments
    (fun s hs => (hsizes s hs).1) htotal
  refine ⟨bytes, ?_, ?_, ?_⟩
  · rw [bytesBits_eq, hlen, hval, msbBits_packed (Segment.field_lt segments), List.flatMap_map]
    rfl
  · simp only [bsCreateBin, hconstruct]
  · intro start context gets hstart hgets
    exact getIntegers_spec hstart (by rw [tailValue_zero, hval]) (by omega) hsizes hgets

end Run

/-! ## A small program

`<<(-1):4, (-(2^64 + 5)):12>>` from two X registers, read back signed and unsigned. -/

section Sample

def sampleMemory : Memory where
  object w :=
    if w = 4 then .number (.bigInt true [5, 1])
    else if w = 12 then .binary (.inline [0xff, 0xfb])
    else .other (UInt64.ofBitVec w)
  boxed w := by split_ifs <;> simp [Value.Complete]
  other w raw := by split_ifs <;> simp_all

def sampleModule : BinaryModule := ⟨[], [], []⟩

def sampleProcess : BinaryProcess where
  registers := ⟨fun i => if i = 0 then Word.ofSmallInt (.ofRange (-1) (by decide)) else
    if i = 1 then 4 else 20, []⟩
  memory := sampleMemory
  contexts w := if w = 20 then some ⟨0, 16, 12⟩ else none

def sampleSegments : List Segment :=
  [⟨⟨.atom none, .unsigned 1, .unsigned 1, .atom none, .x 0, .integer 4⟩, 4, -1⟩,
    ⟨⟨.atom none, .unsigned 2, .unsigned 1, .atom none, .x 1, .integer 12⟩, 12, -(2 ^ 64 + 5)⟩]

def sampleGets : List GetFields :=
  [⟨.label 1, none, .integer 4, .unsigned 1, .unsigned 4, .x 3⟩,
    ⟨.label 1, none, .integer 12, .unsigned 1, .unsigned 0, .x 4⟩]

/-- Both integers come back, the first one signed. -/
theorem bsCreateBin_getIntegers_sample : ∃ words final,
    getIntegers sampleModule (.x 2) sampleProcess sampleGets = .ok (some words, final) ∧
    words.map (Native.integerOf sampleMemory) = [some (-1), some 4091] ∧
    StandsAt sampleModule final (.x 2) [0xff, 0xfb] 16 := by
  have hsegments : ∀ s ∈ sampleSegments, IntegerSegment sampleProcess.registers
      sampleProcess.memory sampleModule s.fields s.bits s.value := by
    intro s hs
    rcases List.mem_pair.mp hs with rfl | rfl
    · exact ⟨rfl, rfl, rfl, _, rfl, by decide⟩
    · exact ⟨rfl, rfl, rfl, 4, rfl, by decide⟩
  obtain ⟨bytes, hbits, -, hread⟩ := bsCreateBin_getIntegers (fun _ => 0)
    (fun process _ => .ok (12, process)) hsegments (by decide) (by decide) (.label 0) (.unsigned 0)
    (.unsigned 0) (.unsigned 0) (.x 2)
  obtain rfl : bytes = [0xff, 0xfb] := by
    refine bytesBits_injective (hbits.trans ?_)
    decide
  have hstart : StandsAt sampleModule sampleProcess (.x 2) [0xff, 0xfb] 0 :=
    ⟨20, 12, rfl, rfl, .inline [0xff, 0xfb], rfl, rfl⟩
  obtain ⟨words, final, hrun, hints, hend⟩ := hread sampleProcess (.x 2) sampleGets hstart
    (.cons ⟨rfl, rfl, show 3 < xRegisterCount by decide, by decide⟩
      (.cons ⟨rfl, rfl, show 4 < xRegisterCount by decide, by decide⟩ .nil))
  refine ⟨words, final, hrun, (hints sampleMemory).trans ?_, hend⟩
  decide

end Sample

end Beamr.Interpreter
