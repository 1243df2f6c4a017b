import Beamr.Interpreter.Bif
import Beamr.Lib.BitField
import Beamr.Native.Arithmetic

/-!
# Binary construction

`bs_create_bin`: six operands per segment, classified by the size and the source, appended to a
writer that works on single bits. The heap is behind `allocate`; narrowing a double to single
precision is a parameter.
-/
namespace Beamr.Interpreter

open Loader Term ByteOrder BitField

/-- The constant data of a module that binary instructions read. -/
structure BinaryModule where
  literals : List Literal
  constantPool : List Word
  stringTable : List UInt8

inductive Endian
  | big
  | little
  deriving DecidableEq

/-- Bit `k` of an `i64` flag word. -/
def flagBit (k : ℕ) (value : ℤ) : Bool := value / 2 ^ k % 2 = 1

def isLittleFlag : Operand → Bool
  | .unsigned value => value = 1
  | .integer value => value = 1
  | _ => false

def Endian.fromFlags : Operand → Endian
  | .unsigned value => if value = 1 ∨ flagBit 1 value then .little else .big
  | .integer value => if value = 1 ∨ flagBit 1 value then .little else .big
  | .list items => if items.any isLittleFlag then .little else .big
  | _ => .big

/-! ## The bit writer -/

structure BitWriter where
  bytes : List UInt8
  bitLen : ℕ

def BitWriter.empty : BitWriter := ⟨[], 0⟩

/-- Mask keeping the top `count` bits of a byte. -/
def highMask (count : ℕ) : UInt8 := if 8 ≤ count then 0xff else ~~~(0xff >>> UInt8.ofNat count)

/-- Append the top `count` bits of a byte. -/
def BitWriter.pushByteBits (writer : BitWriter) (byte : UInt8) (count : ℕ) : BitWriter :=
  let masked := byte &&& highMask count
  let offset := writer.bitLen % 8
  let bytes :=
    if offset = 0 then writer.bytes ++ [masked]
    else match writer.bytes.getLast? with
      | none => writer.bytes
      | some last =>
        let joined := writer.bytes.dropLast ++ [last ||| (masked >>> UInt8.ofNat offset)]
        if 8 < offset + count then joined ++ [masked <<< UInt8.ofNat (8 - offset)] else joined
  ⟨bytes, writer.bitLen + count⟩

/-- Append the first `bitLen` bits of a byte string. -/
def BitWriter.pushBits (writer : BitWriter) : List UInt8 → ℕ → BitWriter
  | [], _ => writer
  | _ :: _, 0 => writer
  | byte :: source, remaining =>
    (writer.pushByteBits byte (min remaining 8)).pushBits source (remaining - min remaining 8)

/-- The bytes, when the bits fill them. -/
def BitWriter.intoBytes (writer : BitWriter) : Except ExecError (List UInt8) :=
  if writer.bitLen % 8 ≠ 0 then .error .badarg
  else .ok (writer.bytes.take (writer.bitLen / 8))

/-! ## Integers -/

/-- The loop of `shift_left`, from the last byte on. -/
def shiftLeftLoop (shift : ℕ) : UInt8 → List UInt8 → List UInt8
  | _, [] => []
  | carry, byte :: bytes =>
    ((byte <<< UInt8.ofNat shift) ||| carry) ::
      shiftLeftLoop shift (byte >>> UInt8.ofNat (8 - shift)) bytes

/-- A big-endian byte string shifted left by fewer than eight bits. -/
def shiftLeft (bytes : List UInt8) (shift : ℕ) : List UInt8 :=
  if shift = 0 then bytes else (shiftLeftLoop shift 0 bytes.reverse).reverse

/-- Complement and increment of little-endian bytes. -/
def negateLoop : Bool → List UInt8 → List UInt8
  | _, [] => []
  | true, byte :: bytes => (~~~byte + 1) :: negateLoop (~~~byte = 255) bytes
  | false, byte :: bytes => ~~~byte :: negateLoop false bytes

/-- Limb bytes cut or padded to `len`. -/
def limbBytes (limbs : List UInt64) (len : ℕ) : List UInt8 :=
  let bytes := limbs.flatMap fun limb => leBytes 8 limb.toNat
  bytes.take len ++ List.replicate (len - bytes.length) 0

/-- Two's-complement little-endian bytes of an integer term, truncated or sign-extended. -/
def integerLeBytes (memory : Memory) (term : Word) (len : ℕ) : Except ExecError (List UInt8) :=
  match memory.read term with
  | .number (.smallInt n) =>
    let fill : UInt8 := if n.value < 0 then 0xff else 0x00
    .ok ((leBytes 8 (ofSigned 64 n.value)).take len ++ List.replicate (len - 8) fill)
  | .number (.bigInt negative limbs) =>
    let out := limbBytes limbs len
    .ok (if negative then negateLoop true out else out)
  | _ => .error .badarg

def pushInteger (memory : Memory) (writer : BitWriter) (term : Word) (bits : ℕ) (endian : Endian) :
    Except ExecError BitWriter :=
  -- a segment of no bits still asks for an integer
  if bits = 0 then do
    let _ ← integerLeBytes memory term 1
    .ok writer
  else do
    let len := (bits + 7) / 8
    let le ← integerLeBytes memory term len
    match endian with
    | .little =>
      let full := bits / 8
      let writer := writer.pushBits (le.take full) (full * 8)
      let rem := bits % 8
      .ok (if rem = 0 then writer
        else writer.pushBits [le.getD full 0 <<< UInt8.ofNat (8 - rem)] rem)
    | .big => .ok (writer.pushBits (shiftLeft le.reverse (len * 8 - bits)) bits)

/-! ## Floats -/

section Segments

variable (singleBits : Float64 → ℕ)

/-- Half precision from the bits of the single, unless a finite value overflows. -/
def f16Bits (bits : ℕ) : Option ℕ :=
  let sign := bits / 2 ^ 31 * 2 ^ 15
  let exponent : ℕ := bits / 2 ^ 23 % 2 ^ 8
  let mantissa := bits % 2 ^ 23
  if exponent = 255 then some (sign + 0x7c00 + if mantissa ≠ 0 then 0x200 else 0)
  else
    let halfExponent : ℤ := (exponent : ℤ) - 127 + 15
    if 31 ≤ halfExponent then none
    else if halfExponent ≤ 0 then
      if halfExponent < -10 then some sign
      else some (sign ||| (mantissa + 2 ^ 23) / 2 ^ (14 - halfExponent).toNat)
    else some (sign + halfExponent.toNat * 2 ^ 10 + mantissa / 2 ^ 13)

/-- Big-endian bytes of a double at a width the encoding knows. -/
def floatBytes (value : Float64) (bits : ℕ) : Except ExecError (List UInt8) :=
  if bits = 64 then
    .ok (beBytes 8 ((if value.negative then 2 ^ 63 else 0) + value.magnitude))
  else if bits = 32 then
    let finite := value.magnitude / 2 ^ 52 ≠ 2047
    let narrowFinite := singleBits value / 2 ^ 23 % 2 ^ 8 ≠ 255
    if finite ∧ ¬ narrowFinite then .error .badarg else .ok (beBytes 4 (singleBits value))
  else if bits = 16 then
    match f16Bits (singleBits value) with
    | some half => .ok (beBytes 2 half)
    | none => .error .badarg
  else .error .badarg

def pushFloat (writer : BitWriter) (value : Float64) (bits : ℕ) (endian : Endian) :
    Except ExecError BitWriter := do
  let bytes ← floatBytes singleBits value bits
  .ok (writer.pushBits (if endian = .little then bytes.reverse else bytes) bits)

/-! ## Segments -/

/-- A sized segment whose source is a runtime term. -/
def pushTerm (memory : Memory) (writer : BitWriter) (term : Word) (bits : ℕ) (endian : Endian) :
    Except ExecError BitWriter :=
  match memory.read term with
  | .number (.float value) => pushFloat singleBits writer value bits endian
  | .binary binary =>
    if binary.asBytes.length * 8 < bits then .error .badarg
    else .ok (writer.pushBits binary.asBytes bits)
  | _ => pushInteger memory writer term bits endian

def literalBytes (module : BinaryModule) (operand : Operand) (byteLen : ℕ) :
    Except ExecError (List UInt8) :=
  match operand with
  | .literal index =>
    match module.literals[index]? with
    | some (.binary bytes) | some (.string bytes) =>
      if byteLen ≤ bytes.length then .ok (bytes.take byteLen) else .error .badarg
    | _ => .error .badarg
  | offset => do
    let offset ← operandUsize offset "string table offset"
    if offset + byteLen ≤ module.stringTable.length then
      .ok ((module.stringTable.drop offset).take byteLen)
    else .error .badarg

def pushLiteralBytes (module : BinaryModule) (writer : BitWriter) (source : Operand) (bits : ℕ) :
    Except ExecError BitWriter := do
  let bytes ← literalBytes module source ((bits + 7) / 8)
  .ok (writer.pushBits bytes bits)

def pushWholeBinary (memory : Memory) (writer : BitWriter) (term : Word) :
    Except ExecError BitWriter :=
  match memory.read term with
  | .binary binary => .ok (writer.pushBits binary.asBytes (binary.asBytes.length * 8))
  | _ => .error .badarg

def pushUtf8 (memory : Memory) (writer : BitWriter) (term : Word) : Except ExecError BitWriter :=
  match memory.read term with
  | .number (.smallInt code) =>
    if 0 ≤ code.value ∧ code.value.toNat.isValidChar then
      let encoded := String.utf8EncodeChar (Char.ofNat code.value.toNat)
      .ok (writer.pushBits encoded (encoded.length * 8))
    else .error .badarg
  | _ => .error .badarg

/-- The size operand in units. -/
def segmentSize (registers : Registers) (memory : Memory) (module : BinaryModule) (size : Operand) :
    Except ExecError ℕ :=
  let narrow (value : ℤ) : Except ExecError ℕ := if 0 ≤ value then .ok value.toNat else .error .badarg
  match size with
  | .unsigned value => .ok value
  | .integer value => narrow value
  | .x _ | .y _ | .typedRegister _ _ | .literal _ => do
    let term ← readTerm registers module.constantPool size
    match memory.read term with
    | .number (.smallInt n) => narrow n.value
    | _ => .error .badarg
  | _ => .error .badarg

def segmentBits (registers : Registers) (memory : Memory) (module : BinaryModule)
    (size unit : Operand) : Except ExecError ℕ := do
  let size ← segmentSize registers memory module size
  let unit ← operandUsize unit "bs_create_bin segment unit"
  if size * unit < 2 ^ 64 then .ok (size * unit) else .error .badarg

def segmentEndian (module : BinaryModule) : Operand → Endian
  | .literal index =>
    match module.literals[index]? with
    | some (.list items _) => if items.isEmpty then .big else .little
    | some (.integer value) => if flagBit 1 value then .little else .big
    | _ => .big
  | other => .fromFlags other

/-- Sources whose bytes come from the string table or from a binary literal. -/
def isByteSource (module : BinaryModule) : Operand → Bool
  | .unsigned _ => true
  | .literal index =>
    match module.literals[index]? with
    | some (.binary _) | some (.string _) => true
    | _ => false
  | _ => false

def atomUndefined : Atom := 5
def atomUtf8 : Atom := 27

def appendSegment (registers : Registers) (memory : Memory) (module : BinaryModule)
    (writer : BitWriter) (typeAtom unit flags source size : Operand) :
    Except ExecError BitWriter :=
  match size with
  | .atom (some a) =>
    if a = atomUndefined then
      match typeAtom with
      | .atom (some t) =>
        if t = atomUtf8 then do
          pushUtf8 memory writer (← readTerm registers module.constantPool source)
        else .error .badarg
      | _ => .error .badarg
    else do pushWholeBinary memory writer (← readTerm registers module.constantPool source)
  | size => do
    let bits ← segmentBits registers memory module size unit
    let endian := segmentEndian module flags
    if isByteSource module source then pushLiteralBytes module writer source bits
    else do
      let term ← readTerm registers module.constantPool source
      pushTerm singleBits memory writer term bits endian

/-- Six operands per segment. -/
def appendSegments (registers : Registers) (memory : Memory) (module : BinaryModule)
    (writer : BitWriter) : List Operand → Except ExecError BitWriter
  | typeAtom :: _seg :: unit :: flags :: source :: size :: fields => do
    let writer ← appendSegment singleBits registers memory module writer typeAtom unit flags source
      size
    appendSegments registers memory module writer fields
  | _ => .ok writer

/-- The byte content of all segments. -/
def construct (registers : Registers) (memory : Memory) (module : BinaryModule)
    (fields : List Operand) : Except ExecError (List UInt8) :=
  if fields.length % 6 ≠ 0 then .error (.invalidOperand "bs_create_bin segment")
  else do
    let writer ← appendSegments singleBits registers memory module .empty fields
    writer.intoBytes

/-- A match context on the heap: where it stands, how far it goes, and its binary. -/
structure MatchContext where
  positionBits : ℕ
  totalBits : ℕ
  sourceTerm : Word
  deriving DecidableEq

/-- What binary instructions read and write of a process. -/
structure BinaryProcess where
  registers : Registers
  memory : Memory
  contexts : Word → Option MatchContext

/-- `bs_create_bin` in the form the compiler emits. `allocate` copies the bytes to the heap, after
a collection if need be. -/
def bsCreateBin (allocate : BinaryProcess → List UInt8 → Except ExecError (Word × BinaryProcess))
    (module : BinaryModule) (process : BinaryProcess) :
    List Operand → Except ExecError (Branch × BinaryProcess)
  | [fail, _alloc, _live, _unit, destination, .list fields] =>
    match construct singleBits process.registers process.memory module fields with
    | .ok bytes => do
      let (binary, process) ← allocate process bytes
      let registers ← writeTerm process.registers binary destination
      .ok (.next, { process with registers := registers })
    | .error .badarg =>
      match fail with
      | .label label => if label ≠ 0 then .ok (.fail, process) else .error .badarg
      | _ => .error .badarg
    | .error other => .error other
  | _ => .error (.invalidOperand "bs_create_bin operands")

end Segments

/-! ## What the writer holds -/

/-- The first `bitLen` bits of the writer are the number `value`; the rest of the last byte is
zero. -/
structure BitWriter.Holds (writer : BitWriter) (value : ℕ) : Prop where
  length : writer.bytes.length = (writer.bitLen + 7) / 8
  eq : beNat writer.bytes = value * 2 ^ (8 * writer.bytes.length - writer.bitLen)

theorem holds_empty : BitWriter.empty.Holds 0 := ⟨rfl, rfl⟩

theorem masked_toNat {count : ℕ} (h1 : 1 ≤ count) (h8 : count ≤ 8) (byte : UInt8) :
    (byte &&& highMask count).toNat = byte.toNat / 2 ^ (8 - count) * 2 ^ (8 - count) := by
  have hall : ∀ k < 9, 1 ≤ k → ∀ n < 256,
      (UInt8.ofNat n &&& highMask k).toNat = n / 2 ^ (8 - k) * 2 ^ (8 - k) := by decide +kernel
  simpa using hall count (by omega) h1 byte.toNat byte.toNat_lt

/-- A byte whose low bits are clear takes a value in them. -/
theorem or_toNat {last low : UInt8} {k : ℕ} (hlast : 2 ^ k ∣ last.toNat) (hlow : low.toNat < 2 ^ k) :
    (last ||| low).toNat = last.toNat + low.toNat := by
  obtain ⟨a, ha⟩ := hlast
  rw [UInt8.toNat_or, ha, Nat.two_pow_add_eq_or_of_lt hlow]

theorem shiftRight_toNat (byte : UInt8) {k : ℕ} (hk : k < 8) :
    (byte >>> UInt8.ofNat k).toNat = byte.toNat / 2 ^ k := by
  rw [UInt8.toNat_shiftRight, UInt8.toNat_ofNat', Nat.shiftRight_eq_div_pow,
    Nat.mod_eq_of_lt (show k % 2 ^ 8 < 8 by omega), Nat.mod_eq_of_lt (by omega)]

theorem shiftLeft_toNat (byte : UInt8) {k : ℕ} (hk : k < 8) :
    (byte <<< UInt8.ofNat k).toNat = byte.toNat * 2 ^ k % 256 := by
  rw [UInt8.toNat_shiftLeft, UInt8.toNat_ofNat', Nat.shiftLeft_eq,
    Nat.mod_eq_of_lt (show k % 2 ^ 8 < 8 by omega), Nat.mod_eq_of_lt (show k < 2 ^ 8 by omega)]

/-- Two powers that make up a byte. -/
theorem two_pow_mul_sub {k n : ℕ} (h : k ≤ n) : 2 ^ k * 2 ^ (n - k) = 2 ^ n := by
  rw [← pow_add, Nat.add_sub_cancel' h]

theorem BitWriter.pushByteBits_aligned {bytes : List UInt8} {bitLen : ℕ} (h : bitLen % 8 = 0)
    (byte : UInt8) (count : ℕ) : pushByteBits ⟨bytes, bitLen⟩ byte count =
      ⟨bytes ++ [byte &&& highMask count], bitLen + count⟩ := by
  simp only [pushByteBits, if_pos h]

/-- The bits go into the last byte, and what does not fit starts a new one. -/
theorem BitWriter.pushByteBits_unaligned {init : List UInt8} {last : UInt8} {bitLen : ℕ}
    (h : bitLen % 8 ≠ 0) (byte : UInt8) (count : ℕ) :
    pushByteBits ⟨init ++ [last], bitLen⟩ byte count =
      ⟨init ++ [last ||| ((byte &&& highMask count) >>> UInt8.ofNat (bitLen % 8))] ++
        (if 8 < bitLen % 8 + count then
          [(byte &&& highMask count) <<< UInt8.ofNat (8 - bitLen % 8)] else []),
        bitLen + count⟩ := by
  have hlast : (init ++ [last]).getLast? = some last := by simp
  have hinit : (init ++ [last]).dropLast = init := by simp
  simp only [pushByteBits, if_neg h, hlast, hinit]
  split_ifs <;> simp

theorem BitWriter.pushByteBits_holds {writer : BitWriter} {value : ℕ} (h : writer.Holds value)
    (count : ℕ) (h1 : 1 ≤ count) (h8 : count ≤ 8) (byte : UInt8) :
    (writer.pushByteBits byte count).Holds (value * 2 ^ count + byte.toNat / 2 ^ (8 - count)) := by
  obtain ⟨bytes, bitLen⟩ := writer
  obtain ⟨hlen, heq⟩ := h
  simp only at hlen heq
  have hmask := masked_toNat h1 h8 byte
  set c := byte.toNat / 2 ^ (8 - count)
  have hsplit := two_pow_mul_sub h8
  by_cases h0 : bitLen % 8 = 0
  · rw [pushByteBits_aligned h0]
    refine ⟨by simp only [List.length_append, List.length_singleton]; omega, ?_⟩
    have hpad : 8 * bytes.length - bitLen = 0 := by omega
    have hpad' : 8 * (bytes.length + 1) - (bitLen + count) = 8 - count := by omega
    rw [hpad, pow_zero, mul_one] at heq
    simp only [beNat_snoc, List.length_append, List.length_singleton, hpad', heq, hmask]
    rw [show (256 : ℕ) = 2 ^ count * 2 ^ (8 - count) from hsplit.symm]
    ring
  · obtain rfl | ⟨init, last, rfl⟩ := bytes.eq_nil_or_concat
    · simp only [List.length_nil] at hlen
      omega
    rw [List.concat_eq_append] at hlen heq ⊢
    rw [pushByteBits_unaligned h0]
    simp only [List.length_append, List.length_singleton] at hlen heq
    have hpad : 8 * (init.length + 1) - bitLen = 8 - bitLen % 8 := by omega
    set k := bitLen % 8
    set masked := byte &&& highMask count
    rw [beNat_snoc, hpad] at heq
    have hk : 2 ^ k * 2 ^ (8 - k) = 2 ^ 8 := two_pow_mul_sub (by omega)
    have hdvd : 2 ^ (8 - k) ∣ last.toNat := by
      have h256 : 2 ^ (8 - k) ∣ 256 * beNat init := Dvd.dvd.mul_right ⟨2 ^ k, by linarith⟩ _
      exact (Nat.dvd_add_right h256).mp ⟨value, by linarith⟩
    have hlow : masked.toNat / 2 ^ k < 2 ^ (8 - k) := by
      have hlt := masked.toNat_lt
      exact Nat.div_lt_of_lt_mul (by rw [hk]; exact hlt)
    have hshift : (masked >>> UInt8.ofNat k).toNat = masked.toNat / 2 ^ k :=
      shiftRight_toNat masked (by omega)
    have hjoin : (last ||| (masked >>> UInt8.ofNat k)).toNat = last.toNat + masked.toNat / 2 ^ k := by
      rw [or_toNat hdvd (by rw [hshift]; exact hlow), hshift]
    by_cases hacross : 8 < k + count
    · rw [if_pos hacross]
      refine ⟨by simp only [List.length_append, List.length_singleton]; omega, ?_⟩
      have hpad' : 8 * (init.length + 1 + 1) - (bitLen + count) = 16 - (k + count) := by omega
      simp only [beNat_snoc, List.length_append, List.length_singleton, hpad', hjoin]
      rw [shiftLeft_toNat masked (by omega)]
      have hquot : masked.toNat * 2 ^ (8 - k) / 256 = masked.toNat / 2 ^ k := by
        rw [show (256 : ℕ) = 2 ^ k * 2 ^ (8 - k) from hk.symm,
          Nat.mul_div_mul_right _ _ (by positivity)]
      have hdiv := Nat.div_add_mod (masked.toNat * 2 ^ (8 - k)) 256
      rw [hquot] at hdiv
      have hm : masked.toNat * 2 ^ (8 - k) = c * 2 ^ (16 - (k + count)) := by
        rw [hmask, mul_assoc, ← pow_add, show 8 - count + (8 - k) = 16 - (k + count) by omega]
      have hv : 256 * (value * 2 ^ (8 - k)) = value * 2 ^ count * 2 ^ (16 - (k + count)) := by
        rw [mul_assoc, ← pow_add, show count + (16 - (k + count)) = 8 + (8 - k) by omega, pow_add]
        ring
      rw [Nat.add_mul, ← hv, ← hm, ← heq]
      linarith
    · rw [if_neg hacross, List.append_nil]
      refine ⟨by simp only [List.length_append, List.length_singleton]; omega, ?_⟩
      have hpad' : 8 * (init.length + 1) - (bitLen + count) = 8 - (k + count) := by omega
      simp only [beNat_snoc, List.length_append, List.length_singleton, hpad', hjoin]
      have hm : masked.toNat / 2 ^ k = c * 2 ^ (8 - (k + count)) := by
        rw [hmask, show 8 - count = 8 - (k + count) + k by omega, pow_add, ← mul_assoc,
          Nat.mul_div_cancel _ (by positivity)]
      have hv : value * 2 ^ (8 - k) = value * 2 ^ count * 2 ^ (8 - (k + count)) := by
        rw [mul_assoc, ← pow_add, show count + (8 - (k + count)) = 8 - k by omega]
      rw [Nat.add_mul, ← hv, ← hm, ← heq, Nat.add_assoc]

/-- The first `n` bits of a byte string, as a number. -/
def prefixValue (bytes : List UInt8) (n : ℕ) : ℕ := beNat bytes / 2 ^ (8 * bytes.length - n)

theorem prefixValue_cons {b : UInt8} {bytes : List UInt8} {n : ℕ} (h1 : 1 ≤ n)
    (hn : n ≤ 8 * (bytes.length + 1)) :
    prefixValue (b :: bytes) n =
      b.toNat / 2 ^ (8 - min n 8) * 2 ^ (n - min n 8) + prefixValue bytes (n - min n 8) := by
  have hlt := beNat_lt bytes
  have h256 := pow_256 bytes.length
  rw [h256] at hlt
  rw [prefixValue, prefixValue, beNat_cons, List.length_cons, h256]
  rcases Nat.le_total n 8 with h8 | h8
  · rw [Nat.min_eq_left h8, Nat.sub_self, pow_zero, mul_one, Nat.sub_zero,
      Nat.div_eq_of_lt (b := 2 ^ (8 * bytes.length)) hlt, Nat.add_zero,
      show 8 * (bytes.length + 1) - n = 8 * bytes.length + (8 - n) by omega, pow_add,
      ← Nat.div_div_eq_div_mul, Nat.mul_comm b.toNat, Nat.mul_add_div (by positivity),
      Nat.div_eq_of_lt hlt, Nat.add_zero, Nat.add_zero]
  · rw [Nat.min_eq_right h8, Nat.sub_self, pow_zero, Nat.div_one,
      show 8 * (bytes.length + 1) - n = 8 * bytes.length - (n - 8) by omega,
      ← two_pow_mul_sub (show n - 8 ≤ 8 * bytes.length by omega), ← mul_assoc, Nat.add_comm,
      Nat.add_mul_div_right _ _ (by positivity), Nat.add_comm]

theorem BitWriter.pushBits_succ (writer : BitWriter) (b : UInt8) (source : List UInt8) (n : ℕ) :
    writer.pushBits (b :: source) (n + 1) =
      (writer.pushByteBits b (min (n + 1) 8)).pushBits source (n + 1 - min (n + 1) 8) := rfl

/-- Pushing bits appends them. -/
theorem BitWriter.pushBits_holds {source : List UInt8} : ∀ {writer : BitWriter} {value n : ℕ},
    writer.Holds value → n ≤ 8 * source.length →
    (writer.pushBits source n).Holds (value * 2 ^ n + prefixValue source n) ∧
      (writer.pushBits source n).bitLen = writer.bitLen + n := by
  induction source with
  | nil =>
    intro writer value n h hn
    obtain rfl : n = 0 := by simpa using hn
    simpa [pushBits, prefixValue, beNat, leNat] using h
  | cons b source ih =>
    intro writer value n h hn
    cases n with
    | zero =>
      have hzero : prefixValue (b :: source) 0 = 0 := by
        have hlt := beNat_lt (b :: source)
        rw [pow_256] at hlt
        exact Nat.div_eq_of_lt hlt
      simpa [pushBits, hzero] using h
    | succ n =>
      have hone := pushByteBits_holds h (min (n + 1) 8) (by omega) (by omega) b
      obtain ⟨hrec, hlen⟩ := ih hone (n := n + 1 - min (n + 1) 8)
        (by rw [List.length_cons] at hn; omega)
      rw [pushBits_succ, prefixValue_cons (by omega) (by rw [List.length_cons] at hn; exact hn)]
      refine ⟨?_, ?_⟩
      · rw [Nat.add_mul, mul_assoc, ← pow_add, Nat.add_sub_cancel' (by omega), Nat.add_assoc] at hrec
        exact hrec
      · rw [hlen, pushByteBits]
        simp only
        omega

/-! ## Integer segments -/

theorem shiftLeftLoop_length (shift : ℕ) (bytes : List UInt8) : ∀ carry : UInt8,
    (shiftLeftLoop shift carry bytes).length = bytes.length := by
  induction bytes with
  | nil => exact fun _ => rfl
  | cons b bytes ih => exact fun carry => congrArg (· + 1) (ih _)

/-- The loop shifts the whole number and drops what leaves the last byte. -/
theorem leNat_shiftLeftLoop {shift : ℕ} (h0 : 0 < shift) (h8 : shift < 8) (bytes : List UInt8) :
    ∀ carry : UInt8, carry.toNat < 2 ^ shift → leNat (shiftLeftLoop shift carry bytes) =
      (leNat bytes * 2 ^ shift + carry.toNat) % 256 ^ bytes.length := by
  induction bytes with
  | nil => exact fun carry _ => (Nat.mod_one _).symm
  | cons b bytes ih =>
    intro carry hcarry
    have hsplit : 2 ^ shift * 2 ^ (8 - shift) = 256 := two_pow_mul_sub h8.le
    have hnext : (b >>> UInt8.ofNat (8 - shift)).toNat = b.toNat / 2 ^ (8 - shift) :=
      shiftRight_toNat b (by omega)
    have hb := b.toNat_lt
    have hlt : b.toNat / 2 ^ (8 - shift) < 2 ^ shift :=
      Nat.div_lt_of_lt_mul (by rw [mul_comm, hsplit]; exact hb)
    have hlow : (b <<< UInt8.ofNat shift).toNat = b.toNat * 2 ^ shift % 256 := shiftLeft_toNat b h8
    have hdvd : 2 ^ shift ∣ b.toNat * 2 ^ shift % 256 := by
      rw [Nat.dvd_mod_iff ⟨_, hsplit.symm⟩]
      exact Dvd.intro_left _ rfl
    have hhead : ((b <<< UInt8.ofNat shift) ||| carry).toNat =
        b.toNat * 2 ^ shift % 256 + carry.toNat := by
      rw [or_toNat (hlow ▸ hdvd) hcarry, hlow]
    have hquot : b.toNat * 2 ^ shift / 256 = b.toNat / 2 ^ (8 - shift) := by
      rw [← hsplit, mul_comm (2 ^ shift), Nat.mul_div_mul_right _ _ (by positivity)]
    have hdiv := Nat.div_add_mod (b.toNat * 2 ^ shift) 256
    rw [hquot] at hdiv
    have hlt256 : b.toNat * 2 ^ shift % 256 + carry.toNat < 256 := by
      rw [← hhead]
      exact UInt8.toNat_lt _
    rw [shiftLeftLoop, leNat, hhead, ih _ (hnext ▸ hlt), hnext, leNat, List.length_cons, pow_succ',
      Nat.mod_mul]
    have hsum : (b.toNat + 256 * leNat bytes) * 2 ^ shift + carry.toNat =
        b.toNat * 2 ^ shift % 256 + carry.toNat +
          256 * (leNat bytes * 2 ^ shift + b.toNat / 2 ^ (8 - shift)) := by
      rw [Nat.add_mul]
      linarith
    rw [hsum, Nat.add_mul_mod_self_left, Nat.mod_eq_of_lt hlt256, Nat.add_mul_div_left _ _ (by norm_num),
      Nat.div_eq_of_lt hlt256, Nat.zero_add]

theorem shiftLeft_length (bytes : List UInt8) (shift : ℕ) :
    (shiftLeft bytes shift).length = bytes.length := by
  unfold shiftLeft
  split_ifs
  · rfl
  · simp [shiftLeftLoop_length]

theorem beNat_shiftLeft (bytes : List UInt8) {shift : ℕ} (h8 : shift < 8) :
    beNat (shiftLeft bytes shift) = beNat bytes * 2 ^ shift % 256 ^ bytes.length := by
  unfold shiftLeft
  split_ifs with h0
  · rw [h0, pow_zero, mul_one, Nat.mod_eq_of_lt (beNat_lt bytes)]
  · have hloop := leNat_shiftLeftLoop (Nat.pos_of_ne_zero h0) h8 bytes.reverse 0
      (show 0 < 2 ^ shift by positivity)
    rw [beNat, List.reverse_reverse, hloop, List.length_reverse, beNat]
    rfl

theorem negateLoop_length (bytes : List UInt8) : ∀ carry : Bool,
    (negateLoop carry bytes).length = bytes.length := by
  induction bytes with
  | nil => exact fun carry => by cases carry <;> rfl
  | cons b bytes ih =>
    intro carry
    cases carry with
    | true => exact congrArg (· + 1) (ih _)
    | false => exact congrArg (· + 1) (ih _)

theorem leNat_negateLoop (bytes : List UInt8) : ∀ carry : Bool, leNat (negateLoop carry bytes) =
    (256 ^ bytes.length - 1 - leNat bytes + carry.toNat) % 256 ^ bytes.length := by
  induction bytes with
  | nil => exact fun carry => by cases carry <;> rfl
  | cons b bytes ih =>
    intro carry
    have hlt := leNat_lt bytes
    have hb := b.toNat_lt
    have hnot : (~~~b).toNat = 255 - b.toNat := by
      rw [UInt8.toNat_not]
      rfl
    rw [leNat, List.length_cons, pow_succ']
    set n := 256 ^ bytes.length
    cases carry with
    | false =>
      rw [negateLoop, leNat, ih, hnot, Bool.toNat_false, Nat.add_zero, Nat.add_zero,
        Nat.mod_eq_of_lt (by omega), Nat.mod_eq_of_lt (by omega)]
      omega
    | true =>
      by_cases hz : b = 0
      · subst hz
        have hff : (decide (~~~(0 : UInt8) = 255)) = true := by decide
        have hzero : (~~~(0 : UInt8) + 1).toNat = 0 := by decide
        rw [negateLoop, hff, leNat, ih, hzero, Bool.toNat_true,
          show 256 * n - 1 - (UInt8.toNat 0 + 256 * leNat bytes) + 1 =
            256 * (n - 1 - leNat bytes + 1) by simp; omega, Nat.mul_mod_mul_left, Nat.zero_add]
      · have hpos : b.toNat ≠ 0 := fun h => hz (UInt8.toNat_inj.mp (by simpa using h))
        have hne : (decide (~~~b = 255)) = false := by
          rw [decide_eq_false_iff_not, ← UInt8.toNat_inj, hnot]
          simp
          omega
        have hinc : (~~~b + 1).toNat = 256 - b.toNat := by
          rw [UInt8.toNat_add, hnot]
          simp
          omega
        rw [negateLoop, hne, leNat, ih, hinc, Bool.toNat_false, Bool.toNat_true, Nat.add_zero,
          Nat.mod_eq_of_lt (by omega), Nat.mod_eq_of_lt (by omega)]
        omega

/-- The bytes of a small integer. -/
theorem leNat_smallInt (n : SmallInt) (len : ℕ) :
    leNat ((leBytes 8 (ofSigned 64 n.value)).take len ++
      List.replicate (len - 8) (if n.value < 0 then 0xff else 0x00)) = ofSigned (8 * len) n.value := by
  have hmin := n.min_le
  have hmax := n.lt_max
  rcases Nat.le_total len 8 with h | h
  · rw [Nat.sub_eq_zero_of_le h, List.replicate_zero, List.append_nil, take_leBytes h, leNat_leBytes,
      pow_256, ofSigned_mod (by omega)]
  · have hword : leNat (leBytes 8 (ofSigned 64 n.value)) = ofSigned 64 n.value :=
      leNat_leBytes_of_lt (ofSigned_lt 64 n.value)
    have hle : (256 : ℕ) ^ 8 ≤ 256 ^ len := Nat.pow_le_pow_right (by norm_num) h
    have hsplit : 256 ^ 8 * 256 ^ (len - 8) = 256 ^ len := by
      rw [← pow_add, Nat.add_sub_cancel' h]
    rw [List.take_of_length_le (by simpa using h), leNat_append, hword, leBytes_length]
    obtain ⟨m, hm | hm⟩ := Int.eq_nat_or_neg n.value
    · have hm' : m < 2 ^ 60 := by omega
      rw [if_neg (by omega), leNat_replicate_zero, mul_zero, add_zero, hm, ofSigned_natCast,
        ofSigned_natCast, ← pow_256, Nat.mod_eq_of_lt (by omega), Nat.mod_eq_of_lt (by omega)]
    · by_cases hz : m = 0
      · rw [if_neg (by omega), leNat_replicate_zero, hm, hz]
        simp [ofSigned]
      · have hm' : m ≤ 2 ^ 60 := by omega
        rw [if_pos (by omega), leNat_replicate_ff, hm, ofSigned_neg, ofSigned_neg, ← pow_256,
          Nat.mod_eq_of_lt (show m < 2 ^ 64 by omega), Nat.mod_eq_of_lt (show m < 256 ^ len by omega),
          Nat.mod_eq_of_lt (show 2 ^ 64 - m < 2 ^ 64 by omega),
          Nat.mod_eq_of_lt (show 256 ^ len - m < 256 ^ len by omega), Nat.mul_sub, hsplit]
        omega

theorem limbBytes_length (limbs : List UInt64) (len : ℕ) : (limbBytes limbs len).length = len := by
  simp only [limbBytes, List.length_append, List.length_take, List.length_replicate]
  omega

theorem leNat_limbBytes (limbs : List UInt64) (len : ℕ) :
    leNat (limbBytes limbs len) = limbsNat (limbs.map UInt64.toNat) % 256 ^ len := by
  have hall : leNat (limbs.flatMap fun limb => leBytes 8 limb.toNat) =
      limbsNat (limbs.map UInt64.toNat) := by
    rw [← leNat_flatMap_leBytes, List.flatMap_map]
    intro l hl
    obtain ⟨limb, -, rfl⟩ := List.mem_map.mp hl
    exact limb.toNat_lt
  simp only [limbBytes, leNat_append, leNat_replicate_zero, mul_zero, add_zero, leNat_take, hall]

/-- An integer term gives its two's-complement bytes. -/
theorem integerLeBytes_spec {memory : Memory} {term : Word} {v : ℤ}
    (h : Native.integerOf memory term = some v) (len : ℕ) :
    ∃ le, integerLeBytes memory term len = .ok le ∧ le.length = len ∧
      leNat le = ofSigned (8 * len) v := by
  unfold Native.integerOf at h
  unfold integerLeBytes
  cases hread : memory.read term with
  | number n =>
    rw [hread] at h
    cases n with
    | smallInt n =>
      obtain rfl := Option.some.inj h
      exact ⟨_, rfl, by simp; omega, leNat_smallInt n len⟩
    | float x => cases h
    | bigInt negative limbs =>
      obtain rfl := Option.some.inj h
      have hlen := limbBytes_length limbs len
      refine ⟨_, rfl, by split_ifs <;> simp [negateLoop_length, hlen], ?_⟩
      rw [BigIntValue.fromBigInt, BigIntValue.toInt_new]
      cases negative with
      | false =>
        simp only [Bool.false_eq_true, if_false]
        rw [leNat_limbBytes, ofSigned_natCast, pow_256]
      | true =>
        have hlt : limbsNat (limbs.map UInt64.toNat) % 2 ^ (8 * len) < 2 ^ (8 * len) :=
          Nat.mod_lt _ (by positivity)
        simp only [if_true]
        rw [leNat_negateLoop, leNat_limbBytes, hlen, ofSigned_neg, pow_256, Bool.toNat_true,
          Nat.sub_right_comm, Nat.sub_add_cancel (by omega)]
  | _ =>
    rw [hread] at h
    cases h

/-- A big-endian integer segment appends the integer modulo its size. -/
theorem pushInteger_holds {memory : Memory} {term : Word} {v : ℤ}
    (hv : Native.integerOf memory term = some v) {writer : BitWriter} {value bits : ℕ}
    (h : writer.Holds value) (hbits : 0 < bits) :
    ∃ writer', pushInteger memory writer term bits .big = .ok writer' ∧
      writer'.Holds (value * 2 ^ bits + ofSigned bits v) ∧
      writer'.bitLen = writer.bitLen + bits := by
  obtain ⟨le, hle, hlen, hnat⟩ := integerLeBytes_spec hv ((bits + 7) / 8)
  set len := (bits + 7) / 8
  set shifted := shiftLeft le.reverse (len * 8 - bits)
  have hslen : shifted.length = len := by rw [shiftLeft_length, List.length_reverse, hlen]
  obtain ⟨hholds, hend⟩ := BitWriter.pushBits_holds h (show bits ≤ 8 * shifted.length by omega)
  refine ⟨writer.pushBits shifted bits, ?_, ?_, hend⟩
  · rw [pushInteger, if_neg (by omega)]
    exact except_bind_ok_iff.mpr ⟨le, hle, rfl⟩
  have hfield : prefixValue shifted bits = ofSigned bits v := by
    have hpow : (256 : ℕ) ^ len = 2 ^ (len * 8 - bits) * 2 ^ bits := by
      rw [← pow_add, show len * 8 - bits + bits = 8 * len by omega, pow_256]
    rw [prefixValue, hslen, beNat_shiftLeft _ (by omega), beNat, List.reverse_reverse, hnat,
      List.length_reverse, hlen, hpow, Nat.mul_comm 8 len, Nat.mod_mul_right_div_self,
      Nat.mul_div_cancel _ (by positivity), ofSigned_mod (by omega)]
  rwa [hfield] at hholds

/-- The operands of one segment. -/
structure SegmentFields where
  typeAtom : Operand
  seg : Operand
  unit : Operand
  flags : Operand
  source : Operand
  size : Operand

def SegmentFields.operands (fields : SegmentFields) : List Operand :=
  [fields.typeAtom, fields.seg, fields.unit, fields.flags, fields.source, fields.size]

section Integers

variable (singleBits : Float64 → ℕ) {registers : Registers} {memory : Memory}
  {module : BinaryModule}

/-- The operands ask for a big-endian segment of `bits` bits and their source is the integer `v`. -/
structure IntegerSegment (registers : Registers) (memory : Memory) (module : BinaryModule)
    (fields : SegmentFields) (bits : ℕ) (v : ℤ) : Prop where
  size : segmentBits registers memory module fields.size fields.unit = .ok bits
  big : segmentEndian module fields.flags = .big
  runtime : isByteSource module fields.source = false
  source : ∃ term, readTerm registers module.constantPool fields.source = .ok term ∧
    Native.integerOf memory term = some v

theorem pushTerm_integer {term : Word} {v : ℤ} (h : Native.integerOf memory term = some v)
    (writer : BitWriter) (bits : ℕ) (endian : Endian) :
    pushTerm singleBits memory writer term bits endian =
      pushInteger memory writer term bits endian := by
  unfold Native.integerOf at h
  unfold pushTerm
  cases hread : memory.read term with
  | number n =>
    rw [hread] at h
    cases n with
    | float x => cases h
    | _ => rfl
  | binary b =>
    rw [hread] at h
    cases h
  | _ => rfl

theorem appendSegment_holds {fields : SegmentFields} {bits value : ℕ} {v : ℤ}
    (hseg : IntegerSegment registers memory module fields bits v) (hbits : 0 < bits)
    {writer : BitWriter} (h : writer.Holds value) :
    ∃ writer', appendSegment singleBits registers memory module writer fields.typeAtom fields.unit
      fields.flags fields.source fields.size = .ok writer' ∧
      writer'.Holds (value * 2 ^ bits + ofSigned bits v) ∧
      writer'.bitLen = writer.bitLen + bits := by
  obtain ⟨hsize, hbig, hruntime, term, hterm, hint⟩ := hseg
  obtain ⟨writer', hpush, hholds, hlen⟩ := pushInteger_holds hint h hbits
  refine ⟨writer', ?_, hholds, hlen⟩
  have hnotAtom : ∀ a, fields.size ≠ .atom a := by
    intro a ha
    rw [ha] at hsize
    cases hsize
  unfold appendSegment
  split
  · next a ha => exact absurd ha (hnotAtom _)
  · rw [hsize, except_ok_bind, hruntime, hbig]
    simp only [Bool.false_eq_true, if_false]
    rw [hterm, except_ok_bind, pushTerm_integer singleBits hint, hpush]

/-- A segment of the source program: its operands, its size and the integer it holds. -/
structure Segment where
  fields : SegmentFields
  bits : ℕ
  value : ℤ

/-- Size and value of the field a segment becomes. -/
def Segment.field (segment : Segment) : ℕ × ℕ := (segment.bits, ofSigned segment.bits segment.value)

theorem Segment.field_lt (segments : List Segment) :
    ∀ f ∈ segments.map Segment.field, f.2 < 2 ^ f.1 := by
  intro f hf
  obtain ⟨segment, -, rfl⟩ := List.mem_map.mp hf
  exact ofSigned_lt _ _

theorem appendSegments_holds {segments : List Segment} : ∀ {writer : BitWriter} {value : ℕ},
    (∀ s ∈ segments, IntegerSegment registers memory module s.fields s.bits s.value) →
    (∀ s ∈ segments, 0 < s.bits) → writer.Holds value →
    ∃ writer', appendSegments singleBits registers memory module writer
      (segments.flatMap fun s => s.fields.operands) = .ok writer' ∧
      writer'.Holds (value * 2 ^ totalBits (segments.map Segment.field) +
        packed (segments.map Segment.field)) ∧
      writer'.bitLen = writer.bitLen + totalBits (segments.map Segment.field) := by
  induction segments with
  | nil =>
    intro writer value _ _ h
    exact ⟨writer, rfl, by simpa [packed] using h, rfl⟩
  | cons s segments ih =>
    intro writer value hseg hbits h
    obtain ⟨mid, happend, hmid, hmidLen⟩ := appendSegment_holds singleBits
      (hseg s (by simp)) (hbits s (by simp)) h
    obtain ⟨writer', hrest, hholds, hlen⟩ := ih (fun t ht => hseg t (by simp [ht]))
      (fun t ht => hbits t (by simp [ht])) hmid
    refine ⟨writer', ?_, ?_, ?_⟩
    · exact except_bind_ok_iff.mpr ⟨mid, happend, hrest⟩
    · rw [List.map_cons, totalBits_cons, Segment.field, packed, pow_add, ← Nat.add_assoc,
        ← mul_assoc, ← Nat.add_mul]
      exact hholds
    · rw [List.map_cons, totalBits_cons, hlen, hmidLen, Nat.add_assoc]
      rfl

/-- Segments of a whole number of bytes are constructed, as their fields one after the other. -/
theorem construct_spec {segments : List Segment}
    (hseg : ∀ s ∈ segments, IntegerSegment registers memory module s.fields s.bits s.value)
    (hbits : ∀ s ∈ segments, 0 < s.bits)
    (htotal : totalBits (segments.map Segment.field) % 8 = 0) :
    ∃ bytes, construct singleBits registers memory module
      (segments.flatMap fun s => s.fields.operands) = .ok bytes ∧
      8 * bytes.length = totalBits (segments.map Segment.field) ∧
      beNat bytes = packed (segments.map Segment.field) := by
  obtain ⟨writer, hrun, hholds, hlen⟩ := appendSegments_holds singleBits hseg hbits holds_empty
  rw [Nat.zero_mul, Nat.zero_add] at hholds
  rw [show BitWriter.empty.bitLen = 0 from rfl, Nat.zero_add] at hlen
  have hwhole : writer.bytes.length = writer.bitLen / 8 := by
    rw [hholds.length, hlen]
    omega
  have hfields : (segments.flatMap fun s => s.fields.operands).length = segments.length * 6 := by
    simp [List.length_flatMap, SegmentFields.operands]
  refine ⟨writer.bytes, ?_, by omega, ?_⟩
  · rw [construct, if_neg (by omega), hrun, except_ok_bind, BitWriter.intoBytes, if_neg (by omega),
      List.take_of_length_le (by omega)]
  · have hpad : 8 * writer.bytes.length - writer.bitLen = 0 := by omega
    have heq := hholds.eq
    rwa [hpad, pow_zero, mul_one] at heq

end Integers

end Beamr.Interpreter
