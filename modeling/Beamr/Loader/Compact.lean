import Beamr.Loader.Basic
import Beamr.Term.BigInt
import Mathlib.Data.Nat.Size

/-!
# Compact operand encoding

Reader and writer of tagged operands. The reader accepts every width of a tagged
value; the writer picks the shortest form, so the two are inverse on the operands
the reader can produce and not on bytes. Integer operands outside the immediate
range leave the code stream and become constant-pool entries after the module's
own literals.
-/
namespace Beamr.Loader

open ByteOrder Decoder

/-- A tagged value: an `i64`, or the payload bytes of a wider one. -/
inductive CompactValue where
  | small (value : ℤ)
  | big (payload : List UInt8)
  deriving DecidableEq, Repr

/-- `u8::from` on a sign. -/
def signByte (negative : Bool) : UInt8 := if negative then 1 else 0

def truncatedCompact : LoadError := .decodeError "truncated compact term"

/-- Byte that extends a payload on the left. -/
def signFill (bytes : List UInt8) (signed : Bool) : UInt8 :=
  let negative := signed && match bytes with
    | b :: _ => b &&& 0x80 != 0
    | [] => false
  if negative then 0xff else 0x00

/-- Sign- or zero-extend up to eight payload bytes to an `i64`. -/
def smallSigned (bytes : List UInt8) (signed : Bool) : ℤ :=
  toSigned 64 (beNat (List.replicate (8 - bytes.length) (signFill bytes signed) ++ bytes))

/-- `read_small_signed` or `read_bytes`, by the width of the payload. -/
def readPayload (tag byteCount : ℕ) (rest : List UInt8) :
    Except LoadError (CompactValue × List UInt8) :=
  if byteCount ≤ rest.length then
    let payload := rest.take byteCount
    let value := if byteCount ≤ 8 then CompactValue.small (smallSigned payload (tag == 1))
      else CompactValue.big payload
    .ok (value, rest.drop byteCount)
  else .error truncatedCompact

def unsignedU32 (value : ℤ) (context : String) : Except LoadError ℕ :=
  if 0 ≤ value ∧ value < 2 ^ 32 then .ok value.toNat
  else .error (.decodeError s!"{context} value {value} out of range")

def unsignedU64 (value : ℤ) (context : String) : Except LoadError ℕ :=
  if 0 ≤ value ∧ value < 2 ^ 64 then .ok value.toNat
  else .error (.decodeError s!"{context} value {value} out of range")

/-- Raw compact readers never accept values wider than eight bytes. -/
def taggedInteger : ℕ × CompactValue → Except LoadError (ℕ × ℤ)
  | (tag, .small value) => .ok (tag, value)
  | (_, .big payload) => .error (.decodeError
      s!"compact integer with {payload.length} bytes is too large for this context")

/-- The checks of an unsigned read, given its range check. -/
def unsignedOf (narrow : ℤ → String → Except LoadError ℕ) (v : ℕ × CompactValue) :
    Except LoadError ℕ := do
  let (tag, value) ← taggedInteger v
  if tag ≠ 0 then
    .error (.decodeError s!"expected unsigned compact operand, got tag {tag}")
  else narrow value "unsigned compact operand"

/-- `read_tagged_value` on the unread bytes. -/
def taggedValue : List UInt8 → Except LoadError ((ℕ × CompactValue) × List UInt8)
  | [] => .error truncatedCompact
  | first :: rest =>
    let tag := (first &&& 0x07).toNat
    if first &&& 0x08 = 0 then
      .ok ((tag, .small ((first >>> 4).toNat : ℤ)), rest)
    else if first &&& 0x10 = 0 then
      match rest with
      | [] => .error truncatedCompact
      | low :: rest => .ok ((tag, .small (((first >>> 5).toNat * 256 + low.toNat : ℕ) : ℤ)), rest)
    else
      let descriptor := (first >>> 5).toNat
      if descriptor < 7 then do
        let (value, rest) ← readPayload tag (descriptor + 2) rest
        .ok ((tag, value), rest)
      else do
        let (extra, rest) ← taggedValue rest
        let extraLen ← unsignedOf unsignedU32 extra
        let (value, rest) ← readPayload tag (extraLen + 9) rest
        .ok ((tag, value), rest)

section Readers

variable {σ : Type}

def readTaggedValue : Decoder LoadError σ (ℕ × CompactValue) := lift taggedValue

def readTaggedInteger : Decoder LoadError σ (ℕ × ℤ) := do
  ofExcept (taggedInteger (← readTaggedValue))

def readUnsigned : Decoder LoadError σ ℕ := do
  ofExcept (unsignedOf unsignedU32 (← readTaggedValue))

def readUnsignedU64 : Decoder LoadError σ ℕ := do
  ofExcept (unsignedOf unsignedU64 (← readTaggedValue))

end Readers

/-! ## Operand reader -/

/-- Side state of the operand reader. -/
structure CompactState where
  extraLiterals : List Literal
  budget : DecodeBudget

def CompactState.initial : CompactState := ⟨[], .default⟩

abbrev CompactM := Decoder LoadError CompactState

/-- Range of an immediate integer: 61 payload bits. -/
def smallIntMin : ℤ := -(2 ^ 60)

def smallIntMax : ℤ := 2 ^ 60 - 1

def IsSmallInt (value : ℤ) : Prop := smallIntMin ≤ value ∧ value ≤ smallIntMax

instance (value : ℤ) : Decidable (IsSmallInt value) := inferInstanceAs (Decidable (_ ∧ _))

section OperandReader

variable (atoms : List Atom) (literals : List Literal)

def pushExtraLiteral (literal : Literal) : CompactM Operand := do
  let s ← getState
  setState { s with extraLiterals := s.extraLiterals ++ [literal] }
  pure (.literal (literals.length + s.extraLiterals.length))

def integerOperand (value : ℤ) : CompactM Operand :=
  if IsSmallInt value then pure (.integer value)
  else pushExtraLiteral literals (.integer value)

def bigIntegerOperand (payload : List UInt8) : CompactM Operand := do
  let s ← getState
  let b ← ofExcept s.budget.chargeNode
  let b ← ofExcept (b.chargeBytes payload.length)
  setState { s with budget := b }
  let value := Term.fromTwosComplementBe payload
  match value.toSmallI64 with
  | some small => integerOperand literals small
  | none =>
    let (negative, magnitudeLe) := Term.toSignMagnitudeLe value
    pushExtraLiteral literals (.bigInteger (signByte negative :: magnitudeLe))

def atomOperand (value : ℤ) : CompactM Operand :=
  if value = 0 then pure (.atom none)
  else if value < 0 then fail (.decodeError s!"atom index {value} out of range")
  else do
    let atom ← ofOption (.decodeError s!"atom index {value} out of range")
      atoms[value.toNat - 1]?
    pure (.atom (some atom))

def allocationOf (tag value : ℕ) : Allocation :=
  match tag with
  | 0 => .words value
  | 1 => .floats value
  | 2 => .funs value
  | other => .unknown other value

def readAllocation : CompactM Allocation := do
  let tag ← readUnsignedU64
  let value ← readUnsignedU64
  pure (allocationOf tag value)

/-- The extended forms, over the reader used for nested operands. -/
def readExtended (nested : CompactM Operand) (subtag : ℤ) : CompactM Operand :=
  if subtag = 1 then do
    let len ← readUnsigned
    let operands ← many nested len
    pure (.list operands)
  else if subtag = 2 then do
    pure (.floatRegister (← readUnsigned))
  else if subtag = 3 then do
    let len ← readUnsigned
    let entries ← many readAllocation len
    pure (.allocation entries)
  else if subtag = 0 ∨ subtag = 4 then do
    let index ← readUnsignedU64
    if literals.length ≤ index then
      fail (.decodeError s!"literal index {index} out of range")
    else pure (.literal index)
  else if subtag = 5 then do
    let register ← nested
    let typeIndex ← readUnsignedU64
    pure (.typedRegister register typeIndex)
  else fail (.decodeError s!"unsupported compact extended tag {subtag}")

/-- The operand of a tagged value that has been read. -/
def operandOf (nested : CompactM Operand) : ℕ × CompactValue → CompactM Operand
  | (1, .big payload) => bigIntegerOperand literals payload
  | (tag, .big payload) => fail (.decodeError
      s!"compact integer with {payload.length} bytes is too large for tag {tag}")
  | (0, .small value) => do
      pure (.unsigned (← ofExcept (unsignedU64 value "unsigned compact operand")))
  | (1, .small value) => integerOperand literals value
  | (2, .small value) => atomOperand atoms value
  | (3, .small value) => do pure (.x (← ofExcept (unsignedU32 value "x register")))
  | (4, .small value) => do pure (.y (← ofExcept (unsignedU32 value "y register")))
  | (5, .small value) => do pure (.label (← ofExcept (unsignedU32 value "label")))
  | (6, .small value) => do pure (.character (← ofExcept (unsignedU64 value "character")))
  | (7, .small value) => readExtended literals nested value
  | (other, .small _) => fail (.decodeError s!"unsupported compact tag {other}")

/-- Operand reader; every level of nesting consumes a byte, so the number of unread bytes
bounds the recursion (`readOperand_enough`). -/
def readOperandFuel : ℕ → CompactM Operand
  | 0 => fail truncatedCompact
  | fuel + 1 => do operandOf atoms literals (readOperandFuel fuel) (← readTaggedValue)

def readOperand : CompactM Operand := do
  let unread ← remaining
  readOperandFuel atoms literals unread.length

end OperandReader

/-! ## Operand writer -/

/-- Index lookup for the atoms of the module being written. -/
structure AtomEncoder where
  atoms : List Atom
  atomTable : AtomTable
  typeChunkPresent : Bool

namespace AtomEncoder

/-- Position of the first occurrence, counted from one. -/
def indexOf (e : AtomEncoder) (atom : Atom) : Except EncodeError ℕ :=
  match e.atoms.idxOf? atom with
  | some position => .ok (position + 1)
  | none => .error .atomNotInTable

def resolve (e : AtomEncoder) (atom : Atom) : Except EncodeError (List UInt8) :=
  match e.atomTable.resolve atom with
  | some name => .ok name
  | none => .error .atomNotInTable

end AtomEncoder

/-- Header byte of a multi-byte payload. -/
def extendedHeader (descriptor tag : ℕ) : UInt8 :=
  (UInt8.ofNat descriptor <<< 5) ||| 0x18 ||| UInt8.ofNat tag

/-- The two short forms, for values up to `0x7FF`. -/
def pushShort (tag value : ℕ) : List UInt8 :=
  if value ≤ 0x0F then [(UInt8.ofNat value <<< 4) ||| UInt8.ofNat tag]
  else [(UInt8.ofNat (value / 256) <<< 5) ||| 0x08 ||| UInt8.ofNat tag, UInt8.ofNat value]

/-- Big-endian bytes of a `u64` without leading zeros, at least two. -/
def minimalUnsignedBe (value : ℕ) : List UInt8 :=
  beBytes (max ((Nat.size value + 7) / 8) 2) value

/-- Fewest bytes, at most eight, whose two's complement holds the value. -/
def signedWidth (value : ℤ) : ℕ :=
  ([1, 2, 3, 4, 5, 6, 7].find? fun count => decide (FitsSigned (8 * count) value)).getD 8

def minimalSignedBe (value : ℤ) : List UInt8 :=
  beBytes (max (signedWidth value) 2) (ofSigned 64 value)

/-- Multi-byte form of a payload of two to eight bytes. -/
def pushWide (tag : ℕ) (bytes : List UInt8) : List UInt8 :=
  extendedHeader (bytes.length - 2) tag :: bytes

/-- The payload of a `u64` has at most eight bytes, so `push_extended` takes its first branch. -/
def pushUnsigned (tag value : ℕ) : List UInt8 :=
  if value ≤ 0x7FF then pushShort tag value
  else pushWide tag (minimalUnsignedBe value)

def pushExtended (tag : ℕ) (bytes : List UInt8) : List UInt8 :=
  if bytes.length ≤ 8 then pushWide tag bytes
  else extendedHeader 7 tag :: (pushUnsigned 0 (bytes.length - 9) ++ bytes)

def pushSigned (tag : ℕ) (value : ℤ) : List UInt8 :=
  if 0 ≤ value ∧ value ≤ 0x7FF then pushShort tag value.toNat
  else pushExtended tag (minimalSignedBe value)

def allocationPair : Allocation → ℕ × ℕ
  | .words value => (0, value)
  | .floats value => (1, value)
  | .funs value => (2, value)
  | .unknown tag value => (tag, value)

def encodeAllocation (entry : Allocation) : List UInt8 :=
  pushUnsigned 0 (allocationPair entry).1 ++ pushUnsigned 0 (allocationPair entry).2

mutual

def encodeOperand (e : AtomEncoder) : Operand → Except EncodeError (List UInt8)
  | .unsigned value => .ok (pushUnsigned 0 value)
  | .integer value => .ok (pushSigned 1 value)
  | .atom none => .ok (pushUnsigned 2 0)
  | .atom (some atom) => do .ok (pushUnsigned 2 (← e.indexOf atom))
  | .x value => .ok (pushUnsigned 3 value)
  | .y value => .ok (pushUnsigned 4 value)
  | .label value => .ok (pushUnsigned 5 value)
  | .character value => .ok (pushUnsigned 6 value)
  | .literal index => .ok (pushUnsigned 7 4 ++ pushUnsigned 0 index)
  | .floatRegister value => .ok (pushUnsigned 7 2 ++ pushUnsigned 0 value)
  | .list operands => do
      .ok (pushUnsigned 7 1 ++ pushUnsigned 0 operands.length ++ (← encodeOperands e operands))
  | .allocation entries =>
      .ok (pushUnsigned 7 3 ++ pushUnsigned 0 entries.length ++ entries.flatMap encodeAllocation)
  | .typedRegister register typeIndex =>
      if e.typeChunkPresent then do
        .ok (pushUnsigned 7 5 ++ (← encodeOperand e register) ++ pushUnsigned 0 typeIndex)
      else .error (.typedRegisterWithoutTypeChunk none typeIndex)

/-- `emit_all`: the operands in order. -/
def encodeOperands (e : AtomEncoder) : List Operand → Except EncodeError (List UInt8)
  | [] => .ok []
  | operand :: operands => do
      .ok ((← encodeOperand e operand) ++ (← encodeOperands e operands))

end

/-! ## Tagged values round trip -/

theorem shortHeader_bits : ∀ value < 16, ∀ tag < 8,
    let b := (UInt8.ofNat value <<< 4) ||| UInt8.ofNat tag
    b &&& 0x08 = 0 ∧ (b &&& 0x07).toNat = tag ∧ (b >>> 4).toNat = value := by
  decide

theorem twoByteHeader_bits : ∀ high < 8, ∀ tag < 8,
    let b := (UInt8.ofNat high <<< 5) ||| 0x08 ||| UInt8.ofNat tag
    b &&& 0x08 ≠ 0 ∧ b &&& 0x10 = 0 ∧ (b &&& 0x07).toNat = tag ∧ (b >>> 5).toNat = high := by
  decide

theorem extendedHeader_bits : ∀ descriptor < 8, ∀ tag < 8,
    let b := extendedHeader descriptor tag
    b &&& 0x08 ≠ 0 ∧ b &&& 0x10 ≠ 0 ∧ (b &&& 0x07).toNat = tag ∧
      (b >>> 5).toNat = descriptor := by
  decide

theorem taggedValue_pushShort {tag value : ℕ} (ht : tag < 8) (hv : value ≤ 0x7FF)
    (rest : List UInt8) :
    taggedValue (pushShort tag value ++ rest) = .ok ((tag, .small value), rest) := by
  unfold pushShort
  split_ifs with h
  · obtain ⟨h8, h7, h4⟩ := shortHeader_bits value (by omega) tag ht
    simp only [List.cons_append, List.nil_append, taggedValue, h8, h7, h4, if_true]
  · obtain ⟨h8, h10, h7, h5⟩ := twoByteHeader_bits (value / 256) (by omega) tag ht
    have hlow : value / 256 * 256 + (UInt8.ofNat value).toNat = value := by
      rw [UInt8.toNat_ofNat']; omega
    simp only [List.cons_append, List.nil_append, taggedValue, h8, h10, h7, h5, if_true,
      if_false, hlow]

theorem readPayload_append {t n : ℕ} {b : List UInt8} (h : b.length = n) (hn : n ≤ 8)
    (rest : List UInt8) :
    readPayload t n (b ++ rest) = .ok (.small (smallSigned b (t == 1)), rest) := by
  subst h
  unfold readPayload
  rw [if_pos (by simp), List.take_left, List.drop_left]
  simp only [if_pos hn]

theorem taggedValue_pushWide {tag : ℕ} {bytes : List UInt8} (ht : tag < 8) (h2 : 2 ≤ bytes.length)
    (h8 : bytes.length ≤ 8) (rest : List UInt8) :
    taggedValue (pushWide tag bytes ++ rest) =
      .ok ((tag, .small (smallSigned bytes (tag == 1))), rest) := by
  obtain ⟨b8, b10, b7, b5⟩ := extendedHeader_bits (bytes.length - 2) (by omega) tag ht
  have hpay := readPayload_append (t := tag) (n := bytes.length - 2 + 2) (b := bytes)
    (by omega) (by omega) rest
  simp only [pushWide, List.cons_append, taggedValue, b8, b10, b7, b5, if_false,
    if_pos (show bytes.length - 2 < 7 by omega), hpay]
  rfl

theorem smallSigned_unsigned {bytes : List UInt8} (hv : beNat bytes < 2 ^ 63) :
    smallSigned bytes false = beNat bytes := by
  simp only [smallSigned, signFill, Bool.false_and, Bool.false_eq_true, if_false, beNat_append,
    beNat_replicate_zero, mul_zero, add_zero]
  exact toSigned_of_lt hv

theorem minimalUnsignedBe_length (value : ℕ) :
    (minimalUnsignedBe value).length = max ((Nat.size value + 7) / 8) 2 := beBytes_length _ _

theorem beNat_minimalUnsignedBe (value : ℕ) : beNat (minimalUnsignedBe value) = value := by
  apply beNat_beBytes_of_lt
  calc value < 2 ^ Nat.size value := Nat.lt_size_self value
    _ ≤ 2 ^ (8 * max ((Nat.size value + 7) / 8) 2) := Nat.pow_le_pow_right (by norm_num) (by omega)
    _ = 256 ^ max ((Nat.size value + 7) / 8) 2 := by rw [pow_mul]; norm_num

/-- The reader undoes the unsigned writer, for every tag it does not sign-extend. -/
theorem taggedValue_pushUnsigned {t value : ℕ} (htag : t < 8) (h1 : t ≠ 1)
    (hv : value < 2 ^ 63) (rest : List UInt8) :
    taggedValue (pushUnsigned t value ++ rest) = .ok ((t, .small value), rest) := by
  unfold pushUnsigned
  split_ifs with h
  · exact taggedValue_pushShort htag h rest
  · have hsize : Nat.size value ≤ 63 := Nat.size_le.mpr hv
    have hlen := minimalUnsignedBe_length value
    rw [taggedValue_pushWide htag (by omega) (by omega)]
    have hval : smallSigned (minimalUnsignedBe value) (t == 1) = value := by
      rw [show (t == 1) = false by simpa using h1,
        smallSigned_unsigned (by rw [beNat_minimalUnsignedBe]; exact hv), beNat_minimalUnsignedBe]
    rw [hval]

theorem highBit_iff : ∀ n < 256, (UInt8.ofNat n &&& 0x80 != 0) = decide (128 ≤ n) := by
  decide +kernel

/-- Sign extension reads the payload at its own width. -/
theorem smallSigned_signed {bytes : List UInt8} (hne : bytes ≠ []) (h8 : bytes.length ≤ 8) :
    smallSigned bytes true = toSigned (8 * bytes.length) (beNat bytes) := by
  obtain ⟨b, bs, rfl⟩ := List.exists_cons_of_ne_nil hne
  have hb := b.toNat_lt
  have hbit : (b &&& 0x80 != 0) = decide (128 ≤ b.toNat) := by
    have := highBit_iff b.toNat hb
    rwa [UInt8.ofNat_toNat] at this
  have hval : beNat (b :: bs) = beNat bs + 256 ^ bs.length * b.toNat := by
    rw [show b :: bs = [b] ++ bs from rfl, beNat_append]
    simp [beNat, leNat]
  have hlow := beNat_lt bs
  have hlt := beNat_lt (b :: bs)
  set n := bs.length with hn
  set m := beNat (b :: bs) with hm
  simp only [List.length_cons, ← hn] at h8 hlt ⊢
  have hw : (2 : ℕ) ^ (8 * (n + 1) - 1) = 128 * 256 ^ n := by
    rw [show 8 * (n + 1) - 1 = 7 + 8 * n by omega, pow_add, pow_mul]; norm_num
  have hw' : (2 : ℤ) ^ (8 * (n + 1)) = 256 * 256 ^ n := by
    rw [show 8 * (n + 1) = 8 + 8 * n by omega, pow_add, pow_mul]; norm_num
  have hsplit : 256 ^ (8 - (n + 1)) * (256 * 256 ^ n) = 2 ^ 64 := by
    rw [← pow_succ', ← pow_add, show 8 - (n + 1) + (n + 1) = 8 by omega]; norm_num
  have hpow : (256 : ℕ) ^ (n + 1) = 256 * 256 ^ n := by ring
  have hpos : 0 < 256 ^ n := by positivity
  simp only [smallSigned, signFill, Bool.true_and, hbit, beNat_append, List.length_cons, ← hn, ← hm,
    decide_eq_true_eq]
  unfold toSigned
  rw [hw, hw']
  have hfill : 1 ≤ 256 ^ (8 - (n + 1)) := Nat.one_le_pow _ _ (by norm_num)
  by_cases hneg : 128 ≤ b.toNat
  · have hmge : ¬ m < 128 * 256 ^ n := by nlinarith
    rw [if_pos hneg, beNat_replicate_ff, if_neg hmge, hpow]
    have hsum : m + 256 * 256 ^ n * (256 ^ (8 - (n + 1)) - 1) + 256 * 256 ^ n = m + 2 ^ 64 := by
      rw [← hsplit, Nat.mul_sub, mul_one, mul_comm (256 ^ (8 - (n + 1)))]
      have : 256 * 256 ^ n ≤ 256 * 256 ^ n * 256 ^ (8 - (n + 1)) := Nat.le_mul_of_pos_right _ hfill
      omega
    have hle : 256 * 256 ^ n ≤ 2 ^ 64 := by nlinarith
    rw [if_neg (by omega)]
    have hz : ((m + 256 * 256 ^ n * (256 ^ (8 - (n + 1)) - 1) : ℕ) : ℤ) + 256 * 256 ^ n
        = m + 2 ^ 64 := by exact_mod_cast hsum
    linarith
  · have hmlt : m < 128 * 256 ^ n := by nlinarith
    rw [if_neg hneg, if_pos hmlt]
    have hle : 256 * 256 ^ n ≤ 2 ^ 64 := by nlinarith
    rw [beNat_replicate_zero, mul_zero, add_zero, if_pos (by norm_num; omega)]

theorem signedWidth_spec {value : ℤ} (h : FitsSigned 64 value) :
    1 ≤ signedWidth value ∧ signedWidth value ≤ 8 ∧ FitsSigned (8 * signedWidth value) value := by
  unfold signedWidth
  cases hf : [1, 2, 3, 4, 5, 6, 7].find? fun count => decide (FitsSigned (8 * count) value) with
  | none => exact ⟨by norm_num, by norm_num, h⟩
  | some count =>
    have hmem := List.mem_of_find?_eq_some hf
    have hfit := List.find?_some hf
    simp only [Option.getD_some]
    refine ⟨?_, ?_, by simpa using hfit⟩ <;> fin_cases hmem <;> norm_num

/-- The reader undoes the signed writer. -/
theorem taggedValue_pushSigned {value : ℤ} (hv : FitsSigned 64 value) (rest : List UInt8) :
    taggedValue (pushSigned 1 value ++ rest) = .ok ((1, .small value), rest) := by
  unfold pushSigned
  split_ifs with h
  · rw [taggedValue_pushShort (by norm_num) (by omega), Int.toNat_of_nonneg h.1]
  · obtain ⟨h1, h8, hfit⟩ := signedWidth_spec hv
    have hlen : (minimalSignedBe value).length = max (signedWidth value) 2 := beBytes_length _ _
    have hext : pushExtended 1 (minimalSignedBe value) = pushWide 1 (minimalSignedBe value) :=
      if_pos (by omega)
    rw [hext, taggedValue_pushWide (by norm_num) (by omega) (by omega)]
    have hne : minimalSignedBe value ≠ [] := by
      intro hnil; rw [hnil] at hlen; simp at hlen; omega
    have hfit2 : FitsSigned (8 * max (signedWidth value) 2) value := by
      rcases Nat.lt_or_ge (signedWidth value) 2 with hlt | hge
      · rw [max_eq_right hlt.le]
        have : signedWidth value = 1 := by omega
        rw [this] at hfit
        unfold FitsSigned at *
        norm_num at *
        omega
      · rw [max_eq_left hge]; exact hfit
    have hbe : beNat (minimalSignedBe value) = ofSigned (8 * max (signedWidth value) 2) value := by
      rw [← ofSigned_mod (show 8 * max (signedWidth value) 2 ≤ 64 by omega), minimalSignedBe,
        beNat_beBytes, pow_mul]
      norm_num
    have hval : smallSigned (minimalSignedBe value) (1 == 1) = value := by
      rw [show (1 == 1) = true from rfl, smallSigned_signed hne (by omega), hlen, hbe]
      exact toSigned_ofSigned (by omega) hfit2
    rw [hval]

end Beamr.Loader
