import Beamr.Interpreter.Matching

/-!
# Extracted integers

What `bs_get_integer` and the integer command of `bs_match` write, for every size, position,
endianness and signedness: the integer that the bits denote, with one exception. An unsigned
segment of 64 bits at a byte boundary is read into a signed word.
-/
namespace Beamr.Interpreter

open Loader Term ByteOrder BitField

/-! ## The integer of the bits -/

/-- The bits of a segment as a natural number. -/
def rawField (endian : Endian) (bytes : List UInt8) (pos bits : ℕ) : ℕ :=
  match endian with
  | .big => fieldAt bytes pos bits
  | .little => littleFieldAt bytes pos (bits / 8)

/-- The integer that the bits of a segment denote. -/
def denotedInteger (flags : SegmentFlags) (bytes : List UInt8) (pos bits : ℕ) : ℤ :=
  readField flags.signed bits (rawField flags.endian bytes pos bits)

/-! ## Whole bytes -/

/-- The value of the bytes, whichever of them comes first. -/
def bytesValue : Endian → List UInt8 → ℕ
  | .big, bytes => beNat bytes
  | .little, bytes => leNat bytes

theorem bytesValue_lt (endian : Endian) (bytes : List UInt8) :
    bytesValue endian bytes < 2 ^ (8 * bytes.length) := by
  rw [← pow_256]
  cases endian with
  | big => exact beNat_lt bytes
  | little => exact leNat_lt bytes

/-- The most significant byte, which `decode_integer` looks at. -/
def mostSignificant : Endian → List UInt8 → Option UInt8
  | .big, bytes => bytes.head?
  | .little, bytes => bytes.getLast?

theorem mostSignificant_signBit (endian : Endian) {bytes : List UInt8} (h : 1 ≤ bytes.length) :
    ((mostSignificant endian bytes).any fun byte => byte &&& 0x80 != 0) =
      decide (2 ^ (8 * bytes.length - 1) ≤ bytesValue endian bytes) := by
  have hbig : ∀ ordered : List UInt8, 1 ≤ ordered.length →
      (ordered.head?.any fun byte => byte &&& 0x80 != 0) =
        decide (2 ^ (8 * ordered.length - 1) ≤ beNat ordered) := by
    intro ordered hordered
    obtain ⟨b, rest, rfl⟩ := List.exists_cons_of_length_pos hordered
    have hhalf : 256 ^ (rest.length + 1) = 2 * 2 ^ (8 * (rest.length + 1) - 1) := by
      rw [pow_256, ← pow_succ', Nat.sub_add_cancel (by omega)]
    rw [List.head?_cons, Option.any_some, signBit_cons b rest, List.length_cons, hhalf,
      decide_eq_decide]
    omega
  cases endian with
  | big => exact hbig bytes h
  | little =>
    have hreverse := hbig bytes.reverse (by rwa [List.length_reverse])
    rw [List.head?_reverse, List.length_reverse, beNat, List.reverse_reverse] at hreverse
    exact hreverse

/-- The fill goes in front of the most significant byte. -/
def extendBytes : Endian → List UInt8 → List UInt8 → List UInt8
  | .big, fill, bytes => fill ++ bytes
  | .little, fill, bytes => bytes ++ fill

theorem bytesValue_extendBytes {endian : Endian} {bytes : List UInt8} (h8 : bytes.length ≤ 8)
    (negative : Bool) :
    bytesValue endian (extendBytes endian
        (List.replicate (8 - bytes.length) (if negative then 0xff else 0x00)) bytes) =
      bytesValue endian bytes + if negative then 2 ^ 64 - 2 ^ (8 * bytes.length) else 0 := by
  have hfull : (256 : ℕ) ^ bytes.length * 256 ^ (8 - bytes.length) = 2 ^ 64 := by
    rw [← pow_add, Nat.add_sub_cancel' h8]
    rfl
  cases negative with
  | false => cases endian <;> simp [bytesValue, extendBytes, beNat_append, leNat_append,
      beNat_replicate_zero, leNat_replicate_zero]
  | true =>
    have hones : 256 ^ bytes.length * (256 ^ (8 - bytes.length) - 1) =
        2 ^ 64 - 2 ^ (8 * bytes.length) := by
      rw [Nat.mul_sub, hfull, mul_one, pow_256]
    cases endian with
    | big => simp only [if_true, extendBytes, beNat_append, beNat_replicate_ff, hones, bytesValue]
    | little =>
      simp only [if_true, extendBytes, leNat_append, leNat_replicate_ff, hones, bytesValue]

theorem decodeInteger_eq {bytes : List UInt8} {endian : Endian} {signed : Bool}
    (h8 : bytes.length ≤ 8) : decodeInteger bytes ⟨endian, signed⟩ =
      .ok (toSigned 64 (bytesValue endian (extendBytes endian (List.replicate (8 - bytes.length)
        (if signed && (mostSignificant endian bytes).any (fun byte => byte &&& 0x80 != 0) then 0xff
          else 0x00)) bytes))) := by
  unfold decodeInteger
  rw [if_neg (by omega)]
  cases endian <;> rfl

/-- Up to eight bytes, read into a signed word. -/
theorem decodeInteger_spec {bytes : List UInt8} (endian : Endian) (signed : Bool)
    (h1 : 1 ≤ bytes.length) (h8 : bytes.length ≤ 8) : decodeInteger bytes ⟨endian, signed⟩ =
      .ok (toSigned (if signed then 8 * bytes.length else 64) (bytesValue endian bytes)) := by
  rw [decodeInteger_eq h8, mostSignificant_signBit endian h1, bytesValue_extendBytes h8]
  cases signed with
  | false => rfl
  | true =>
    simp only [Bool.true_and, decide_eq_true_eq, if_true]
    rw [← toSigned_signExtend (w := 8 * bytes.length) (W := 64) (by omega) (by omega)]
    congr 2
    split <;> split <;> omega

/-! ## Both paths -/

theorem MatchContext.readBitsLoop_bound {bytes : List UInt8} {count offset acc value : ℕ}
    (h : readBitsLoop bytes count offset acc = some value) (hpos : 1 ≤ count) :
    offset + count ≤ 8 * bytes.length := by
  induction count generalizing offset acc with
  | zero => omega
  | succ count ih =>
    rw [readBitsLoop] at h
    obtain ⟨byte, hbyte, hrest⟩ := Option.bind_eq_some_iff.mp h
    have hlt : offset / 8 < bytes.length := (List.getElem?_eq_some_iff.mp hbyte).1
    rcases Nat.eq_zero_or_pos count with rfl | hcount
    · omega
    · have := ih hrest hcount
      omega

/-- The bit by bit path of `get_integer_value`. -/
def bitwiseInteger (context : MatchContext) (memory : Memory) (flags : SegmentFlags) (bits : ℕ) :
    Except ExecError ℤ :=
  if flags.endian = .little then .error .badarg
  else if 63 < bits then .error .badarg
  else match context.readBitsBigEndian memory context.positionBits bits with
    | none => .error .badarg
    | some unsigned =>
      .ok (if flags.signed ∧ unsigned >>> (bits - 1) &&& 1 = 1 then (unsigned : ℤ) - 2 ^ bits
        else unsigned)

/-- The byte-aligned path of `get_integer_value`. -/
def alignedInteger (context : MatchContext) (memory : Memory) (flags : SegmentFlags) (bits : ℕ) :
    Except ExecError ℤ :=
  match context.slice memory bits with
  | none => .error .badarg
  | some bytes => decodeInteger bytes flags

theorem getIntegerValue_eq (context : MatchContext) (memory : Memory) (size unit flags : Operand) :
    getIntegerValue context memory size unit flags = (do
      let bits ← Matching.segmentBits size unit
      if context.hasBits bits = false then .ok none
      else if bits = 0 then .ok (some (0, 0))
      else
        (if bits % 8 = 0 ∧ context.positionBits % 8 = 0 then
            alignedInteger context memory (.fromFlags flags) bits
          else bitwiseInteger context memory (.fromFlags flags) bits) >>= fun value =>
        .ok (some (value, bits))) := by
  rw [getIntegerValue]
  congr 1
  funext bits
  dsimp only
  split
  next => rfl
  next =>
    split
    next => rfl
    next =>
      split
      next =>
        rw [alignedInteger]
        cases context.slice memory bits <;> rfl
      next =>
        rw [bitwiseInteger]
        by_cases hendian : (SegmentFlags.fromFlags flags).endian = .little
        · rw [if_pos hendian, if_pos hendian]
          rfl
        · rw [if_neg hendian, if_neg hendian]
          by_cases hlong : 63 < bits
          · rw [if_pos hlong, if_pos hlong]
            rfl
          · rw [if_neg hlong, if_neg hlong]
            cases context.readBitsBigEndian memory context.positionBits bits <;> rfl

section Paths

variable {context : MatchContext} {memory : Memory} {bytes : List UInt8} {flags : SegmentFlags}
  {bits : ℕ} {value : ℤ}

theorem bitwiseInteger_ok (hsource : context.source memory = some bytes) (hpos : 1 ≤ bits)
    (h : bitwiseInteger context memory flags bits = .ok value) :
    bits ≤ 63 ∧ flags.endian = .big ∧
      value = denotedInteger flags bytes context.positionBits bits := by
  rw [bitwiseInteger] at h
  split at h
  next => cases h
  next hendian =>
    split at h
    next => cases h
    next h63 =>
      split at h
      next => cases h
      next unsigned hread =>
        have hbig : flags.endian = .big := by
          cases hcase : flags.endian with
          | big => rfl
          | little => exact absurd hcase hendian
        rw [MatchContext.readBitsBigEndian] at hread
        split at hread
        next => cases hread
        next =>
          rw [hsource] at hread
          simp only [Option.bind_eq_bind, Option.bind_some] at hread
          have hfit := MatchContext.readBitsLoop_bound hread hpos
          rw [MatchContext.readBitsLoop_eq hfit, Nat.zero_mul, Nat.zero_add] at hread
          obtain rfl := Option.some.inj hread
          refine ⟨Nat.not_lt.mp h63, hbig, ?_⟩
          have hlt := fieldAt_lt bytes context.positionBits bits
          obtain rfl := Except.ok.inj h
          rw [denotedInteger, hbig, rawField]
          cases flags.signed with
          | false => simp [readField]
          | true => simp [readField, toSigned_eq_ite hpos hlt]

theorem alignedInteger_ok (hsource : context.source memory = some bytes) (hpos : 1 ≤ bits)
    (hbits : bits % 8 = 0) (hposition : context.positionBits % 8 = 0)
    (h : alignedInteger context memory flags bits = .ok value) :
    bits ≤ 64 ∧ value = toSigned (if flags.signed then bits else 64)
      (rawField flags.endian bytes context.positionBits bits) := by
  rw [alignedInteger] at h
  split at h
  next => cases h
  next taken hslice =>
    rw [MatchContext.slice, if_neg (by omega), hsource] at hslice
    simp only [Option.bind_eq_bind, Option.bind_some] at hslice
    split at hslice
    next hinside =>
      obtain rfl := Option.some.inj hslice
      set taken := (bytes.drop (context.positionBits / 8)).take (bits / 8) with htaken
      have hlength : taken.length = bits / 8 := by
        rw [htaken, List.length_take, List.length_drop]
        omega
      have h8 : taken.length ≤ 8 := by
        by_contra hlong
        rw [decodeInteger, if_pos (by omega)] at h
        cases h
      have hraw : rawField flags.endian bytes context.positionBits bits =
          bytesValue flags.endian taken := by
        have hstart : 8 * (context.positionBits / 8) = context.positionBits := by omega
        have hsize : 8 * (bits / 8) = bits := by omega
        cases flags.endian with
        | big =>
          have hfield := fieldAt_slice hinside
          rw [hstart, hsize] at hfield
          exact hfield
        | little =>
          have hfield := littleFieldAt_slice hinside
          rw [hstart] at hfield
          exact hfield
      have hdecode : decodeInteger taken flags = _ :=
        decodeInteger_spec flags.endian flags.signed (by omega) h8
      rw [hdecode] at h
      refine ⟨by omega, ?_⟩
      rw [← Except.ok.inj h, hraw, hlength, Nat.mul_div_cancel' (by omega)]
    next => cases hslice

/-- The value is read into a signed word where it fills one. -/
def Wraps (flags : SegmentFlags) (bytes : List UInt8) (pos bits : ℕ) : Prop :=
  flags.signed = false ∧ bits = 64 ∧ 2 ^ 63 ≤ rawField flags.endian bytes pos bits

theorem rawField_lt (endian : Endian) (bytes : List UInt8) (pos : ℕ) {bits : ℕ}
    (h : endian = .big ∨ bits % 8 = 0) : rawField endian bytes pos bits < 2 ^ bits := by
  cases endian with
  | big => exact fieldAt_lt bytes pos bits
  | little =>
    have hbits : bits % 8 = 0 := by simpa using h
    have hall : ∀ count pos, littleFieldAt bytes pos count < 2 ^ (8 * count) := by
      intro count
      induction count with
      | zero => exact fun _ => by simp [littleFieldAt]
      | succ count ih =>
        intro pos
        have hfirst := fieldAt_lt bytes pos 8
        have hrest := ih (pos + 8)
        rw [littleFieldAt, Nat.mul_add, Nat.mul_one, pow_add]
        omega
    have hlt := hall (bits / 8) pos
    rwa [Nat.mul_div_cancel' (by omega)] at hlt

theorem toSigned_eq_denoted_iff (bytes : List UInt8) (pos : ℕ) (h64 : bits ≤ 64)
    (h8 : bits % 8 = 0) :
    toSigned (if flags.signed then bits else 64) (rawField flags.endian bytes pos bits) =
      denotedInteger flags bytes pos bits ↔ ¬ Wraps flags bytes pos bits := by
  have hlt := rawField_lt flags.endian bytes pos (.inr h8)
  rw [denotedInteger, Wraps]
  generalize rawField flags.endian bytes pos bits = raw at hlt
  cases flags.signed with
  | true => simp [readField]
  | false =>
    simp only [readField, Bool.false_eq_true, if_false, true_and, not_and, Nat.not_le]
    by_cases hsmall : raw < 2 ^ 63
    · rw [toSigned_of_lt hsmall]
      exact iff_of_true rfl fun _ => hsmall
    · have hfull : bits = 64 := by
        by_contra hne
        have hpow : 2 ^ bits ≤ 2 ^ 63 := Nat.pow_le_pow_right (by norm_num) (by omega)
        omega
      rw [toSigned, if_neg (by omega)]
      refine iff_of_false (by omega) fun h => hsmall (h hfull)

/-- Where both paths are defined they agree. -/
theorem aligned_eq_bitwise {value' : ℤ} (hsource : context.source memory = some bytes)
    (hpos : 1 ≤ bits) (hbits : bits % 8 = 0) (hposition : context.positionBits % 8 = 0)
    (haligned : alignedInteger context memory flags bits = .ok value)
    (hbitwise : bitwiseInteger context memory flags bits = .ok value') : value = value' := by
  obtain ⟨h63, -, rfl⟩ := bitwiseInteger_ok hsource hpos hbitwise
  obtain ⟨h64, rfl⟩ := alignedInteger_ok hsource hpos hbits hposition haligned
  exact (toSigned_eq_denoted_iff bytes _ h64 hbits).mpr fun h => by
    have := h.2.1
    omega

theorem getIntegerValue_denoted_iff {size unit operand : Operand}
    (hsource : context.source memory = some bytes)
    (h : getIntegerValue context memory size unit operand = .ok (some (value, bits))) :
    Matching.segmentBits size unit = .ok bits ∧
      (value = denotedInteger (.fromFlags operand) bytes context.positionBits bits ↔
        ¬ Wraps (.fromFlags operand) bytes context.positionBits bits) := by
  rw [getIntegerValue_eq] at h
  obtain ⟨asked, hasked, h⟩ := except_bind_ok_iff.mp h
  split at h
  next => cases h
  next =>
    split at h
    next hzero =>
      obtain ⟨rfl, rfl⟩ := Prod.mk.inj (Option.some.inj (Except.ok.inj h))
      subst hzero
      have hlt : rawField (SegmentFlags.fromFlags operand).endian bytes context.positionBits 0 <
          2 ^ 0 := rawField_lt _ bytes _ (.inr rfl)
      refine ⟨hasked, iff_of_true ?_ fun h => by cases h.2.1⟩
      have hraw : rawField (SegmentFlags.fromFlags operand).endian bytes context.positionBits 0 =
          0 := by omega
      rw [denotedInteger, hraw]
      cases (SegmentFlags.fromFlags operand).signed <;> rfl
    next hzero =>
      obtain ⟨read, hread, h⟩ := except_bind_ok_iff.mp h
      obtain ⟨rfl, rfl⟩ := Prod.mk.inj (Option.some.inj (Except.ok.inj h))
      refine ⟨hasked, ?_⟩
      split at hread
      next haligned =>
        obtain ⟨h64, rfl⟩ :=
          alignedInteger_ok hsource (by omega) haligned.1 haligned.2 hread
        exact toSigned_eq_denoted_iff bytes _ h64 haligned.1
      next =>
        obtain ⟨h63, -, hvalue⟩ := bitwiseInteger_ok hsource (by omega) hread
        refine iff_of_true hvalue fun h => ?_
        have := h.2.1
        omega

end Paths

/-! ## Instructions -/

/-- The `integer` command of `bs_match`; the answer says whether the segment fits. -/
def matchInteger (process : BinaryProcess) (word : Word) (context : MatchContext) :
    List Operand → Except ExecError (Bool × BinaryProcess)
  | [_live, flags, size, unit, destination] => do
    match ← getIntegerValue context process.memory size unit flags with
    | some (value, bits) => do
      let term ← readSmallInt value
      let registers ← writeTerm process.registers term destination
      .ok (true, setPositionBits { process with registers := registers } word context
        (context.positionBits + bits))
    | none => .ok (false, process)
  | _ => .error (.invalidOperand "bs_match command")

/-- The operands of an integer segment. -/
structure IntegerOperands where
  size : Operand
  unit : Operand
  flags : Operand
  destination : Operand

/-- One of the two instructions succeeds on the context at `word`. -/
inductive Extracts (module : BinaryModule) (process : BinaryProcess) :
    Word → MatchContext → IntegerOperands → BinaryProcess → Prop
  | bsGetInteger {operands : List Operand} {get : GetOperands} {word : Word}
      {context : MatchContext} {next : BinaryProcess}
      (hparse : parseGetOperands operands "bs_get_integer2" = .ok get)
      (hcontext : readContext module process get.context = .ok (word, context))
      (hrun : bsGetInteger module process operands = .ok (.next, next)) :
      Extracts module process word context ⟨get.size, get.unit, get.flags, get.destination⟩ next
  | matchInteger {word : Word} {context : MatchContext}
      {live flags size unit destination : Operand} {next : BinaryProcess}
      (hcontext : process.contexts word = some context)
      (hrun : matchInteger process word context [live, flags, size, unit, destination] =
        .ok (true, next)) :
      Extracts module process word context ⟨size, unit, flags, destination⟩ next

/-- What an extraction is for: the word written denotes the integer of the bits, the context stands
behind them, and the two paths agree. -/
structure Faithful (module : BinaryModule) (process next : BinaryProcess) (word : Word)
    (context : MatchContext) (operands : IntegerOperands) (bytes : List UInt8) (bits : ℕ) :
    Prop where
  value : ∃ term, readTerm next.registers module.constantPool operands.destination = .ok term ∧
    ∀ memory, Native.integerOf memory term =
      some (denotedInteger (.fromFlags operands.flags) bytes context.positionBits bits)
  position : next.contexts word =
    some { context with positionBits := context.positionBits + bits }
  paths : 1 ≤ bits → bits % 8 = 0 → context.positionBits % 8 = 0 → ∀ value value',
    alignedInteger context process.memory (.fromFlags operands.flags) bits = .ok value →
      bitwiseInteger context process.memory (.fromFlags operands.flags) bits = .ok value' →
        value = value'

theorem Extracts.steps {module : BinaryModule} {process next : BinaryProcess} {word : Word}
    {context : MatchContext} {operands : IntegerOperands}
    (h : Extracts module process word context operands next) :
    ∃ value bits term registers,
      getIntegerValue context process.memory operands.size operands.unit operands.flags =
        .ok (some (value, bits)) ∧
      readSmallInt value = .ok term ∧
      writeTerm process.registers term operands.destination = .ok registers ∧
      next = setPositionBits { process with registers := registers } word context
        (context.positionBits + bits) := by
  cases h with
  | @bsGetInteger _ get _ _ _ hparse hcontext hrun =>
    rw [Interpreter.bsGetInteger, hparse, except_ok_bind, hcontext, except_ok_bind] at hrun
    obtain ⟨read, hread, hrun⟩ := except_bind_ok_iff.mp hrun
    cases read with
    | none =>
      simp only at hrun
      rw [jumpLabel] at hrun
      obtain ⟨label, -, hrun⟩ := except_bind_ok_iff.mp hrun
      cases hrun
    | some read =>
      obtain ⟨value, bits⟩ := read
      obtain ⟨term, hterm, hrun⟩ := except_bind_ok_iff.mp hrun
      obtain ⟨registers, hwrite, hrun⟩ := except_bind_ok_iff.mp hrun
      obtain ⟨-, rfl⟩ := Prod.mk.inj (Except.ok.inj hrun)
      exact ⟨value, bits, term, registers, hread, hterm, hwrite, rfl⟩
  | matchInteger hcontext hrun =>
    rw [Interpreter.matchInteger] at hrun
    obtain ⟨read, hread, hrun⟩ := except_bind_ok_iff.mp hrun
    cases read with
    | none => cases hrun
    | some read =>
      obtain ⟨value, bits⟩ := read
      obtain ⟨term, hterm, hrun⟩ := except_bind_ok_iff.mp hrun
      obtain ⟨registers, hwrite, hrun⟩ := except_bind_ok_iff.mp hrun
      obtain ⟨-, rfl⟩ := Prod.mk.inj (Except.ok.inj hrun)
      exact ⟨value, bits, term, registers, hread, hterm, hwrite, rfl⟩

theorem integerOf_readSmallInt {value : ℤ} {term : Word} (h : readSmallInt value = .ok term)
    (memory : Memory) : Native.integerOf memory term = some value := by
  rw [readSmallInt, trySmallInt] at h
  split at h
  next w hw =>
    split at hw
    next hbounds =>
      obtain rfl := Option.some.inj hw
      obtain rfl := Except.ok.inj h
      rw [Native.integerOf_smallInt memory (Word.isSmallInt_ofSmallInt _)]
      exact congrArg some (Word.payload_ofSmallInt _)
    next => cases hw
  next => cases h

/-- An extraction that succeeds is faithful exactly when the segment is not an unsigned one of 64
bits with its first bit set. -/
theorem extracted_integer_iff {module : BinaryModule} {process next : BinaryProcess} {word : Word}
    {context : MatchContext} {operands : IntegerOperands} {bytes : List UInt8}
    (h : Extracts module process word context operands next)
    (hsource : context.source process.memory = some bytes) :
    ∃ size unit, operandUsize operands.size "segment size" = .ok size ∧
      operandUsize operands.unit "segment unit" = .ok unit ∧
      (Faithful module process next word context operands bytes (size * unit) ↔
        ¬ Wraps (.fromFlags operands.flags) bytes context.positionBits (size * unit)) := by
  obtain ⟨value, bits, term, registers, hvalue, hterm, hwrite, rfl⟩ := h.steps
  obtain ⟨hbits, hiff⟩ := getIntegerValue_denoted_iff hsource hvalue
  obtain ⟨size, hsize, hbits⟩ := except_bind_ok_iff.mp hbits
  obtain ⟨unit, hunit, hbits⟩ := except_bind_ok_iff.mp hbits
  have hproduct : size * unit = bits := by
    split at hbits
    next => exact Except.ok.inj hbits
    next => cases hbits
  refine ⟨size, unit, hsize, hunit, ?_⟩
  rw [hproduct, ← hiff]
  have hread : readTerm registers module.constantPool operands.destination = .ok term :=
    readTerm_written hwrite
  constructor
  · intro hfaithful
    obtain ⟨written, hwritten, hdenotes⟩ := hfaithful.value
    obtain rfl : term = written := Except.ok.inj (hread.symm.trans hwritten)
    exact Option.some.inj ((integerOf_readSmallInt hterm process.memory).symm.trans (hdenotes _))
  · intro heq
    refine ⟨⟨term, hread, fun memory => ?_⟩, Function.update_self .., ?_⟩
    · rw [integerOf_readSmallInt hterm memory, heq]
    · intro hpos h8 hposition value value' haligned hbitwise
      exact aligned_eq_bitwise hsource hpos h8 hposition haligned hbitwise

/-- Four bits of a binary at a match context. -/
theorem extracted_integer_sample : ∃ next,
    Extracts sampleModule sampleProcess 20 ⟨0, 16, 12⟩ ⟨.integer 4, .unsigned 1, .unsigned 4, .x 3⟩
      next ∧
    Faithful sampleModule sampleProcess next 20 ⟨0, 16, 12⟩
      ⟨.integer 4, .unsigned 1, .unsigned 4, .x 3⟩ [0xff, 0xfb] 4 := by
  have hextracts : Extracts sampleModule sampleProcess 20 ⟨0, 16, 12⟩
      ⟨.integer 4, .unsigned 1, .unsigned 4, .x 3⟩ _ :=
    @Extracts.bsGetInteger _ _ [.label 1, .x 2, .integer 4, .unsigned 1, .unsigned 4, .x 3]
      _ _ _ _ rfl rfl rfl
  have hsource : MatchContext.source ⟨0, 16, 12⟩ sampleProcess.memory = some [0xff, 0xfb] := rfl
  obtain ⟨size, unit, hsize, hunit, hiff⟩ := extracted_integer_iff hextracts hsource
  obtain rfl : 4 = size := Except.ok.inj hsize
  obtain rfl : 1 = unit := Except.ok.inj hunit
  exact ⟨_, hextracts, hiff.mpr fun h => absurd h.2.1 (by decide)⟩

/-- A binary of eight bytes in full, and a context at its start. -/
def fullMemory : Memory where
  object w :=
    if w = 12 then .binary (.inline (List.replicate 8 0xff)) else .other (UInt64.ofBitVec w)
  boxed w := by split_ifs <;> simp [Value.Complete]
  other w raw := by split_ifs <;> simp_all

def fullProcess : BinaryProcess where
  registers := ⟨fun _ => 20, []⟩
  memory := fullMemory
  contexts w := if w = 20 then some ⟨0, 64, 12⟩ else none

/-- Sixty-four bits that are all set are read as minus one, not as `2 ^ 64 - 1`. -/
theorem not_extracted_integer :
    ¬ ∀ (module : BinaryModule) (process next : BinaryProcess) (word : Word)
      (context : MatchContext) (operands : IntegerOperands) (bytes : List UInt8) (bits : ℕ),
      Extracts module process word context operands next →
        context.source process.memory = some bytes →
          Matching.segmentBits operands.size operands.unit = .ok bits →
            Faithful module process next word context operands bytes bits := by
  intro h
  have hextracts : Extracts sampleModule fullProcess 20 ⟨0, 64, 12⟩
      ⟨.integer 64, .unsigned 1, .unsigned 0, .x 3⟩ _ :=
    @Extracts.bsGetInteger _ _ [.label 1, .x 2, .integer 64, .unsigned 1, .unsigned 0, .x 3]
      _ _ _ _ rfl rfl rfl
  obtain ⟨term, hterm, hdenotes⟩ :=
    (h _ _ _ _ _ _ (List.replicate 8 0xff) 64 hextracts rfl rfl).value
  have hminus : readSmallInt (-1) = .ok term := hterm
  have hvalue := (integerOf_readSmallInt hminus fullMemory).symm.trans (hdenotes fullMemory)
  revert hvalue
  decide +kernel

end Beamr.Interpreter
