import Beamr.Interpreter.MatchValues
import Beamr.Lib.PrefixCode

/-!
# Unicode segments

Codepoints are written in UTF-8 by the interpreter and the compiled code, and in UTF-16 and UTF-32
by the compiled code. What the decoders accept at a byte boundary is just what the encoders write.
-/
namespace Beamr.Interpreter

open Loader Term ByteOrder

/-! ## Encoders -/

/-- `char::from_u32`, then `encode_utf8`. -/
def encodeUtf8 (codepoint : ℕ) : Option (List UInt8) :=
  if codepoint.isValidChar then some (String.utf8EncodeChar (Char.ofNat codepoint)) else none

/-- `to_be_bytes` or `to_le_bytes` of so many bytes. -/
def valueBytes (endian : Endian) (length value : ℕ) : List UInt8 :=
  match endian with
  | .big => beBytes length value
  | .little => leBytes length value

/-- `char::encode_utf16` -/
def utf16Units (codepoint : ℕ) : List ℕ :=
  if codepoint < 0x10000 then [codepoint]
  else [0xd800 + (codepoint - 0x10000) / 2 ^ 10, 0xdc00 + (codepoint - 0x10000) % 2 ^ 10]

def encodeUtf16 (endian : Endian) (codepoint : ℕ) : Option (List UInt8) :=
  if codepoint.isValidChar then some ((utf16Units codepoint).flatMap (valueBytes endian 2))
  else none

def encodeUtf32 (endian : Endian) (codepoint : ℕ) : Option (List UInt8) :=
  if validCodepoint codepoint then some (valueBytes endian 4 codepoint) else none

/-- The encoder of an encoding. -/
def encodeUtf (endian : Endian) : Utf → ℕ → Option (List UInt8)
  | .utf8 => encodeUtf8
  | .utf16 => encodeUtf16 endian
  | .utf32 => encodeUtf32 endian

/-! ## The builder of compiled code -/

/-- A binary under construction; its capacity is the number of its bytes. -/
structure JitBinaryBuilder where
  writePositionBits : ℕ
  bytes : List UInt8

namespace JitBinaryBuilder

/-- `jit_bs_init` -/
def init (capacity : ℕ) : JitBinaryBuilder := ⟨0, List.replicate capacity 0⟩

variable (builder : JitBinaryBuilder)

def canAppend (bits : ℕ) : Bool :=
  builder.writePositionBits + bits ≤ builder.bytes.length * 8

def writeBytes (start : ℕ) (bytes : List UInt8) : JitBinaryBuilder :=
  { builder with
    bytes := builder.bytes.take start ++ bytes ++ builder.bytes.drop (start + bytes.length) }

/-- `put_utf` of a small integer; a refusal is a `badarg`. -/
def putUtf (encoder : ℕ → Option (List UInt8)) (codepoint : ℤ) : Option JitBinaryBuilder :=
  if 0 ≤ codepoint ∧ codepoint < 2 ^ 32 ∧ validCodepoint codepoint.toNat then do
    let bytes ← encoder codepoint.toNat
    let start := builder.writePositionBits
    if start % 8 ≠ 0 ∨ builder.canAppend (bytes.length * 8) = false then none
    else some { builder.writeBytes (start / 8) bytes with
      writePositionBits := start + bytes.length * 8 }
  else none

/-- `jit_bs_finish`, up to the allocation. -/
def finish : Option (List UInt8) :=
  if builder.writePositionBits % 8 ≠ 0 then none
  else if builder.bytes.length < builder.writePositionBits / 8 then none
  else some (builder.bytes.take (builder.writePositionBits / 8))

end JitBinaryBuilder

/-- `jit_bs_put_utf8`, `jit_bs_put_utf16` and `jit_bs_put_utf32`, one codepoint after the other. -/
def putUtfs (endian : Endian) (utf : Utf) : List ℕ → JitBinaryBuilder → Option JitBinaryBuilder
  | [], builder => some builder
  | codepoint :: codepoints, builder => do
    putUtfs endian utf codepoints (← builder.putUtf (encodeUtf endian utf) codepoint)

/-! ## Codepoints -/

theorem validCodepoint_iff (codepoint : ℕ) :
    validCodepoint codepoint = true ↔ codepoint.isValidChar := by
  simp only [validCodepoint, Nat.isValidChar, Bool.and_eq_true, Bool.not_eq_true',
    decide_eq_true_eq, Bool.and_eq_false_iff, decide_eq_false_iff_not]
  omega

/-! ## UTF-8 -/

section Utf8

theorem utf8EncodeChar_eq {c : ℕ} (h : c.isValidChar) : String.utf8EncodeChar (Char.ofNat c) =
    if c ≤ 0x7f then [UInt8.ofNat c]
    else if c ≤ 0x7ff then [UInt8.ofNat (c / 64 + 0xc0), UInt8.ofNat (c % 64 + 0x80)]
    else if c ≤ 0xffff then
      [UInt8.ofNat (c / 4096 + 0xe0), UInt8.ofNat (c / 64 % 64 + 0x80), UInt8.ofNat (c % 64 + 0x80)]
    else [UInt8.ofNat (c / 262144 + 0xf0), UInt8.ofNat (c / 4096 % 64 + 0x80),
      UInt8.ofNat (c / 64 % 64 + 0x80), UInt8.ofNat (c % 64 + 0x80)] := by
  have hval : (Char.ofNat c).val.toNat = c := by
    rw [Char.ofNat, dif_pos h]
    rfl
  have hlt : c < 0x110000 := by
    rcases h with h | h <;> omega
  simp only [String.utf8EncodeChar, hval]
  split_ifs with h1 h2 h3
  · rfl
  · rw [show c / 64 % 32 = c / 64 by omega]
  · rw [show c / 4096 % 16 = c / 4096 by omega]
  · rw [show c / 262144 % 8 = c / 262144 by omega]

theorem toNat_and_low (byte : UInt8) {k : ℕ} (hk : k < 8) :
    (byte &&& UInt8.ofNat (2 ^ k - 1)).toNat = byte.toNat % 2 ^ k := by
  have hlt : 2 ^ k - 1 < 2 ^ 8 := by
    have : 2 ^ k ≤ 2 ^ 7 := Nat.pow_le_pow_right (by norm_num) (by omega)
    omega
  rw [UInt8.toNat_and, UInt8.toNat_ofNat', Nat.mod_eq_of_lt hlt, Nat.and_two_pow_sub_one_eq_mod]

/-- A byte that continues a sequence. -/
def Continues (byte : UInt8) : Prop := 0x80 ≤ byte.toNat ∧ byte.toNat ≤ 0xbf

theorem and_c0_iff (byte : UInt8) : byte &&& 0xc0 = 0x80 ↔ Continues byte := by
  have h : ∀ n : Fin 256, UInt8.ofNat n.val &&& 0xc0 = 0x80 ↔ 0x80 ≤ n.val ∧ n.val ≤ 0xbf := by
    decide +kernel
  simpa [Continues] using h ⟨byte.toNat, byte.toNat_lt⟩

theorem utf8Lead_eq (first : UInt8) : utf8Lead first =
    if first.toNat ≤ 0x7f then some (1, first.toNat, 0)
    else if 0xc2 ≤ first.toNat ∧ first.toNat ≤ 0xdf then some (2, first.toNat - 0xc0, 0x80)
    else if 0xe0 ≤ first.toNat ∧ first.toNat ≤ 0xef then some (3, first.toNat - 0xe0, 0x800)
    else if 0xf0 ≤ first.toNat ∧ first.toNat ≤ 0xf4 then some (4, first.toNat - 0xf0, 0x10000)
    else none := by
  have h5 : (first &&& 0x1f).toNat = first.toNat % 32 := toNat_and_low first (k := 5) (by norm_num)
  have h4 : (first &&& 0x0f).toNat = first.toNat % 16 := toNat_and_low first (k := 4) (by norm_num)
  have h3 : (first &&& 0x07).toNat = first.toNat % 8 := toNat_and_low first (k := 3) (by norm_num)
  simp only [utf8Lead, UInt8.le_iff_toNat_le, h5, h4, h3, UInt8.reduceToNat]
  split_ifs with h1 h2 h3 h4
  · rfl
  · rw [show first.toNat % 32 = first.toNat - 0xc0 by omega]
  · rw [show first.toNat % 16 = first.toNat - 0xe0 by omega]
  · rw [show first.toNat % 8 = first.toNat - 0xf0 by omega]
  · rfl

theorem utf8Continue_nil (codepoint : ℕ) : utf8Continue codepoint [] = some codepoint := rfl

theorem utf8Continue_cons (codepoint : ℕ) (byte : UInt8) (rest : List UInt8) (value : ℕ) :
    utf8Continue codepoint (byte :: rest) = some value ↔
      Continues byte ∧ utf8Continue (codepoint * 64 + (byte.toNat - 0x80)) rest = some value := by
  have hmask := and_c0_iff byte
  rw [utf8Continue]
  by_cases h : Continues byte
  · have hlow : (byte &&& 0x3f).toNat = byte.toNat % 64 :=
      toNat_and_low byte (k := 6) (by norm_num)
    have hvalue : codepoint <<< 6 ||| (byte &&& 0x3f).toNat =
        codepoint * 64 + (byte.toNat - 0x80) := by
      rw [hlow, ← Nat.shiftLeft_add_eq_or_of_lt (by omega), Nat.shiftLeft_eq]
      have := h.1
      have := h.2
      omega
    rw [if_neg (not_not.2 (hmask.2 h)), hvalue, and_iff_right h]
  · rw [if_pos fun heq => h (hmask.1 heq)]
    simp [h]

theorem utf8Sequence_cons (first : UInt8) (rest : List UInt8) (codepoint bits : ℕ) :
    utf8Sequence (first :: rest) = some (codepoint, bits) ↔ ∃ needed start least,
      utf8Lead first = some (needed, start, least) ∧ needed ≤ rest.length + 1 ∧
      utf8Continue start (rest.take (needed - 1)) = some codepoint ∧ least ≤ codepoint ∧
      validCodepoint codepoint = true ∧ bits = needed * 8 := by
  rw [utf8Sequence]
  constructor
  · intro h
    obtain ⟨⟨needed, start, least⟩, hlead, h⟩ := Option.bind_eq_some_iff.1 h
    dsimp only at h
    split at h
    next => cases h
    next hlength =>
      obtain ⟨value, hcontinue, h⟩ := Option.bind_eq_some_iff.1 h
      split at h
      next => cases h
      next hvalid =>
        cases h
        rw [not_or, Bool.not_eq_false] at hvalid
        exact ⟨needed, start, least, hlead, by omega, hcontinue, by omega, hvalid.2, rfl⟩
  · rintro ⟨needed, start, least, hlead, hlength, hcontinue, hleast, hvalid, rfl⟩
    have hnot : ¬ (codepoint < least ∨ validCodepoint codepoint = false) := by
      simp [hvalid, hleast]
    simp [hlead, Nat.not_lt.2 hlength, hcontinue, hnot]

/-- A byte of a code, by its number. -/
theorem ofNat_eq_of_eq_toNat (byte : UInt8) {n : ℕ} (h : n = byte.toNat) :
    UInt8.ofNat n = byte := by
  rw [h, UInt8.ofNat_toNat]

theorem continues_ofNat {n : ℕ} (h : n < 64) : Continues (UInt8.ofNat (n + 0x80)) ∧
    (UInt8.ofNat (n + 0x80)).toNat = n + 0x80 := by
  have hn : (UInt8.ofNat (n + 0x80)).toNat = n + 0x80 := by
    rw [UInt8.toNat_ofNat', Nat.mod_eq_of_lt (by omega)]
  exact ⟨⟨by omega, by omega⟩, hn⟩

/-- What the decoder accepts is the shortest form. -/
theorem encodeUtf8_of_sequence {word : List UInt8} {codepoint bits : ℕ}
    (h : utf8Sequence word = some (codepoint, bits)) :
    ∃ code, encodeUtf8 codepoint = some code ∧ code <+: word ∧ bits = 8 * code.length := by
  cases word with
  | nil => cases h
  | cons first rest =>
    obtain ⟨needed, start, least, hlead, hlength, hcontinue, hleast, hvalid, rfl⟩ :=
      (utf8Sequence_cons first rest codepoint bits).1 h
    rw [encodeUtf8, if_pos ((validCodepoint_iff codepoint).1 hvalid),
      utf8EncodeChar_eq ((validCodepoint_iff codepoint).1 hvalid)]
    refine ⟨_, rfl, ?_⟩
    rw [utf8Lead_eq] at hlead
    split_ifs at hlead with h1 h2 h3 h4
    · cases hlead
      obtain rfl : first.toNat = codepoint := by simpa [utf8Continue] using hcontinue
      rw [if_pos h1, ofNat_eq_of_eq_toNat _ rfl]
      exact ⟨⟨rest, rfl⟩, rfl⟩
    · simp only [Option.some.injEq, Prod.mk.injEq] at hlead
      obtain ⟨rfl, rfl, rfl⟩ := hlead
      obtain ⟨b, rest, rfl⟩ := List.exists_cons_of_length_pos (l := rest) (by omega)
      simp only [List.take_succ_cons, List.take_zero, Nat.add_one_sub_one] at hcontinue
      obtain ⟨⟨hb, hb'⟩, hvalue⟩ := (utf8Continue_cons _ _ _ _).1 hcontinue
      rw [utf8Continue_nil, Option.some.injEq] at hvalue
      rw [if_neg (by omega), if_pos (by omega), ofNat_eq_of_eq_toNat first (by omega),
        ofNat_eq_of_eq_toNat b (by omega)]
      exact ⟨⟨rest, rfl⟩, rfl⟩
    · simp only [Option.some.injEq, Prod.mk.injEq] at hlead
      obtain ⟨rfl, rfl, rfl⟩ := hlead
      obtain ⟨b, rest, rfl⟩ := List.exists_cons_of_length_pos (l := rest) (by omega)
      obtain ⟨c, rest, rfl⟩ :=
        List.exists_cons_of_length_pos (l := rest) (by simp at hlength; omega)
      simp only [List.take_succ_cons, List.take_zero, Nat.add_one_sub_one] at hcontinue
      obtain ⟨⟨hb, hb'⟩, hcontinue⟩ := (utf8Continue_cons _ _ _ _).1 hcontinue
      obtain ⟨⟨hc, hc'⟩, hvalue⟩ := (utf8Continue_cons _ _ _ _).1 hcontinue
      rw [utf8Continue_nil, Option.some.injEq] at hvalue
      rw [if_neg (by omega), if_neg (by omega), if_pos (by omega),
        ofNat_eq_of_eq_toNat first (by omega),
        ofNat_eq_of_eq_toNat b (by omega), ofNat_eq_of_eq_toNat c (by omega)]
      exact ⟨⟨rest, rfl⟩, rfl⟩
    · simp only [Option.some.injEq, Prod.mk.injEq] at hlead
      obtain ⟨rfl, rfl, rfl⟩ := hlead
      obtain ⟨b, rest, rfl⟩ := List.exists_cons_of_length_pos (l := rest) (by omega)
      obtain ⟨c, rest, rfl⟩ :=
        List.exists_cons_of_length_pos (l := rest) (by simp at hlength; omega)
      obtain ⟨d, rest, rfl⟩ :=
        List.exists_cons_of_length_pos (l := rest) (by simp at hlength; omega)
      simp only [List.take_succ_cons, List.take_zero, Nat.add_one_sub_one] at hcontinue
      obtain ⟨⟨hb, hb'⟩, hcontinue⟩ := (utf8Continue_cons _ _ _ _).1 hcontinue
      obtain ⟨⟨hc, hc'⟩, hcontinue⟩ := (utf8Continue_cons _ _ _ _).1 hcontinue
      obtain ⟨⟨hd, hd'⟩, hvalue⟩ := (utf8Continue_cons _ _ _ _).1 hcontinue
      rw [utf8Continue_nil, Option.some.injEq] at hvalue
      rw [if_neg (by omega), if_neg (by omega), if_neg (by omega),
        ofNat_eq_of_eq_toNat first (by omega),
        ofNat_eq_of_eq_toNat b (by omega), ofNat_eq_of_eq_toNat c (by omega),
        ofNat_eq_of_eq_toNat d (by omega)]
      exact ⟨⟨rest, rfl⟩, rfl⟩

/-- The shortest form is accepted. -/
theorem utf8Sequence_encodeUtf8 {codepoint : ℕ} {code : List UInt8}
    (h : encodeUtf8 codepoint = some code) (rest : List UInt8) :
    utf8Sequence (code ++ rest) = some (codepoint, 8 * code.length) := by
  rw [encodeUtf8] at h
  split at h
  next hchar =>
    have hvalid := (validCodepoint_iff codepoint).2 hchar
    have hlt : codepoint < 0x110000 := by
      rcases hchar with hchar | hchar <;> omega
    have htoNat {n : ℕ} (hn : n < 256) : (UInt8.ofNat n).toNat = n := by
      rw [UInt8.toNat_ofNat', Nat.mod_eq_of_lt hn]
    rw [utf8EncodeChar_eq hchar] at h
    split_ifs at h with h1 h2 h3
    · obtain rfl := Option.some.inj h
      refine (utf8Sequence_cons _ _ _ _).2
        ⟨1, codepoint, 0, ?_, by omega, rfl, by omega, hvalid, rfl⟩
      rw [utf8Lead_eq, htoNat (by omega), if_pos h1]
    · obtain rfl := Option.some.inj h
      obtain ⟨hb, hb'⟩ := continues_ofNat (n := codepoint % 64) (by omega)
      simp only [List.cons_append, List.nil_append]
      refine (utf8Sequence_cons _ _ _ _).2
        ⟨2, codepoint / 64, 0x80, ?_, by simp, ?_, by omega, hvalid, rfl⟩
      · rw [utf8Lead_eq, htoNat (by omega), if_neg (by omega), if_pos (by omega)]
        simp
      · simp only [List.take_succ_cons, List.take_zero, Nat.add_one_sub_one]
        refine (utf8Continue_cons _ _ _ _).2 ⟨hb, ?_⟩
        rw [hb', utf8Continue_nil, Option.some.injEq]
        omega
    · obtain rfl := Option.some.inj h
      obtain ⟨hb, hb'⟩ := continues_ofNat (n := codepoint / 64 % 64) (by omega)
      obtain ⟨hc, hc'⟩ := continues_ofNat (n := codepoint % 64) (by omega)
      simp only [List.cons_append, List.nil_append]
      refine (utf8Sequence_cons _ _ _ _).2
        ⟨3, codepoint / 4096, 0x800, ?_, by simp, ?_, by omega, hvalid, rfl⟩
      · rw [utf8Lead_eq, htoNat (by omega), if_neg (by omega), if_neg (by omega),
          if_pos (by omega)]
        simp
      · simp only [List.take_succ_cons, List.take_zero, Nat.add_one_sub_one]
        refine (utf8Continue_cons _ _ _ _).2 ⟨hb, (utf8Continue_cons _ _ _ _).2 ⟨hc, ?_⟩⟩
        rw [hb', hc', utf8Continue_nil, Option.some.injEq]
        omega
    · obtain rfl := Option.some.inj h
      obtain ⟨hb, hb'⟩ := continues_ofNat (n := codepoint / 4096 % 64) (by omega)
      obtain ⟨hc, hc'⟩ := continues_ofNat (n := codepoint / 64 % 64) (by omega)
      obtain ⟨hd, hd'⟩ := continues_ofNat (n := codepoint % 64) (by omega)
      simp only [List.cons_append, List.nil_append]
      refine (utf8Sequence_cons _ _ _ _).2
        ⟨4, codepoint / 262144, 0x10000, ?_, by simp, ?_, by omega, hvalid, rfl⟩
      · rw [utf8Lead_eq, htoNat (by omega), if_neg (by omega), if_neg (by omega),
          if_neg (by omega), if_pos (by omega)]
        simp
      · simp only [List.take_succ_cons, List.take_zero, Nat.add_one_sub_one]
        refine (utf8Continue_cons _ _ _ _).2 ⟨hb, (utf8Continue_cons _ _ _ _).2 ⟨hc,
          (utf8Continue_cons _ _ _ _).2 ⟨hd, ?_⟩⟩⟩
        rw [hb', hc', hd', utf8Continue_nil, Option.some.injEq]
        omega
  next => cases h

theorem utf8_exact : PrefixCode.Exact (8 * ·.length) encodeUtf8 utf8Sequence := by
  intro word codepoint bits
  constructor
  · exact encodeUtf8_of_sequence
  · rintro ⟨code, hcode, ⟨rest, rfl⟩, rfl⟩
    exact utf8Sequence_encodeUtf8 hcode rest

end Utf8

/-! ## Code units -/

section Units

variable (endian : Endian)

@[simp] theorem length_valueBytes (length value : ℕ) :
    (valueBytes endian length value).length = length := by
  cases endian <;> simp [valueBytes]

theorem bytesValue_valueBytes {length value : ℕ} (h : value < 256 ^ length) :
    bytesValue endian (valueBytes endian length value) = value := by
  cases endian <;> simp [bytesValue, valueBytes, h]

theorem valueBytes_bytesValue (bytes : List UInt8) :
    valueBytes endian bytes.length (bytesValue endian bytes) = bytes := by
  cases endian <;> simp [bytesValue, valueBytes]

/-- A unit that the word starts with is written as it stands there. -/
theorem valueBytes_take {word : List UInt8} {length : ℕ} (h : length ≤ word.length) :
    valueBytes endian length (bytesValue endian (word.take length)) = word.take length := by
  have := valueBytes_bytesValue endian (word.take length)
  rwa [List.length_take, Nat.min_eq_left h] at this

theorem bytesValue_append (length value : ℕ) (h : value < 256 ^ length) (rest : List UInt8) :
    bytesValue endian ((valueBytes endian length value ++ rest).take length) = value := by
  rw [List.take_left' (length_valueBytes endian length value), bytesValue_valueBytes endian h]

/-- What `decode_utf16` finds at the start of a word. -/
def utf16Sequence (word : List UInt8) : Option (ℕ × ℕ) :=
  if word.length < 2 then none
  else
    let first := bytesValue endian (word.take 2)
    if 0xd800 ≤ first ∧ first ≤ 0xdbff then
      if word.length < 4 then none
      else utf16Surrogates first (bytesValue endian ((word.drop 2).take 2))
    else if 0xdc00 ≤ first ∧ first ≤ 0xdfff then none
    else some (first, 16)

/-- What `decode_utf32` finds at the start of a word. -/
def utf32Sequence (word : List UInt8) : Option (ℕ × ℕ) :=
  if word.length < 4 then none else utf32Codepoint endian (word.take 4)

theorem utf16Surrogates_eq_some {first second codepoint bits : ℕ} (h1 : 0xd800 ≤ first)
    (h2 : first ≤ 0xdbff) : utf16Surrogates first second = some (codepoint, bits) ↔
      (0xdc00 ≤ second ∧ second ≤ 0xdfff) ∧
        codepoint = 0x10000 + (first - 0xd800) * 1024 + (second - 0xdc00) ∧ bits = 32 := by
  rw [utf16Surrogates]
  by_cases hsecond : 0xdc00 ≤ second ∧ second ≤ 0xdfff
  · have hvalue : (first - 0xd800) <<< 10 ||| (second - 0xdc00) =
        (first - 0xd800) * 1024 + (second - 0xdc00) := by
      rw [← Nat.shiftLeft_add_eq_or_of_lt (by omega), Nat.shiftLeft_eq]
    have hvalid : validCodepoint (0x10000 + ((first - 0xd800) <<< 10 ||| (second - 0xdc00))) =
        true := by
      rw [hvalue, validCodepoint_iff]
      exact .inr ⟨by omega, by omega⟩
    rw [if_pos hsecond]
    simp only [hvalid, if_true, Option.some.injEq, Prod.mk.injEq, hsecond, true_and]
    rw [hvalue]
    omega
  · simp [hsecond]

theorem encodeUtf16_of_sequence {word : List UInt8} {codepoint bits : ℕ}
    (h : utf16Sequence endian word = some (codepoint, bits)) :
    ∃ code, encodeUtf16 endian codepoint = some code ∧ code <+: word ∧ bits = 8 * code.length := by
  simp only [utf16Sequence] at h
  have hlt (bytes : List UInt8) : bytesValue endian (bytes.take 2) < 2 ^ 16 := by
    refine (bytesValue_lt endian _).trans_le (Nat.pow_le_pow_right (by norm_num) ?_)
    rw [List.length_take]
    omega
  split_ifs at h with h2 hhigh h4 hlow
  · obtain ⟨hsecond, hcodepoint, hbits⟩ := (utf16Surrogates_eq_some hhigh.1 hhigh.2).1 h
    set first := bytesValue endian (word.take 2) with hfirst
    set second := bytesValue endian ((word.drop 2).take 2) with hseconddef
    have hunits : utf16Units codepoint = [first, second] := by
      have hhi : 0xd800 + (codepoint - 0x10000) / 2 ^ 10 = first := by omega
      have hlo : 0xdc00 + (codepoint - 0x10000) % 2 ^ 10 = second := by omega
      rw [utf16Units, if_neg (by omega), hhi, hlo]
    have hchar : codepoint.isValidChar := .inr ⟨by omega, by omega⟩
    have hdrop : 2 ≤ (word.drop 2).length := by
      rw [List.length_drop]
      omega
    refine ⟨word.take 4, ?_, List.take_prefix 4 word, ?_⟩
    · rw [encodeUtf16, if_pos hchar, hunits, List.flatMap_cons, List.flatMap_cons,
        List.flatMap_nil, List.append_nil, hfirst, hseconddef,
        valueBytes_take endian (by omega : 2 ≤ word.length), valueBytes_take endian hdrop,
        ← List.take_add]
    · rw [List.length_take]
      omega
  · simp only [Option.some.injEq, Prod.mk.injEq] at h
    obtain ⟨rfl, rfl⟩ := h
    have := hlt word
    have hunits : utf16Units (bytesValue endian (word.take 2)) =
        [bytesValue endian (word.take 2)] := if_pos (by omega)
    have hchar : (bytesValue endian (word.take 2)).isValidChar := by
      rw [Nat.isValidChar]
      omega
    refine ⟨word.take 2, ?_, List.take_prefix 2 word, ?_⟩
    · rw [encodeUtf16, if_pos hchar, hunits, List.flatMap_cons, List.flatMap_nil,
        List.append_nil, valueBytes_take endian (by omega : 2 ≤ word.length)]
    · rw [List.length_take]
      omega

theorem utf16Sequence_encodeUtf16 {codepoint : ℕ} {code : List UInt8}
    (h : encodeUtf16 endian codepoint = some code) (rest : List UInt8) :
    utf16Sequence endian (code ++ rest) = some (codepoint, 8 * code.length) := by
  rw [encodeUtf16] at h
  split at h
  next hchar =>
    obtain rfl := Option.some.inj h
    have hlt : codepoint < 0x110000 := by
      rcases hchar with hchar | hchar <;> omega
    by_cases hunit : codepoint < 0x10000
    · have hcode : (utf16Units codepoint).flatMap (valueBytes endian 2) =
          valueBytes endian 2 codepoint := by
        rw [utf16Units, if_pos hunit, List.flatMap_cons, List.flatMap_nil, List.append_nil]
      have hfirst := bytesValue_append endian 2 codepoint (by omega) rest
      have hhigh : ¬ (0xd800 ≤ codepoint ∧ codepoint ≤ 0xdbff) := by
        rcases hchar with hchar | hchar <;> omega
      have hlow : ¬ (0xdc00 ≤ codepoint ∧ codepoint ≤ 0xdfff) := by
        rcases hchar with hchar | hchar <;> omega
      rw [hcode]
      simp only [utf16Sequence, hfirst, length_valueBytes, List.length_append, hhigh, hlow,
        if_false]
      rw [if_neg (by omega)]
    · set first := 0xd800 + (codepoint - 0x10000) / 2 ^ 10 with hfirstdef
      set second := 0xdc00 + (codepoint - 0x10000) % 2 ^ 10 with hseconddef
      have hcode : (utf16Units codepoint).flatMap (valueBytes endian 2) =
          valueBytes endian 2 first ++ valueBytes endian 2 second := by
        rw [utf16Units, if_neg hunit, List.flatMap_cons, List.flatMap_cons, List.flatMap_nil,
          List.append_nil]
      have hfirst := bytesValue_append endian 2 first (by omega)
        (valueBytes endian 2 second ++ rest)
      have hsecond := bytesValue_append endian 2 second (by omega) rest
      have hdrop : (valueBytes endian 2 first ++ (valueBytes endian 2 second ++ rest)).drop 2 =
          valueBytes endian 2 second ++ rest :=
        List.drop_left' (length_valueBytes endian 2 first)
      rw [hcode, List.append_assoc]
      simp only [utf16Sequence, hfirst, hdrop, hsecond, List.length_append, length_valueBytes]
      rw [if_neg (by omega), if_pos ⟨by omega, by omega⟩, if_neg (by omega)]
      exact (utf16Surrogates_eq_some (by omega) (by omega)).2 ⟨⟨by omega, by omega⟩, by omega, rfl⟩
  next => cases h

theorem utf16_exact :
    PrefixCode.Exact (8 * ·.length) (encodeUtf16 endian) (utf16Sequence endian) := by
  intro word codepoint bits
  constructor
  · exact encodeUtf16_of_sequence endian
  · rintro ⟨code, hcode, ⟨rest, rfl⟩, rfl⟩
    exact utf16Sequence_encodeUtf16 endian hcode rest

theorem utf32_exact :
    PrefixCode.Exact (8 * ·.length) (encodeUtf32 endian) (utf32Sequence endian) := by
  intro word codepoint bits
  rw [utf32Sequence]
  constructor
  · intro h
    split_ifs at h with hlength
    rw [utf32Codepoint] at h
    split_ifs at h with hvalid
    simp only [Option.some.injEq, Prod.mk.injEq] at h
    obtain ⟨rfl, rfl⟩ := h
    refine ⟨word.take 4, ?_, List.take_prefix 4 word, ?_⟩
    · rw [encodeUtf32, if_pos hvalid, valueBytes_take endian (by omega : 4 ≤ word.length)]
    · simp only [List.length_take]
      omega
  · rintro ⟨code, hcode, ⟨rest, rfl⟩, rfl⟩
    rw [encodeUtf32] at hcode
    split_ifs at hcode with hvalid
    obtain rfl := Option.some.inj hcode
    have hlt : codepoint < 256 ^ 4 := by
      rcases (validCodepoint_iff codepoint).1 hvalid with h | h <;> omega
    rw [if_neg (by simp), utf32Codepoint, bytesValue_append endian _ _ hlt, if_pos hvalid]
    simp only [length_valueBytes]

/-- What the decoder of an encoding finds at the start of a word. -/
def utfSequence : Utf → List UInt8 → Option (ℕ × ℕ)
  | .utf8 => utf8Sequence
  | .utf16 => utf16Sequence endian
  | .utf32 => utf32Sequence endian

theorem utf_exact (utf : Utf) :
    PrefixCode.Exact (8 * ·.length) (encodeUtf endian utf) (utfSequence endian utf) := by
  cases utf with
  | utf8 => exact utf8_exact
  | utf16 => exact utf16_exact endian
  | utf32 => exact utf32_exact endian

end Units

/-! ## At a byte boundary -/

/-- The context stands at a byte of its binary. -/
structure AtByte (context : MatchContext) (memory : Memory) (bytes : List UInt8) (offset : ℕ) :
    Prop where
  position : context.positionBits = 8 * offset
  total : context.totalBits = 8 * bytes.length
  source : context.source memory = some bytes
  inside : offset ≤ bytes.length

section AtByte

variable {context : MatchContext} {memory : Memory} {bytes : List UInt8} {offset : ℕ}

theorem AtByte.hasBits (h : AtByte context memory bytes offset) (k : ℕ) :
    context.hasBits (8 * k) = decide (k ≤ (bytes.drop offset).length) := by
  have := h.inside
  rw [MatchContext.hasBits, h.position, h.total, List.length_drop, decide_eq_decide]
  omega

theorem AtByte.slice (h : AtByte context memory bytes offset) {k : ℕ}
    (hk : k ≤ (bytes.drop offset).length) :
    context.slice memory (8 * k) = some ((bytes.drop offset).take k) := by
  have hinside := h.inside
  rw [List.length_drop] at hk
  have haligned : ¬ (8 * k % 8 ≠ 0 ∨ 8 * offset % 8 ≠ 0) := by omega
  rw [MatchContext.slice, h.position, if_neg haligned, h.source]
  have hstart : 8 * offset / 8 = offset := by omega
  have hlen : 8 * k / 8 = k := by omega
  simp only [hstart, hlen, Option.bind_some, bind]
  exact if_pos (by omega)

theorem AtByte.readU16 (h : AtByte context memory bytes offset) (byteOffset : ℕ)
    (endian : Endian) : context.readU16 memory byteOffset endian =
      .ok (if byteOffset + 2 ≤ (bytes.drop offset).length then
        some (bytesValue endian (((bytes.drop offset).drop byteOffset).take 2)) else none) := by
  have haligned : ¬ 8 * offset % 8 ≠ 0 := by omega
  rw [MatchContext.readU16, h.position, if_neg haligned, Nat.mul_comm _ 8, h.hasBits]
  by_cases hfit : byteOffset + 2 ≤ (bytes.drop offset).length
  · rw [h.slice hfit]
    simp only [hfit, decide_true, if_true, Bool.true_eq_false, if_false]
    rw [List.drop_take, Nat.add_sub_cancel_left, List.take_take, Nat.min_self]
  · simp only [hfit, decide_false, if_true, if_false]

/-- At a byte boundary the decoder looks at the rest of the binary. -/
theorem AtByte.decodeUtf (h : AtByte context memory bytes offset) (endian : Endian) (utf : Utf) :
    decodeUtf context memory endian utf = .ok (utfSequence endian utf (bytes.drop offset)) := by
  have haligned : ¬ 8 * offset % 8 ≠ 0 := by omega
  cases utf with
  | utf8 =>
    have hremaining : context.remainingBits = 8 * (bytes.drop offset).length := by
      have := h.inside
      rw [MatchContext.remainingBits, h.position, h.total, List.length_drop]
      omega
    rw [Interpreter.decodeUtf, decodeUtf8, h.position, if_neg haligned, hremaining,
      h.slice le_rfl, List.take_length]
    rfl
  | utf16 =>
    rw [Interpreter.decodeUtf, decodeUtf16, h.readU16, h.readU16, utfSequence, utf16Sequence]
    by_cases hone : 2 ≤ (bytes.drop offset).length
    · by_cases htwo : 4 ≤ (bytes.drop offset).length
      · simp only [Nat.zero_add, hone, htwo, if_true, Nat.not_lt.2 hone, Nat.not_lt.2 htwo,
          if_false, List.drop_zero, Nat.reduceAdd]
        change (if _ then _ else _) = _
        split_ifs <;> rfl
      · simp only [Nat.zero_add, hone, htwo, if_true, Nat.not_lt.2 hone, Nat.lt_of_not_le htwo,
          if_false, List.drop_zero, Nat.reduceAdd]
        change (if _ then _ else _) = _
        split_ifs <;> rfl
    · simp only [Nat.zero_add, hone, if_false, Nat.lt_of_not_le hone, if_true]
      rfl
  | utf32 =>
    rw [Interpreter.decodeUtf, decodeUtf32, h.position, utfSequence, utf32Sequence]
    have hbits := h.hasBits 4
    by_cases hfit : 4 ≤ (bytes.drop offset).length
    · have hslice := h.slice hfit
      simp only [hfit, decide_true, Nat.reduceMul] at hbits hslice
      rw [if_neg (by simp [hbits]), hslice, if_neg (Nat.not_lt.2 hfit)]
    · simp only [hfit, decide_false, Nat.reduceMul] at hbits
      rw [if_pos (.inr hbits), if_pos (Nat.lt_of_not_le hfit)]

end AtByte

/-! ## Instructions -/

/-- `bs_get_utf8`, `bs_get_utf16` and `bs_get_utf32`. -/
def bsGetUtf (utf : Utf) (module : BinaryModule) (process : BinaryProcess)
    (operands : List Operand) : Except ExecError (Branch × BinaryProcess) := do
  let get ← parseUtfGetOperands operands utf.operandsName
  let (word, context) ← readContext module process get.context
  match ← decodeUtf context process.memory (.fromFlags get.flags) utf with
  | some (codepoint, bits) => do
    let term ← readSmallInt codepoint
    let registers ← writeTerm process.registers term get.destination
    .ok (.next, setPositionBits { process with registers := registers } word context
      (context.positionBits + bits))
  | none => jumpLabel process get.fail

/-- The instruction reads a context that stands at a byte of a binary, and its destination is a
register. -/
structure ReadsUtf (utf : Utf) (module : BinaryModule) (process : BinaryProcess)
    (operands : List Operand) (get : UtfOperands) (word : Word) (context : MatchContext)
    (bytes : List UInt8) (offset : ℕ) : Prop where
  parse : parseUtfGetOperands operands utf.operandsName = .ok get
  found : readContext module process get.context = .ok (word, context)
  atByte : AtByte context process.memory bytes offset
  writable : Writable process.registers.y.length get.destination

/-- What an instruction that finds a codepoint does. -/
structure WritesUtf (module : BinaryModule) (process next : BinaryProcess) (get : UtfOperands)
    (word : Word) (context : MatchContext) (codepoint bits : ℕ) : Prop where
  written : ∃ term, writeTerm process.registers term get.destination = .ok next.registers ∧
    ∀ memory, Native.integerOf memory term = some codepoint
  memory : next.memory = process.memory
  contexts : next.contexts = Function.update process.contexts word
    (some { context with positionBits := context.positionBits + bits })

/-- The instruction again and again, with the codepoints it writes. -/
inductive GetsUtf (utf : Utf) (module : BinaryModule) (operands : List Operand) :
    BinaryProcess → List ℕ → BinaryProcess → Prop
  | nil (process : BinaryProcess) : GetsUtf utf module operands process [] process
  | cons {process next last : BinaryProcess} {get : UtfOperands} {term : Word} {codepoint : ℕ}
      {codepoints : List ℕ}
      (hparse : parseUtfGetOperands operands utf.operandsName = .ok get)
      (hstep : bsGetUtf utf module process operands = .ok (.next, next))
      (hterm : readTerm next.registers module.constantPool get.destination = .ok term)
      (hvalue : Native.integerOf next.memory term = some codepoint)
      (hrest : GetsUtf utf module operands next codepoints last) :
      GetsUtf utf module operands process (codepoint :: codepoints) last

section Instructions

variable {utf : Utf} {module : BinaryModule} {process : BinaryProcess} {operands : List Operand}
  {get : UtfOperands} {word : Word} {context : MatchContext} {bytes : List UInt8} {offset : ℕ}

theorem encodeUtf_isSome_iff (endian : Endian) (utf : Utf) (codepoint : ℕ) :
    (encodeUtf endian utf codepoint).isSome ↔ codepoint.isValidChar := by
  cases utf with
  | utf8 => simp [encodeUtf, encodeUtf8]
  | utf16 => simp [encodeUtf, encodeUtf16]
  | utf32 => simp [encodeUtf, encodeUtf32, validCodepoint_iff]

theorem encodeUtf_char {endian : Endian} {utf : Utf} {codepoint : ℕ} {code : List UInt8}
    (h : encodeUtf endian utf codepoint = some code) : codepoint < 0x110000 := by
  have hchar := (encodeUtf_isSome_iff endian utf codepoint).1 (by simp [h])
  rcases hchar with hchar | hchar <;> omega

theorem bsGetUtf_found (h : ReadsUtf utf module process operands get word context bytes offset)
    {codepoint : ℕ} {code : List UInt8}
    (hencode : encodeUtf (.fromFlags get.flags) utf codepoint = some code)
    (hcode : code <+: bytes.drop offset) : ∃ next,
      bsGetUtf utf module process operands = .ok (.next, next) ∧
        WritesUtf module process next get word context codepoint (8 * code.length) := by
  have hfound : utfSequence (.fromFlags get.flags) utf (bytes.drop offset) =
      some (codepoint, 8 * code.length) :=
    (utf_exact (.fromFlags get.flags) utf _ _ _).2 ⟨code, hencode, hcode, rfl⟩
  have hlt := encodeUtf_char hencode
  obtain ⟨term, hterm⟩ : ∃ term, readSmallInt codepoint = .ok term := by
    rw [readSmallInt, trySmallInt, dif_pos (by omega)]
    exact ⟨_, rfl⟩
  obtain ⟨registers, hwrite⟩ := writeTerm_writable h.writable term
  refine ⟨setPositionBits { process with registers := registers } word context
    (context.positionBits + 8 * code.length), ?_,
    ⟨⟨term, hwrite, integerOf_readSmallInt hterm⟩, rfl, rfl⟩⟩
  rw [bsGetUtf, h.parse, except_ok_bind, h.found, except_ok_bind]
  dsimp only
  rw [h.atByte.decodeUtf, except_ok_bind, hfound]
  dsimp only
  rw [hterm, except_ok_bind, hwrite, except_ok_bind]

theorem bsGetUtf_none (h : ReadsUtf utf module process operands get word context bytes offset)
    (hnone : ∀ codepoint code, encodeUtf (.fromFlags get.flags) utf codepoint = some code →
      ¬ code <+: bytes.drop offset) :
    bsGetUtf utf module process operands = jumpLabel process get.fail := by
  have hfound : utfSequence (.fromFlags get.flags) utf (bytes.drop offset) = none := by
    cases hsequence : utfSequence (.fromFlags get.flags) utf (bytes.drop offset) with
    | none => rfl
    | some found =>
      obtain ⟨code, hencode, hcode, -⟩ :=
        (utf_exact (.fromFlags get.flags) utf _ found.1 found.2).1 hsequence
      exact absurd hcode (hnone _ _ hencode)
  rw [bsGetUtf, h.parse, except_ok_bind, h.found, except_ok_bind]
  dsimp only
  rw [h.atByte.decodeUtf, except_ok_bind, hfound]

theorem jumpLabel_ok {fail : Operand} {branch : Branch} {next : BinaryProcess}
    (h : jumpLabel process fail = .ok (branch, next)) : branch = .fail ∧ next = process := by
  rw [jumpLabel] at h
  obtain ⟨label, -, h⟩ := except_bind_ok_iff.1 h
  cases h
  exact ⟨rfl, rfl⟩

/-- The instruction stands behind what it has read. -/
theorem ReadsUtf.next (h : ReadsUtf utf module process operands get word context bytes offset)
    (hapart : registerOf get.context ≠ registerOf get.destination) {next : BinaryProcess}
    {codepoint : ℕ} {code : List UInt8} (hcode : code <+: bytes.drop offset)
    (hwrites : WritesUtf module process next get word context codepoint (8 * code.length)) :
    ReadsUtf utf module next operands get word
      { context with positionBits := context.positionBits + 8 * code.length } bytes
      (offset + code.length) := by
  obtain ⟨⟨term, hwrite, -⟩, hmemory, hcontexts⟩ := hwrites
  have hinside := hcode.length_le
  rw [List.length_drop] at hinside
  have hoffset := h.atByte.inside
  refine ⟨h.parse, ?_, ⟨?_, h.atByte.total, ?_, by omega⟩, ?_⟩
  · obtain ⟨found, hfound, hheld⟩ := except_bind_ok_iff.1 h.found
    have hsame : found = word := by
      split at hheld
      · exact (Prod.mk.inj (Except.ok.inj hheld)).1
      · cases hheld
    rw [readContext, readTerm_frame hwrite hapart, hfound, except_ok_bind, hcontexts, hsame,
      Function.update_self]
  · change context.positionBits + 8 * code.length = 8 * (offset + code.length)
    rw [h.atByte.position, Nat.mul_add]
  · rw [hmemory]
    exact h.atByte.source
  · rw [(writeTerm_registers hwrite).1]
    exact h.writable

/-- Codepoints that were written one after the other are read one after the other. -/
theorem getsUtf_encodeAll (codepoints : List ℕ) {encoded : List UInt8}
    (hencode : PrefixCode.encodeAll (encodeUtf (.fromFlags get.flags) utf) codepoints =
      some encoded) (hapart : registerOf get.context ≠ registerOf get.destination)
    (h : ReadsUtf utf module process operands get word context bytes offset)
    (hbytes : encoded <+: bytes.drop offset) : ∃ last,
      GetsUtf utf module operands process codepoints last ∧ last.contexts word =
        some { context with positionBits := context.positionBits + 8 * encoded.length } := by
  induction codepoints generalizing process context offset encoded with
  | nil =>
    cases hencode
    refine ⟨process, .nil process, ?_⟩
    obtain ⟨found, -, hheld⟩ := except_bind_ok_iff.1 h.found
    split at hheld
    next held hheldContext =>
      cases hheld
      exact hheldContext
    next => cases hheld
  | cons codepoint codepoints ih =>
    obtain ⟨code, later, hcodepoint, hlater, rfl⟩ := PrefixCode.encodeAll_cons_eq_some hencode
    have hcode : code <+: bytes.drop offset := (List.prefix_append code later).trans hbytes
    obtain ⟨next, hstep, hwrites⟩ := bsGetUtf_found h hcodepoint hcode
    have hrest : later <+: bytes.drop (offset + code.length) := by
      obtain ⟨tail, htail⟩ := hbytes
      rw [← List.drop_drop, ← htail, List.append_assoc, List.drop_left]
      exact List.prefix_append later tail
    obtain ⟨last, hlast, hcontexts⟩ := ih hlater (h.next hapart hcode hwrites) hrest
    obtain ⟨term, hwrite, hvalue⟩ := hwrites.written
    refine ⟨last, .cons h.parse hstep (readTerm_written hwrite) (hvalue _) hlast, ?_⟩
    rw [hcontexts, List.length_append, Nat.mul_add, Nat.add_assoc]

end Instructions

/-! ## What is written -/

section Writers

variable {endian : Endian} {utf : Utf}

/-- The builder has the bytes, up to where it stands. -/
structure JitBinaryBuilder.HasWritten (builder : JitBinaryBuilder) (written : List UInt8) :
    Prop where
  position : builder.writePositionBits = 8 * written.length
  bytes : written <+: builder.bytes

theorem JitBinaryBuilder.putUtf_hasWritten {builder : JitBinaryBuilder} {written code : List UInt8}
    {codepoint : ℕ} (h : builder.HasWritten written)
    (hencode : encodeUtf endian utf codepoint = some code)
    (hroom : (written ++ code).length ≤ builder.bytes.length) : ∃ next,
      builder.putUtf (encodeUtf endian utf) codepoint = some next ∧
        next.HasWritten (written ++ code) ∧ next.bytes.length = builder.bytes.length := by
  obtain ⟨hposition, tail, htail⟩ := h
  have hchar := (encodeUtf_isSome_iff endian utf codepoint).1 (by simp [hencode])
  have hlt := encodeUtf_char hencode
  have hvalid := (validCodepoint_iff codepoint).2 hchar
  rw [List.length_append] at hroom
  have hguard : 0 ≤ (codepoint : ℤ) ∧ (codepoint : ℤ) < 2 ^ 32 ∧
      validCodepoint (codepoint : ℤ).toNat = true := ⟨by omega, by omega, hvalid⟩
  have hstart : builder.writePositionBits / 8 = written.length := by omega
  have hfits : ¬ (builder.writePositionBits % 8 ≠ 0 ∨
      builder.canAppend (code.length * 8) = false) := by
    rw [JitBinaryBuilder.canAppend, hposition, decide_eq_false_iff_not]
    omega
  have htake : builder.bytes.take written.length = written := by
    rw [← htail, List.take_left]
  refine ⟨{ builder.writeBytes written.length code with
    writePositionBits := builder.writePositionBits + code.length * 8 }, ?_, ⟨?_, ?_⟩, ?_⟩
  · rw [JitBinaryBuilder.putUtf, if_pos hguard, Int.toNat_natCast, hencode]
    change (if _ then _ else _) = _
    rw [if_neg hfits, hstart]
  · change builder.writePositionBits + code.length * 8 = 8 * (written ++ code).length
    rw [hposition, List.length_append]
    omega
  · change written ++ code <+: builder.bytes.take written.length ++ code ++ _
    rw [htake]
    exact List.prefix_append _ _
  · change (builder.bytes.take written.length ++ code ++
      builder.bytes.drop (written.length + code.length)).length = _
    rw [htake, List.length_append, List.length_append, List.length_drop]
    omega

theorem putUtfs_hasWritten (codepoints : List ℕ) {builder : JitBinaryBuilder}
    {written encoded : List UInt8} (h : builder.HasWritten written)
    (hencode : PrefixCode.encodeAll (encodeUtf endian utf) codepoints = some encoded)
    (hroom : (written ++ encoded).length ≤ builder.bytes.length) : ∃ last,
      putUtfs endian utf codepoints builder = some last ∧ last.HasWritten (written ++ encoded) ∧
        last.bytes.length = builder.bytes.length := by
  induction codepoints generalizing builder written encoded with
  | nil =>
    cases hencode
    exact ⟨builder, rfl, by rwa [List.append_nil], rfl⟩
  | cons codepoint codepoints ih =>
    obtain ⟨code, later, hcodepoint, hlater, rfl⟩ := PrefixCode.encodeAll_cons_eq_some hencode
    rw [← List.append_assoc] at hroom ⊢
    obtain ⟨next, hnext, hwritten, hlength⟩ := JitBinaryBuilder.putUtf_hasWritten h hcodepoint
      ((List.prefix_append (written ++ code) later).length_le.trans hroom)
    obtain ⟨last, hlast, hall, hlength'⟩ := ih hwritten hlater (hlength ▸ hroom)
    refine ⟨last, ?_, hall, hlength'.trans hlength⟩
    rw [putUtfs, hnext]
    exact hlast

/-- Compiled code that puts codepoints into a builder with room for them makes the binary of their
codes. -/
theorem putUtfs_finish (codepoints : List ℕ) {encoded : List UInt8} {capacity : ℕ}
    (hencode : PrefixCode.encodeAll (encodeUtf endian utf) codepoints = some encoded)
    (hroom : encoded.length ≤ capacity) :
    (putUtfs endian utf codepoints (.init capacity)).bind (·.finish) = some encoded := by
  have hinit : (JitBinaryBuilder.init capacity).HasWritten [] := ⟨rfl, List.nil_prefix⟩
  have hlength : (JitBinaryBuilder.init capacity).bytes.length = capacity :=
    List.length_replicate
  obtain ⟨last, hlast, ⟨hposition, tail, htail⟩, hcapacity⟩ :=
    putUtfs_hasWritten codepoints hinit hencode (by rwa [List.nil_append, hlength])
  rw [List.nil_append] at hposition htail
  have hstart : last.writePositionBits / 8 = encoded.length := by omega
  rw [hlast, Option.bind_some, JitBinaryBuilder.finish, if_neg (by omega), hstart,
    if_neg (by omega), ← htail, List.take_left]

end Writers

/-- At every byte of every binary, `bs_get_utf8`, `bs_get_utf16` and `bs_get_utf32` read a codepoint
just when its code stands there, which every codepoint but the surrogates has: then they write it
and stand behind the code, and else nothing has moved. So they read one after the other the
codepoints of codes that were written one after the other, up to the end of the binary. -/
theorem unicode_exact (utf : Utf) (module : BinaryModule) (process : BinaryProcess)
    (operands : List Operand) (get : UtfOperands) (word : Word) (context : MatchContext)
    (bytes : List UInt8) (offset : ℕ)
    (h : ReadsUtf utf module process operands get word context bytes offset) :
    (∀ codepoint, (encodeUtf (.fromFlags get.flags) utf codepoint).isSome ↔
      codepoint.isValidChar) ∧
    ((∃ next, bsGetUtf utf module process operands = .ok (.next, next)) ↔
      ∃ codepoint code, encodeUtf (.fromFlags get.flags) utf codepoint = some code ∧
        code <+: bytes.drop offset) ∧
    (∀ codepoint code, encodeUtf (.fromFlags get.flags) utf codepoint = some code →
      code <+: bytes.drop offset → ∃ next,
        bsGetUtf utf module process operands = .ok (.next, next) ∧
          WritesUtf module process next get word context codepoint (8 * code.length)) ∧
    (∀ next, bsGetUtf utf module process operands = .ok (.fail, next) → next = process) ∧
    ∀ codepoints encoded,
      PrefixCode.encodeAll (encodeUtf (.fromFlags get.flags) utf) codepoints = some encoded →
      (∀ capacity, encoded.length ≤ capacity →
        (putUtfs (.fromFlags get.flags) utf codepoints (.init capacity)).bind (·.finish) =
          some encoded) ∧
      (bytes.drop offset = encoded → registerOf get.context ≠ registerOf get.destination →
        ∃ last, GetsUtf utf module operands process codepoints last ∧
          last.contexts word = some { context with positionBits := context.totalBits }) := by
  have hnone : ¬ (∃ codepoint code, encodeUtf (.fromFlags get.flags) utf codepoint = some code ∧
      code <+: bytes.drop offset) →
      bsGetUtf utf module process operands = jumpLabel process get.fail := fun hnot =>
    bsGetUtf_none h fun codepoint code hencode hcode => hnot ⟨codepoint, code, hencode, hcode⟩
  refine ⟨encodeUtf_isSome_iff _ utf, ⟨fun ⟨next, hnext⟩ => ?_, ?_⟩,
    fun _ _ hencode hcode => bsGetUtf_found h hencode hcode, fun next hnext => ?_,
    fun codepoints encoded hencode =>
      ⟨fun capacity hroom => putUtfs_finish codepoints hencode hroom,
      fun hbytes hapart => ?_⟩⟩
  · by_contra hnot
    rw [hnone hnot] at hnext
    cases (jumpLabel_ok hnext).1
  · rintro ⟨codepoint, code, hencode, hcode⟩
    obtain ⟨next, hnext, -⟩ := bsGetUtf_found h hencode hcode
    exact ⟨next, hnext⟩
  · by_cases hfound : ∃ codepoint code,
        encodeUtf (.fromFlags get.flags) utf codepoint = some code ∧ code <+: bytes.drop offset
    · obtain ⟨codepoint, code, hencode, hcode⟩ := hfound
      obtain ⟨_, hfound, -⟩ := bsGetUtf_found h hencode hcode
      rw [hfound] at hnext
      cases hnext
    · rw [hnone hfound] at hnext
      exact (jumpLabel_ok hnext).2
  · obtain ⟨last, hlast, hcontexts⟩ := getsUtf_encodeAll codepoints hencode hapart h
      (hbytes ▸ List.prefix_rfl)
    refine ⟨last, hlast, ?_⟩
    have hlength : encoded.length = bytes.length - offset := by
      rw [← hbytes, List.length_drop]
    have hinside := h.atByte.inside
    rw [hcontexts, h.atByte.position, h.atByte.total, hlength, ← Nat.mul_add,
      Nat.add_sub_cancel' hinside]

/-- The letter A and then an e with an acute accent, in UTF-8. -/
def accentMemory : Memory where
  object w :=
    if w = 12 then .binary (.inline [0x41, 0xc3, 0xa9]) else .other (UInt64.ofBitVec w)
  boxed w := by split_ifs <;> simp [Value.Complete]
  other w raw := by split_ifs <;> simp_all

def accentProcess : BinaryProcess where
  registers := ⟨fun _ => 20, []⟩
  memory := accentMemory
  contexts w := if w = 20 then some ⟨8, 24, 12⟩ else none

theorem unicode_exact_accent : ∃ last,
    GetsUtf .utf8 sampleModule [.label 1, .x 2, .unsigned 0, .x 3] accentProcess [0xe9] last ∧
      last.contexts 20 = some ⟨24, 24, 12⟩ := by
  have hreads : ReadsUtf .utf8 sampleModule accentProcess [.label 1, .x 2, .unsigned 0, .x 3]
      ⟨.label 1, .x 2, .unsigned 0, .x 3⟩ 20 ⟨8, 24, 12⟩ [0x41, 0xc3, 0xa9] 1 :=
    ⟨rfl, rfl, ⟨rfl, rfl, rfl, by decide⟩, show 3 < xRegisterCount by decide⟩
  have hencode : PrefixCode.encodeAll (encodeUtf .big .utf8) [0xe9] = some [0xc3, 0xa9] := by
    decide
  obtain ⟨-, -, -, -, hall⟩ := unicode_exact _ _ _ _ _ _ _ _ _ hreads
  exact (hall [0xe9] [0xc3, 0xa9] hencode).2 rfl (by decide)

end Beamr.Interpreter
