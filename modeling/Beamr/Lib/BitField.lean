import Beamr.Lib.ByteOrder

/-!
# Bit fields of byte strings

Bits are counted from the most significant bit of the first byte. A byte string is
looked at through its big-endian value: appending bits is a shift and an addition, and
the field at a position is a quotient and a remainder. Lists of bits appear only in
what is said about the result.
-/
namespace Beamr.BitField

open ByteOrder

/-! ## Bits -/

/-- The `n` low bits of `v`, most significant first. -/
def msbBits : ℕ → ℕ → List Bool
  | 0, _ => []
  | n + 1, v => v.testBit n :: msbBits n v

/-- The bits of a byte string. -/
def bytesBits (bytes : List UInt8) : List Bool := bytes.flatMap fun b => msbBits 8 b.toNat

theorem msbBits_add (m n a : ℕ) {b : ℕ} (hb : b < 2 ^ n) :
    msbBits (m + n) (a * 2 ^ n + b) = msbBits m a ++ msbBits n b := by
  have hlow : ∀ k ≤ n, msbBits k (a * 2 ^ n + b) = msbBits k b := by
    intro k hk
    induction k with
    | zero => rfl
    | succ k ih =>
      rw [msbBits, msbBits, ih (by omega), Nat.mul_comm, Nat.testBit_two_pow_mul_add a hb,
        if_pos (by omega)]
  induction m with
  | zero => simpa [msbBits] using hlow n le_rfl
  | succ m ih =>
    rw [Nat.add_right_comm, msbBits, ih, Nat.mul_comm,
      Nat.testBit_two_pow_mul_add a hb, if_neg (by omega), Nat.add_sub_cancel]
    rfl

theorem bytesBits_eq (bytes : List UInt8) :
    bytesBits bytes = msbBits (8 * bytes.length) (beNat bytes) := by
  induction bytes using List.reverseRecOn with
  | nil => rfl
  | append_singleton bytes b ih =>
    have hb : b.toNat < 2 ^ 8 := b.toNat_lt
    have hone : beNat [b] = b.toNat := by simp [beNat, leNat]
    have hval : beNat (bytes ++ [b]) = beNat bytes * 2 ^ 8 + b.toNat := by
      rw [beNat_append, hone, List.length_singleton]
      ring
    rw [hval, List.length_append, List.length_singleton, Nat.mul_add, Nat.mul_one,
      msbBits_add _ _ _ hb, ← ih]
    simp [bytesBits]

theorem msbBits_length (n v : ℕ) : (msbBits n v).length = n := by
  induction n with
  | zero => rfl
  | succ n ih => rw [msbBits, List.length_cons, ih]

theorem msbBits_injective {n a b : ℕ} (ha : a < 2 ^ n) (hb : b < 2 ^ n)
    (h : msbBits n a = msbBits n b) : a = b := by
  have hlow : ∀ k, msbBits k a = msbBits k b → ∀ i < k, a.testBit i = b.testBit i := by
    intro k
    induction k with
    | zero => exact fun _ i hi => absurd hi (by omega)
    | succ k ih =>
      intro hk i hi
      obtain ⟨hhead, htail⟩ := List.cons.inj hk
      rcases Nat.lt_succ_iff_lt_or_eq.mp hi with hlt | rfl
      · exact ih htail i hlt
      · exact hhead
  refine Nat.eq_of_testBit_eq fun i => ?_
  rcases Nat.lt_or_ge i n with hi | hi
  · exact hlow n h i hi
  · have hpow : 2 ^ n ≤ 2 ^ i := Nat.pow_le_pow_right (by norm_num) hi
    rw [Nat.testBit_lt_two_pow (by omega), Nat.testBit_lt_two_pow (by omega)]

/-- A byte string is known by its bits. -/
theorem bytesBits_injective : Function.Injective bytesBits := by
  intro xs ys h
  rw [bytesBits_eq, bytesBits_eq] at h
  have hlen : xs.length = ys.length := by
    have hcount := congrArg List.length h
    rw [msbBits_length, msbBits_length] at hcount
    omega
  have hx := beNat_lt xs
  have hy := beNat_lt ys
  rw [pow_256] at hx hy
  rw [hlen] at h hx
  have hval := msbBits_injective hx hy h
  rw [← beBytes_beNat xs, ← beBytes_beNat ys, hlen, hval]

/-! ## Packing fields -/

/-- Bits of a list of fields, each a width and a value. -/
def totalBits (fields : List (ℕ × ℕ)) : ℕ := (fields.map Prod.fst).sum

/-- The fields one after the other, the first one highest. -/
def packed : List (ℕ × ℕ) → ℕ
  | [] => 0
  | (_, value) :: fields => value * 2 ^ totalBits fields + packed fields

@[simp] theorem totalBits_nil : totalBits [] = 0 := rfl

@[simp] theorem totalBits_cons (field : ℕ × ℕ) (fields : List (ℕ × ℕ)) :
    totalBits (field :: fields) = field.1 + totalBits fields := by
  simp [totalBits]

theorem packed_lt {fields : List (ℕ × ℕ)} (h : ∀ f ∈ fields, f.2 < 2 ^ f.1) :
    packed fields < 2 ^ totalBits fields := by
  induction fields with
  | nil => simp [packed]
  | cons f fields ih =>
    obtain ⟨size, value⟩ := f
    have hvalue : value + 1 ≤ 2 ^ size := h (size, value) (by simp)
    have hrest := ih fun g hg => h g (by simp [hg])
    rw [packed, totalBits_cons, pow_add]
    calc value * 2 ^ totalBits fields + packed fields
        < (value + 1) * 2 ^ totalBits fields := by linarith
      _ ≤ 2 ^ size * 2 ^ totalBits fields := Nat.mul_le_mul_right _ hvalue

theorem msbBits_packed {fields : List (ℕ × ℕ)} (h : ∀ f ∈ fields, f.2 < 2 ^ f.1) :
    msbBits (totalBits fields) (packed fields) = fields.flatMap fun f => msbBits f.1 f.2 := by
  induction fields with
  | nil => rfl
  | cons f fields ih =>
    obtain ⟨size, value⟩ := f
    have hall : ∀ g ∈ fields, g.2 < 2 ^ g.1 := fun g hg => h g (by simp [hg])
    rw [packed, totalBits_cons, msbBits_add _ _ _ (packed_lt hall), ih hall]
    rfl

/-! ## Reading fields -/

/-- The `size` bits at position `pos`. -/
def fieldAt (bytes : List UInt8) (pos size : ℕ) : ℕ :=
  beNat bytes / 2 ^ (8 * bytes.length - (pos + size)) % 2 ^ size

theorem fieldAt_lt (bytes : List UInt8) (pos size : ℕ) : fieldAt bytes pos size < 2 ^ size :=
  Nat.mod_lt _ (by positivity)

/-- Bits of a byte string below a position. -/
def tailValue (bytes : List UInt8) (pos : ℕ) : ℕ := beNat bytes % 2 ^ (8 * bytes.length - pos)

theorem tailValue_zero (bytes : List UInt8) : tailValue bytes 0 = beNat bytes := by
  have hlt := beNat_lt bytes
  rw [tailValue, Nat.sub_zero, pow_mul]
  exact Nat.mod_eq_of_lt hlt

/-- The first field of a packed tail is read at the position of the tail, and the other fields
are the tail behind it. -/
theorem fieldAt_of_tail {bytes : List UInt8} {pos size value : ℕ} {fields : List (ℕ × ℕ)}
    (htail : tailValue bytes pos = packed ((size, value) :: fields))
    (hpos : pos + totalBits ((size, value) :: fields) = 8 * bytes.length)
    (hfields : ∀ f ∈ fields, f.2 < 2 ^ f.1) :
    fieldAt bytes pos size = value ∧ tailValue bytes (pos + size) = packed fields := by
  have hlt := packed_lt hfields
  rw [totalBits_cons] at hpos
  have hrem : 8 * bytes.length - pos = size + totalBits fields := by omega
  have hrest : 8 * bytes.length - (pos + size) = totalBits fields := by omega
  rw [tailValue, hrem, packed] at htail
  constructor
  · rw [fieldAt, hrest, ← Nat.mod_mul_right_div_self, ← pow_add, Nat.add_comm, htail,
      Nat.mul_comm, Nat.mul_add_div (by positivity), Nat.div_eq_of_lt hlt, Nat.add_zero]
  · rw [tailValue, hrest, ← Nat.mod_mod_of_dvd _ (pow_dvd_pow 2 (Nat.le_add_left _ size)), htail,
      Nat.mul_add_mod_of_lt hlt]

/-- A field is its first bits followed by the others. -/
theorem fieldAt_add {bytes : List UInt8} {pos a b : ℕ} (h : pos + a + b ≤ 8 * bytes.length) :
    fieldAt bytes pos (a + b) = fieldAt bytes pos a * 2 ^ b + fieldAt bytes (pos + a) b := by
  have hhigh : 8 * bytes.length - (pos + a) = 8 * bytes.length - (pos + a + b) + b := by omega
  rw [fieldAt, fieldAt, fieldAt, hhigh, ← Nat.add_assoc]
  generalize 8 * bytes.length - (pos + a + b) = below
  rw [Nat.add_comm a b, pow_add 2 b a, Nat.mod_mul, pow_add 2 below b, ← Nat.div_div_eq_div_mul]
  ring

/-- Whole bytes at a byte boundary. -/
theorem fieldAt_slice {bytes : List UInt8} {start len : ℕ} (h : start + len ≤ bytes.length) :
    fieldAt bytes (8 * start) (8 * len) = beNat ((bytes.drop start).take len) := by
  set mid := (bytes.drop start).take len
  have hmid : mid.length = len := by
    rw [List.length_take, List.length_drop]
    omega
  have hsplit : bytes = bytes.take start ++ mid ++ bytes.drop (start + len) := by
    rw [List.append_assoc, ← List.drop_drop, List.take_append_drop, List.take_append_drop]
  have hlt := beNat_lt mid
  have hpost := beNat_lt (bytes.drop (start + len))
  have hval : beNat bytes = beNat (bytes.drop (start + len)) +
      256 ^ (bytes.drop (start + len)).length *
        (beNat mid + 256 ^ len * beNat (bytes.take start)) := by
    conv_lhs => rw [hsplit]
    rw [beNat_append, beNat_append, hmid]
  rw [hmid] at hlt
  have hrest : (bytes.drop (start + len)).length = bytes.length - (start + len) := by simp
  rw [fieldAt, ← Nat.mul_add, ← Nat.mul_sub, ← pow_256, ← pow_256, hval, ← hrest,
    Nat.add_mul_div_left _ _ (by positivity), Nat.div_eq_of_lt hpost, Nat.zero_add,
    Nat.add_mul_mod_self_left, Nat.mod_eq_of_lt hlt]

/-- One bit, found in its byte. -/
theorem fieldAt_one {bytes : List UInt8} {pos : ℕ} (h : pos < 8 * bytes.length) :
    ∃ b, bytes[pos / 8]? = some b ∧ fieldAt bytes pos 1 = b.toNat / 2 ^ (7 - pos % 8) % 2 := by
  have hbyte : pos / 8 < bytes.length := by omega
  refine ⟨bytes[pos / 8], List.getElem?_eq_getElem hbyte, ?_⟩
  have hslice : fieldAt bytes (8 * (pos / 8)) (8 * 1) = bytes[pos / 8].toNat := by
    rw [fieldAt_slice (by omega), List.take_one_drop_eq_of_lt_length hbyte]
    simp [beNat, leNat]
  -- the byte is the bits before, the bit itself and the bits behind
  have hbefore : fieldAt bytes (8 * (pos / 8)) (pos % 8 + (1 + (7 - pos % 8))) =
      fieldAt bytes (8 * (pos / 8)) (pos % 8) * 2 ^ (1 + (7 - pos % 8)) +
        fieldAt bytes (8 * (pos / 8) + pos % 8) (1 + (7 - pos % 8)) := fieldAt_add (by omega)
  have hbehind : fieldAt bytes pos (1 + (7 - pos % 8)) =
      fieldAt bytes pos 1 * 2 ^ (7 - pos % 8) + fieldAt bytes (pos + 1) (7 - pos % 8) :=
    fieldAt_add (by omega)
  have hrest := fieldAt_lt bytes (pos + 1) (7 - pos % 8)
  have hbit := fieldAt_lt bytes pos 1
  rw [show pos % 8 + (1 + (7 - pos % 8)) = 8 * 1 by omega, hslice, Nat.div_add_mod, hbehind,
    ← Nat.add_assoc, pow_add, ← mul_assoc, ← Nat.add_mul, Nat.mul_comm] at hbefore
  rw [hbefore, Nat.mul_add_div (by positivity), Nat.div_eq_of_lt hrest]
  omega

/-- Whole bytes from a position on, the least significant first. -/
def littleFieldAt (bytes : List UInt8) (pos : ℕ) : ℕ → ℕ
  | 0 => 0
  | count + 1 => fieldAt bytes pos 8 + 256 * littleFieldAt bytes (pos + 8) count

theorem littleFieldAt_slice {bytes : List UInt8} {start len : ℕ} (h : start + len ≤ bytes.length) :
    littleFieldAt bytes (8 * start) len = leNat ((bytes.drop start).take len) := by
  induction len generalizing start with
  | zero => simp [littleFieldAt, leNat]
  | succ len ih =>
    have hbyte : start < bytes.length := by omega
    have hfirst : fieldAt bytes (8 * start) (8 * 1) = bytes[start].toNat := by
      rw [fieldAt_slice (by omega), List.take_one_drop_eq_of_lt_length hbyte]
      simp [beNat, leNat]
    rw [littleFieldAt, List.drop_eq_getElem_cons hbyte, List.take_succ_cons, leNat, ← hfirst,
      ← ih (by omega)]
    ring_nf

end Beamr.BitField
