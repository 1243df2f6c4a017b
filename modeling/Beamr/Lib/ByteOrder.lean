import Mathlib.Tactic

/-!
# Positional byte encodings of natural numbers

Little- and big-endian byte strings of a fixed width, their value, and the
two's-complement reading of a bounded value. Everything here is about lists of
bytes and natural numbers; no file format is mentioned.
-/
namespace Beamr.ByteOrder

/-- Value of a byte string, least significant byte first. -/
def leNat : List UInt8 → ℕ
  | [] => 0
  | b :: bs => b.toNat + 256 * leNat bs

/-- The `n` low bytes of `v`, least significant byte first. -/
def leBytes : ℕ → ℕ → List UInt8
  | 0, _ => []
  | n + 1, v => UInt8.ofNat v :: leBytes n (v / 256)

/-- Value of a byte string, most significant byte first. -/
def beNat (bs : List UInt8) : ℕ := leNat bs.reverse

/-- The `n` low bytes of `v`, most significant byte first. -/
def beBytes (n v : ℕ) : List UInt8 := (leBytes n v).reverse

@[simp] theorem leBytes_length (n v : ℕ) : (leBytes n v).length = n := by
  induction n generalizing v with
  | zero => rfl
  | succ n ih => simp [leBytes, ih]

@[simp] theorem beBytes_length (n v : ℕ) : (beBytes n v).length = n := by simp [beBytes]

theorem leNat_leBytes (n v : ℕ) : leNat (leBytes n v) = v % 256 ^ n := by
  induction n generalizing v with
  | zero => simp [leBytes, leNat, Nat.mod_one]
  | succ n ih =>
    have hsplit := Nat.mod_mul (x := v) (a := 256) (b := 256 ^ n)
    simp only [leBytes, leNat, ih, UInt8.toNat_ofNat', pow_succ']
    omega

@[simp] theorem leNat_leBytes_of_lt {n v : ℕ} (h : v < 256 ^ n) : leNat (leBytes n v) = v := by
  rw [leNat_leBytes, Nat.mod_eq_of_lt h]

theorem beNat_beBytes (n v : ℕ) : beNat (beBytes n v) = v % 256 ^ n := by
  simp [beNat, beBytes, leNat_leBytes]

@[simp] theorem beNat_beBytes_of_lt {n v : ℕ} (h : v < 256 ^ n) : beNat (beBytes n v) = v := by
  rw [beNat_beBytes, Nat.mod_eq_of_lt h]

theorem leNat_append (xs ys : List UInt8) :
    leNat (xs ++ ys) = leNat xs + 256 ^ xs.length * leNat ys := by
  induction xs with
  | nil => simp [leNat]
  | cons b xs ih => simp only [List.cons_append, leNat, ih, List.length_cons, pow_succ']; ring

theorem beNat_append (xs ys : List UInt8) :
    beNat (xs ++ ys) = beNat ys + 256 ^ ys.length * beNat xs := by
  simp [beNat, leNat_append]

theorem leNat_replicate_zero (n : ℕ) : leNat (List.replicate n 0) = 0 := by
  induction n with
  | zero => rfl
  | succ n ih => simp [List.replicate_succ, leNat, ih]

theorem leNat_eq_zero_iff {bytes : List UInt8} : leNat bytes = 0 ↔ ∀ byte ∈ bytes, byte = 0 := by
  induction bytes with
  | nil => simp [leNat]
  | cons byte rest ih =>
    have hbyte : byte.toNat = 0 ↔ byte = 0 := by rw [← UInt8.toNat_inj]; rfl
    simp [leNat, hbyte, ih]

theorem beNat_replicate_zero (n : ℕ) : beNat (List.replicate n 0) = 0 := by
  rw [beNat, List.reverse_replicate, leNat_replicate_zero]

theorem beNat_replicate_ff (n : ℕ) : beNat (List.replicate n 0xff) = 256 ^ n - 1 := by
  rw [beNat, List.reverse_replicate]
  induction n with
  | zero => rfl
  | succ n ih =>
    have hpos : 0 < 256 ^ n := by positivity
    rw [List.replicate_succ, leNat, ih, pow_succ', show (0xff : UInt8).toNat = 255 from rfl]
    omega

theorem leNat_lt (bs : List UInt8) : leNat bs < 256 ^ bs.length := by
  induction bs with
  | nil => simp [leNat]
  | cons b bs ih =>
    have hb := b.toNat_lt
    simp only [leNat, List.length_cons, pow_succ']
    omega

theorem beNat_lt (bs : List UInt8) : beNat bs < 256 ^ bs.length := by
  simpa [beNat] using leNat_lt bs.reverse

@[simp] theorem leBytes_leNat (bs : List UInt8) : leBytes bs.length (leNat bs) = bs := by
  induction bs with
  | nil => rfl
  | cons b bs ih =>
    have hb := b.toNat_lt
    have hdiv : (b.toNat + 256 * leNat bs) / 256 = leNat bs := by omega
    simp only [List.length_cons, leNat, leBytes, hdiv, ih]
    congr 1
    apply UInt8.toNat_inj.mp
    rw [UInt8.toNat_ofNat']
    omega

@[simp] theorem beBytes_beNat (bs : List UInt8) : beBytes bs.length (beNat bs) = bs := by
  have h := leBytes_leNat bs.reverse
  rw [List.length_reverse] at h
  rw [beBytes, beNat, h, List.reverse_reverse]

/-- A nonzero last byte keeps the value at or above the weight of its position. -/
theorem le_leNat_of_getLast_ne_zero (bs : List UInt8) (h : bs ≠ []) (hl : bs.getLast h ≠ 0) :
    256 ^ (bs.length - 1) ≤ leNat bs := by
  induction bs with
  | nil => contradiction
  | cons b bs ih =>
    cases bs with
    | nil =>
      have hb : b.toNat ≠ 0 := by
        intro hz
        exact hl (UInt8.toNat_inj.mp (by simpa using hz))
      simp only [leNat, List.length_cons, List.length_nil]
      omega
    | cons c cs =>
      have hrec := ih (by simp) (by simpa using hl)
      simp only [List.length_cons, Nat.add_sub_cancel] at hrec ⊢
      rw [leNat, pow_succ']
      omega

/-- Signed reading of a `w`-bit value. -/
def toSigned (w v : ℕ) : ℤ := if v < 2 ^ (w - 1) then (v : ℤ) else (v : ℤ) - 2 ^ w

/-- The `w`-bit two's-complement pattern of an integer. -/
def ofSigned (w : ℕ) (i : ℤ) : ℕ := (i % 2 ^ w).toNat

/-- Integers representable in `w` signed bits. -/
def FitsSigned (w : ℕ) (i : ℤ) : Prop := -(2 ^ (w - 1)) ≤ i ∧ i < 2 ^ (w - 1)

instance (w : ℕ) (i : ℤ) : Decidable (FitsSigned w i) := by
  unfold FitsSigned; exact inferInstanceAs (Decidable (_ ∧ _))

theorem ofSigned_lt (w : ℕ) (i : ℤ) : ofSigned w i < 2 ^ w := by
  have hpos : (0 : ℤ) < 2 ^ w := by positivity
  have hlt := Int.emod_lt_of_pos i hpos
  have hnn := Int.emod_nonneg i hpos.ne'
  have : ((ofSigned w i : ℕ) : ℤ) < ((2 ^ w : ℕ) : ℤ) := by
    rw [ofSigned, Int.toNat_of_nonneg hnn]; push_cast; exact hlt
  exact_mod_cast this

theorem toSigned_ofSigned {w : ℕ} (hw : 0 < w) {i : ℤ} (h : FitsSigned w i) :
    toSigned w (ofSigned w i) = i := by
  obtain ⟨hlo, hhi⟩ := h
  obtain ⟨k, rfl⟩ : ∃ k, w = k + 1 := ⟨w - 1, by omega⟩
  simp only [Nat.add_sub_cancel] at hlo hhi
  have hp : (2 : ℤ) ^ (k + 1) = 2 * 2 ^ k := by ring
  have hpos : (0 : ℤ) < 2 ^ k := by positivity
  have hnn := Int.emod_nonneg i (show (2 : ℤ) ^ (k + 1) ≠ 0 by positivity)
  have hcast : ((ofSigned (k + 1) i : ℕ) : ℤ) = i % 2 ^ (k + 1) := by
    rw [ofSigned, Int.toNat_of_nonneg hnn]
  have hc2 : ((2 ^ k : ℕ) : ℤ) = 2 ^ k := by push_cast; rfl
  unfold toSigned
  simp only [Nat.add_sub_cancel]
  by_cases hneg : i < 0
  · have hmod : i % 2 ^ (k + 1) = i + 2 ^ (k + 1) := by
      rw [← Int.add_emod_right]
      exact Int.emod_eq_of_lt (by omega) (by omega)
    rw [hmod] at hcast
    rw [if_neg (by omega)]
    omega
  · have hmod : i % 2 ^ (k + 1) = i := Int.emod_eq_of_lt (by omega) (by omega)
    rw [hmod] at hcast
    rw [if_pos (by omega)]
    exact hcast

theorem toSigned_of_lt {w v : ℕ} (h : v < 2 ^ (w - 1)) : toSigned w v = v := if_pos h

/-- A pattern keeps its signed reading when its sign bit fills the wider word. -/
theorem toSigned_signExtend {w W : ℕ} (hw : 0 < w) (hle : w ≤ W) (v : ℕ) :
    toSigned W (if v < 2 ^ (w - 1) then v else v + (2 ^ W - 2 ^ w)) = toSigned w v := by
  have hhalf : 2 ^ (w - 1) ≤ 2 ^ (W - 1) := Nat.pow_le_pow_right (by norm_num) (by omega)
  have hdouble : 2 * 2 ^ (w - 1) = 2 ^ w := by rw [← pow_succ', Nat.sub_add_cancel hw]
  have hDouble : 2 * 2 ^ (W - 1) = 2 ^ W := by rw [← pow_succ', Nat.sub_add_cancel (by omega)]
  have hcast : ((2 ^ w : ℕ) : ℤ) = 2 ^ w := by push_cast; rfl
  have hCast : ((2 ^ W : ℕ) : ℤ) = 2 ^ W := by push_cast; rfl
  by_cases hsmall : v < 2 ^ (w - 1)
  · rw [if_pos hsmall, toSigned_of_lt (by omega), toSigned_of_lt hsmall]
  · rw [if_neg hsmall, toSigned, toSigned, if_neg (by omega), if_neg hsmall, ← hcast, ← hCast]
    omega

/-- Dropping high bits of a pattern gives the pattern at the smaller width. -/
theorem ofSigned_mod {w k : ℕ} (h : k ≤ w) (value : ℤ) :
    ofSigned w value % 2 ^ k = ofSigned k value := by
  have hw : (0 : ℤ) ≤ value % 2 ^ w := Int.emod_nonneg _ (by positivity)
  have hk : (0 : ℤ) ≤ value % 2 ^ k := Int.emod_nonneg _ (by positivity)
  have hdvd : (2 : ℤ) ^ k ∣ 2 ^ w := pow_dvd_pow 2 h
  have hz : ((ofSigned w value % 2 ^ k : ℕ) : ℤ) = (ofSigned k value : ℤ) := by
    push_cast
    rw [ofSigned, ofSigned, Int.toNat_of_nonneg hw, Int.toNat_of_nonneg hk,
      Int.emod_emod_of_dvd value hdvd]
  exact_mod_cast hz

theorem fitsSigned_toSigned {w v : ℕ} (hw : 0 < w) (h : v < 2 ^ w) :
    FitsSigned w (toSigned w v) := by
  obtain ⟨k, rfl⟩ : ∃ k, w = k + 1 := ⟨w - 1, by omega⟩
  have hp : (2 : ℕ) ^ (k + 1) = 2 * 2 ^ k := by ring
  have hz : (2 : ℤ) ^ (k + 1) = 2 * 2 ^ k := by ring
  have hc2 : ((2 ^ k : ℕ) : ℤ) = 2 ^ k := by push_cast; rfl
  unfold toSigned FitsSigned
  simp only [Nat.add_sub_cancel]
  split_ifs with hv <;> constructor <;> omega

theorem pow_256 (k : ℕ) : 256 ^ k = 2 ^ (8 * k) := by
  rw [pow_mul]
  rfl

theorem leNat_replicate_ff (n : ℕ) : leNat (List.replicate n 0xff) = 256 ^ n - 1 := by
  have h := beNat_replicate_ff n
  rwa [beNat, List.reverse_replicate] at h

theorem beNat_snoc (bytes : List UInt8) (b : UInt8) :
    beNat (bytes ++ [b]) = 256 * beNat bytes + b.toNat := by
  rw [beNat_append]
  simp [beNat, leNat]
  ring

theorem beNat_cons (b : UInt8) (bytes : List UInt8) :
    beNat (b :: bytes) = b.toNat * 256 ^ bytes.length + beNat bytes := by
  rw [← List.singleton_append, beNat_append]
  simp [beNat, leNat]
  ring

theorem take_leBytes {k n : ℕ} (h : k ≤ n) (v : ℕ) : (leBytes n v).take k = leBytes k v := by
  induction k generalizing n v with
  | zero => simp [leBytes]
  | succ k ih =>
    obtain ⟨m, rfl⟩ : ∃ m, n = m + 1 := ⟨n - 1, by omega⟩
    rw [leBytes, leBytes, List.take_succ_cons, ih (by omega)]

/-- The low bytes of a byte string, as a number. -/
theorem leNat_take (bytes : List UInt8) (k : ℕ) : leNat (bytes.take k) = leNat bytes % 256 ^ k := by
  rcases Nat.le_total k bytes.length with h | h
  · have hlt := leNat_lt (bytes.take k)
    rw [List.length_take, Nat.min_eq_left h] at hlt
    have hsplit := leNat_append (bytes.take k) (bytes.drop k)
    rw [List.take_append_drop, List.length_take, Nat.min_eq_left h] at hsplit
    rw [hsplit, Nat.add_mul_mod_self_left, Nat.mod_eq_of_lt hlt]
  · have hlt := leNat_lt bytes
    have hpow : 256 ^ bytes.length ≤ 256 ^ k := Nat.pow_le_pow_right (by norm_num) h
    rw [List.take_of_length_le h, Nat.mod_eq_of_lt (by omega)]

theorem ofSigned_natCast (w n : ℕ) : ofSigned w n = n % 2 ^ w := by
  rw [ofSigned]
  exact_mod_cast Int.toNat_natCast (n % 2 ^ w)

/-- Two's complement of a number. -/
theorem ofSigned_neg (w n : ℕ) : ofSigned w (-(n : ℤ)) = (2 ^ w - n % 2 ^ w) % 2 ^ w := by
  have hlt : n % 2 ^ w < 2 ^ w := Nat.mod_lt _ (by positivity)
  have hnn := Int.emod_nonneg (-(n : ℤ)) (show (2 : ℤ) ^ w ≠ 0 by positivity)
  have hcast : ((ofSigned w (-(n : ℤ)) : ℕ) : ℤ) = (((2 ^ w - n % 2 ^ w) % 2 ^ w : ℕ) : ℤ) := by
    rw [ofSigned, Int.toNat_of_nonneg hnn, Int.natCast_mod, Nat.cast_sub hlt.le, Int.natCast_mod]
    push_cast
    rw [← zero_sub, Int.sub_emod 0, Int.sub_emod (2 ^ w), Int.emod_self, Int.zero_emod,
      Int.emod_emod_of_dvd _ dvd_rfl]
  exact_mod_cast hcast

end Beamr.ByteOrder
