import Beamr.Lib.Comparison
import Beamr.Term.Value

/-!
# Comparing numbers

`number_value`, `compare_numbers`, the numeric part of `numeric_eq` and the bignum
helpers of `term::compare::bigint`. Integers are compared as integers and floats by
`total_cmp`; an integer against a float is converted first. Bignums convert limb by
limb, and the conversion turns out to depend on the integer only and to be monotone.
-/
namespace Beamr.Term

open Comparison

namespace BigIntValue

def fromI64 (value : ℤ) : BigIntValue :=
  if value = 0 then ⟨false, []⟩ else ⟨decide (value < 0), [value.natAbs]⟩

/-- Owned copy of a stored bignum. -/
def fromBigInt (negative : Bool) (limbs : List UInt64) : BigIntValue :=
  .new negative (limbs.map UInt64.toNat)

/-- The integer a bignum stands for. -/
def toInt (v : BigIntValue) : ℤ := if v.isNegative then -(limbsNat v.limbs : ℤ) else limbsNat v.limbs

end BigIntValue

inductive NumberValue
  | smallInt (value : ℤ)
  | float (x : Float64)
  | bigInt (v : BigIntValue)

def numberValue : Number → NumberValue
  | .smallInt n => .smallInt n.value
  | .float x => .float x
  | .bigInt negative limbs => .bigInt (.fromBigInt negative limbs)

/-! ## Bignum comparison -/

def compareMagnitude (left right : List ℕ) : Ordering :=
  (compare left.length right.length).then (compare left.reverse right.reverse)

def cmpAbs (left right : List ℕ) : Ordering :=
  compareMagnitude (normalizeLimbs left) (normalizeLimbs right)

/-- Order by sign, then by magnitude, reversed for two negative numbers. -/
def compareSigned (leftNegative rightNegative : Bool) (magnitude : Ordering) : Ordering :=
  match leftNegative, rightNegative with
  | true, false => .lt
  | false, true => .gt
  | false, false => magnitude
  | true, true => magnitude.swap

/-- Order of two stored bignums, whatever their high zero limbs. -/
def compareBigInts (leftNegative : Bool) (left : List UInt64) (rightNegative : Bool)
    (right : List UInt64) : Ordering :=
  let leftLimbs := normalizeLimbs (left.map UInt64.toNat)
  let rightLimbs := normalizeLimbs (right.map UInt64.toNat)
  compareSigned (leftNegative && !leftLimbs.isEmpty) (rightNegative && !rightLimbs.isEmpty)
    (compareMagnitude leftLimbs rightLimbs)

def compareBigIntValuesOwned (left right : BigIntValue) : Ordering :=
  compareSigned left.isNegative right.isNegative (cmpAbs left.limbs right.limbs)

def compareSmallMagnitude (left : ℕ) : List ℕ → Ordering
  | [] => compare left 0
  | [limb] => compare left limb
  | _ => .lt

def compareSmallIntToBigIntValue (small : ℤ) (big : BigIntValue) : Ordering :=
  compareSigned (decide (small < 0)) big.isNegative (compareSmallMagnitude small.natAbs big.limbs)

/-! ## Mixed comparison -/

theorem ofLimbs_le (limbs : List ℕ) : Float64.ofLimbs limbs ≤ Float64.overflow := by
  cases limbs with
  | nil => exact Nat.zero_le _
  | cons l ls => rw [Float64.ofLimbs_cons]; exact Float64.ofExact_le _

def bigIntValueToF64 (value : BigIntValue) : Float64 :=
  let result := Float64.ofLimbs value.limbs
  .ofSigned (value.isNegative && result != 0) result (ofLimbs_le _)

def compareNumberValues : NumberValue → NumberValue → Ordering
  | .smallInt left, .smallInt right => compare left right
  | .smallInt left, .float right => (Float64.ofInt left).totalCmp right
  | .smallInt left, .bigInt right => compareSmallIntToBigIntValue left right
  | .float left, .smallInt right => left.totalCmp (.ofInt right)
  | .float left, .float right => left.totalCmp right
  | .float left, .bigInt right => left.totalCmp (bigIntValueToF64 right)
  | .bigInt left, .smallInt right => (compareSmallIntToBigIntValue right left).swap
  | .bigInt left, .float right => (bigIntValueToF64 left).totalCmp right
  | .bigInt left, .bigInt right => compareBigIntValuesOwned left right

def compareNumbers (left right : Number) : Ordering :=
  compareNumberValues (numberValue left) (numberValue right)

/-- The numeric pairs of `numeric_eq`. -/
def numericEqValues : NumberValue → NumberValue → Bool
  | .smallInt left, .smallInt right => left == right
  | .smallInt left, .float right => (Float64.ofInt left).ieeeEq right
  | .smallInt left, .bigInt right => BigIntValue.fromI64 left == right
  | .float left, .smallInt right => left.ieeeEq (.ofInt right)
  | .float left, .float right => left.ieeeEq right
  | .float left, .bigInt right => left.ieeeEq (bigIntValueToF64 right)
  | .bigInt left, .smallInt right => left == BigIntValue.fromI64 right
  | .bigInt left, .float right => (bigIntValueToF64 left).ieeeEq right
  | .bigInt left, .bigInt right => left == right

def numericEqNumbers (left right : Number) : Bool :=
  numericEqValues (numberValue left) (numberValue right)

/-- `=:=` order of numbers of one representation. -/
def compareNumbersExact : Number → Number → Ordering
  | .smallInt left, .smallInt right => compare left.value right.value
  | .float left, .float right => compare left.toBits right.toBits
  | .bigInt leftNegative left, .bigInt rightNegative right =>
    compareBigInts leftNegative left rightNegative right
  | _, _ => .eq

/-! ## Limbs and integers -/

theorem limbsNat_eq_limbsValue (limbs : List ℕ) : limbsNat limbs = Float64.limbsValue limbs := by
  induction limbs with
  | nil => rfl
  | cons l ls ih => rw [limbsNat, Float64.limbsValue_cons, ih]

theorem limbsNat_append_singleton (ls : List ℕ) (l : ℕ) :
    limbsNat (ls ++ [l]) = limbsNat ls + 2 ^ (64 * ls.length) * l := by
  induction ls with
  | nil => simp [limbsNat]
  | cons m ms ih =>
    rw [List.cons_append, limbsNat, ih, limbsNat, List.length_cons,
      show 64 * (ms.length + 1) = 64 + 64 * ms.length by ring, pow_add]
    ring

theorem limbsNat_lt {ls : List ℕ} (h : ∀ l ∈ ls, l < 2 ^ 64) :
    limbsNat ls < 2 ^ (64 * ls.length) := by
  induction ls with
  | nil => simp [limbsNat]
  | cons m ms ih =>
    have hm := h m (by simp)
    have hms := ih fun x hx => h x (by simp [hx])
    rw [limbsNat, List.length_cons, show 64 * (ms.length + 1) = 64 + 64 * ms.length by ring, pow_add]
    omega

theorem normalizeLimbs_idem (ls : List ℕ) : normalizeLimbs (normalizeLimbs ls) = normalizeLimbs ls :=
  List.rdropWhile_idempotent _ ls

theorem limbsNat_normalizeLimbs (ls : List ℕ) : limbsNat (normalizeLimbs ls) = limbsNat ls := by
  induction ls using List.reverseRecOn with
  | nil => rfl
  | append_singleton ls l ih =>
    by_cases hl : l = 0
    · rw [normalizeLimbs, List.rdropWhile_concat_pos _ _ _ (by simp [hl]), limbsNat_append_singleton,
        hl, Nat.mul_zero, Nat.add_zero]
      exact ih
    · rw [normalizeLimbs, List.rdropWhile_concat_neg _ _ _ (by simpa using hl)]

/-- A magnitude without high zero limbs reaches the weight of its top limb. -/
theorem le_limbsNat {ls : List ℕ} (hn : normalizeLimbs ls = ls) (hne : ls ≠ []) :
    2 ^ (64 * (ls.length - 1)) ≤ limbsNat ls := by
  have hlast : ls.getLast hne ≠ 0 := by
    have h := List.rdropWhile_eq_self_iff.mp hn hne
    simpa using h
  rw [← List.dropLast_append_getLast hne, limbsNat_append_singleton]
  simp only [List.length_append, List.length_dropLast, List.length_singleton]
  have hweight : 2 ^ (64 * (ls.length - 1)) * 1 ≤ 2 ^ (64 * (ls.length - 1)) * ls.getLast hne :=
    Nat.mul_le_mul_left _ (Nat.one_le_iff_ne_zero.mpr hlast)
  rw [show ls.length - 1 + 1 - 1 = ls.length - 1 by omega]
  omega

theorem compare_add_mul {a b l r w : ℕ} (ha : a < w) (hb : b < w) :
    compare (a + w * l) (b + w * r) = (compare l r).then (compare a b) := by
  rcases Nat.lt_trichotomy l r with h | rfl | h
  · have hstep : w * (l + 1) ≤ w * r := Nat.mul_le_mul_left _ h
    rw [Nat.compare_eq_lt.mpr h, Nat.compare_eq_lt.mpr (by rw [Nat.mul_add] at hstep; omega)]
    rfl
  · rw [Nat.compare_eq_eq.mpr rfl]
    simp only [Ordering.eq_then]
    rcases Nat.lt_trichotomy a b with h | rfl | h
    · rw [Nat.compare_eq_lt.mpr h, Nat.compare_eq_lt.mpr (by omega)]
    · rw [Nat.compare_eq_eq.mpr rfl, Nat.compare_eq_eq.mpr rfl]
    · rw [Nat.compare_eq_gt.mpr h, Nat.compare_eq_gt.mpr (by omega)]
  · have hstep : w * (r + 1) ≤ w * l := Nat.mul_le_mul_left _ h
    rw [Nat.compare_eq_gt.mpr h, Nat.compare_eq_gt.mpr (by rw [Nat.mul_add] at hstep; omega)]
    rfl

theorem compare_reverse_eq {ls ms : List ℕ} (hlen : ls.length = ms.length)
    (hl : ∀ l ∈ ls, l < 2 ^ 64) (hm : ∀ m ∈ ms, m < 2 ^ 64) :
    compare ls.reverse ms.reverse = compare (limbsNat ls) (limbsNat ms) := by
  induction ls using List.reverseRecOn generalizing ms with
  | nil =>
    have : ms = [] := List.length_eq_zero_iff.mp hlen.symm
    subst this
    rfl
  | append_singleton ls l ih =>
    cases ms using List.reverseRecOn with
    | nil => simp at hlen
    | append_singleton ms m =>
      have hlen' : ls.length = ms.length := by simpa using hlen
      have hls : ∀ x ∈ ls, x < 2 ^ 64 := fun x hx => hl x (by simp [hx])
      have hms : ∀ x ∈ ms, x < 2 ^ 64 := fun x hx => hm x (by simp [hx])
      have hbound := limbsNat_lt hls
      rw [List.reverse_append, List.reverse_append, limbsNat_append_singleton,
        limbsNat_append_singleton, ← hlen', compare_add_mul hbound (hlen' ▸ limbsNat_lt hms),
        ← ih hlen' hls hms]
      simp [List.compare_cons_cons]

theorem compareMagnitude_eq {ls ms : List ℕ} (hls : normalizeLimbs ls = ls)
    (hms : normalizeLimbs ms = ms) (hl : ∀ l ∈ ls, l < 2 ^ 64) (hm : ∀ m ∈ ms, m < 2 ^ 64) :
    compareMagnitude ls ms = compare (limbsNat ls) (limbsNat ms) := by
  unfold compareMagnitude
  rcases Nat.lt_trichotomy ls.length ms.length with h | h | h
  · have hlt : limbsNat ls < limbsNat ms := by
      calc limbsNat ls < 2 ^ (64 * ls.length) := limbsNat_lt hl
        _ ≤ 2 ^ (64 * (ms.length - 1)) := Nat.pow_le_pow_right (by norm_num) (by omega)
        _ ≤ limbsNat ms := le_limbsNat hms (by rintro rfl; simp at h)
    rw [Nat.compare_eq_lt.mpr h, Nat.compare_eq_lt.mpr hlt]
    rfl
  · rw [Nat.compare_eq_eq.mpr h, Ordering.eq_then, compare_reverse_eq h hl hm]
  · have hlt : limbsNat ms < limbsNat ls := by
      calc limbsNat ms < 2 ^ (64 * ms.length) := limbsNat_lt hm
        _ ≤ 2 ^ (64 * (ls.length - 1)) := Nat.pow_le_pow_right (by norm_num) (by omega)
        _ ≤ limbsNat ls := le_limbsNat hls (by rintro rfl; simp at h)
    rw [Nat.compare_eq_gt.mpr h, Nat.compare_eq_gt.mpr hlt]
    rfl

/-- No high zero limb, limbs of 64 bits, no negative zero. -/
structure BigIntValue.Canonical (v : BigIntValue) : Prop where
  normalized : normalizeLimbs v.limbs = v.limbs
  limb_lt : ∀ l ∈ v.limbs, l < 2 ^ 64
  nonzero : v.negative = true → v.limbs ≠ []

theorem BigIntValue.fromBigInt_canonical (negative : Bool) (limbs : List UInt64) :
    (BigIntValue.fromBigInt negative limbs).Canonical where
  normalized := normalizeLimbs_idem _
  limb_lt l hl := by
    obtain ⟨w, -, rfl⟩ := List.mem_map.mp (mem_normalizeLimbs hl)
    exact w.toNat_lt
  nonzero h := by
    intro hnil
    have hempty : normalizeLimbs (limbs.map UInt64.toNat) = [] := hnil
    simp [fromBigInt, new, hempty] at h

theorem BigIntValue.fromI64_canonical {i : ℤ} (h : i.natAbs < 2 ^ 64) :
    (BigIntValue.fromI64 i).Canonical := by
  unfold fromI64
  split
  · exact ⟨rfl, by simp, by simp⟩
  · next hi =>
    refine ⟨?_, by simpa using h, by simp⟩
    simp [normalizeLimbs, List.rdropWhile_singleton, hi]

theorem BigIntValue.Canonical.isNegative_eq {v : BigIntValue} (h : v.Canonical) :
    v.isNegative = v.negative := by
  unfold isNegative
  cases hn : v.negative with
  | false => rfl
  | true => simp [h.nonzero hn]

theorem BigIntValue.Canonical.limbsNat_pos {v : BigIntValue} (h : v.Canonical)
    (hn : v.isNegative = true) : 0 < limbsNat v.limbs := by
  have hne : v.limbs ≠ [] := h.nonzero (h.isNegative_eq ▸ hn)
  have hle := le_limbsNat h.normalized hne
  exact (Nat.two_pow_pos _).trans_le hle

theorem BigIntValue.toInt_fromI64 (i : ℤ) : (BigIntValue.fromI64 i).toInt = i := by
  unfold fromI64
  split
  · next hi => simp [toInt, isNegative, limbsNat, hi]
  · simp only [toInt, isNegative, limbsNat, List.isEmpty_cons, Bool.not_false, Bool.and_true,
      decide_eq_true_eq, Nat.mul_zero, Nat.add_zero]
    split <;> omega

/-- Sign and magnitude, compared as a signed integer. -/
theorem compareSigned_eq {s t : Bool} {a b : ℕ} (ha : s = true → 0 < a) (hb : t = true → 0 < b) :
    compareSigned s t (compare a b) =
      compare (if s then -(a : ℤ) else a) (if t then -(b : ℤ) else b) := by
  cases s <;> cases t <;> simp only [compareSigned, Bool.false_eq_true, if_true, if_false]
  · rcases Nat.lt_trichotomy a b with h | rfl | h
    · rw [Nat.compare_eq_lt.mpr h, Int.compare_eq_lt.mpr (by omega)]
    · rw [Nat.compare_eq_eq.mpr rfl, Int.compare_eq_eq.mpr rfl]
    · rw [Nat.compare_eq_gt.mpr h, Int.compare_eq_gt.mpr (by omega)]
  · rw [Int.compare_eq_gt.mpr (by have := hb rfl; omega)]
  · rw [Int.compare_eq_lt.mpr (by have := ha rfl; omega)]
  · rcases Nat.lt_trichotomy a b with h | rfl | h
    · rw [Nat.compare_eq_lt.mpr h, Int.compare_eq_gt.mpr (by omega)]; rfl
    · rw [Nat.compare_eq_eq.mpr rfl, Int.compare_eq_eq.mpr rfl]; rfl
    · rw [Nat.compare_eq_gt.mpr h, Int.compare_eq_lt.mpr (by omega)]; rfl

theorem compareBigIntValuesOwned_eq {v w : BigIntValue} (hv : v.Canonical) (hw : w.Canonical) :
    compareBigIntValuesOwned v w = compare v.toInt w.toInt := by
  rw [compareBigIntValuesOwned, cmpAbs, hv.normalized, hw.normalized,
    compareMagnitude_eq hv.normalized hw.normalized hv.limb_lt hw.limb_lt,
    compareSigned_eq hv.limbsNat_pos hw.limbsNat_pos]
  rfl

theorem compareBigInts_eq (s : Bool) (ls : List UInt64) (t : Bool) (ms : List UInt64) :
    compareBigInts s ls t ms =
      compare (BigIntValue.fromBigInt s ls).toInt (BigIntValue.fromBigInt t ms).toInt := by
  have hv := BigIntValue.fromBigInt_canonical s ls
  have hw := BigIntValue.fromBigInt_canonical t ms
  rw [← compareBigIntValuesOwned_eq hv hw, compareBigIntValuesOwned, cmpAbs, hv.normalized,
    hw.normalized, compareBigInts]
  congr 1
  · simp only [BigIntValue.isNegative, BigIntValue.fromBigInt, BigIntValue.new]
    split <;> simp_all
  · simp only [BigIntValue.isNegative, BigIntValue.fromBigInt, BigIntValue.new]
    split <;> simp_all

theorem compareSmallMagnitude_eq {n : ℕ} {limbs : List ℕ} (hn : n < 2 ^ 64)
    (hl : normalizeLimbs limbs = limbs) :
    compareSmallMagnitude n limbs = compare n (limbsNat limbs) := by
  match limbs, hl with
  | [], _ => rfl
  | [limb], _ => simp [compareSmallMagnitude, limbsNat]
  | l :: m :: rest, hl =>
    have hle := le_limbsNat hl (by simp)
    have hpow : 2 ^ 64 ≤ 2 ^ (64 * ((l :: m :: rest).length - 1)) :=
      Nat.pow_le_pow_right (by norm_num) (by simp only [List.length_cons]; omega)
    exact (Nat.compare_eq_lt.mpr (by omega)).symm

theorem compareSmallIntToBigIntValue_eq {i : ℤ} {v : BigIntValue} (hi : i.natAbs < 2 ^ 64)
    (hv : v.Canonical) : compareSmallIntToBigIntValue i v = compare i v.toInt := by
  rw [compareSmallIntToBigIntValue, compareSmallMagnitude_eq hi hv.normalized,
    compareSigned_eq (by intro h; simp at h; omega) hv.limbsNat_pos]
  congr 1
  by_cases h : i < 0
  · rw [if_pos (by simpa using h)]; omega
  · rw [if_neg (by simpa using h)]; omega

theorem SmallInt.natAbs_lt (n : SmallInt) : n.value.natAbs < 2 ^ 64 := by
  have := n.min_le
  have := n.lt_max
  omega

/-! ## Integers among the numbers -/

namespace Number

/-- The integer a number stands for, when it is not a float. -/
def intValue : Number → Option ℤ
  | .smallInt n => some n.value
  | .float _ => none
  | .bigInt negative limbs => some (BigIntValue.fromBigInt negative limbs).toInt

/-- The double a number is compared as against a float. -/
def toF64 : Number → Float64
  | .smallInt n => .ofInt n.value
  | .float x => x
  | .bigInt negative limbs => bigIntValueToF64 (.fromBigInt negative limbs)

end Number

/-- Two integers compare as integers, any other pair as doubles. -/
theorem compareNumbers_eq (a b : Number) : compareNumbers a b =
    match a.intValue, b.intValue with
    | some i, some j => compare i j
    | _, _ => a.toF64.totalCmp b.toF64 := by
  cases a with
  | smallInt n =>
    cases b with
    | smallInt m => rfl
    | float y => rfl
    | bigInt t ms =>
      exact compareSmallIntToBigIntValue_eq n.natAbs_lt (BigIntValue.fromBigInt_canonical t ms)
  | float x => cases b <;> rfl
  | bigInt s ls =>
    have hv := BigIntValue.fromBigInt_canonical s ls
    cases b with
    | smallInt m =>
      have h := compareSmallIntToBigIntValue_eq m.natAbs_lt hv
      simp only [compareNumbers, numberValue, compareNumberValues, h, Number.intValue]
      exact Std.OrientedCmp.eq_swap.symm
    | float y => rfl
    | bigInt t ms => exact compareBigIntValuesOwned_eq hv (BigIntValue.fromBigInt_canonical t ms)

theorem bigIntValueToF64_eq {v : BigIntValue} (hv : v.Canonical) :
    bigIntValueToF64 v = .ofSigned v.isNegative (Float64.ofLimbs v.limbs) (ofLimbs_le _) := by
  have hneg : (v.isNegative && Float64.ofLimbs v.limbs != 0) = v.isNegative := by
    cases hn : v.isNegative with
    | false => rfl
    | true =>
      have hpos := (Float64.ofLimbs_folded hv.limb_lt).pos
        (by rw [← limbsNat_eq_limbsValue]; exact hv.limbsNat_pos hn)
      simp only [Bool.true_and, bne_iff_ne]
      omega
  simp only [bigIntValueToF64, hneg]

/-- The double of an integer, from any canonical limbs of it. -/
theorem Number.toF64_eq {a : Number} {i : ℤ} (h : a.intValue = some i) :
    ∃ v : BigIntValue, v.Canonical ∧ v.toInt = i ∧
      a.toF64 = .ofSigned v.isNegative (Float64.ofLimbs v.limbs) (ofLimbs_le _) := by
  cases a with
  | float x => simp [intValue] at h
  | bigInt s ls =>
    have hv := BigIntValue.fromBigInt_canonical s ls
    exact ⟨_, hv, by simpa [intValue] using h, bigIntValueToF64_eq hv⟩
  | smallInt n =>
    have hi : n.value = i := by simpa [intValue] using h
    subst hi
    refine ⟨.fromI64 n.value, BigIntValue.fromI64_canonical n.natAbs_lt,
      BigIntValue.toInt_fromI64 _, ?_⟩
    by_cases hzero : n.value = 0
    · simp [toF64, Float64.ofInt, BigIntValue.fromI64, hzero, BigIntValue.isNegative,
        Float64.ofExact_zero]
    · simp [toF64, Float64.ofInt, BigIntValue.fromI64, hzero, BigIntValue.isNegative,
        Float64.ofLimbs_singleton]

/-- Converting integers to doubles keeps their order. -/
theorem Number.totalKey_mono {a b : Number} {i j : ℤ} (ha : a.intValue = some i)
    (hb : b.intValue = some j) (hij : i ≤ j) : a.toF64.totalKey ≤ b.toF64.totalKey := by
  obtain ⟨v, hv, rfl, hav⟩ := toF64_eq ha
  obtain ⟨w, hw, rfl, hbw⟩ := toF64_eq hb
  have hmono : ∀ {x y : BigIntValue}, x.Canonical → y.Canonical →
      limbsNat x.limbs ≤ limbsNat y.limbs →
        Float64.ofLimbs x.limbs ≤ Float64.ofLimbs y.limbs := by
    intro x y hx hy hxy
    rw [limbsNat_eq_limbsValue, limbsNat_eq_limbsValue] at hxy
    exact Float64.ofLimbs_mono hx.limb_lt hy.limb_lt hxy
  rw [hav, hbw]
  refine Float64.totalKey_ofSigned_le _ _ ?_
  have hvpos := hv.limbsNat_pos
  have hwpos := hw.limbsNat_pos
  unfold BigIntValue.toInt at hij
  cases hvn : v.isNegative <;> cases hwn : w.isNegative <;>
    simp only [hvn, hwn, Bool.false_eq_true, if_true, if_false, forall_const] at hij hvpos hwpos ⊢
  · exact hmono hv hw (by omega)
  · omega
  · exact hmono hw hv (by omega)

theorem BigIntValue.Canonical.toInt_injective {v w : BigIntValue} (hv : v.Canonical)
    (hw : w.Canonical) (h : v.toInt = w.toInt) : v = w := by
  have hcmp := compareBigIntValuesOwned_eq hv hw
  rw [h, Std.ReflOrd.compare_self, compareBigIntValuesOwned, cmpAbs, hv.normalized, hw.normalized,
    hv.isNegative_eq, hw.isNegative_eq] at hcmp
  have hmag : v.negative = w.negative ∧ compareMagnitude v.limbs w.limbs = .eq := by
    cases hvn : v.negative <;> cases hwn : w.negative <;> simp [compareSigned, hvn, hwn] at hcmp ⊢ <;>
      exact hcmp
  rw [compareMagnitude, Ordering.then_eq_eq] at hmag
  have hlimbs : v.limbs = w.limbs :=
    List.reverse_injective (Std.LawfulEqOrd.eq_of_compare hmag.2.2)
  cases v; cases w
  simp_all

/-- Two integers are `==` when they are the same integer, any other pair when the doubles are. -/
theorem numericEqNumbers_eq (a b : Number) : numericEqNumbers a b =
    match a.intValue, b.intValue with
    | some i, some j => decide (i = j)
    | _, _ => a.toF64.ieeeEq b.toF64 := by
  have hbig : ∀ {v w : BigIntValue}, v.Canonical → w.Canonical →
      (v == w) = decide (v.toInt = w.toInt) := by
    intro v w hv hw
    rw [Bool.eq_iff_iff, beq_iff_eq, decide_eq_true_eq]
    exact ⟨congrArg _, hv.toInt_injective hw⟩
  cases a with
  | smallInt n =>
    cases b with
    | smallInt m => exact Bool.eq_iff_iff.mpr (by simp [numericEqNumbers, numericEqValues, numberValue,
        Number.intValue])
    | float y => rfl
    | bigInt t ms =>
      have h := hbig (BigIntValue.fromI64_canonical n.natAbs_lt)
        (BigIntValue.fromBigInt_canonical t ms)
      rw [BigIntValue.toInt_fromI64] at h
      exact h
  | float x => cases b <;> rfl
  | bigInt s ls =>
    cases b with
    | smallInt m =>
      have h := hbig (BigIntValue.fromBigInt_canonical s ls)
        (BigIntValue.fromI64_canonical m.natAbs_lt)
      rw [BigIntValue.toInt_fromI64] at h
      exact h
    | float y => rfl
    | bigInt t ms =>
      exact hbig (BigIntValue.fromBigInt_canonical s ls) (BigIntValue.fromBigInt_canonical t ms)

theorem Number.toF64_not_nan {a : Number} {i : ℤ} (h : a.intValue = some i) :
    a.toF64.isNaN = false := by
  obtain ⟨v, -, -, hav⟩ := toF64_eq h
  have hle := Float64.encode_mono (ofLimbs_le v.limbs)
  rw [Float64.encode_overflow] at hle
  rw [hav]
  exact decide_eq_false (Nat.not_lt.mpr hle)

/-- Only the integer zero converts to a zero, and to the positive one. -/
theorem Number.toF64_magnitude_eq_zero {a : Number} {i : ℤ} (h : a.intValue = some i) :
    (a.toF64.magnitude = 0 ↔ i = 0) ∧ (i = 0 → a.toF64.negative = false) := by
  obtain ⟨v, hv, rfl, hav⟩ := toF64_eq h
  have hfold := Float64.ofLimbs_folded hv.limb_lt
  rw [← limbsNat_eq_limbsValue] at hfold
  have hzero : Float64.ofLimbs v.limbs = 0 ↔ limbsNat v.limbs = 0 := by
    constructor
    · intro h0
      by_contra hne
      have := hfold.pos (by omega)
      omega
    · intro h0
      rw [hfold.of_small (by omega), h0]
      rfl
  have hint : v.toInt = 0 ↔ limbsNat v.limbs = 0 := by
    unfold BigIntValue.toInt
    split <;> omega
  rw [hav]
  refine ⟨?_, fun h0 => ?_⟩
  · rw [hint, ← hzero]
    exact Float64.encode_eq_zero_iff
  · cases hn : v.isNegative with
    | false => rfl
    | true => have := hv.limbsNat_pos hn; omega

/-- Two integers of one double with that double between them. -/
def SharedFloat (numbers : Set Number) : Prop :=
  ∃ a ∈ numbers, ∃ b ∈ numbers, ∃ f ∈ numbers, ∃ i j : ℤ, a.intValue = some i ∧
    b.intValue = some j ∧ i ≠ j ∧ f.intValue = none ∧ a.toF64 = f.toF64 ∧ b.toF64 = f.toF64

theorem compareNumbers_swap (a b : Number) : compareNumbers b a = (compareNumbers a b).swap := by
  rw [compareNumbers_eq, compareNumbers_eq]
  cases a.intValue <;> cases b.intValue <;> dsimp only [Float64.totalCmp] <;>
    exact Std.OrientedOrd.eq_swap

theorem compareNumbers_le_iff {a b : Number} : (compareNumbers a b).isLE ↔
    match a.intValue, b.intValue with
    | some i, some j => i ≤ j
    | _, _ => a.toF64.totalKey ≤ b.toF64.totalKey := by
  rw [compareNumbers_eq]
  cases a.intValue <;> cases b.intValue <;>
    simp only [Float64.totalCmp, Int.isLE_compare]

/-- Numbers are totally preordered exactly when no double stands between two integers that
convert to it. -/
theorem compareNumbers_preorderOn_iff (numbers : Set Number) :
    PreorderOn numbers compareNumbers ↔ ¬ SharedFloat numbers := by
  constructor
  · rintro h ⟨a, ha, b, hb, f, hf, i, j, hi, hj, hij, hfloat, haf, hbf⟩
    have haf' : compareNumbers a f = .eq := by
      rw [compareNumbers_eq, hi, hfloat]
      exact Float64.totalCmp_eq_iff.mpr haf
    have hfb : compareNumbers b f = .eq := by
      rw [compareNumbers_eq, hj, hfloat]
      exact Float64.totalCmp_eq_iff.mpr hbf
    have hab := h.eq_right hf hb ha (by rw [compareNumbers_swap, hfb]; rfl)
    rw [haf', compareNumbers_eq, hi, hj] at hab
    exact hij (Std.LawfulEqOrd.eq_of_compare hab.symm)
  · intro hshare
    refine ⟨fun a _ b _ => compareNumbers_swap a b, fun a ha b hb d hd hab hbd => ?_⟩
    rw [compareNumbers_le_iff] at hab hbd ⊢
    cases hia : a.intValue with
    | none =>
      cases hib : b.intValue with
      | none => simp only [hia, hib] at hab hbd ⊢; exact hab.trans hbd
      | some j =>
        cases hid : d.intValue with
        | none => simp only [hia, hib, hid] at hab hbd ⊢; exact hab.trans hbd
        | some k =>
          simp only [hia, hib, hid] at hab hbd ⊢
          exact hab.trans (Number.totalKey_mono hib hid hbd)
    | some i =>
      cases hib : b.intValue with
      | some j =>
        cases hid : d.intValue with
        | none =>
          simp only [hia, hib, hid] at hab hbd ⊢
          exact (Number.totalKey_mono hia hib hab).trans hbd
        | some k => simp only [hia, hib, hid] at hab hbd ⊢; exact hab.trans hbd
      | none =>
        cases hid : d.intValue with
        | none => simp only [hia, hib, hid] at hab hbd ⊢; exact hab.trans hbd
        | some k =>
          simp only [hia, hib, hid] at hab hbd ⊢
          by_contra hik
          -- going down over a double leaves all three at that double
          have hmono := Number.totalKey_mono hid hia (by omega)
          have haf : a.toF64 = b.toF64 := Float64.totalKey_injective (by omega)
          have hdf : d.toF64 = b.toF64 := Float64.totalKey_injective (by omega)
          exact hshare ⟨a, ha, d, hd, b, hb, i, k, hia, hid, by omega, hib, haf, hdf⟩

end Beamr.Term
