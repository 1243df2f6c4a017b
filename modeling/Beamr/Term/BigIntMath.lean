import Beamr.Term.Numbers
import Mathlib.Data.Nat.Size

/-!
# Arithmetic of big integers

Addition, subtraction, multiplication and division of sign-magnitude integers, limb by
limb. Every intermediate of the loops fits 128 bits, so the wide sums and products are
natural numbers here. Results denote the exact integer and are canonical.
-/
namespace Beamr.Term

/-! ## Magnitudes -/

/-- The loop of `add_abs` with its carry; a missing limb is zero. -/
def addLoop : List ℕ → List ℕ → ℕ → List ℕ
  | [], [], carry => if carry ≠ 0 then [carry % 2 ^ 64] else []
  | l :: left, [], carry => (l + 0 + carry) % 2 ^ 64 :: addLoop left [] ((l + 0 + carry) / 2 ^ 64)
  | [], r :: right, carry => (0 + r + carry) % 2 ^ 64 :: addLoop [] right ((0 + r + carry) / 2 ^ 64)
  | l :: left, r :: right, carry =>
    (l + r + carry) % 2 ^ 64 :: addLoop left right ((l + r + carry) / 2 ^ 64)

def addAbs (left right : List ℕ) : List ℕ := normalizeLimbs (addLoop left right 0)

/-- The loop of `sub_abs` with its borrow. -/
def subLoop : List ℕ → List ℕ → ℕ → List ℕ
  | [], _, _ => []
  | minuend :: left, right, borrow =>
    let subtrahend := right.headD 0 + borrow
    if minuend ≥ subtrahend then (minuend - subtrahend) :: subLoop left right.tail 0
    else (2 ^ 64 + minuend - subtrahend) :: subLoop left right.tail 1

def subAbs (left right : List ℕ) : List ℕ := normalizeLimbs (subLoop left right 0)

/-- Carry of a row into the limbs above it. -/
def propagateCarry : List ℕ → ℕ → List ℕ
  | [], _ => []
  | o :: out, carry =>
    if carry = 0 then o :: out else (o + carry) % 2 ^ 64 :: propagateCarry out ((o + carry) / 2 ^ 64)

/-- One row of the schoolbook product, added to the output from the row's own limb on. -/
def mulRow (leftLimb : ℕ) : List ℕ → List ℕ → ℕ → List ℕ
  | r :: right, o :: out, carry =>
    (leftLimb * r + o + carry) % 2 ^ 64 ::
      mulRow leftLimb right out ((leftLimb * r + o + carry) / 2 ^ 64)
  | _, out, carry => propagateCarry out carry

/-- Rows from the lowest limb up; a row leaves the limbs below its own alone. -/
def mulLoop (right : List ℕ) : List ℕ → List ℕ → List ℕ
  | [], out => out
  | l :: left, out =>
    match mulRow l right out 0 with
    | [] => []
    | o :: rest => o :: mulLoop right left rest

def mulAbs (left right : List ℕ) : List ℕ :=
  if (normalizeLimbs left).isEmpty || (normalizeLimbs right).isEmpty then []
  else normalizeLimbs (mulLoop right left (List.replicate (left.length + right.length) 0))

def bitLengthAbs (limbs : List ℕ) : ℕ :=
  match (normalizeLimbs limbs).getLast? with
  | some last => ((normalizeLimbs limbs).length - 1) * 64 + last.size
  | none => 0

def testBit (limbs : List ℕ) (bit : ℕ) : Bool :=
  match limbs[bit / 64]? with
  | some value => (value >>> (bit % 64)) &&& 1 == 1
  | none => false

/-- Set a bit, growing the limbs when needed. -/
def setBit (limbs : List ℕ) (bit : ℕ) : List ℕ :=
  let limb := bit / 64
  let limbs := if limbs.length ≤ limb then limbs ++ List.replicate (limb + 1 - limbs.length) 0
    else limbs
  limbs.modify limb (· ||| (1 <<< (bit % 64)))

/-- The loop of `shl_abs` over the limbs. -/
def shlLoop (bitShift : ℕ) : List ℕ → ℕ → List ℕ
  | [], carry => [carry]
  | limb :: limbs, carry =>
    ((limb <<< bitShift) % 2 ^ 64 ||| carry) ::
      shlLoop bitShift limbs (if bitShift = 0 then 0 else limb >>> (64 - bitShift))

def shlAbs (limbs : List ℕ) (shift : ℕ) : List ℕ :=
  if (normalizeLimbs limbs).isEmpty then []
  else normalizeLimbs
    (List.replicate (shift / 64) 0 ++ shlLoop (shift % 64) (normalizeLimbs limbs) 0)

/-- The loop of `divmod_abs`, from the highest bit of the dividend down. -/
def divmodLoop (left right : List ℕ) : ℕ → List ℕ → List ℕ → List ℕ × List ℕ
  | 0, quotient, remainder => (quotient, remainder)
  | bit + 1, quotient, remainder =>
    let shifted := shlAbs remainder 1
    let remainder := if testBit left bit then setBit shifted 0 else shifted
    if cmpAbs remainder right ≠ .lt then
      divmodLoop left right bit (setBit quotient bit) (subAbs remainder right)
    else divmodLoop left right bit quotient remainder

/-- One iteration of the loop: the quotient and the remainder after it. -/
def divmodStep (left right : List ℕ) (bit : ℕ) (quotient remainder : List ℕ) :
    List ℕ × List ℕ :=
  let shifted := shlAbs remainder 1
  let remainder := if testBit left bit then setBit shifted 0 else shifted
  if cmpAbs remainder right ≠ .lt then (setBit quotient bit, subAbs remainder right)
  else (quotient, remainder)

theorem divmodLoop_succ (left right : List ℕ) (bit : ℕ) (quotient remainder : List ℕ) :
    divmodLoop left right (bit + 1) quotient remainder =
      divmodLoop left right bit (divmodStep left right bit quotient remainder).1
        (divmodStep left right bit quotient remainder).2 := by
  rw [divmodLoop, divmodStep]
  generalize (if testBit left bit then setBit (shlAbs remainder 1) 0
    else shlAbs remainder 1) = shifted
  split <;> rfl

def divmodAbs (left right : List ℕ) : List ℕ × List ℕ :=
  let left := normalizeLimbs left
  let right := normalizeLimbs right
  if right.isEmpty then ([], [])
  else if cmpAbs left right = .lt then ([], left)
  else
    let (quotient, remainder) := divmodLoop left right (bitLengthAbs left) [] []
    (normalizeLimbs quotient, normalizeLimbs remainder)

/-! ## Signed values -/

def subSigned (positive negativeMagnitude : List ℕ) : BigIntValue :=
  match cmpAbs positive negativeMagnitude with
  | .gt => .new false (subAbs positive negativeMagnitude)
  | .eq => ⟨false, []⟩
  | .lt => .new true (subAbs negativeMagnitude positive)

namespace BigIntValue

def add (v w : BigIntValue) : BigIntValue :=
  match v.isNegative, w.isNegative with
  | true, true => .new true (addAbs v.limbs w.limbs)
  | false, false => .new false (addAbs v.limbs w.limbs)
  | false, true => subSigned v.limbs w.limbs
  | true, false => subSigned w.limbs v.limbs

def sub (v w : BigIntValue) : BigIntValue := v.add (.new (!w.isNegative) w.limbs)

def mul (v w : BigIntValue) : BigIntValue :=
  .new (v.isNegative ^^ w.isNegative) (mulAbs v.limbs w.limbs)

def isZero (v : BigIntValue) : Bool := v.limbs.isEmpty

def divmod (v w : BigIntValue) : Option (BigIntValue × BigIntValue) :=
  if w.isZero then none
  else
    let (quotient, remainder) := divmodAbs v.limbs w.limbs
    some (.new (v.isNegative ^^ w.isNegative) quotient, .new v.isNegative remainder)

end BigIntValue

/-! ## Limbs -/

/-- Limbs of 64 bits. -/
def Limbs (ls : List ℕ) : Prop := ∀ l ∈ ls, l < 2 ^ 64

theorem Limbs.nil : Limbs [] := by simp [Limbs]

theorem Limbs.cons {l : ℕ} {ls : List ℕ} (h : l < 2 ^ 64) (hs : Limbs ls) : Limbs (l :: ls) := by
  intro m hm
  rcases List.mem_cons.mp hm with rfl | hm
  · exact h
  · exact hs m hm

theorem Limbs.head {l : ℕ} {ls : List ℕ} (h : Limbs (l :: ls)) : l < 2 ^ 64 := h l (by simp)

theorem Limbs.tail {l : ℕ} {ls : List ℕ} (h : Limbs (l :: ls)) : Limbs ls :=
  fun m hm => h m (by simp [hm])

theorem Limbs.normalize {ls : List ℕ} (h : Limbs ls) : Limbs (normalizeLimbs ls) :=
  fun l hl => h l (mem_normalizeLimbs hl)

/-! ## Addition -/

theorem addLoop_limbs (left right : List ℕ) (carry : ℕ) : Limbs (addLoop left right carry) := by
  fun_induction addLoop left right carry with
  | case1 carry h => exact .cons (Nat.mod_lt _ (by norm_num)) .nil
  | case2 => exact .nil
  | case3 l left carry ih => exact .cons (Nat.mod_lt _ (by norm_num)) ih
  | case4 r right carry ih => exact .cons (Nat.mod_lt _ (by norm_num)) ih
  | case5 l left r right carry ih => exact .cons (Nat.mod_lt _ (by norm_num)) ih

theorem limbsNat_addLoop {left right : List ℕ} {carry : ℕ} (hl : Limbs left) (hr : Limbs right)
    (hc : carry ≤ 1) :
    limbsNat (addLoop left right carry) = limbsNat left + limbsNat right + carry := by
  fun_induction addLoop left right carry with
  | case1 carry h =>
    simp only [limbsNat]
    omega
  | case2 carry h =>
    simp only [limbsNat]
    omega
  | case3 l left carry ih =>
    have := hl.head
    have hrec := ih hl.tail hr (by omega)
    simp only [limbsNat] at hrec ⊢
    omega
  | case4 r right carry ih =>
    have := hr.head
    have hrec := ih hl hr.tail (by omega)
    simp only [limbsNat] at hrec ⊢
    omega
  | case5 l left r right carry ih =>
    have := hl.head
    have := hr.head
    have hrec := ih hl.tail hr.tail (by omega)
    simp only [limbsNat] at hrec ⊢
    omega

theorem limbsNat_addAbs {left right : List ℕ} (hl : Limbs left) (hr : Limbs right) :
    limbsNat (addAbs left right) = limbsNat left + limbsNat right := by
  rw [addAbs, limbsNat_normalizeLimbs, limbsNat_addLoop hl hr (by omega), Nat.add_zero]

theorem addAbs_limbs (left right : List ℕ) : Limbs (addAbs left right) :=
  (addLoop_limbs left right 0).normalize

/-! ## Subtraction -/

theorem limbsNat_headD_tail (ls : List ℕ) : limbsNat ls = ls.headD 0 + 2 ^ 64 * limbsNat ls.tail := by
  cases ls <;> rfl

theorem Limbs.headD {ls : List ℕ} (h : Limbs ls) : ls.headD 0 < 2 ^ 64 := by
  cases ls with
  | nil => simp
  | cons l ls => exact h.head

theorem Limbs.tail' {ls : List ℕ} (h : Limbs ls) : Limbs ls.tail := fun m hm =>
  h m (List.mem_of_mem_tail hm)

theorem subLoop_limbs {left right : List ℕ} {borrow : ℕ} (hl : Limbs left) (hr : Limbs right) :
    Limbs (subLoop left right borrow) := by
  fun_induction subLoop left right borrow with
  | case1 => exact .nil
  | case2 minuend left right borrow subtrahend h ih =>
    have := hl.head
    exact .cons (by omega) (ih hl.tail hr.tail')
  | case3 minuend left right borrow subtrahend h ih =>
    have := hl.head
    exact .cons (by omega) (ih hl.tail hr.tail')

/-- What was subtracted and the difference add up to the minuend, when that is not smaller. -/
theorem limbsNat_subLoop {left right : List ℕ} {borrow : ℕ} (hl : Limbs left) (hr : Limbs right)
    (hb : borrow ≤ 1) (hle : limbsNat right + borrow ≤ limbsNat left) :
    limbsNat (subLoop left right borrow) + limbsNat right + borrow = limbsNat left := by
  fun_induction subLoop left right borrow with
  | case1 =>
    simp only [limbsNat] at hle ⊢
    omega
  | case2 minuend left right borrow subtrahend h ih =>
    have := hl.head
    have := hr.headD
    have hright := limbsNat_headD_tail right
    rw [limbsNat] at hle ⊢
    have hrec := ih hl.tail hr.tail' (by omega) (by omega)
    rw [limbsNat]
    omega
  | case3 minuend left right borrow subtrahend h ih =>
    have := hl.head
    have := hr.headD
    have hright := limbsNat_headD_tail right
    rw [limbsNat] at hle ⊢
    have hrec := ih hl.tail hr.tail' (by omega) (by omega)
    rw [limbsNat]
    omega

theorem limbsNat_subAbs {left right : List ℕ} (hl : Limbs left) (hr : Limbs right)
    (hle : limbsNat right ≤ limbsNat left) :
    limbsNat (subAbs left right) = limbsNat left - limbsNat right := by
  have h := limbsNat_subLoop hl hr (Nat.zero_le 1) hle
  rw [subAbs, limbsNat_normalizeLimbs]
  omega

theorem subAbs_limbs {left right : List ℕ} (hl : Limbs left) (hr : Limbs right) :
    Limbs (subAbs left right) := (subLoop_limbs hl hr).normalize

/-! ## Multiplication -/

theorem propagateCarry_limbs {out : List ℕ} {carry : ℕ} (ho : Limbs out) :
    Limbs (propagateCarry out carry) ∧ (propagateCarry out carry).length = out.length := by
  fun_induction propagateCarry out carry with
  | case1 => exact ⟨.nil, rfl⟩
  | case2 o out => exact ⟨ho, rfl⟩
  | case3 o out carry h ih =>
    obtain ⟨hlimbs, hlength⟩ := ih ho.tail
    exact ⟨.cons (Nat.mod_lt _ (by norm_num)) hlimbs, congrArg (· + 1) hlength⟩

/-- A value that fits the limbs leaves one that fits the limbs above the lowest. -/
theorem div_lt_of_lt_pow {n k : ℕ} (h : n < 2 ^ (64 * (k + 1))) : n / 2 ^ 64 < 2 ^ (64 * k) := by
  rw [Nat.div_lt_iff_lt_mul (by norm_num), ← pow_add]
  exact lt_of_lt_of_eq h (by ring_nf)

theorem limbsNat_propagateCarry {out : List ℕ} {carry : ℕ}
    (hroom : limbsNat out + carry < 2 ^ (64 * out.length)) :
    limbsNat (propagateCarry out carry) = limbsNat out + carry := by
  fun_induction propagateCarry out carry with
  | case1 carry =>
    simp only [limbsNat, List.length_nil] at hroom ⊢
    omega
  | case2 o out => rfl
  | case3 o out carry h ih =>
    simp only [limbsNat, List.length_cons] at hroom ⊢
    have hdiv := div_lt_of_lt_pow hroom
    rw [ih (by omega)]
    omega

theorem mulRow_limbs {l : ℕ} {right out : List ℕ} {carry : ℕ} (ho : Limbs out) :
    Limbs (mulRow l right out carry) ∧ (mulRow l right out carry).length = out.length := by
  fun_induction mulRow l right out carry with
  | case1 r right o out carry ih =>
    obtain ⟨hlimbs, hlength⟩ := ih ho.tail
    exact ⟨.cons (Nat.mod_lt _ (by norm_num)) hlimbs, congrArg (· + 1) hlength⟩
  | case2 => exact propagateCarry_limbs ho

/-- A row adds its product and the carry, when the result fits. -/
theorem limbsNat_mulRow {l : ℕ} {right out : List ℕ} {carry : ℕ}
    (hlength : right.length ≤ out.length)
    (hroom : limbsNat out + l * limbsNat right + carry < 2 ^ (64 * out.length)) :
    limbsNat (mulRow l right out carry) = limbsNat out + l * limbsNat right + carry := by
  fun_induction mulRow l right out carry with
  | case1 r right o out carry ih =>
    simp only [limbsNat, List.length_cons] at hroom hlength ⊢
    have hprod : l * (r + 2 ^ 64 * limbsNat right) = l * r + 2 ^ 64 * (l * limbsNat right) := by ring
    rw [hprod] at hroom ⊢
    have hdiv := div_lt_of_lt_pow hroom
    rw [ih (by omega) (by omega)]
    omega
  | case2 right out carry hnot =>
    have hright : right = [] := by
      cases right with
      | nil => rfl
      | cons r right =>
        cases out with
        | nil => simp at hlength
        | cons o out => exact (hnot r right o out rfl rfl).elim
    subst hright
    simp only [limbsNat, Nat.mul_zero, Nat.add_zero] at hroom ⊢
    exact limbsNat_propagateCarry hroom

theorem mulLoop_limbs {right left out : List ℕ} (ho : Limbs out) : Limbs (mulLoop right left out) := by
  fun_induction mulLoop right left out with
  | case1 => exact ho
  | case2 => exact .nil
  | case3 l left out o rest h ih =>
    have hrow : Limbs (o :: rest) := h ▸ (mulRow_limbs ho).1
    exact .cons hrow.head (ih hrow.tail)

/-- All rows together add the product. -/
theorem limbsNat_mulLoop {right left out : List ℕ} (hlength : left.length + right.length ≤ out.length)
    (ho : Limbs out)
    (hroom : limbsNat out + limbsNat left * limbsNat right < 2 ^ (64 * out.length)) :
    limbsNat (mulLoop right left out) = limbsNat out + limbsNat left * limbsNat right := by
  fun_induction mulLoop right left out with
  | case1 => simp [limbsNat]
  | case2 l left out h =>
    have hrow := (@mulRow_limbs l right out 0 ho).2
    rw [h] at hrow
    simp only [List.length_cons, List.length_nil] at hlength hrow
    omega
  | case3 l left out o rest h ih =>
    have hrow := @mulRow_limbs l right out 0 ho
    rw [h] at hrow
    simp only [List.length_cons] at hlength hrow
    have hprod : limbsNat (l :: left) * limbsNat right =
        l * limbsNat right + 2 ^ 64 * (limbsNat left * limbsNat right) := by
      rw [limbsNat]; ring
    rw [hprod] at hroom ⊢
    have hvalue := @limbsNat_mulRow l right out 0 (by omega) (by omega)
    rw [h, limbsNat] at hvalue
    rw [← hrow.2] at hroom
    have hdiv := div_lt_of_lt_pow hroom
    have hrec := ih (by omega) hrow.1.tail (by omega)
    rw [limbsNat, hrec]
    omega

theorem limbsNat_replicate_zero (n : ℕ) : limbsNat (List.replicate n 0) = 0 := by
  induction n with
  | zero => rfl
  | succ n ih => rw [List.replicate_succ, limbsNat, ih, Nat.mul_zero]

theorem limbsNat_eq_zero_of_isEmpty {ls : List ℕ} (h : (normalizeLimbs ls).isEmpty = true) :
    limbsNat ls = 0 := by
  rw [← limbsNat_normalizeLimbs, List.isEmpty_iff.mp h]
  rfl

theorem replicate_zero_limbs (n : ℕ) : Limbs (List.replicate n 0) := fun l hl => by
  rw [List.eq_of_mem_replicate hl]
  norm_num

theorem limbsNat_mulAbs {left right : List ℕ} (hl : Limbs left) (hr : Limbs right) :
    limbsNat (mulAbs left right) = limbsNat left * limbsNat right := by
  unfold mulAbs
  split
  · next h =>
    rcases Bool.or_eq_true_iff.mp h with h | h <;> simp [limbsNat, limbsNat_eq_zero_of_isEmpty h]
  · have hlt : limbsNat left * limbsNat right < 2 ^ (64 * (left.length + right.length)) := by
      rw [Nat.mul_add, pow_add]
      exact Nat.mul_lt_mul'' (limbsNat_lt hl) (limbsNat_lt hr)
    rw [limbsNat_normalizeLimbs, limbsNat_mulLoop (by simp) (replicate_zero_limbs _) (by
      simpa [limbsNat_replicate_zero] using hlt), limbsNat_replicate_zero, Nat.zero_add]

theorem mulAbs_limbs (left right : List ℕ) : Limbs (mulAbs left right) := by
  unfold mulAbs
  split
  · exact .nil
  · exact (mulLoop_limbs (replicate_zero_limbs _)).normalize

/-! ## Bits -/

theorem limbsNat_replicate_append (n : ℕ) (ls : List ℕ) :
    limbsNat (List.replicate n 0 ++ ls) = 2 ^ (64 * n) * limbsNat ls := by
  induction n with
  | zero => simp
  | succ n ih =>
    rw [List.replicate_succ, List.cons_append, limbsNat, ih, Nat.mul_succ, pow_add]
    ring

theorem limbsNat_append_replicate (n : ℕ) (ls : List ℕ) :
    limbsNat (ls ++ List.replicate n 0) = limbsNat ls := by
  induction ls with
  | nil => exact limbsNat_replicate_zero n
  | cons l ls ih => rw [List.cons_append, limbsNat, limbsNat, ih]

/-- Shifting loses no bits: what leaves a limb enters the next one. -/
theorem limbsNat_shlLoop {bitShift : ℕ} (hb : bitShift < 64) {ls : List ℕ} {carry : ℕ}
    (hl : Limbs ls) (hc : carry < 2 ^ bitShift) :
    limbsNat (shlLoop bitShift ls carry) = limbsNat ls * 2 ^ bitShift + carry ∧
      Limbs (shlLoop bitShift ls carry) := by
  have hpow : 2 ^ bitShift * 2 ^ (64 - bitShift) = 2 ^ 64 := by
    rw [← pow_add]
    congr 1
    omega
  induction ls generalizing carry with
  | nil =>
    have hlt : carry < 2 ^ 64 := hc.trans (Nat.pow_lt_pow_right (by norm_num) hb)
    exact ⟨by simp [shlLoop, limbsNat], .cons hlt .nil⟩
  | cons l ls ih =>
    have hlimb := hl.head
    have hout : (if bitShift = 0 then 0 else l >>> (64 - bitShift)) = l / 2 ^ (64 - bitShift) := by
      split
      · next h =>
        subst h
        exact (Nat.div_eq_of_lt hlimb).symm
      · exact Nat.shiftRight_eq_div_pow l (64 - bitShift)
    have hcarry : l / 2 ^ (64 - bitShift) < 2 ^ bitShift := by
      rw [Nat.div_lt_iff_lt_mul (Nat.two_pow_pos _), hpow]
      exact hlimb
    have hlow : (l <<< bitShift) % 2 ^ 64 ||| carry =
        2 ^ bitShift * (l % 2 ^ (64 - bitShift)) + carry := by
      rw [Nat.shiftLeft_eq, Nat.mul_comm l, ← hpow, Nat.mul_mod_mul_left,
        ← Nat.two_pow_add_eq_or_of_lt hc]
    have hlowlt : 2 ^ bitShift * (l % 2 ^ (64 - bitShift)) + carry < 2 ^ 64 := by
      have hmod := Nat.mod_lt l (Nat.two_pow_pos (64 - bitShift))
      have hle := Nat.mul_le_mul_left (2 ^ bitShift) (Nat.succ_le_of_lt hmod)
      rw [hpow, Nat.mul_succ] at hle
      omega
    obtain ⟨hvalue, hlimbs⟩ := ih hl.tail hcarry
    rw [shlLoop, hout, hlow]
    refine ⟨?_, .cons hlowlt hlimbs⟩
    have hdm := Nat.div_add_mod l (2 ^ (64 - bitShift))
    rw [limbsNat, limbsNat, hvalue]
    generalize l % 2 ^ (64 - bitShift) = low at hdm ⊢
    generalize l / 2 ^ (64 - bitShift) = high at hdm ⊢
    rw [← hdm, ← hpow]
    ring

theorem limbsNat_shlAbs {ls : List ℕ} (hl : Limbs ls) (shift : ℕ) :
    limbsNat (shlAbs ls shift) = limbsNat ls * 2 ^ shift ∧ Limbs (shlAbs ls shift) := by
  unfold shlAbs
  split
  · next h => exact ⟨by simp [limbsNat, limbsNat_eq_zero_of_isEmpty h], .nil⟩
  · obtain ⟨hvalue, hlimbs⟩ := limbsNat_shlLoop (Nat.mod_lt shift (by norm_num)) hl.normalize
      (Nat.two_pow_pos (shift % 64))
    refine ⟨?_, Limbs.normalize fun l hmem => ?_⟩
    · rw [limbsNat_normalizeLimbs, limbsNat_replicate_append, hvalue, limbsNat_normalizeLimbs,
        Nat.add_zero, Nat.mul_left_comm, ← pow_add, Nat.div_add_mod]
    · rcases List.mem_append.mp hmem with hmem | hmem
      · exact replicate_zero_limbs _ l hmem
      · exact hlimbs l hmem

theorem testBit_eq {ls : List ℕ} (hl : Limbs ls) (bit : ℕ) :
    testBit ls bit = (limbsNat ls).testBit bit := by
  induction ls generalizing bit with
  | nil => simp [testBit, limbsNat]
  | cons l ls ih =>
    have hcons := Nat.testBit_two_pow_mul_add (limbsNat ls) hl.head bit
    rw [limbsNat, Nat.add_comm, hcons]
    split
    · next hlt =>
      have hdiv : bit / 64 = 0 := Nat.div_eq_of_lt hlt
      have hmod : bit % 64 = bit := Nat.mod_eq_of_lt hlt
      simp only [testBit, hdiv, hmod, List.getElem?_cons_zero, Nat.testBit_eq_decide_div_mod_eq,
        Nat.shiftRight_eq_div_pow, Nat.and_one_is_mod]
      rfl
    · next hge =>
      have hdiv : bit / 64 = (bit - 64) / 64 + 1 := by omega
      have hmod : bit % 64 = (bit - 64) % 64 := by omega
      rw [← ih hl.tail (bit - 64)]
      simp only [testBit, hdiv, hmod, List.getElem?_cons_succ]

theorem limbsNat_modify_or {ls : List ℕ} (hl : Limbs ls) {limb offset : ℕ} (hoff : offset < 64)
    (hlimb : limb < ls.length) :
    limbsNat (ls.modify limb (· ||| (1 <<< offset))) = limbsNat ls ||| 2 ^ (64 * limb + offset) ∧
      Limbs (ls.modify limb (· ||| (1 <<< offset))) := by
  induction ls generalizing limb with
  | nil => simp at hlimb
  | cons l ls ih =>
    have hbit : 2 ^ offset < 2 ^ 64 := Nat.pow_lt_pow_right (by norm_num) hoff
    cases limb with
    | zero =>
      have hlt : l ||| 2 ^ offset < 2 ^ 64 := Nat.or_lt_two_pow hl.head hbit
      rw [List.modify_zero_cons, Nat.one_shiftLeft]
      refine ⟨?_, .cons hlt hl.tail⟩
      rw [limbsNat, limbsNat, Nat.mul_zero, Nat.zero_add, Nat.add_comm,
        Nat.two_pow_add_eq_or_of_lt hlt, Nat.add_comm l, Nat.two_pow_add_eq_or_of_lt hl.head,
        Nat.or_assoc]
    | succ limb =>
      obtain ⟨hvalue, hlimbs⟩ := ih hl.tail (Nat.lt_of_succ_lt_succ hlimb)
      rw [List.modify_succ_cons]
      refine ⟨?_, .cons hl.head hlimbs⟩
      have hpow : 2 ^ (64 * (limb + 1) + offset) = 2 ^ 64 * 2 ^ (64 * limb + offset) := by
        rw [← pow_add]
        congr 1
        ring
      rw [limbsNat, limbsNat, hvalue, hpow, Nat.add_comm, Nat.two_pow_add_eq_or_of_lt hl.head,
        Nat.add_comm l, Nat.two_pow_add_eq_or_of_lt hl.head, Nat.or_assoc, Nat.or_comm l,
        ← Nat.or_assoc]
      congr 1
      simp only [← Nat.shiftLeft_eq, Nat.mul_comm (2 ^ 64), Nat.shiftLeft_or_distrib]

theorem limbsNat_setBit {ls : List ℕ} (hl : Limbs ls) (bit : ℕ) :
    limbsNat (setBit ls bit) = limbsNat ls ||| 2 ^ bit ∧ Limbs (setBit ls bit) := by
  have hoff : bit % 64 < 64 := Nat.mod_lt bit (by norm_num)
  unfold setBit
  dsimp only
  split
  · next hle =>
    have hgrown : Limbs (ls ++ List.replicate (bit / 64 + 1 - ls.length) 0) := by
      intro l hmem
      rcases List.mem_append.mp hmem with hmem | hmem
      · exact hl l hmem
      · exact replicate_zero_limbs _ l hmem
    have hlength : bit / 64 < (ls ++ List.replicate (bit / 64 + 1 - ls.length) 0).length := by
      rw [List.length_append, List.length_replicate]
      omega
    have hset := limbsNat_modify_or hgrown hoff hlength
    rwa [limbsNat_append_replicate, Nat.div_add_mod] at hset
  · next hlt =>
    have hset := limbsNat_modify_or hl hoff (Nat.lt_of_not_le hlt)
    rwa [Nat.div_add_mod] at hset

theorem cmpAbs_eq {left right : List ℕ} (hl : Limbs left) (hr : Limbs right) :
    cmpAbs left right = compare (limbsNat left) (limbsNat right) := by
  rw [cmpAbs, compareMagnitude_eq (normalizeLimbs_idem _) (normalizeLimbs_idem _) hl.normalize
    hr.normalize, limbsNat_normalizeLimbs, limbsNat_normalizeLimbs]

theorem limbsNat_lt_bitLength {ls : List ℕ} (hl : Limbs ls) :
    limbsNat ls < 2 ^ bitLengthAbs ls := by
  rw [← limbsNat_normalizeLimbs, bitLengthAbs]
  have hnorm := hl.normalize
  generalize normalizeLimbs ls = ms at hnorm ⊢
  rcases List.eq_nil_or_concat ms with rfl | ⟨init, last, rfl⟩
  · simp [limbsNat]
  · rw [List.concat_eq_append] at hnorm ⊢
    have hinit := @limbsNat_lt init fun l hmem => hnorm l (by simp [hmem])
    have hlast : last < 2 ^ last.size := Nat.lt_size_self last
    have hle := Nat.mul_le_mul_left (2 ^ (64 * init.length)) (Nat.succ_le_of_lt hlast)
    rw [limbsNat_append_singleton]
    simp only [List.getLast?_append, List.getLast?_singleton, Option.some_or, List.length_append,
      List.length_singleton, Nat.add_sub_cancel]
    rw [pow_add, Nat.mul_comm init.length]
    rw [Nat.mul_succ] at hle
    omega

/-! ## Division -/

theorem or_two_pow {q bit : ℕ} (h : 2 ^ (bit + 1) ∣ q) : q ||| 2 ^ bit = q + 2 ^ bit := by
  obtain ⟨k, rfl⟩ := h
  exact (Nat.two_pow_add_eq_or_of_lt (Nat.pow_lt_pow_right (by norm_num) (by omega)) k).symm

theorem div_two_pow_succ (n bit : ℕ) :
    n / 2 ^ bit = 2 * (n / 2 ^ (bit + 1)) + (n.testBit bit).toNat := by
  have hbit : (n.testBit bit).toNat = n / 2 ^ bit % 2 := by
    rw [Nat.testBit_eq_decide_div_mod_eq]
    rcases Nat.mod_two_eq_zero_or_one (n / 2 ^ bit) with h | h <;> simp [h]
  rw [hbit, pow_succ, ← Nat.div_div_eq_div_mul]
  omega

/-- With some bits to go, the bits seen so far are divided: quotient digits times the divisor plus
the remainder. -/
structure DivmodState (left right : List ℕ) (bits : ℕ) (quotient remainder : List ℕ) : Prop where
  quotient_limbs : Limbs quotient
  remainder_limbs : Limbs remainder
  divides : 2 ^ bits ∣ limbsNat quotient
  value : limbsNat left / 2 ^ bits =
    limbsNat quotient / 2 ^ bits * limbsNat right + limbsNat remainder
  remainder_lt : limbsNat remainder < limbsNat right

theorem DivmodState.step {left right : List ℕ} (hl : Limbs left) (hr : Limbs right)
    {bit : ℕ} {quotient remainder : List ℕ}
    (h : DivmodState left right (bit + 1) quotient remainder) :
    DivmodState left right bit (divmodStep left right bit quotient remainder).1
      (divmodStep left right bit quotient remainder).2 := by
  obtain ⟨hshift, hshiftLimbs⟩ := limbsNat_shlAbs h.remainder_limbs 1
  -- the next bit of the dividend enters the remainder
  have hnext : limbsNat (if testBit left bit then setBit (shlAbs remainder 1) 0
      else shlAbs remainder 1) = 2 * limbsNat remainder + ((limbsNat left).testBit bit).toNat ∧
      Limbs (if testBit left bit then setBit (shlAbs remainder 1) 0 else shlAbs remainder 1) := by
    rw [testBit_eq hl]
    cases (limbsNat left).testBit bit with
    | false => exact ⟨by simp [hshift, Nat.mul_comm], hshiftLimbs⟩
    | true =>
      obtain ⟨hset, hsetLimbs⟩ := limbsNat_setBit hshiftLimbs 0
      refine ⟨?_, hsetLimbs⟩
      rw [if_pos rfl, hset, hshift, or_two_pow (Dvd.intro_left _ rfl)]
      simp [Nat.mul_comm]
  have hdvd : 2 ^ bit ∣ limbsNat quotient := (pow_dvd_pow 2 (Nat.le_succ bit)).trans h.divides
  have hvalue := h.value
  have hremainder := h.remainder_lt
  have hbits := div_two_pow_succ (limbsNat left) bit
  have hquotient : limbsNat quotient / 2 ^ bit = 2 * (limbsNat quotient / 2 ^ (bit + 1)) := by
    obtain ⟨k, hk⟩ := h.divides
    rw [hk, Nat.mul_div_cancel_left k (Nat.two_pow_pos _), pow_succ, Nat.mul_assoc,
      Nat.mul_div_cancel_left _ (Nat.two_pow_pos bit)]
  have hbit : ((limbsNat left).testBit bit).toNat ≤ 1 := Bool.toNat_le _
  rw [hvalue] at hbits
  rw [divmodStep]
  generalize hnew : (if testBit left bit then setBit (shlAbs remainder 1) 0
    else shlAbs remainder 1) = new at hnext ⊢
  obtain ⟨hnext, hnewLimbs⟩ := hnext
  have hexpand : 2 * (limbsNat quotient / 2 ^ (bit + 1) * limbsNat right + limbsNat remainder) =
      2 * (limbsNat quotient / 2 ^ (bit + 1)) * limbsNat right + 2 * limbsNat remainder := by ring
  rw [hexpand, ← hquotient] at hbits
  rw [cmpAbs_eq hnewLimbs hr]
  split
  · next hge =>
    have hle : limbsNat right ≤ limbsNat new := by
      rw [ne_eq, Nat.compare_eq_lt, Nat.not_lt] at hge
      exact hge
    obtain ⟨hset, hsetLimbs⟩ := limbsNat_setBit h.quotient_limbs bit
    rw [or_two_pow h.divides] at hset
    have hdiv : limbsNat (setBit quotient bit) / 2 ^ bit = limbsNat quotient / 2 ^ bit + 1 := by
      rw [hset, Nat.add_div_right _ (Nat.two_pow_pos bit)]
    have hsub := limbsNat_subAbs hnewLimbs hr hle
    refine ⟨hsetLimbs, subAbs_limbs hnewLimbs hr, ?_, ?_, ?_⟩
    · rw [hset]
      exact Nat.dvd_add hdvd dvd_rfl
    · rw [hdiv, Nat.succ_mul, hsub]
      omega
    · dsimp only
      omega
  · next hlt =>
    rw [ne_eq, not_not, Nat.compare_eq_lt] at hlt
    refine ⟨h.quotient_limbs, hnewLimbs, hdvd, ?_, hlt⟩
    dsimp only
    omega

theorem DivmodState.divmodLoop {left right : List ℕ} (hl : Limbs left) (hr : Limbs right)
    {bits : ℕ} {quotient remainder : List ℕ} (h : DivmodState left right bits quotient remainder) :
    DivmodState left right 0 (divmodLoop left right bits quotient remainder).1
      (divmodLoop left right bits quotient remainder).2 := by
  induction bits generalizing quotient remainder with
  | zero => exact h
  | succ bit ih =>
    rw [divmodLoop_succ]
    exact ih (h.step hl hr)

/-- The loop starts with nothing divided yet. -/
theorem DivmodState.start {left right : List ℕ} (hl : Limbs left) (hne : limbsNat right ≠ 0) :
    DivmodState (normalizeLimbs left) (normalizeLimbs right)
      (bitLengthAbs (normalizeLimbs left)) [] [] := by
  refine ⟨.nil, .nil, Dvd.intro 0 rfl, ?_, ?_⟩
  · rw [Nat.div_eq_of_lt (limbsNat_lt_bitLength hl.normalize)]
    simp [limbsNat]
  · rw [limbsNat_normalizeLimbs]
    exact Nat.pos_of_ne_zero hne

theorem limbsNat_divmodAbs {left right : List ℕ} (hl : Limbs left) (hr : Limbs right)
    (hne : limbsNat right ≠ 0) :
    limbsNat (divmodAbs left right).1 = limbsNat left / limbsNat right ∧
      limbsNat (divmodAbs left right).2 = limbsNat left % limbsNat right ∧
      Limbs (divmodAbs left right).1 ∧ Limbs (divmodAbs left right).2 := by
  have hnonempty : (normalizeLimbs right).isEmpty = false := by
    rw [← Bool.not_eq_true]
    exact fun h => hne (limbsNat_eq_zero_of_isEmpty h)
  unfold divmodAbs
  dsimp only
  rw [hnonempty, cmpAbs_eq hl.normalize hr.normalize, limbsNat_normalizeLimbs,
    limbsNat_normalizeLimbs, if_neg Bool.false_ne_true]
  split
  · next hlt =>
    rw [Nat.compare_eq_lt] at hlt
    refine ⟨?_, ?_, .nil, hl.normalize⟩
    · rw [Nat.div_eq_of_lt hlt]
      rfl
    · rw [limbsNat_normalizeLimbs, Nat.mod_eq_of_lt hlt]
  · have hend := (DivmodState.start hl hne).divmodLoop hl.normalize hr.normalize
    have hvalue := hend.value
    have hlt := hend.remainder_lt
    rw [limbsNat_normalizeLimbs] at hlt
    simp only [pow_zero, Nat.div_one, limbsNat_normalizeLimbs] at hvalue
    refine ⟨?_, ?_, hend.quotient_limbs.normalize, hend.remainder_limbs.normalize⟩
    · rw [limbsNat_normalizeLimbs, hvalue, Nat.mul_comm, Nat.mul_add_div (Nat.pos_of_ne_zero hne),
        Nat.div_eq_of_lt hlt, Nat.add_zero]
    · rw [limbsNat_normalizeLimbs, hvalue, Nat.mul_comm, Nat.mul_add_mod, Nat.mod_eq_of_lt hlt]

/-! ## Exact results -/

namespace BigIntValue

theorem new_canonical {limbs : List ℕ} (negative : Bool) (h : Limbs limbs) :
    (BigIntValue.new negative limbs).Canonical where
  normalized := normalizeLimbs_idem limbs
  limb_lt := h.normalize
  nonzero hneg hnil := by
    have hempty : normalizeLimbs limbs = [] := hnil
    simp [new, hempty] at hneg

theorem toInt_new (negative : Bool) (limbs : List ℕ) :
    (BigIntValue.new negative limbs).toInt =
      if negative then -(limbsNat limbs : ℤ) else limbsNat limbs := by
  rw [toInt, isNegative, new, limbsNat_normalizeLimbs]
  cases hempty : (normalizeLimbs limbs).isEmpty with
  | true => simp [limbsNat_eq_zero_of_isEmpty hempty]
  | false => simp

theorem toInt_eq (v : BigIntValue) :
    v.toInt = if v.isNegative then -(limbsNat v.limbs : ℤ) else limbsNat v.limbs := rfl

theorem subSigned_spec {positive negative : List ℕ} (hp : Limbs positive) (hn : Limbs negative) :
    (subSigned positive negative).toInt = (limbsNat positive : ℤ) - limbsNat negative ∧
      (subSigned positive negative).Canonical := by
  rw [subSigned, cmpAbs_eq hp hn]
  cases hcmp : compare (limbsNat positive) (limbsNat negative) with
  | gt =>
    have hlt := Nat.compare_eq_gt.mp hcmp
    refine ⟨?_, new_canonical _ (subAbs_limbs hp hn)⟩
    rw [toInt_new, limbsNat_subAbs hp hn hlt.le, Nat.cast_sub hlt.le, if_neg Bool.false_ne_true]
  | eq =>
    refine ⟨?_, rfl, by simp, by simp⟩
    rw [Nat.compare_eq_eq.mp hcmp]
    simp [toInt, isNegative, limbsNat]
  | lt =>
    have hlt := Nat.compare_eq_lt.mp hcmp
    refine ⟨?_, new_canonical _ (subAbs_limbs hn hp)⟩
    rw [toInt_new, limbsNat_subAbs hn hp hlt.le, Nat.cast_sub hlt.le, if_pos rfl, neg_sub]

theorem add_spec {v w : BigIntValue} (hv : v.Canonical) (hw : w.Canonical) :
    (v.add w).toInt = v.toInt + w.toInt ∧ (v.add w).Canonical := by
  have habs := limbsNat_addAbs hv.limb_lt hw.limb_lt
  have hlimbs := addAbs_limbs v.limbs w.limbs
  have hvw := subSigned_spec hv.limb_lt hw.limb_lt
  have hwv := subSigned_spec hw.limb_lt hv.limb_lt
  rw [add, toInt_eq v, toInt_eq w]
  cases v.isNegative <;> cases w.isNegative
  · refine ⟨?_, new_canonical _ hlimbs⟩
    simp [toInt_new, habs]
  · refine ⟨?_, hvw.2⟩
    simp only [hvw.1]
    simp
    ring
  · refine ⟨?_, hwv.2⟩
    simp only [hwv.1]
    simp
    ring
  · refine ⟨?_, new_canonical _ hlimbs⟩
    simp only [toInt_new, habs]
    simp
    ring

theorem sub_spec {v w : BigIntValue} (hv : v.Canonical) (hw : w.Canonical) :
    (v.sub w).toInt = v.toInt - w.toInt ∧ (v.sub w).Canonical := by
  obtain ⟨hvalue, hcanonical⟩ := add_spec hv (new_canonical (!w.isNegative) hw.limb_lt)
  refine ⟨?_, hcanonical⟩
  rw [sub, hvalue, toInt_new, toInt_eq w]
  cases w.isNegative
  · simp
    ring
  · simp

theorem mul_spec {v w : BigIntValue} (hv : v.Canonical) (hw : w.Canonical) :
    (v.mul w).toInt = v.toInt * w.toInt ∧ (v.mul w).Canonical := by
  refine ⟨?_, new_canonical _ (mulAbs_limbs v.limbs w.limbs)⟩
  rw [mul, toInt_new, limbsNat_mulAbs hv.limb_lt hw.limb_lt, toInt_eq v, toInt_eq w]
  cases v.isNegative <;> cases w.isNegative <;> simp

/-- The one canonical value that denotes an integer. -/
def IsCanonicalForm (u : BigIntValue) (i : ℤ) : Prop :=
  ∀ u' : BigIntValue, u'.Canonical ∧ u'.toInt = i ↔ u' = u

theorem IsCanonicalForm.of_canonical {u : BigIntValue} {i : ℤ} (hu : u.toInt = i ∧ u.Canonical) :
    u.IsCanonicalForm i := by
  intro u'
  constructor
  · rintro ⟨hcanonical, hvalue⟩
    exact hcanonical.toInt_injective hu.2 (hvalue.trans hu.1.symm)
  · rintro rfl
    exact hu.symm

/-- Addition, subtraction and multiplication return the canonical form of the exact result. -/
theorem ring_exact {v w : BigIntValue} (hv : v.Canonical) (hw : w.Canonical) :
    (v.add w).IsCanonicalForm (v.toInt + w.toInt) ∧
      (v.sub w).IsCanonicalForm (v.toInt - w.toInt) ∧
      (v.mul w).IsCanonicalForm (v.toInt * w.toInt) :=
  ⟨.of_canonical (add_spec hv hw), .of_canonical (sub_spec hv hw), .of_canonical (mul_spec hv hw)⟩

/-- A carry through two full limbs, and the borrow back. -/
theorem ring_exact_carry :
    let v : BigIntValue := ⟨false, [2 ^ 64 - 1, 2 ^ 64 - 1]⟩
    let w : BigIntValue := ⟨false, [1]⟩
    v.add w = ⟨false, [0, 0, 1]⟩ ∧ (v.add w).IsCanonicalForm (2 ^ 128) ∧
      (v.mul w).IsCanonicalForm (2 ^ 128 - 1) := by
  intro v w
  have hv : v.Canonical := ⟨by decide, by decide, by decide⟩
  have hw : w.Canonical := ⟨by decide, by decide, by decide⟩
  obtain ⟨hadd, -, hmul⟩ := ring_exact hv hw
  have hvalue : v.toInt = 2 ^ 128 - 1 := by decide
  have hone : w.toInt = 1 := by decide
  rw [hvalue, hone] at hadd hmul
  have hsum : (⟨false, [0, 0, 1]⟩ : BigIntValue) = v.add w :=
    (hadd _).mp ⟨⟨by decide, by decide, by decide⟩, by decide⟩
  exact ⟨hsum.symm, by simpa using hadd, by simpa using hmul⟩

theorem isZero_iff {v : BigIntValue} (hv : v.Canonical) : v.isZero = true ↔ v.toInt = 0 := by
  rw [isZero, List.isEmpty_iff, toInt_eq]
  constructor
  · intro h
    rw [h]
    simp [limbsNat]
  · intro h
    have hzero : limbsNat v.limbs = 0 := by
      split at h <;> omega
    by_contra hne
    have hle := le_limbsNat hv.normalized hne
    have hpos := Nat.two_pow_pos (64 * (v.limbs.length - 1))
    omega

/-- Division truncates toward zero and the remainder has the sign of the dividend. -/
theorem divmod_spec {v w : BigIntValue} (hv : v.Canonical) (hw : w.Canonical) :
    (w.toInt = 0 → v.divmod w = none) ∧
      (w.toInt ≠ 0 → ∃ q r, v.divmod w = some (q, r) ∧ q.toInt = v.toInt.tdiv w.toInt ∧
        r.toInt = v.toInt.tmod w.toInt ∧ q.Canonical ∧ r.Canonical) := by
  constructor
  · intro h
    rw [divmod, if_pos ((isZero_iff hw).mpr h)]
  · intro h
    have hne : limbsNat w.limbs ≠ 0 := by
      intro hzero
      rw [toInt_eq, hzero] at h
      simp at h
    obtain ⟨hq, hr, hqlimbs, hrlimbs⟩ := limbsNat_divmodAbs hv.limb_lt hw.limb_lt hne
    refine ⟨.new (v.isNegative ^^ w.isNegative) (divmodAbs v.limbs w.limbs).1,
      .new v.isNegative (divmodAbs v.limbs w.limbs).2, ?_, ?_, ?_, new_canonical _ hqlimbs,
      new_canonical _ hrlimbs⟩
    · rw [divmod, if_neg (fun hzero => h ((isZero_iff hw).mp hzero))]
    · rw [toInt_new, hq, toInt_eq v, toInt_eq w]
      cases v.isNegative <;> cases w.isNegative <;> simp
    · rw [toInt_new, hr, toInt_eq v, toInt_eq w]
      cases v.isNegative <;> cases w.isNegative <;> simp [Int.tmod_eq_emod_of_nonneg]

/-- A canonical value is demoted exactly when it fits an `i64`. -/
theorem toSmallI64_iff {v : BigIntValue} (hv : v.Canonical) (i : ℤ) :
    v.toSmallI64 = some i ↔ v.toInt = i ∧ -(2 ^ 63) ≤ i ∧ i < 2 ^ 63 := by
  have hnorm := hv.normalized
  rw [toSmallI64, toInt_eq]
  match hlimbs : v.limbs with
  | [] =>
    simp [limbsNat]
    omega
  | [limb] =>
    simp only [limbsNat, Nat.mul_zero, Nat.add_zero]
    split
    · split
      · simp; omega
      · split <;> simp <;> omega
    · split <;> simp <;> omega
  | l :: m :: rest =>
    have hle := le_limbsNat hnorm (by simp [hlimbs])
    have hpow : (2 : ℕ) ^ 64 ≤ 2 ^ (64 * (v.limbs.length - 1)) := by
      refine Nat.pow_le_pow_right (by norm_num) ?_
      simp [hlimbs]
    rw [hlimbs] at hle hpow
    simp only [reduceCtorEq, false_iff, not_and]
    intro hvalue hlow hhigh
    split at hvalue <;> omega

end BigIntValue

end Beamr.Term
