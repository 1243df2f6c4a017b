import Beamr.Term.BigIntMath

/-!
# Exactness of the long division

The division loop as a run of its own: the states it passes through, that it ends, and what
the quotient and the remainder of two signed values are.
-/
namespace Beamr.Term

/-- The states at the head of the loop while `divmod_abs` runs: bits still to do, quotient and
remainder. The loop is entered only past both early returns. -/
inductive InDivmodLoop (left right : List ℕ) : ℕ → List ℕ → List ℕ → Prop
  | enter : (normalizeLimbs right).isEmpty = false →
      cmpAbs (normalizeLimbs left) (normalizeLimbs right) ≠ .lt →
      InDivmodLoop left right (bitLengthAbs (normalizeLimbs left)) [] []
  | next {bit : ℕ} {quotient remainder : List ℕ} :
      InDivmodLoop left right (bit + 1) quotient remainder →
      InDivmodLoop left right bit
        (divmodStep (normalizeLimbs left) (normalizeLimbs right) bit quotient remainder).1
        (divmodStep (normalizeLimbs left) (normalizeLimbs right) bit quotient remainder).2

theorem limbsNat_eq_zero_iff (limbs : List ℕ) :
    limbsNat limbs = 0 ↔ (normalizeLimbs limbs).isEmpty = true := by
  constructor
  · intro hzero
    by_contra hne
    rw [List.isEmpty_iff] at hne
    have hle := le_limbsNat (normalizeLimbs_idem limbs) hne
    rw [limbsNat_normalizeLimbs, hzero] at hle
    have hpos := Nat.two_pow_pos (64 * ((normalizeLimbs limbs).length - 1))
    omega
  · exact limbsNat_eq_zero_of_isEmpty

namespace InDivmodLoop

variable {left right : List ℕ} {bit : ℕ} {quotient remainder : List ℕ}

/-- The divisor of a running loop is not zero. -/
theorem divisor_ne_zero (h : InDivmodLoop left right bit quotient remainder) :
    limbsNat right ≠ 0 := by
  induction h with
  | enter hnonempty =>
    rw [ne_eq, limbsNat_eq_zero_iff, hnonempty]
    exact Bool.false_ne_true
  | next _ ih => exact ih

/-- Every state of the loop satisfies the loop invariant. -/
theorem state (hl : Limbs left) (hr : Limbs right)
    (h : InDivmodLoop left right bit quotient remainder) :
    DivmodState (normalizeLimbs left) (normalizeLimbs right) bit quotient remainder := by
  induction h with
  | enter hnonempty =>
    refine .start hl ?_
    rw [ne_eq, limbsNat_eq_zero_iff, hnonempty]
    exact Bool.false_ne_true
  | next _ ih => exact ih.step hl.normalize hr.normalize

theorem bit_le (h : InDivmodLoop left right bit quotient remainder) :
    bit ≤ bitLengthAbs (normalizeLimbs left) := by
  induction h with
  | enter => exact le_rfl
  | next _ ih => omega

/-- From every state the loop goes on to its end, where `divmod_abs` reads its result. -/
theorem ends (h : InDivmodLoop left right bit quotient remainder) :
    InDivmodLoop left right 0
      (divmodLoop (normalizeLimbs left) (normalizeLimbs right) bit quotient remainder).1
      (divmodLoop (normalizeLimbs left) (normalizeLimbs right) bit quotient remainder).2 := by
  induction bit generalizing quotient remainder with
  | zero => exact h
  | succ bit ih =>
    rw [divmodLoop_succ]
    exact ih h.next

end InDivmodLoop

/-- The loop as a whole: it is entered only with a divisor that is not zero, counts the bits of
the dividend down to its last state, and its remainder stays below the divisor. -/
structure LoopRuns (left right : List ℕ) : Prop where
  divisor_ne_zero : ∀ bit quotient remainder,
    InDivmodLoop left right bit quotient remainder → limbsNat right ≠ 0
  remainder_lt : ∀ bit quotient remainder,
    InDivmodLoop left right bit quotient remainder → limbsNat remainder < limbsNat right
  ends : ∀ bit quotient remainder, InDivmodLoop left right bit quotient remainder →
    bit ≤ bitLengthAbs (normalizeLimbs left) ∧ ∃ quotient' remainder',
      InDivmodLoop left right 0 quotient' remainder' ∧
        divmodAbs left right = (normalizeLimbs quotient', normalizeLimbs remainder')

theorem loopRuns {left right : List ℕ} (hl : Limbs left) (hr : Limbs right) :
    LoopRuns left right where
  divisor_ne_zero _ _ _ h := h.divisor_ne_zero
  remainder_lt _ _ _ h := by
    have hlt := (h.state hl hr).remainder_lt
    rw [limbsNat_normalizeLimbs] at hlt
    exact hlt
  ends bit quotient remainder h := by
    refine ⟨h.bit_le, ?_⟩
    have henter : (normalizeLimbs right).isEmpty = false ∧
        cmpAbs (normalizeLimbs left) (normalizeLimbs right) ≠ .lt := by
      induction h with
      | enter hnonempty hge => exact ⟨hnonempty, hge⟩
      | next _ ih => exact ih
    refine ⟨_, _, (InDivmodLoop.enter henter.1 henter.2).ends, ?_⟩
    simp only [divmodAbs]
    rw [henter.1, if_neg Bool.false_ne_true, if_neg henter.2]

namespace BigIntValue

/-- Division is exact. A zero divisor is reported; otherwise the quotient and the remainder are
canonical, the remainder is smaller than the divisor and zero or of the sign of the dividend. The
loop over the bits of the dividend never runs with a zero divisor and reaches its end. -/
theorem division_exact {v w : BigIntValue} (hv : v.Canonical) (hw : w.Canonical) :
    (v.divmod w = none ↔ w.toInt = 0) ∧
    (w.toInt ≠ 0 → ∃ q r, v.divmod w = some (q, r) ∧ q.Canonical ∧ r.Canonical ∧
      v.toInt = q.toInt * w.toInt + r.toInt ∧ |r.toInt| < |w.toInt| ∧
      (r.toInt = 0 ∨ r.toInt.sign = v.toInt.sign)) ∧
    LoopRuns v.limbs w.limbs := by
  obtain ⟨hzero, hdivides⟩ := divmod_spec hv hw
  refine ⟨⟨?_, hzero⟩, ?_, loopRuns hv.limb_lt hw.limb_lt⟩
  · intro hnone
    by_contra hne
    obtain ⟨q, r, hsome, -⟩ := hdivides hne
    rw [hsome] at hnone
    cases hnone
  · intro hne
    obtain ⟨q, r, hsome, hq, hr, hqc, hrc⟩ := hdivides hne
    refine ⟨q, r, hsome, hqc, hrc, ?_, ?_, ?_⟩
    · rw [hq, hr, Int.mul_comm]
      exact (Int.mul_tdiv_add_tmod v.toInt w.toInt).symm
    · rw [hr, Int.abs_eq_natAbs, Int.abs_eq_natAbs, Int.natAbs_tmod]
      exact_mod_cast Nat.mod_lt _ (Int.natAbs_pos.mpr hne)
    · by_cases hr0 : r.toInt = 0
      · exact .inl hr0
      · right
        rw [hr] at hr0 ⊢
        rcases lt_trichotomy v.toInt 0 with hneg | hv0 | hpos
        · have hle : v.toInt.tmod w.toInt ≤ 0 := by
            have := Int.tmod_nonneg w.toInt (a := -v.toInt) (by omega)
            rw [Int.neg_tmod] at this
            omega
          rw [Int.sign_eq_neg_one_of_neg hneg, Int.sign_eq_neg_one_of_neg (by omega)]
        · rw [hv0, Int.zero_tmod] at hr0
          exact (hr0 rfl).elim
        · have hle := Int.tmod_nonneg w.toInt hpos.le
          rw [Int.sign_eq_one_of_pos hpos, Int.sign_eq_one_of_pos (by omega)]

/-- `-(2^64 + 5)` by `7` across a limb boundary. -/
theorem division_exact_limbs :
    let v : BigIntValue := ⟨true, [5, 1]⟩
    let w : BigIntValue := ⟨false, [7]⟩
    ∃ q r, v.divmod w = some (q, r) ∧ q.Canonical ∧ r.Canonical ∧
      -(2 ^ 64 + 5) = q.toInt * 7 + r.toInt ∧ |r.toInt| < 7 := by
  intro v w
  have hv : v.Canonical := ⟨by decide, by decide, by decide⟩
  have hw : w.Canonical := ⟨by decide, by decide, by decide⟩
  obtain ⟨-, hdivides, -⟩ := division_exact hv hw
  obtain ⟨q, r, hsome, hqc, hrc, hvalue, hlt, -⟩ := hdivides (by decide)
  exact ⟨q, r, hsome, hqc, hrc, hvalue, hlt⟩

end BigIntValue

end Beamr.Term
