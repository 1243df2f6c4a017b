import Beamr.Term.Ties

/-!
# Integer terms

What the comparisons of terms say of two integers, in whatever representation they reach
them: a small integer, a bignum, a bignum that would fit a small integer, or one with high
zero limbs.
-/
namespace Beamr.Term

namespace Number

/-- Kept as a small integer. -/
def isSmallInt : Number → Bool
  | .smallInt _ => true
  | _ => false

/-- The representation the arithmetic results use: a bignum only outside the small range. -/
def Demoted : Number → Prop
  | .bigInt negative limbs =>
    ¬ (-(2 ^ 60) ≤ (BigIntValue.fromBigInt negative limbs).toInt ∧
      (BigIntValue.fromBigInt negative limbs).toInt < 2 ^ 60)
  | _ => True

end Number

section Terms

variable {a b : Number} {i j : ℤ}

/-- Integers order by value, whatever their representations. -/
theorem cmp_integers (table : AtomTable) (ha : a.intValue = some i) (hb : b.intValue = some j) :
    cmp table (.number a) (.number b) = compare i j := by
  rw [cmp_number, compareNumbers_eq, ha, hb]

theorem numericEq_integers (ha : a.intValue = some i) (hb : b.intValue = some j) :
    numericEq (.number a) (.number b) = decide (i = j) := by
  rw [numericEq, numericEqNumbers_eq, ha, hb]

theorem compare_beq_eq (i j : ℤ) : (compare i j == .eq) = decide (i = j) := by
  rw [Bool.eq_iff_iff, beq_iff_eq, decide_eq_true_eq]
  exact Int.compare_eq_eq

/-- Exact equality tells a small integer from a bignum, and otherwise compares integers. -/
theorem exactEq_integers (ha : a.intValue = some i) (hb : b.intValue = some j) :
    exactEq (.number a) (.number b) = decide (i = j ∧ a.isSmallInt = b.isSmallInt) := by
  rw [exactEq, exactCmp_number]
  cases a with
  | smallInt n =>
    cases ha
    cases b with
    | smallInt m =>
      cases hb
      simpa [Number.isSmallInt, compareNumbersExact, exactKind] using compare_beq_eq n.value m.value
    | float y => cases hb
    | bigInt t ms => simp [Number.isSmallInt, exactKind, ExactKind.place]
  | float x => cases ha
  | bigInt s ls =>
    cases ha
    cases b with
    | smallInt m => simp [Number.isSmallInt, exactKind, ExactKind.place]
    | float y => cases hb
    | bigInt t ms =>
      cases hb
      simpa [Number.isSmallInt, compareNumbersExact, exactKind, compareBigInts_eq] using
        compare_beq_eq (BigIntValue.fromBigInt s ls).toInt (BigIntValue.fromBigInt t ms).toInt

/-- Two demoted representations of one integer are of one kind. -/
theorem isSmallInt_eq_of_demoted (ha : a.intValue = some i) (hb : b.intValue = some i)
    (hda : a.Demoted) (hdb : b.Demoted) : a.isSmallInt = b.isSmallInt := by
  cases a with
  | smallInt n =>
    cases ha
    cases b with
    | smallInt m => rfl
    | float y => cases hb
    | bigInt t ms =>
      have hvalue : (BigIntValue.fromBigInt t ms).toInt = n.value := Option.some.inj hb
      rw [Number.Demoted, hvalue] at hdb
      exact (hdb ⟨n.min_le, n.lt_max⟩).elim
  | float x => cases ha
  | bigInt s ls =>
    cases ha
    cases b with
    | smallInt m =>
      have hvalue : m.value = (BigIntValue.fromBigInt s ls).toInt := Option.some.inj hb
      rw [Number.Demoted, ← hvalue] at hda
      exact (hda ⟨m.min_le, m.lt_max⟩).elim
    | float y => cases hb
    | bigInt t ms => rfl

/-- In every mix of small integers and bignums, `cmp` is the order of the integers and numeric
equality their equality. Exact equality is their equality within one representation, never holds
between a small integer and a bignum, and so is the equality of the integers wherever bignums are
only used outside the small range. -/
theorem integer_comparison (table : AtomTable) (ha : a.intValue = some i)
    (hb : b.intValue = some j) :
    cmp table (.number a) (.number b) = compare i j ∧
    numericEq (.number a) (.number b) = decide (i = j) ∧
    (a.isSmallInt = b.isSmallInt → exactEq (.number a) (.number b) = decide (i = j)) ∧
    (a.isSmallInt ≠ b.isSmallInt → exactEq (.number a) (.number b) = false) ∧
    (a.Demoted → b.Demoted → exactEq (.number a) (.number b) = decide (i = j)) := by
  have hexact := exactEq_integers ha hb
  refine ⟨cmp_integers table ha hb, numericEq_integers ha hb, ?_, ?_, ?_⟩
  · intro hsame
    rw [hexact]
    simp [hsame]
  · intro hmixed
    rw [hexact]
    simp [hmixed]
  · intro hda hdb
    rw [hexact, decide_eq_decide]
    constructor
    · exact And.left
    · rintro rfl
      exact ⟨rfl, isSmallInt_eq_of_demoted ha hb hda hdb⟩

/-- `-5` against a bignum of `-5` with a high zero limb. -/
theorem integer_comparison_padded :
    let a : Number := .smallInt ⟨-5, by decide, by decide⟩
    let b : Number := .bigInt true [5, 0]
    cmp AtomTable.withCommonAtoms (.number a) (.number b) = compare (-5 : ℤ) (-5) ∧
      numericEq (.number a) (.number b) = true ∧ exactEq (.number a) (.number b) = false := by
  intro a b
  have ha : a.intValue = some (-5) := rfl
  have hb : b.intValue = some (-5) := by decide
  obtain ⟨hcmp, hnumeric, -, hexact, -⟩ := integer_comparison AtomTable.withCommonAtoms ha hb
  exact ⟨hcmp, hnumeric.trans rfl, hexact (by decide)⟩

/-- A small integer and a bignum of the same integer are not exactly equal. -/
theorem not_exactEq_integers : ¬ ∀ (a b : Number) (i j : ℤ), a.intValue = some i →
    b.intValue = some j → exactEq (.number a) (.number b) = decide (i = j) := by
  intro hclaim
  have hbig : Number.intValue (.bigInt false [42]) = some 42 := by decide
  have h := hclaim (.smallInt ⟨42, by decide, by decide⟩) (.bigInt false [42]) 42 42 rfl hbig
  rw [exactEq_integers rfl hbig] at h
  exact absurd h (by decide)

end Terms

end Beamr.Term
