import Beamr.Interpreter.Basic
import Beamr.Term.BigIntMath

/-!
# Integer arithmetic of the native functions

The natives behind `+`, `-`, `*`, `div` and `rem` on integers of any size. Operands and
results that fit are small integers; everything else goes through bignum values and
allocates the result.
-/
namespace Beamr.Native

open Term Interpreter

/-- What a native function sees of its process. An allocation may collect: objects move and the
registers that hold them change. -/
structure Context where
  memory : Memory
  registers : Registers
  live : ℕ

/-- A function registered as a native: a term or an error term. Collections keep the stack frames
as they are. -/
structure NativeFunction where
  call : Context → List Word → Except Word Word × Context
  keepsFrame : ∀ context args,
    (call context args).2.registers.y.length = context.registers.y.length

/-- A new bignum on the process heap, or an error term when the heap cannot grow. -/
structure Allocator where
  allocBigint : Context → Bool → List ℕ → Except Word Word × Context
  pointer : ∀ context negative limbs w,
    (allocBigint context negative limbs).1 = .ok w → w.isPointer = true
  keepsFrame : ∀ context negative limbs,
    (allocBigint context negative limbs).2.registers.y.length = context.registers.y.length

def badarith : Word := Word.ofAtom 10

/-- The bignum value of an integer term. -/
def bigIntFromTerm (memory : Memory) (w : Word) : Option BigIntValue :=
  match memory.read w with
  | .number (.smallInt n) => some (.fromI64 n.value)
  | .number (.bigInt negative limbs) => some (.fromBigInt negative limbs)
  | _ => none

def twoIntegerValues (memory : Memory) : List Word → Except Word (BigIntValue × BigIntValue)
  | [left, right] =>
    match bigIntFromTerm memory left, bigIntFromTerm memory right with
    | some v, some w => .ok (v, w)
    | _, _ => .error badarith
  | _ => .error badarith

def integerResult (allocator : Allocator) (value : BigIntValue) (context : Context) :
    Except Word Word × Context :=
  match value.toSmallI64.bind trySmallInt with
  | some w => (.ok w, context)
  | none => allocator.allocBigint context value.isNegative value.limbs

/-- An integer that fits `i64`. -/
def checkedI64 (i : ℤ) : Option ℤ := if -(2 ^ 63) ≤ i ∧ i < 2 ^ 63 then some i else none

/-- Small operands first, bignum values when that gives no small result. -/
def arithmetic (allocator : Allocator) (smallOperation : ℤ → ℤ → Option ℤ)
    (bigOperation : BigIntValue → BigIntValue → BigIntValue) (context : Context)
    (args : List Word) : Except Word Word × Context :=
  match twoIntegerValues context.memory args with
  | .error e => (.error e, context)
  | .ok (left, right) =>
    let small := do
      let l ← left.toSmallI64
      let r ← right.toSmallI64
      let result ← smallOperation l r
      trySmallInt result
    match small with
    | some w => (.ok w, context)
    | none => integerResult allocator (bigOperation left right) context

def checkedDiv (l r : ℤ) : Option ℤ := if r = 0 then none else checkedI64 (l.tdiv r)

/-- `i64::MIN rem -1` overflows as the division does. -/
def checkedRem (l r : ℤ) : Option ℤ :=
  if r = 0 then none else if (checkedI64 (l.tdiv r)).isSome then some (l.tmod r) else none

def checkedDivRem (quotient : Bool) (l r : ℤ) : Option ℤ :=
  if quotient then checkedDiv l r else checkedRem l r

def divRem (allocator : Allocator) (quotient : Bool) (context : Context) (args : List Word) :
    Except Word Word × Context :=
  match twoIntegerValues context.memory args with
  | .error e => (.error e, context)
  | .ok (left, right) =>
    if right.isZero then (.error badarith, context)
    else
      let small := do
        let l ← left.toSmallI64
        let r ← right.toSmallI64
        let result ← checkedDivRem quotient l r
        trySmallInt result
      match small with
      | some w => (.ok w, context)
      | none =>
        match left.divmod right with
        | none => (.error badarith, context)
        | some (bigQuotient, bigRemainder) =>
          integerResult allocator (if quotient then bigQuotient else bigRemainder) context

inductive ArithmeticOp
  | add | subtract | multiply | div | rem
  deriving DecidableEq

namespace ArithmeticOp

/-- The native function of each operator. -/
def call (allocator : Allocator) : ArithmeticOp → Context → List Word → Except Word Word × Context
  | .add => arithmetic allocator (fun l r => checkedI64 (l + r)) BigIntValue.add
  | .subtract => arithmetic allocator (fun l r => checkedI64 (l - r)) BigIntValue.sub
  | .multiply => arithmetic allocator (fun l r => checkedI64 (l * r)) BigIntValue.mul
  | .div => divRem allocator true
  | .rem => divRem allocator false

/-- The integer function of each operator; division by zero has no value. -/
def apply : ArithmeticOp → ℤ → ℤ → Option ℤ
  | .add, a, b => some (a + b)
  | .subtract, a, b => some (a - b)
  | .multiply, a, b => some (a * b)
  | .div, a, b => if b = 0 then none else some (a.tdiv b)
  | .rem, a, b => if b = 0 then none else some (a.tmod b)

end ArithmeticOp

theorem integerResult_keepsFrame (allocator : Allocator) (value : BigIntValue) (context : Context) :
    (integerResult allocator value context).2.registers.y.length = context.registers.y.length := by
  unfold integerResult
  split
  · rfl
  · exact allocator.keepsFrame _ _ _

theorem arithmetic_keepsFrame (allocator : Allocator) (smallOperation : ℤ → ℤ → Option ℤ)
    (bigOperation : BigIntValue → BigIntValue → BigIntValue) (context : Context)
    (args : List Word) :
    (arithmetic allocator smallOperation bigOperation context args).2.registers.y.length =
      context.registers.y.length := by
  unfold arithmetic
  split
  · rfl
  · dsimp only
    split
    · rfl
    · exact integerResult_keepsFrame _ _ _

theorem divRem_keepsFrame (allocator : Allocator) (quotient : Bool) (context : Context)
    (args : List Word) :
    (divRem allocator quotient context args).2.registers.y.length =
      context.registers.y.length := by
  unfold divRem
  split
  · rfl
  · split
    · rfl
    · dsimp only
      split
      · rfl
      · split
        · rfl
        · exact integerResult_keepsFrame _ _ _

/-- The registered native of each operator. -/
def ArithmeticOp.function (allocator : Allocator) (op : ArithmeticOp) : NativeFunction where
  call := op.call allocator
  keepsFrame context args := by
    cases op with
    | add | subtract | multiply => exact arithmetic_keepsFrame _ _ _ _ _
    | div | rem => exact divRem_keepsFrame _ _ _ _

/-! ## The integers behind the words -/

/-- The integer a word stands for. -/
def integerOf (memory : Memory) (w : Word) : Option ℤ :=
  match memory.read w with
  | .number n => n.intValue
  | _ => none

theorem bigIntFromTerm_spec (memory : Memory) (w : Word) :
    match bigIntFromTerm memory w with
    | some v => v.Canonical ∧ integerOf memory w = some v.toInt
    | none => integerOf memory w = none := by
  unfold bigIntFromTerm integerOf
  cases memory.read w with
  | number n =>
    cases n with
    | smallInt i =>
      refine ⟨BigIntValue.fromI64_canonical i.natAbs_lt, ?_⟩
      rw [BigIntValue.toInt_fromI64]
      rfl
    | float x => rfl
    | bigInt s ls => exact ⟨BigIntValue.fromBigInt_canonical s ls, rfl⟩
  | _ => rfl

theorem trySmallInt_eq_some {i : ℤ} {w : Word} :
    trySmallInt i = some w ↔ ∃ n : SmallInt, n.value = i ∧ Word.ofSmallInt n = w := by
  unfold trySmallInt
  split
  · next h =>
    constructor
    · rintro hw
      exact ⟨⟨i, h.1, h.2⟩, rfl, Option.some.inj hw⟩
    · rintro ⟨⟨j, hj, hj'⟩, rfl, rfl⟩
      rfl
  · next h =>
    constructor
    · intro hw
      cases hw
    · rintro ⟨n, rfl, -⟩
      exact absurd ⟨n.min_le, n.lt_max⟩ h

/-- What a native returns for an integer result: the small integer, or a new bignum. -/
def Returns (allocator : Allocator) (context : Context) (c : ℤ)
    (result : Except Word Word × Context) : Prop :=
  match trySmallInt c with
  | some w => result = (.ok w, context)
  | none => ∃ v : BigIntValue, v.Canonical ∧ v.toInt = c ∧
      result = allocator.allocBigint context v.isNegative v.limbs

theorem integerResult_returns {allocator : Allocator} {v : BigIntValue} {context : Context}
    (hv : v.Canonical) :
    Returns allocator context v.toInt (integerResult allocator v context) := by
  have hsmall : v.toSmallI64.bind trySmallInt = trySmallInt v.toInt := by
    cases hi : v.toSmallI64 with
    | some i =>
      rw [((BigIntValue.toSmallI64_iff hv i).mp hi).1]
      rfl
    | none =>
      cases hw : trySmallInt v.toInt with
      | none => rfl
      | some w =>
        obtain ⟨n, hn, -⟩ := trySmallInt_eq_some.mp hw
        have hfits := (BigIntValue.toSmallI64_iff hv n.value).mpr
          ⟨hn.symm, by have := n.min_le; omega, by have := n.lt_max; omega⟩
        rw [hfits] at hi
        cases hi
  rw [Returns, integerResult, hsmall]
  cases trySmallInt v.toInt with
  | some w => rfl
  | none => exact ⟨v, hv, rfl, rfl⟩

/-- An attempt on small operands that only gives right answers changes nothing. -/
theorem small_returns {allocator : Allocator} {context : Context} {c : ℤ}
    {result : Except Word Word × Context} (hbig : Returns allocator context c result)
    (small : Option Word) : (∀ w, small = some w → trySmallInt c = some w) →
    Returns allocator context c (match small with
      | some w => (.ok w, context)
      | none => result) := by
  intro hsmall
  cases small with
  | none => exact hbig
  | some w => simp only [Returns, hsmall w rfl]

/-- What a binary native of the integers must do: a result for two integers, an error otherwise. -/
def Computes (allocator : Allocator) (f : ℤ → ℤ → Option ℤ) (context : Context) (l r : Word)
    (result : Except Word Word × Context) : Prop :=
  match integerOf context.memory l, integerOf context.memory r with
  | some a, some b =>
    match f a b with
    | some c => Returns allocator context c result
    | none => result = (.error badarith, context)
  | _, _ => result = (.error badarith, context)

/-- Two words either both hold integers, with their canonical values, or the native fails. -/
theorem twoIntegerValues_spec (memory : Memory) (l r : Word) :
    (∃ v w : BigIntValue, v.Canonical ∧ w.Canonical ∧ integerOf memory l = some v.toInt ∧
        integerOf memory r = some w.toInt ∧ twoIntegerValues memory [l, r] = .ok (v, w)) ∨
      ((integerOf memory l = none ∨ integerOf memory r = none) ∧
        twoIntegerValues memory [l, r] = .error badarith) := by
  have hl := bigIntFromTerm_spec memory l
  have hr := bigIntFromTerm_spec memory r
  cases hv : bigIntFromTerm memory l with
  | none =>
    rw [hv] at hl
    exact .inr ⟨.inl hl, by simp only [twoIntegerValues, hv]⟩
  | some v =>
    rw [hv] at hl
    cases hw : bigIntFromTerm memory r with
    | none =>
      rw [hw] at hr
      exact .inr ⟨.inr hr, by simp only [twoIntegerValues, hv, hw]⟩
    | some w =>
      rw [hw] at hr
      exact .inl ⟨v, w, hl.1, hr.1, hl.2, hr.2, by simp only [twoIntegerValues, hv, hw]⟩

theorem computes_error {allocator : Allocator} {f : ℤ → ℤ → Option ℤ} {context : Context}
    {l r : Word} (h : integerOf context.memory l = none ∨ integerOf context.memory r = none) :
    Computes allocator f context l r (.error badarith, context) := by
  unfold Computes
  rcases h with h | h <;> rw [h]
  cases integerOf context.memory l <;> rfl

theorem arithmetic_computes {allocator : Allocator} {smallOperation : ℤ → ℤ → Option ℤ}
    {bigOperation : BigIntValue → BigIntValue → BigIntValue} {f : ℤ → ℤ → ℤ}
    (hsmall : ∀ a b, smallOperation a b = checkedI64 (f a b))
    (hbig : ∀ v w : BigIntValue, v.Canonical → w.Canonical →
      (bigOperation v w).toInt = f v.toInt w.toInt ∧ (bigOperation v w).Canonical)
    (context : Context) (l r : Word) :
    Computes allocator (fun a b => some (f a b)) context l r
      (arithmetic allocator smallOperation bigOperation context [l, r]) := by
  rcases twoIntegerValues_spec context.memory l r with ⟨v, w, hv, hw, hl, hr, hvw⟩ | ⟨hnone, hvw⟩
  · obtain ⟨hvalue, hcanonical⟩ := hbig v w hv hw
    have hresult : Returns allocator context (f v.toInt w.toInt)
        (integerResult allocator (bigOperation v w) context) :=
      hvalue ▸ integerResult_returns hcanonical
    simp only [Computes, hl, hr, arithmetic, hvw]
    refine small_returns hresult _ ?_
    intro word hword
    simp only [Option.bind_eq_bind, Option.bind_eq_some_iff] at hword
    obtain ⟨a, ha, b, hb, c, hc, hword⟩ := hword
    rw [hsmall, checkedI64] at hc
    rw [((BigIntValue.toSmallI64_iff hv a).mp ha).1, ((BigIntValue.toSmallI64_iff hw b).mp hb).1]
    split at hc
    · cases hc
      exact hword
    · cases hc
  · rw [arithmetic, hvw]
    exact computes_error hnone

theorem divRem_computes {allocator : Allocator} (quotient : Bool) (context : Context)
    (l r : Word) :
    Computes allocator
      (fun a b => if b = 0 then none else some (if quotient then a.tdiv b else a.tmod b))
      context l r (divRem allocator quotient context [l, r]) := by
  rcases twoIntegerValues_spec context.memory l r with ⟨v, w, hv, hw, hl, hr, hvw⟩ | ⟨hnone, hvw⟩
  · have hzero := BigIntValue.isZero_iff hw
    simp only [Computes, hl, hr, divRem, hvw]
    by_cases hw0 : w.toInt = 0
    · rw [if_pos hw0, if_pos (hzero.mpr hw0)]
    · obtain ⟨q, m, hdivmod, hq, hm, hqc, hmc⟩ := (BigIntValue.divmod_spec hv hw).2 hw0
      rw [if_neg hw0, if_neg fun h => hw0 (hzero.mp h), hdivmod]
      have hresult : Returns allocator context
          (if quotient then v.toInt.tdiv w.toInt else v.toInt.tmod w.toInt)
          (integerResult allocator (if quotient then q else m) context) := by
        cases quotient with
        | true => exact hq ▸ integerResult_returns hqc
        | false => exact hm ▸ integerResult_returns hmc
      refine small_returns hresult _ ?_
      intro word hword
      simp only [Option.bind_eq_bind, Option.bind_eq_some_iff] at hword
      obtain ⟨a, ha, b, hb, c, hc, hword⟩ := hword
      rw [((BigIntValue.toSmallI64_iff hv a).mp ha).1, ((BigIntValue.toSmallI64_iff hw b).mp hb).1]
      have hvalue : c = if quotient then a.tdiv b else a.tmod b := by
        simp only [checkedDivRem, checkedDiv, checkedRem, checkedI64] at hc
        split_ifs at hc ⊢ <;> simp_all
      rw [← hvalue]
      exact hword
  · rw [divRem, hvw]
    exact computes_error hnone

/-- The natives compute the integer functions. -/
theorem ArithmeticOp.call_computes (allocator : Allocator) (op : ArithmeticOp) (context : Context)
    (l r : Word) :
    Computes allocator op.apply context l r (op.call allocator context [l, r]) := by
  cases op with
  | add => exact arithmetic_computes (fun _ _ => rfl) (fun _ _ => BigIntValue.add_spec) context l r
  | subtract =>
    exact arithmetic_computes (fun _ _ => rfl) (fun _ _ => BigIntValue.sub_spec) context l r
  | multiply =>
    exact arithmetic_computes (fun _ _ => rfl) (fun _ _ => BigIntValue.mul_spec) context l r
  | div => exact divRem_computes true context l r
  | rem => exact divRem_computes false context l r

/-! ## Small results -/

theorem integerOf_smallInt (memory : Memory) {w : Word} (h : w.isSmallInt = true) :
    integerOf memory w = some w.payload := by
  rw [integerOf, memory.read_smallInt h]
  rfl

theorem isPointer_trySmallInt {i : ℤ} {w : Word} (h : trySmallInt i = some w) :
    w.isPointer = false := by
  obtain ⟨n, -, rfl⟩ := trySmallInt_eq_some.mp h
  have htag : (Word.ofSmallInt n).tag = .smallInt := by
    simpa [Word.isSmallInt] using Word.isSmallInt_ofSmallInt n
  simp [Word.isPointer, htag]

theorem trySmallInt_injective {i j : ℤ} {w : Word} (hi : trySmallInt i = some w)
    (hj : trySmallInt j = some w) : i = j := by
  obtain ⟨m, hm, hmw⟩ := trySmallInt_eq_some.mp hi
  obtain ⟨n, hn, hnw⟩ := trySmallInt_eq_some.mp hj
  rw [← hm, ← hn, ← Word.payload_ofSmallInt, ← Word.payload_ofSmallInt, hmw, hnw]

/-- A native returns a given small integer for an integer result exactly when it is that one. -/
theorem Returns.ok_iff {allocator : Allocator} {context : Context} {c d : ℤ} {w : Word}
    {result : Except Word Word × Context} (h : Returns allocator context c result)
    (hd : trySmallInt d = some w) : result.1 = .ok w ↔ c = d := by
  unfold Returns at h
  split at h
  · next v hv =>
    rw [h]
    constructor
    · intro hvw
      cases hvw
      exact trySmallInt_injective hv hd
    · rintro rfl
      exact congrArg Except.ok (Option.some.inj (hv.symm.trans hd))
  · next hnone =>
    obtain ⟨v, -, -, rfl⟩ := h
    constructor
    · intro hw
      have hpointer := allocator.pointer _ _ _ _ hw
      rw [isPointer_trySmallInt hd] at hpointer
      cases hpointer
    · rintro rfl
      rw [hd] at hnone
      cases hnone

theorem Returns.error_iff {allocator : Allocator} {context : Context} {c : ℤ}
    {result : Except Word Word × Context} (h : Returns allocator context c result) :
    (∃ e, result.1 = .error e) ↔ ¬ ((trySmallInt c).isSome = true ∨
      ∃ (v : BigIntValue) (w : Word), v.Canonical ∧ v.toInt = c ∧
        (allocator.allocBigint context v.isNegative v.limbs).1 = .ok w) := by
  unfold Returns at h
  split at h
  · next v hv => simp [h, hv]
  · next hnone =>
    obtain ⟨v, hv, rfl, rfl⟩ := h
    simp only [hnone, Option.isSome_none, Bool.false_eq_true, false_or]
    constructor
    · rintro ⟨e, he⟩ ⟨u, w, hu, huv, hw⟩
      cases hu.toInt_injective hv huv
      rw [he] at hw
      cases hw
    · intro hno
      cases hresult : (allocator.allocBigint context v.isNegative v.limbs).1 with
      | ok w => exact absurd ⟨v, w, hv, rfl, hresult⟩ hno
      | error e => exact ⟨e, rfl⟩

end Beamr.Native
