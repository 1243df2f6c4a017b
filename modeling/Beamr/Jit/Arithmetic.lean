import Beamr.Jit.Operands
import Beamr.Interpreter.Bif

/-!
# Compiled arithmetic

Compiled bif instructions. The translator picks the operator by the position of
the import in the import table and computes on the payloads of two small integers; every
other case takes the fail edge, which leaves for the interpreter when the instruction
has no fail label.
-/
namespace Beamr.Jit

open Loader Term Interpreter Native

/-! ## Lowering -/

/-- The operator of an import slot. -/
def fromImport : Operand → Except JitError ArithmeticOp
  | .unsigned 0 => .ok .add
  | .unsigned 1 => .ok .subtract
  | .unsigned 2 => .ok .multiply
  | .unsigned 3 => .ok .div
  | .unsigned 4 => .ok .rem
  | _ => .error .unsupportedOperand

/-- Operands of the two-argument forms. -/
structure ParsedBif2 where
  fail : Operand
  importIndex : Operand
  left : Operand
  right : Operand
  destination : Operand

def ParsedBif2.parse (op : BifOp) (operands : List Operand) : Except JitError ParsedBif2 :=
  match op with
  | .bif2 =>
    match operands with
    | [fail, importIndex, left, right, destination] =>
      .ok ⟨fail, importIndex, left, right, destination⟩
    | _ => .error .unsupportedOperand
  | .gcBif2 =>
    match operands with
    | [fail, importIndex, left, right, destination] =>
      .ok ⟨fail, importIndex, left, right, destination⟩
    | [fail, _, importIndex, left, right, destination] =>
      .ok ⟨fail, importIndex, left, right, destination⟩
    | _ => .error .unsupportedOperand
  | _ => .error .unsupportedOpcode

def smallIntMin : BitVec 64 := BitVec.ofInt 64 (-(2 ^ 60))

def smallIntMax : BitVec 64 := BitVec.ofInt 64 (2 ^ 60 - 1)

def signedAddOverflow (left right result : BitVec 64) : Bool :=
  ((left ^^^ result) &&& (right ^^^ result)).slt 0

def signedSubOverflow (left right result : BitVec 64) : Bool :=
  ((left ^^^ right) &&& (left ^^^ result)).slt 0

/-- The operator on payloads; no result is the fail edge. -/
def lowerOperator (op : ArithmeticOp) (left right : BitVec 64) : Option (BitVec 64) :=
  match op with
  | .add =>
    if signedAddOverflow left right (left + right) then none else some (left + right)
  | .subtract =>
    if signedSubOverflow left right (left - right) then none else some (left - right)
  | .multiply => if BitVec.smulOverflow left right then none else some (left * right)
  | .div =>
    if right = 0 then none
    else if left = BitVec.intMin 64 ∧ right = -1 then none
    else some (left.sdiv right)
  | .rem =>
    if right = 0 then none
    else if left = BitVec.intMin 64 ∧ right = -1 then none
    else some (left.srem right)

/-- The word written for two operand words. -/
def arithmeticWord (op : ArithmeticOp) (left right : Word) : Option Word := do
  let leftPayload ← checkedSmallIntPayload left
  let rightPayload ← checkedSmallIntPayload right
  let result ← lowerOperator op leftPayload rightPayload
  if result.slt smallIntMin || smallIntMax.slt result then none else some (result <<< 3)

/-- How compiled arithmetic goes on, with the word it wrote. -/
inductive ArithmeticExit
  | next (written : Word) (registers : Registers)
  | fail (label : ℕ)
  | deopt

def isNoFailLabel : Operand → Bool
  | .label 0 => true
  | _ => false

def labelOperand : Operand → Except JitError ℕ
  | .label label => .ok label
  | _ => .error .unsupportedOperand

/-- The fail edge of an arithmetic instruction. -/
def failEdge (fail : Operand) : Except JitError ArithmeticExit :=
  if isNoFailLabel fail then .ok .deopt else (labelOperand fail).map .fail

/-- A compiled bif instruction. -/
def dispatchBif (registers : Registers) (op : BifOp) (operands : List Operand) :
    Except JitError ArithmeticExit := do
  let parsed ← ParsedBif2.parse op operands
  let arithmetic ← fromImport parsed.importIndex
  let fail ← failEdge parsed.fail
  let left ← readOperandTerm registers parsed.left
  let right ← readOperandTerm registers parsed.right
  -- the destination is resolved while translating, before anything runs
  let destination ← registerOperand parsed.destination
  match arithmeticWord arithmetic left right with
  | some word => .ok (.next word (writeRegisterTerm registers word destination))
  | none => .ok fail

/-! ## Machine arithmetic -/

theorem signedAddOverflow_eq (x y z : BitVec 64) :
    signedAddOverflow x y z = ((x.msb ^^ z.msb) && (y.msb ^^ z.msb)) := by
  simp only [signedAddOverflow, BitVec.ofNat_eq_ofNat, BitVec.slt_zero_eq_msb, BitVec.msb_and,
    BitVec.msb_xor]

theorem signedSubOverflow_eq (x y z : BitVec 64) :
    signedSubOverflow x y z = ((x.msb ^^ y.msb) && (x.msb ^^ z.msb)) := by
  simp only [signedSubOverflow, BitVec.ofNat_eq_ofNat, BitVec.slt_zero_eq_msb, BitVec.msb_and,
    BitVec.msb_xor]

/-- The range of a payload. -/
def PayloadRange (i : ℤ) : Prop := -(2 ^ 60) ≤ i ∧ i < 2 ^ 60

/-- Payloads never overflow a machine addition. -/
theorem lowerOperator_add {x y : BitVec 64} (hx : PayloadRange x.toInt)
    (hy : PayloadRange y.toInt) :
    ∃ z, lowerOperator .add x y = some z ∧ z.toInt = x.toInt + y.toInt := by
  obtain ⟨hx0, hx1⟩ := hx
  obtain ⟨hy0, hy1⟩ := hy
  have hsum : (x + y).toInt = x.toInt + y.toInt := by
    rw [BitVec.toInt_add, Int.bmod_def]
    split <;> omega
  refine ⟨x + y, ?_, hsum⟩
  rw [lowerOperator, if_neg]
  rw [signedAddOverflow_eq, BitVec.msb_eq_toInt, BitVec.msb_eq_toInt, BitVec.msb_eq_toInt, hsum]
  by_cases h1 : x.toInt < 0 <;> by_cases h2 : y.toInt < 0 <;> simp [h1, h2] <;> omega

theorem lowerOperator_subtract {x y : BitVec 64} (hx : PayloadRange x.toInt)
    (hy : PayloadRange y.toInt) :
    ∃ z, lowerOperator .subtract x y = some z ∧ z.toInt = x.toInt - y.toInt := by
  obtain ⟨hx0, hx1⟩ := hx
  obtain ⟨hy0, hy1⟩ := hy
  have hdiff : (x - y).toInt = x.toInt - y.toInt := by
    rw [BitVec.toInt_sub, Int.bmod_def]
    split <;> omega
  refine ⟨x - y, ?_, hdiff⟩
  rw [lowerOperator, if_neg]
  rw [signedSubOverflow_eq, BitVec.msb_eq_toInt, BitVec.msb_eq_toInt, BitVec.msb_eq_toInt, hdiff]
  by_cases h1 : x.toInt < 0 <;> by_cases h2 : y.toInt < 0 <;> simp [h1, h2] <;> omega

/-- A product that leaves 64 bits leaves the range of payloads. -/
theorem lowerOperator_multiply (x y : BitVec 64) :
    (∃ z, lowerOperator .multiply x y = some z ∧ z.toInt = x.toInt * y.toInt) ∨
      (lowerOperator .multiply x y = none ∧ ¬ PayloadRange (x.toInt * y.toInt)) := by
  rw [lowerOperator]
  by_cases h : BitVec.smulOverflow x y = true
  · refine .inr ⟨if_pos h, ?_⟩
    simp only [BitVec.smulOverflow, Bool.or_eq_true, decide_eq_true_eq] at h
    rintro ⟨h0, h1⟩
    omega
  · exact .inl ⟨x * y, if_neg h, BitVec.toInt_mul_of_not_smulOverflow h⟩

theorem eq_zero_iff_toInt (x : BitVec 64) : x = 0 ↔ x.toInt = 0 :=
  ⟨fun h => by rw [h]; rfl, fun h => BitVec.eq_of_toInt_eq (h.trans (by rfl))⟩

theorem not_division_overflow {x : BitVec 64} (hx : PayloadRange x.toInt) (y : BitVec 64) :
    ¬ (x = BitVec.intMin 64 ∧ y = -1) := by
  rintro ⟨rfl, -⟩
  have hmin : (BitVec.intMin 64).toInt = -(2 ^ 63) := by decide
  rw [hmin] at hx
  exact absurd hx.1 (by norm_num)

theorem lowerOperator_div {x y : BitVec 64} (hx : PayloadRange x.toInt) :
    if y.toInt = 0 then lowerOperator .div x y = none
    else ∃ z, lowerOperator .div x y = some z ∧ z.toInt = x.toInt.tdiv y.toInt := by
  rw [lowerOperator]
  split
  · next h => rw [if_pos ((eq_zero_iff_toInt y).mpr h)]
  · next h =>
    refine ⟨x.sdiv y, ?_, ?_⟩
    · rw [if_neg fun h0 => h ((eq_zero_iff_toInt y).mp h0), if_neg (not_division_overflow hx y)]
    · have hle : (x.toInt.tdiv y.toInt).natAbs ≤ x.toInt.natAbs := by
        rw [Int.natAbs_tdiv]
        exact Nat.div_le_self _ _
      obtain ⟨hx0, hx1⟩ := hx
      rw [BitVec.toInt_sdiv, Int.bmod_def]
      split <;> omega

theorem lowerOperator_rem {x y : BitVec 64} (hx : PayloadRange x.toInt) :
    if y.toInt = 0 then lowerOperator .rem x y = none
    else ∃ z, lowerOperator .rem x y = some z ∧ z.toInt = x.toInt.tmod y.toInt := by
  rw [lowerOperator]
  split
  · next h => rw [if_pos ((eq_zero_iff_toInt y).mpr h)]
  · next h =>
    refine ⟨x.srem y, ?_, BitVec.toInt_srem x y⟩
    rw [if_neg fun h0 => h ((eq_zero_iff_toInt y).mp h0), if_neg (not_division_overflow hx y)]

/-- Compiled operators compute the integer functions as far as payloads reach. -/
theorem lowerOperator_spec (op : ArithmeticOp) {x y : BitVec 64} (hx : PayloadRange x.toInt)
    (hy : PayloadRange y.toInt) :
    (∃ z, lowerOperator op x y = some z ∧ op.apply x.toInt y.toInt = some z.toInt) ∨
      (lowerOperator op x y = none ∧
        ∀ c, op.apply x.toInt y.toInt = some c → ¬ PayloadRange c) := by
  cases op with
  | add =>
    obtain ⟨z, hz, hvalue⟩ := lowerOperator_add hx hy
    exact .inl ⟨z, hz, by rw [hvalue]; rfl⟩
  | subtract =>
    obtain ⟨z, hz, hvalue⟩ := lowerOperator_subtract hx hy
    exact .inl ⟨z, hz, by rw [hvalue]; rfl⟩
  | multiply =>
    rcases lowerOperator_multiply x y with ⟨z, hz, hvalue⟩ | ⟨hnone, hrange⟩
    · exact .inl ⟨z, hz, by rw [hvalue]; rfl⟩
    · refine .inr ⟨hnone, fun c hc => ?_⟩
      cases hc
      exact hrange
  | div =>
    have hdiv := @lowerOperator_div x y hx
    simp only [ArithmeticOp.apply]
    split at hdiv
    · next h => exact .inr ⟨hdiv, fun c hc => by simp [h] at hc⟩
    · next h =>
      obtain ⟨z, hz, hvalue⟩ := hdiv
      exact .inl ⟨z, hz, by rw [if_neg h, hvalue]⟩
  | rem =>
    have hrem := @lowerOperator_rem x y hx
    simp only [ArithmeticOp.apply]
    split at hrem
    · next h => exact .inr ⟨hrem, fun c hc => by simp [h] at hc⟩
    · next h =>
      obtain ⟨z, hz, hvalue⟩ := hrem
      exact .inl ⟨z, hz, by rw [if_neg h, hvalue]⟩

/-! ## The word written -/

/-- The small integer an operator gives on two words with the tag of small integers. -/
def slotResult (op : ArithmeticOp) (l r : Word) : Option Word :=
  if l.isSmallInt && r.isSmallInt then (op.apply l.payload r.payload).bind trySmallInt else none

/-- A 64-bit integer in the range of payloads, tagged. -/
theorem tagged_eq (z : BitVec 64) :
    (if z.slt smallIntMin || smallIntMax.slt z then none else some (z <<< 3)) =
      trySmallInt z.toInt := by
  have hmin : smallIntMin.toInt = -(2 ^ 60) := by decide
  have hmax : smallIntMax.toInt = 2 ^ 60 - 1 := by decide
  have hword : BitVec.ofInt 64 z.toInt = z := BitVec.ofInt_toInt
  rw [trySmallInt]
  simp only [BitVec.slt, hmin, hmax, Bool.or_eq_true, decide_eq_true_eq, Word.ofSmallInt,
    SmallInt.ofRange, hword]
  split <;> split <;> first | rfl | omega

/-- Compiled code writes the operator's small integer, if there is one. -/
theorem arithmeticWord_eq (op : ArithmeticOp) (l r : Word) :
    arithmeticWord op l r = slotResult op l r := by
  rw [arithmeticWord, slotResult, checkedSmallIntPayload_eq, checkedSmallIntPayload_eq]
  cases l.isSmallInt with
  | false => rfl
  | true =>
    cases r.isSmallInt with
    | false => rfl
    | true =>
      simp only [if_true, Bool.and_self, Option.bind_eq_bind, Option.bind_some]
      rcases lowerOperator_spec op l.payload_bounds r.payload_bounds with
        ⟨z, hz, hvalue⟩ | ⟨hnone, hrange⟩
      · rw [hz, Option.bind_some, tagged_eq]
        exact (congrArg (Option.bind · trySmallInt) hvalue).symm
      · rw [hnone, Option.bind_none]
        cases happly : op.apply l.payload r.payload with
        | none => rfl
        | some c =>
          rw [Option.bind_some, trySmallInt, dif_neg]
          exact hrange c happly

/-! ## Agreement -/

/-- A compiled exit is the interpreter's outcome, or leaves the instruction to the interpreter. -/
def Agrees (exit : ArithmeticExit) (outcome : Except ExecError BifOutcome) : Prop :=
  match exit with
  | .deopt => True
  | .next written _ => ∃ context, outcome = .ok (.continue written context)
  | .fail label => ∃ context, outcome = .ok (.jump label context)

/-- A native gives on two words the small integer of an operator, and fails where there is none. -/
def ImportMatches (entry : NativeFunction) (context : Context) (op : ArithmeticOp) (l r : Word) :
    Prop :=
  match slotResult op l r with
  | some w => (entry.call context [l, r]).1 = .ok w
  | none => ∃ e, (entry.call context [l, r]).1 = .error e

theorem parse_eq {op : BifOp} {operands : List Operand} {parsed : ParsedBif2}
    (h : ParsedBif2.parse op operands = .ok parsed) :
    ∃ live, parseBifOperands op operands = .ok ⟨parsed.fail, parsed.importIndex,
      [parsed.left, parsed.right], parsed.destination, live, 2⟩ := by
  unfold ParsedBif2.parse at h
  split at h
  · split at h
    · cases h
      exact ⟨none, rfl⟩
    · cases h
  · split at h
    · cases h
      exact ⟨none, rfl⟩
    · next second _ _ _ _ =>
      cases h
      exact ⟨some second, rfl⟩
    · cases h
  · cases h

theorem resolveBif_parsed {imports : List ResolvedImport} {op : BifOp} {operands : List Operand}
    {resolved : ParsedBif × ℕ × NativeFunction} {parsed : ParsedBif}
    (h : resolveBif imports op operands = .ok resolved)
    (hparsed : parseBifOperands op operands = .ok parsed) : resolved.1 = parsed := by
  obtain ⟨p, hp, h⟩ := except_bind_ok_iff.mp h
  obtain ⟨live, -, h⟩ := except_bind_ok_iff.mp h
  obtain ⟨index, -, h⟩ := except_bind_ok_iff.mp h
  cases hparsed.symm.trans hp
  split at h
  · cases h
  · split at h
    · cases h
    · split at h
      · cases h
        rfl
      · cases h

section Instruction

variable {imports : List ResolvedImport} {literals : List Word} {memory : Memory}
  {registers : Registers} {op : BifOp} {operands : List Operand} {parsed : ParsedBif2} {l r : Word}

/-- An interpreted instruction, once its import is found and its operands are read. -/
theorem bif_resolved (hparse : ParsedBif2.parse op operands = .ok parsed)
    (hl : readTerm registers literals parsed.left = .ok l)
    (hr : readTerm registers literals parsed.right = .ok r) {resolved : ParsedBif × ℕ × NativeFunction}
    (hresolved : resolveBif imports op operands = .ok resolved) :
    bif_ imports literals memory registers op operands =
      finishBif parsed.fail parsed.destination
        (resolved.2.2.call ⟨memory, registers, resolved.2.1⟩ [l, r]) := by
  obtain ⟨live, hparsed⟩ := parse_eq hparse
  have hfst := resolveBif_parsed hresolved hparsed
  obtain ⟨p, n, entry⟩ := resolved
  cases hfst
  have hargs : [parsed.left, parsed.right].mapM (readTerm registers literals) = .ok [l, r] := by
    simp only [List.mapM_cons, List.mapM_nil, hl, hr]
    rfl
  simp only [bif_, hresolved]
  change ([parsed.left, parsed.right].mapM (readTerm registers literals) >>= _) = _
  rw [hargs]
  rfl

theorem bif_continue_iff (hparse : ParsedBif2.parse op operands = .ok parsed)
    (hl : readTerm registers literals parsed.left = .ok l)
    (hr : readTerm registers literals parsed.right = .ok r)
    (hd : Writable registers.y.length parsed.destination) (w : Word) :
    (∃ context, bif_ imports literals memory registers op operands =
        .ok (.continue w context)) ↔
      ∃ resolved, resolveBif imports op operands = .ok resolved ∧
        (resolved.2.2.call ⟨memory, registers, resolved.2.1⟩ [l, r]).1 = .ok w := by
  cases hresolve : resolveBif imports op operands with
  | error e =>
    have herror : bif_ imports literals memory registers op operands = .error e := by
      rw [bif_, hresolve]
      rfl
    simp [herror]
  | ok resolved =>
    rw [bif_resolved hparse hl hr hresolve]
    simp only [Except.ok.injEq, exists_eq_left']
    have hkeeps := resolved.2.2.keepsFrame ⟨memory, registers, resolved.2.1⟩ [l, r]
    cases hcall : resolved.2.2.call ⟨memory, registers, resolved.2.1⟩ [l, r] with
    | mk result context =>
      rw [hcall] at hkeeps
      cases result with
      | ok v =>
        have hd' : Writable context.registers.y.length parsed.destination := hkeeps ▸ hd
        obtain ⟨written, hwritten⟩ := writeTerm_writable hd' v
        simp only [finishBif, hwritten]
        constructor
        · rintro ⟨context', h⟩
          cases h
          rfl
        · rintro h
          cases h
          exact ⟨_, rfl⟩
      | error e =>
        simp only [reduceCtorEq, iff_false, not_exists]
        intro context' h
        obtain ⟨label, -, h⟩ := except_bind_ok_iff.mp h
        split at h <;> cases h

theorem bif_jump_iff (hparse : ParsedBif2.parse op operands = .ok parsed)
    (hl : readTerm registers literals parsed.left = .ok l)
    (hr : readTerm registers literals parsed.right = .ok r) {label : ℕ}
    (hlabel : parsed.fail = .label label) (hne : label ≠ 0) :
    (∃ context, bif_ imports literals memory registers op operands =
        .ok (.jump label context)) ↔
      ∃ resolved, resolveBif imports op operands = .ok resolved ∧
        ∃ e, (resolved.2.2.call ⟨memory, registers, resolved.2.1⟩ [l, r]).1 = .error e := by
  cases hresolve : resolveBif imports op operands with
  | error e =>
    have herror : bif_ imports literals memory registers op operands = .error e := by
      rw [bif_, hresolve]
      rfl
    simp [herror]
  | ok resolved =>
    rw [bif_resolved hparse hl hr hresolve]
    simp only [Except.ok.injEq, exists_eq_left', hlabel]
    cases hcall : resolved.2.2.call ⟨memory, registers, resolved.2.1⟩ [l, r] with
    | mk result context =>
      cases result with
      | ok v =>
        simp only [reduceCtorEq, exists_false, iff_false, not_exists]
        intro context' h
        obtain ⟨written, -, h⟩ := except_bind_ok_iff.mp h
        cases h
      | error e =>
        refine ⟨fun _ => ⟨e, rfl⟩, fun _ => ⟨context, ?_⟩⟩
        exact except_bind_ok_iff.mpr ⟨label, rfl, if_neg hne⟩

/-- The exit of an accepted instruction. -/
theorem dispatchBif_exit {slot : ArithmeticOp} {exit : ArithmeticExit}
    (haccepted : dispatchBif registers op operands = .ok exit)
    (hparse : ParsedBif2.parse op operands = .ok parsed)
    (hslot : fromImport parsed.importIndex = .ok slot)
    (hl : readTerm registers literals parsed.left = .ok l)
    (hr : readTerm registers literals parsed.right = .ok r) :
    match slotResult slot l r with
    | some w => ∃ written, exit = .next w written
    | none => failEdge parsed.fail = .ok exit := by
  obtain ⟨p, hp, h⟩ := except_bind_ok_iff.mp haccepted
  cases hparse.symm.trans hp
  obtain ⟨o, ho, h⟩ := except_bind_ok_iff.mp h
  cases hslot.symm.trans ho
  obtain ⟨fail, hfail, h⟩ := except_bind_ok_iff.mp h
  obtain ⟨left, hleft, h⟩ := except_bind_ok_iff.mp h
  obtain ⟨right, hright, h⟩ := except_bind_ok_iff.mp h
  obtain ⟨destination, -, h⟩ := except_bind_ok_iff.mp h
  rw [readOperandTerm_eq hleft hl, readOperandTerm_eq hright hr, arithmeticWord_eq] at h
  cases hslotResult : slotResult slot l r with
  | some w =>
    rw [hslotResult] at h
    cases h
    exact ⟨_, rfl⟩
  | none =>
    rw [hslotResult] at h
    cases h
    exact hfail

theorem failEdge_ok {fail : Operand} {exit : ArithmeticExit} (h : failEdge fail = .ok exit) :
    (isNoFailLabel fail = true ∧ exit = .deopt) ∨
      ∃ label, label ≠ 0 ∧ fail = .label label ∧ isNoFailLabel fail = false ∧ exit = .fail label := by
  unfold failEdge at h
  split at h
  · next hno =>
    cases h
    exact .inl ⟨hno, rfl⟩
  · next hno =>
    cases fail with
    | label n =>
      cases h
      refine .inr ⟨n, ?_, rfl, ?_, rfl⟩
      · rintro rfl
        exact hno rfl
      · exact Bool.not_eq_true _ ▸ hno
    | _ => cases h

end Instruction

/-- An integer native has a result: both operands are integers, no division by zero, and the result
is a small integer or its bignum could be allocated. -/
def Succeeds (allocator : Allocator) (op : ArithmeticOp) (context : Context) (l r : Word) : Prop :=
  ∃ a b c, integerOf context.memory l = some a ∧ integerOf context.memory r = some b ∧
    op.apply a b = some c ∧ ((trySmallInt c).isSome = true ∨
      ∃ (v : BigIntValue) (w : Word), v.Canonical ∧ v.toInt = c ∧
        (allocator.allocBigint context v.isNegative v.limbs).1 = .ok w)

/-- For the integer natives, matching a slot is a condition on integers. -/
theorem importMatches_arithmetic_iff (allocator : Allocator) (native slot : ArithmeticOp)
    (context : Context) (l r : Word) :
    ImportMatches (native.function allocator) context slot l r ↔
      if (slotResult slot l r).isSome then
        native.apply l.payload r.payload = slot.apply l.payload r.payload
      else ¬ Succeeds allocator native context l r := by
  have hcomputes := native.call_computes allocator context l r
  unfold ImportMatches
  cases hslot : slotResult slot l r with
  | some w =>
    rw [slotResult] at hslot
    split at hslot
    · next hsmall =>
      rw [Bool.and_eq_true] at hsmall
      obtain ⟨d, hd, hdw⟩ := Option.bind_eq_some_iff.mp hslot
      simp only [Computes, integerOf_smallInt _ hsmall.1, integerOf_smallInt _ hsmall.2] at hcomputes
      simp only [Option.isSome_some, if_true, hd]
      cases hnative : native.apply l.payload r.payload with
      | none =>
        rw [hnative] at hcomputes
        change ((native.call allocator context [l, r]).1 = _) ↔ _
        simp [hcomputes]
      | some c =>
        rw [hnative] at hcomputes
        rw [Option.some.injEq]
        exact hcomputes.ok_iff hdw
    · cases hslot
  | none =>
    simp only [Option.isSome_none, Bool.false_eq_true, if_false]
    change (∃ e, (native.call allocator context [l, r]).1 = .error e) ↔ _
    unfold Computes at hcomputes
    unfold Succeeds
    split at hcomputes
    · next a b ha hb =>
      simp only [ha, hb, Option.some.injEq]
      split at hcomputes
      · next c hc =>
        rw [hcomputes.error_iff]
        constructor
        · rintro h ⟨_, _, _, rfl, rfl, hc', hresult⟩
          cases hc.symm.trans hc'
          exact h hresult
        · exact fun h hresult => h ⟨a, b, c, rfl, rfl, hc, hresult⟩
      · next hc =>
        refine iff_of_true ⟨badarith, by rw [hcomputes]⟩ ?_
        rintro ⟨_, _, _, rfl, rfl, hc', -⟩
        rw [hc] at hc'
        cases hc'
    · next hnot =>
      refine iff_of_true ⟨badarith, by rw [hcomputes]⟩ ?_
      rintro ⟨a, b, c, ha, hb, -⟩
      exact hnot a b ha hb

/-- A heap with no space for a bignum. -/
def fullHeap : Allocator where
  allocBigint context _ _ := (.error (Word.ofAtom 9), context)
  pointer _ _ _ _ h := by cases h
  keepsFrame _ _ _ := rfl

/-- An import table whose first entry resolved to one of the integer natives. -/
def firstImport (native : ArithmeticOp) : List ResolvedImport :=
  [⟨2, .native (native.function fullHeap)⟩]

/-- `x0 = 5`, `x1 = 3`. -/
def fiveAndThree : Registers where
  x index := if index = 0 then 40 else 24
  y := []

def emptyMemory : Memory where
  object w := .other (UInt64.ofBitVec w)
  boxed _ h := h
  other _ _ h := by cases h; rfl

/-- The first import applied to `x0` and `x1`, into `x0`, without a fail label. -/
def firstBif : List Operand := [.label 0, .unsigned 0, .x 0, .x 1, .x 0]

theorem dispatchBif_firstBif : dispatchBif fiveAndThree .bif2 firstBif =
    .ok (.next 64 (fiveAndThree.setX 0 64)) := by
  simp only [dispatchBif, firstBif, ParsedBif2.parse, readOperandTerm]
  rfl

theorem resolveBif_firstBif (native : ArithmeticOp) :
    resolveBif (firstImport native) .bif2 firstBif = .ok
      (⟨.label 0, .unsigned 0, [.x 0, .x 1], .x 0, none, 2⟩, 256, native.function fullHeap) := rfl

end Beamr.Jit
