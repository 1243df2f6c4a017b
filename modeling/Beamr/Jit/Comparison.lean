import Beamr.Jit.Operands
import Beamr.Term.Order

/-!
# Compiled comparisons

The interpreter compares terms, compiled code compares words. Equality tests compare
the two words, order tests take the fail edge unless both words are small integers.
Neither leaves for the interpreter.
-/
namespace Beamr.Jit

open Loader Term Interpreter

/-! ## Both sides -/

/-- The order the interpreter compares with. -/
def order (table : Option AtomTable) : Value → Value → Ordering :=
  match table with
  | some table => cmp table
  | none => rawCmp

/-- The test of a comparison instruction on two terms. -/
def comparisonPasses (table : Option AtomTable) (op : ComparisonOp) (left right : Value) : Bool :=
  match op with
  | .lt => order table left right == .lt
  | .ge => order table left right != .lt
  | .eq => numericEq left right
  | .ne => !numericEq left right
  | .eqExact => exactEq left right
  | .neExact => !exactEq left right

/-- The interpreter's comparison. -/
def comparison (memory : Memory) (table : Option AtomTable) (registers : Registers)
    (literals : List Word) (op : ComparisonOp) (left right : Operand) :
    Except ExecError Branch := do
  let l ← readTerm registers literals left
  let r ← readTerm registers literals right
  if comparisonPasses table op (memory.read l) (memory.read r) then .ok .next else .ok .fail

/-- Branch of compiled code on two words. -/
def compareWords (op : ComparisonOp) (left right : Word) : Exit :=
  let branch (passed : Bool) : Exit := if passed then .next else .fail
  let ordered (passes : BitVec 64 → BitVec 64 → Bool) : Exit :=
    match checkedSmallIntPayload left with
    | none => .fail
    | some l =>
      match checkedSmallIntPayload right with
      | none => .fail
      | some r => branch (passes l r)
  match op with
  | .eq | .eqExact => branch (left == right)
  | .ne | .neExact => branch (left != right)
  | .lt => ordered fun l r => l.slt r
  | .ge => ordered fun l r => r.sle l

/-- The compiled comparison. -/
def lowerComparison (registers : Registers) (op : ComparisonOp) (left right : Operand) :
    Except JitError Exit := do
  let l ← readOperandTerm registers left
  let r ← readOperandTerm registers right
  .ok (compareWords op l r)

/-- A branch of the interpreter as an exit of compiled code. -/
def exitOf : Branch → Exit
  | .next => .next
  | .fail => .fail

/-! ## Words and terms -/

theorem exactEq_iff {v u : Value} : exactEq v u = true ↔ exactKind v = exactKind u ∧
    compareSame exactCmp compare compareNumbersExact v u = .eq := by
  rw [exactEq, beq_iff_eq, exactCmp_isTermOrder.unfold, compareStep, Ordering.then_eq_eq,
    Std.LawfulEqCmp.compare_eq_iff_eq]
  exact and_congr_left fun _ => ⟨ExactKind.place_injective, congrArg _⟩

theorem exactEq_refl (v : Value) : exactEq v v = true := by
  rw [exactEq, exactCmp_preorderOn.refl trivial]
  rfl

theorem exactEq_comm (v u : Value) : exactEq v u = exactEq u v := by
  rw [exactEq, exactEq, exactCmp_preorderOn.swap u trivial v trivial]
  cases exactCmp u v <;> rfl

/-- A term that needs no heap object is exactly equal only to itself. -/
theorem exactEq_complete {v u : Value} (hv : v.Complete) (h : exactEq v u = true) : v = u := by
  obtain ⟨hkind, hsame⟩ := exactEq_iff.mp h
  cases v with
  | number n =>
    cases n with
    | smallInt i =>
      cases u with
      | number k =>
        cases k with
        | smallInt j =>
          have hij : i = j := SmallInt.eq_of_value (Std.LawfulEqOrd.eq_of_compare hsame)
          rw [hij]
        | _ => cases hkind
      | _ => cases hkind
    | _ => exact hv.elim
  | atom a =>
    cases u with
    | atom b =>
      have hab : a = b := Std.LawfulEqOrd.eq_of_compare hsame
      rw [hab]
    | number k => cases k <;> cases hkind
    | _ => cases hkind
  | pid p =>
    cases p with
    | «local» i =>
      cases u with
      | pid q =>
        obtain ⟨hnode, hnumber⟩ := Ordering.then_eq_eq.mp hsame
        have hnumber := Std.LawfulEqOrd.eq_of_compare (Ordering.then_eq_eq.mp hnumber).1
        cases q with
        | «local» j => rw [show i = j from hnumber]
        | remote => cases hnode
      | number k => cases k <;> cases hkind
      | _ => cases hkind
    | remote => exact hv.elim
  | nil =>
    cases u with
    | nil => rfl
    | number k => cases k <;> cases hkind
    | _ => cases hkind
  | _ => exact hv.elim

/-- Two heap objects at different words with the same contents. -/
def Copies (memory : Memory) (l r : Word) : Prop :=
  l ≠ r ∧ l.isPointer = true ∧ r.isPointer = true ∧ exactEq (memory.read l) (memory.read r) = true

/-- Exactly equal terms are one word or copies. -/
theorem exactEq_read_iff (memory : Memory) (l r : Word) :
    exactEq (memory.read l) (memory.read r) = true ↔ l = r ∨ Copies memory l r := by
  constructor
  · intro h
    by_cases hlr : l = r
    · exact .inl hlr
    refine .inr ⟨hlr, ?_, ?_, h⟩
    · by_contra hl
      have hcomplete := (memory.complete_read l).mpr (Bool.not_eq_true _ ▸ hl)
      exact hlr (memory.eq_of_read hcomplete (exactEq_complete hcomplete h))
    · by_contra hr
      have hcomplete := (memory.complete_read r).mpr (Bool.not_eq_true _ ▸ hr)
      rw [exactEq_comm] at h
      exact hlr (memory.eq_of_read hcomplete (exactEq_complete hcomplete h)).symm
  · rintro (rfl | ⟨-, -, -, h⟩)
    · exact exactEq_refl _
    · exact h

/-- A number is `==` itself unless it is not a number. -/
theorem numericEqNumbers_self (a : Number) :
    numericEqNumbers a a = true ↔ ∀ x, a = .float x → x.isNaN = false := by
  rw [numericEqNumbers_eq]
  cases a with
  | smallInt n => simp [Number.intValue]
  | float x => simp [Number.intValue, Number.toF64, Float64.ieeeEq]
  | bigInt s ls => simp [Number.intValue]

/-! ## Agreement -/

/-- Words for which sameness and `==` differ: a NaN, two words with equal numbers, or copies. -/
def EqualApart (memory : Memory) (l r : Word) : Prop :=
  match memory.read l, memory.read r with
  | .number a, .number b =>
    (l = r ∧ ∃ x, a = .float x ∧ x.isNaN = true) ∨ (l ≠ r ∧ numericEqNumbers a b = true)
  | _, _ => Copies memory l r

/-- The pairs of words on which an instruction takes another branch than the interpreter. -/
def Diverges (memory : Memory) (table : Option AtomTable) (l r : Word) : ComparisonOp → Prop
  | .eqExact | .neExact => Copies memory l r
  | .eq | .ne => EqualApart memory l r
  | .lt =>
    ¬ (l.isSmallInt = true ∧ r.isSmallInt = true) ∧
      order table (memory.read l) (memory.read r) = .lt
  | .ge =>
    ¬ (l.isSmallInt = true ∧ r.isSmallInt = true) ∧
      order table (memory.read l) (memory.read r) ≠ .lt

theorem exactEq_iff_eq (memory : Memory) (l r : Word) :
    (l = r ↔ exactEq (memory.read l) (memory.read r) = true) ↔ ¬ Copies memory l r := by
  rw [exactEq_read_iff]
  have hne : Copies memory l r → l ≠ r := And.left
  tauto

theorem numericEq_iff_eq (memory : Memory) (l r : Word) :
    (l = r ↔ numericEq (memory.read l) (memory.read r) = true) ↔ ¬ EqualApart memory l r := by
  by_cases hnumbers : ∃ a b, memory.read l = .number a ∧ memory.read r = .number b
  · obtain ⟨a, b, ha, hb⟩ := hnumbers
    simp only [EqualApart, ha, hb, numericEq]
    by_cases hlr : l = r
    · subst hlr
      cases ha.symm.trans hb
      simp [numericEqNumbers_self]
    · simp [hlr]
  · have hexact : numericEq (memory.read l) (memory.read r) =
        exactEq (memory.read l) (memory.read r) := by
      unfold numericEq
      split
      · next a b ha hb => exact absurd ⟨a, b, ha, hb⟩ hnumbers
      · rfl
    have hcopies : EqualApart memory l r = Copies memory l r := by
      unfold EqualApart
      split
      · next a b ha hb => exact absurd ⟨a, b, ha, hb⟩ hnumbers
      · rfl
    rw [hexact, hcopies]
    exact exactEq_iff_eq memory l r

theorem order_smallInt (table : Option AtomTable) (i j : SmallInt) :
    order table (.number (.smallInt i)) (.number (.smallInt j)) = compare i.value j.value := by
  cases table with
  | some table => exact cmp_number table _ _
  | none => exact rawCmp_isTermOrder.unfold _ _

/-- The order tests on words: payloads when both are small integers, the fail edge otherwise. -/
theorem compareWords_ordered (l r : Word) :
    compareWords .lt l r =
        (if l.isSmallInt ∧ r.isSmallInt ∧ l.payload < r.payload then .next else .fail) ∧
      compareWords .ge l r =
        if l.isSmallInt ∧ r.isSmallInt ∧ r.payload ≤ l.payload then .next else .fail := by
  simp only [compareWords, checkedSmallIntPayload_eq]
  cases l.isSmallInt <;> cases r.isSmallInt <;>
    simp [BitVec.slt, BitVec.sle, Word.payload]

theorem compareWords_ne_deopt (op : ComparisonOp) (l r : Word) : compareWords op l r ≠ .deopt := by
  obtain ⟨hlt, hge⟩ := compareWords_ordered l r
  have hbranch : ∀ {p : Prop} [Decidable p], (if p then Exit.next else .fail) ≠ .deopt := by
    intro p _
    split <;> simp
  cases op with
  | lt => rw [hlt]; exact hbranch
  | ge => rw [hge]; exact hbranch
  | _ => exact hbranch

/-- The interpreter's order tests on small integers compare their payloads. -/
theorem order_payload (memory : Memory) (table : Option AtomTable) {l r : Word}
    (hl : l.isSmallInt = true) (hr : r.isSmallInt = true) :
    order table (memory.read l) (memory.read r) = compare l.payload r.payload := by
  rw [memory.read_smallInt hl, memory.read_smallInt hr, order_smallInt]
  rfl

/-- On two words, compiled code takes the interpreter's branch exactly outside the divergences. -/
theorem compareWords_eq_iff (memory : Memory) (table : Option AtomTable) (op : ComparisonOp)
    (l r : Word) :
    (compareWords op l r =
        if comparisonPasses table op (memory.read l) (memory.read r) then .next else .fail) ↔
      ¬ Diverges memory table l r op := by
  have hbranch : ∀ {p q : Prop} [Decidable p] [Decidable q],
      ((if p then Exit.next else Exit.fail) = if q then Exit.next else Exit.fail) ↔ (p ↔ q) := by
    intro p q _ _
    by_cases hp : p <;> by_cases hq : q <;> simp [hp, hq]
  cases op with
  | eqExact =>
    rw [Diverges, ← exactEq_iff_eq, compareWords, hbranch, beq_iff_eq]
    rfl
  | neExact =>
    rw [Diverges, ← exactEq_iff_eq, compareWords, hbranch, bne_iff_ne]
    simp only [comparisonPasses, Bool.not_eq_true', ← Bool.not_eq_true]
    exact not_iff_not
  | eq =>
    rw [Diverges, ← numericEq_iff_eq, compareWords, hbranch, beq_iff_eq]
    rfl
  | ne =>
    rw [Diverges, ← numericEq_iff_eq, compareWords, hbranch, bne_iff_ne]
    simp only [comparisonPasses, Bool.not_eq_true', ← Bool.not_eq_true]
    exact not_iff_not
  | lt =>
    rw [(compareWords_ordered l r).1, hbranch, comparisonPasses, beq_iff_eq, Diverges]
    by_cases hsmall : l.isSmallInt = true ∧ r.isSmallInt = true
    · simp [hsmall, order_payload memory table hsmall.1 hsmall.2, compare_lt_iff_lt]
    · tauto
  | ge =>
    rw [(compareWords_ordered l r).2, hbranch, comparisonPasses, bne_iff_ne, Diverges]
    by_cases hsmall : l.isSmallInt = true ∧ r.isSmallInt = true
    · simp [hsmall, order_payload memory table hsmall.1 hsmall.2, compare_lt_iff_lt]
    · tauto

theorem comparison_ok {memory : Memory} {table : Option AtomTable} {registers : Registers}
    {literals : List Word} {op : ComparisonOp} {left right : Operand} {l r : Word}
    (hl : readTerm registers literals left = .ok l)
    (hr : readTerm registers literals right = .ok r) :
    (comparison memory table registers literals op left right).map exitOf = .ok
      (if comparisonPasses table op (memory.read l) (memory.read r) then .next else .fail) := by
  simp only [comparison, hl, hr]
  change Except.map exitOf (if _ then _ else _) = _
  split <;> rfl

/-- A compiled comparison that reads its operands never leaves for the interpreter, and takes the
interpreter's branch unless the two words are among the divergences of the instruction. -/
theorem lowerComparison_agrees_iff (memory : Memory) (table : Option AtomTable)
    (registers : Registers) (literals : List Word) (op : ComparisonOp) (left right : Operand)
    (l r : Word) (exit : Exit) (haccepted : lowerComparison registers op left right = .ok exit)
    (hl : readTerm registers literals left = .ok l)
    (hr : readTerm registers literals right = .ok r) :
    (exit = .deopt ∨
        (comparison memory table registers literals op left right).map exitOf = .ok exit) ↔
      ¬ Diverges memory table l r op := by
  have hexit : exit = compareWords op l r := by
    unfold lowerComparison at haccepted
    cases hleft : readOperandTerm registers left with
    | error e => rw [hleft] at haccepted; cases haccepted
    | ok v =>
      cases hright : readOperandTerm registers right with
      | error e => rw [hleft, hright] at haccepted; cases haccepted
      | ok w =>
        rw [hleft, hright] at haccepted
        cases haccepted
        rw [readOperandTerm_eq hleft hl, readOperandTerm_eq hright hr]
  rw [← compareWords_eq_iff, comparison_ok hl hr, hexit, Except.ok.injEq]
  constructor
  · rintro (h | h)
    · exact absurd h (compareWords_ne_deopt op l r)
    · exact h.symm
  · exact fun h => .inr h.symm

/-- Every pointer leads to the tuple `{1}`. -/
def tupleMemory : Memory where
  object _ := .tuple [.number (.smallInt ⟨1, by norm_num, by norm_num⟩)]
  boxed _ h := h
  other _ _ h := by cases h

/-- Two tuples at addresses 8 and 16, then the integers 1 and 2. -/
def sampleRegisters : Registers where
  x index := if index = 0 then 12 else if index = 1 then 20 else if index = 2 then 8 else 16
  y := []

theorem lowerComparison_x (registers : Registers) (op : ComparisonOp) (i j : ℕ) :
    lowerComparison registers op (.x i) (.x j) =
      .ok (compareWords op (registers.x i) (registers.x j)) := by
  simp only [lowerComparison, readOperandTerm, registerOperand]
  rfl

theorem lowerComparison_agrees_integers :
    (Exit.next = .deopt ∨ (comparison tupleMemory none sampleRegisters [] .lt (.x 2) (.x 3)).map
        exitOf = .ok .next) ↔ ¬ Diverges tupleMemory none 8 16 .lt :=
  lowerComparison_agrees_iff tupleMemory none sampleRegisters [] .lt (.x 2) (.x 3) 8 16 .next
    (by rw [lowerComparison_x]; decide)
    (readTerm_x.mpr ⟨by norm_num, by decide, rfl⟩) (readTerm_x.mpr ⟨by norm_num, by decide, rfl⟩)

/-- Two tuples `{1}` are exactly equal to the interpreter and different to compiled code. -/
theorem not_lowerComparison_agrees :
    ¬ ∀ (memory : Memory) (table : Option AtomTable) (registers : Registers)
      (literals : List Word) (op : ComparisonOp) (left right : Operand) (l r : Word) (exit : Exit),
      lowerComparison registers op left right = .ok exit →
      readTerm registers literals left = .ok l → readTerm registers literals right = .ok r →
      exit = .deopt ∨
        (comparison memory table registers literals op left right).map exitOf = .ok exit := by
  intro h
  have hleft : readTerm sampleRegisters [] (.x 0) = .ok 12 :=
    readTerm_x.mpr ⟨by norm_num, by decide, rfl⟩
  have hright : readTerm sampleRegisters [] (.x 1) = .ok 20 :=
    readTerm_x.mpr ⟨by norm_num, by decide, rfl⟩
  have hfail := h tupleMemory none sampleRegisters [] .eqExact (.x 0) (.x 1) 12 20 .fail
    (by rw [lowerComparison_x]; decide) hleft hright
  have hpasses : comparisonPasses none .eqExact (tupleMemory.read 12) (tupleMemory.read 20) := by
    decide
  rw [comparison_ok hleft hright, if_pos hpasses] at hfail
  rcases hfail with hfail | hfail <;> cases hfail

end Beamr.Jit
