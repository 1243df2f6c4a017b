import Beamr.Interpreter.Bif
import Beamr.Jit.Comparison
import Beamr.Jit.Plan
import Beamr.Lib.Bisection

/-!
# Compiled `select_val`

The interpreter scans the pairs for the first candidate that is exactly equal to the value.
The translator sorts them by candidate word and emits a search tree over words. Candidates
are immediates, so both test the same pairs; of several pairs with one candidate the
interpreter takes the first and the tree the one its halving meets.
-/
namespace Beamr.Jit

open Loader Term Interpreter Bisection

/-! ## Interpreter -/

def selectPairs (context : String) : Operand → Except ExecError (List (Operand × Operand))
  | .list items =>
    if items.length % 2 ≠ 0 then .error (.invalidOperand context) else .ok (chunkPairs items)
  | _ => .error (.invalidOperand context)

/-- The loop over the pairs; `none` when no candidate is equal. -/
def selectLoop (memory : Memory) (registers : Registers) (literals : List Word) (value : Word) :
    List (Operand × Operand) → Except ExecError (Option ℕ)
  | [] => .ok none
  | (candidate, target) :: pairs => do
    let word ← readTerm registers literals candidate
    if exactEq (memory.read value) (memory.read word) then .ok (some (← operandLabel target))
    else selectLoop memory registers literals value pairs

/-- The label `select_val` goes to. -/
def selectVal (memory : Memory) (registers : Registers) (literals : List Word)
    (value fail list : Operand) : Except ExecError ℕ := do
  let word ← readTerm registers literals value
  let pairs ← selectPairs "select_val list" list
  match ← selectLoop memory registers literals word pairs with
  | some label => .ok label
  | none => operandLabel fail

/-! ## Compiled code -/

structure SelectPair where
  candidateRaw : Word
  target : ℕ
  deriving DecidableEq

/-- The word as the unsigned number the pairs are sorted by. -/
def SelectPair.key (pair : SelectPair) : ℕ := pair.candidateRaw.toNat

/-- The block of a label of the function; blocks are named by their labels. -/
def knownLabel (labels : List ℕ) (label : ℕ) : Except JitError ℕ :=
  if label ∈ labels then .ok label else .error (.unknownLabel label)

def selectPair (labels : List ℕ) (pair : Operand × Operand) : Except JitError SelectPair := do
  let candidateRaw ← immediateRawTerm pair.1
  let target ← knownLabel labels (← labelOperand pair.2)
  .ok ⟨candidateRaw, target⟩

/-- The emitted blocks: a jump, a test for one word, and a split by unsigned order. -/
inductive SelectCode
  | jump (target : ℕ)
  | test (candidate : Word) (target : ℕ) (otherwise : SelectCode)
  | split (candidate : Word) (less otherwise : SelectCode)

/-- Where the blocks lead for a value. -/
def SelectCode.run (value : Word) : SelectCode → ℕ
  | .jump target => target
  | .test candidate target otherwise => if value = candidate then target else otherwise.run value
  | .split candidate less otherwise =>
    if value.ult candidate then less.run value else otherwise.run value

def lowerSelectBinarySearch (fail : ℕ) (pairs : List SelectPair) : SelectCode :=
  match h : pairs[pairs.length / 2]? with
  | none => .jump fail
  | some pivot =>
    if pairs.tail.isEmpty then .test pivot.candidateRaw pivot.target (.jump fail)
    else .test pivot.candidateRaw pivot.target
      (.split pivot.candidateRaw
        (lowerSelectBinarySearch fail (pairs.take (pairs.length / 2)))
        (lowerSelectBinarySearch fail (pairs.drop (pairs.length / 2 + 1))))
termination_by pairs.length
decreasing_by
  · have hlt := (List.getElem?_eq_some_iff.mp h).1
    rw [List.length_take]
    omega
  · have hlt := (List.getElem?_eq_some_iff.mp h).1
    rw [List.length_drop]
    omega

/-- The compiled `select_val`, run on the registers. -/
def lowerSelectVal (registers : Registers) (labels : List ℕ) (value fail list : Operand) :
    Except JitError ℕ := do
  let failBlock ← knownLabel labels (← labelOperand fail)
  let pairs ← (← parseSelectPairs list).mapM (selectPair labels)
  let word ← readOperandTerm registers value
  .ok ((lowerSelectBinarySearch failBlock (sortByKey SelectPair.key pairs)).run word)

/-! ## The tree is a bisection -/

theorem key_eq_iff (pair : SelectPair) (word : Word) :
    pair.key = word.toNat ↔ word = pair.candidateRaw :=
  ⟨fun h => BitVec.eq_of_toNat_eq h.symm, fun h => congrArg BitVec.toNat h.symm⟩

theorem lowerSelectBinarySearch_nil (fail : ℕ) : lowerSelectBinarySearch fail [] = .jump fail := by
  rw [lowerSelectBinarySearch]
  rfl

/-- The blocks emitted for the middle pair of a list. -/
theorem lowerSelectBinarySearch_of_pivot {fail : ℕ} {pairs : List SelectPair} {pivot : SelectPair}
    (h : pairs[pairs.length / 2]? = some pivot) : lowerSelectBinarySearch fail pairs =
      if pairs.tail.isEmpty then .test pivot.candidateRaw pivot.target (.jump fail)
      else .test pivot.candidateRaw pivot.target
        (.split pivot.candidateRaw
          (lowerSelectBinarySearch fail (pairs.take (pairs.length / 2)))
          (lowerSelectBinarySearch fail (pairs.drop (pairs.length / 2 + 1)))) := by
  rw [lowerSelectBinarySearch]
  split
  · next hnone =>
    rw [hnone] at h
    cases h
  · next pivot' hpivot =>
    rw [hpivot] at h
    obtain rfl := Option.some.inj h
    rfl

/-- The emitted blocks lead to the pair the bisection finds. -/
theorem run_lowerSelectBinarySearch (fail : ℕ) (pairs : List SelectPair) (word : Word) :
    (lowerSelectBinarySearch fail pairs).run word =
      ((bisect SelectPair.key word.toNat pairs).map SelectPair.target).getD fail := by
  induction hn : pairs.length using Nat.strong_induction_on generalizing pairs with
  | _ n ih =>
    cases hpivot : pairs[pairs.length / 2]? with
    | none =>
      rw [List.getElem?_eq_none_iff] at hpivot
      obtain rfl : pairs = [] := List.eq_nil_of_length_eq_zero (by omega)
      rw [lowerSelectBinarySearch_nil, bisect_nil]
      rfl
    | some pivot =>
      have hlt := (List.getElem?_eq_some_iff.mp hpivot).1
      rw [lowerSelectBinarySearch_of_pivot hpivot, bisect_of_pivot hpivot]
      rw [hn] at hlt ⊢
      have htake := ih (n / 2) hlt (pairs.take (n / 2)) (by rw [List.length_take, hn]; omega)
      have hdrop := ih (n - (n / 2 + 1)) (by omega) (pairs.drop (n / 2 + 1))
        (by rw [List.length_drop, hn])
      by_cases hmatch : word = pivot.candidateRaw
      · rw [if_pos ((key_eq_iff pivot word).mpr hmatch)]
        split <;> exact if_pos hmatch
      · rw [if_neg (fun h => hmatch ((key_eq_iff pivot word).mp h))]
        split
        · next hsingle =>
          -- of a single pair both halves are empty
          have hone : n ≤ 1 := by
            rw [List.isEmpty_iff, ← List.length_eq_zero_iff, List.length_tail, hn] at hsingle
            omega
          have hleft : pairs.take (n / 2) = [] := by
            rw [show n / 2 = 0 by omega, List.take_zero]
          have hright : pairs.drop (n / 2 + 1) = [] := by
            rw [List.drop_eq_nil_iff]
            omega
          rw [hleft, hright, bisect_nil, ite_self, SelectCode.run, if_neg hmatch]
          rfl
        · rw [SelectCode.run, if_neg hmatch, SelectCode.run, htake, hdrop]
          by_cases hless : word.toNat < pivot.key
          · rw [if_pos hless, if_pos (BitVec.ult_iff_lt.mpr hless)]
          · rw [if_neg hless, if_neg (fun h => hless (BitVec.ult_iff_lt.mp h))]

/-! ## The two choices -/

theorem tagBits_ofAtom (a : Atom) : (Word.ofAtom a).tagBits = 1 := by
  have hshift : (BitVec.ofNat 64 a <<< 3).toNat % 2 ^ 3 = 0 := by
    rw [BitVec.toNat_shiftLeft, Nat.shiftLeft_eq]
    omega
  rw [Word.tagBits_eq, Word.ofAtom, BitVec.toNat_or, show 8 = 2 ^ 3 by rfl, Nat.or_mod_two_pow,
    hshift]
  rfl

theorem isPointer_ofSmallInt (n : SmallInt) : (Word.ofSmallInt n).isPointer = false := by
  rw [Word.isPointer, Word.tag, Word.tagBits_ofSmallInt]
  rfl

theorem isPointer_ofAtom (a : Atom) : (Word.ofAtom a).isPointer = false := by
  rw [Word.isPointer, Word.tag, tagBits_ofAtom]
  rfl

theorem isPointer_nil : Word.nil.isPointer = false := by decide

/-- A candidate the translator accepts is the immediate the interpreter reads. -/
theorem immediateRawTerm_ok {candidate : Operand} {raw : Word}
    (h : immediateRawTerm candidate = .ok raw) (registers : Registers) (literals : List Word) :
    readTerm registers literals candidate = .ok raw ∧ raw.isPointer = false := by
  have hsmall : ∀ {value : ℤ}, smallIntConstant value = .ok raw →
      readSmallInt value = .ok raw ∧ raw.isPointer = false := by
    intro value hvalue
    have hsome := smallIntConstant_ok.mp hvalue
    refine ⟨by rw [readSmallInt, hsome], ?_⟩
    rw [trySmallInt] at hsome
    split at hsome
    · cases hsome
      exact isPointer_ofSmallInt _
    · cases hsome
  unfold immediateRawTerm at h
  split at h
  · exact hsmall h
  · exact hsmall h
  · cases h
    exact ⟨rfl, isPointer_ofAtom _⟩
  · cases h
    exact ⟨rfl, isPointer_nil⟩
  · cases h

/-- A label the translator accepts is the label the interpreter goes to. -/
theorem knownLabel_ok {labels : List ℕ} {operand : Operand} {target : ℕ}
    (h : (labelOperand operand >>= knownLabel labels) = .ok target) :
    operandLabel operand = .ok target := by
  obtain ⟨label, hlabel, hblock⟩ := except_bind_ok_iff.mp h
  unfold labelOperand at hlabel
  split at hlabel
  · cases hlabel
    unfold knownLabel at hblock
    split at hblock
    · cases hblock
      rfl
    · cases hblock
  · cases hlabel

/-- Exact equality with a candidate is equality of the words. -/
theorem exactEq_candidate (memory : Memory) {word raw : Word} (h : raw.isPointer = false) :
    exactEq (memory.read word) (memory.read raw) = true ↔ word = raw := by
  rw [exactEq_read_iff, Copies]
  constructor
  · intro hequal
    rcases hequal with heq | ⟨-, -, hpointer, -⟩
    · exact heq
    · rw [h] at hpointer
      cases hpointer
  · exact .inl

/-- The scan finds the first accepted pair whose candidate is the word. -/
theorem selectLoop_eq {labels : List ℕ} {items : List (Operand × Operand)}
    {pairs : List SelectPair} (h : items.mapM (selectPair labels) = .ok pairs) (memory : Memory)
    (registers : Registers) (literals : List Word) (word : Word) :
    selectLoop memory registers literals word items =
      .ok ((pairs.filter fun pair => pair.key = word.toNat).head?.map SelectPair.target) := by
  induction items generalizing pairs with
  | nil =>
    cases h
    rfl
  | cons item items ih =>
    obtain ⟨candidate, operand⟩ := item
    obtain ⟨pair, rest, hpair, hrest, rfl⟩ := except_mapM_cons_ok h
    obtain ⟨raw, hraw, hpair⟩ := except_bind_ok_iff.mp hpair
    obtain ⟨label, hlabel, hpair⟩ := except_bind_ok_iff.mp hpair
    obtain ⟨target, htarget, hpair⟩ := except_bind_ok_iff.mp hpair
    cases hpair
    have hoperand := knownLabel_ok (except_bind_ok_iff.mpr ⟨label, hlabel, htarget⟩)
    obtain ⟨hread, hpointer⟩ := immediateRawTerm_ok hraw registers literals
    rw [selectLoop, hread, except_ok_bind]
    by_cases hword : word = raw
    · have hkey := decide_eq_true ((key_eq_iff ⟨raw, target⟩ word).mpr hword)
      rw [if_pos ((exactEq_candidate memory hpointer).mpr hword), hoperand, List.filter_cons,
        if_pos hkey]
      rfl
    · have hkey : ¬ decide ((⟨raw, target⟩ : SelectPair).key = word.toNat) = true := by
        intro hkey
        exact hword ((key_eq_iff _ word).mp (of_decide_eq_true hkey))
      rw [if_neg (fun hequal => hword ((exactEq_candidate memory hpointer).mp hequal)), ih hrest,
        List.filter_cons, if_neg hkey]

/-- The pairs the translator reads from a select list. -/
def candidates (labels : List ℕ) (list : Operand) : Except JitError (List SelectPair) := do
  (← parseSelectPairs list).mapM (selectPair labels)

/-- Of the pairs with one word, the one the halving lands on has the label of the first. -/
def FirstTaken (pairs : List SelectPair) (word : Word) : Prop :=
  let equal := pairs.filter fun pair => pair.key = word.toNat
  let position := landing (pairs.countP fun pair => pair.key < word.toNat) equal.length
    (pairs.countP fun pair => word.toNat < pair.key)
  equal[position]?.map SelectPair.target = equal.head?.map SelectPair.target

/-- Both choices from one list of pairs. -/
theorem lowerSelectVal_ok {registers : Registers} {labels : List ℕ} {value fail list : Operand}
    {target : ℕ} (h : lowerSelectVal registers labels value fail list = .ok target) :
    ∃ failBlock pairs word, operandLabel fail = .ok failBlock ∧
      candidates labels list = .ok pairs ∧ readOperandTerm registers value = .ok word ∧
      target = ((bisect SelectPair.key word.toNat (sortByKey SelectPair.key pairs)).map
        SelectPair.target).getD failBlock := by
  obtain ⟨label, hlabel, h⟩ := except_bind_ok_iff.mp h
  obtain ⟨failBlock, hfail, h⟩ := except_bind_ok_iff.mp h
  obtain ⟨items, hitems, h⟩ := except_bind_ok_iff.mp h
  obtain ⟨pairs, hpairs, h⟩ := except_bind_ok_iff.mp h
  obtain ⟨word, hword, h⟩ := except_bind_ok_iff.mp h
  refine ⟨failBlock, pairs, word, knownLabel_ok (except_bind_ok_iff.mpr ⟨label, hlabel, hfail⟩),
    except_bind_ok_iff.mpr ⟨items, hitems, hpairs⟩, hword, ?_⟩
  rw [← run_lowerSelectBinarySearch]
  exact (Except.ok.inj h).symm

theorem parseSelectPairs_ok {list : Operand} {items : List (Operand × Operand)}
    (h : parseSelectPairs list = .ok items) (context : String) :
    selectPairs context list = .ok items := by
  unfold parseSelectPairs at h
  unfold selectPairs
  split at h
  · split at h
    · next heven =>
      obtain rfl := Except.ok.inj h
      exact if_neg (not_not_intro heven)
    · cases h
  · cases h

/-- Compiled code goes where the interpreter goes exactly when the pair it lands on has the label of
the first pair with the word. -/
theorem select_val_agrees_iff (memory : Memory) (registers : Registers) (literals : List Word)
    (labels : List ℕ) (value fail list : Operand) (word : Word) (pairs : List SelectPair)
    (target : ℕ) (hword : readTerm registers literals value = .ok word)
    (hpairs : candidates labels list = .ok pairs)
    (hcode : lowerSelectVal registers labels value fail list = .ok target) :
    selectVal memory registers literals value fail list = .ok target ↔ FirstTaken pairs word := by
  obtain ⟨failBlock, pairs', word', hfail, hpairs', hword', htarget⟩ := lowerSelectVal_ok hcode
  obtain rfl := Except.ok.inj (hpairs.symm.trans hpairs')
  obtain rfl := readOperandTerm_eq hword' hword
  obtain ⟨items, hitems, hmap⟩ := except_bind_ok_iff.mp hpairs
  rw [bisect_sortByKey,
    List.countP_eq_length_filter (p := fun (a : SelectPair) => decide (a.key = word'.toNat))]
    at htarget
  have hloop := selectLoop_eq hmap memory registers literals word'
  have hscan : selectVal memory registers literals value fail list =
      .ok (((pairs.filter fun pair => pair.key = word'.toNat).head?.map
        SelectPair.target).getD failBlock) := by
    rw [selectVal, hword, except_ok_bind, parseSelectPairs_ok hitems, except_ok_bind, hloop,
      except_ok_bind]
    cases (pairs.filter fun pair => pair.key = word'.toNat).head? with
    | none => exact hfail
    | some first => rfl
  rw [hscan, Except.ok.injEq, FirstTaken, htarget]
  cases hequal : pairs.filter fun pair => pair.key = word'.toNat with
  | nil => simp
  | cons first rest =>
    obtain ⟨chosen, hchosen⟩ : ∃ chosen, (first :: rest)[landing
        (pairs.countP fun pair => pair.key < word'.toNat) (first :: rest).length
        (pairs.countP fun pair => word'.toNat < pair.key)]? = some chosen :=
      ⟨_, List.getElem?_eq_getElem (landing_lt _ _ _ (by simp))⟩
    rw [hchosen]
    exact ⟨fun h => congrArg some h.symm, fun h => (Option.some.inj h).symm⟩

/-- A select list that names the candidate 7 twice. -/
def repeatedList : Operand := .list [.integer 7, .label 2, .integer 7, .label 3]

theorem lowerSelectVal_repeated :
    lowerSelectVal sampleRegisters [1, 2, 3] (.integer 7) (.label 1) repeatedList = .ok 3 := by
  have hcandidates : candidates [1, 2, 3] repeatedList = .ok [⟨56, 2⟩, ⟨56, 3⟩] := by
    decide +kernel
  have hlanding : landing 0 2 0 = 1 := landing_of_mem (by norm_num) (by norm_num)
  obtain ⟨items, hitems, hpairs⟩ := except_bind_ok_iff.mp hcandidates
  have hword : readOperandTerm sampleRegisters (.integer 7) = .ok 56 := by decide
  have hfail : knownLabel [1, 2, 3] 1 = .ok 1 := by decide
  have hlabel : labelOperand (.label 1) = .ok 1 := rfl
  rw [lowerSelectVal, hlabel, except_ok_bind, hfail, except_ok_bind, hitems, except_ok_bind, hpairs,
    except_ok_bind, hword, except_ok_bind, run_lowerSelectBinarySearch, bisect_sortByKey]
  exact congrArg (fun n => Except.ok ((Option.map SelectPair.target
    [(⟨56, 2⟩ : SelectPair), ⟨56, 3⟩][n]?).getD 1)) hlanding

theorem select_val_agrees_repeated :
    selectVal tupleMemory sampleRegisters [] (.integer 7) (.label 1) repeatedList = .ok 3 ↔
      FirstTaken [⟨56, 2⟩, ⟨56, 3⟩] 56 :=
  select_val_agrees_iff tupleMemory sampleRegisters [] [1, 2, 3] (.integer 7) (.label 1)
    repeatedList 56 [⟨56, 2⟩, ⟨56, 3⟩] 3 (by decide) (by decide +kernel) lowerSelectVal_repeated

/-- For the value 7 and the candidate 7 twice the interpreter goes to the first label, compiled code
to the second. -/
theorem not_select_val_agrees :
    ¬ ∀ (memory : Memory) (registers : Registers) (literals : List Word) (labels : List ℕ)
      (value fail list : Operand) (word : Word) (target : ℕ),
      readTerm registers literals value = .ok word →
      lowerSelectVal registers labels value fail list = .ok target →
      selectVal memory registers literals value fail list = .ok target := by
  intro h
  have hthird := h tupleMemory sampleRegisters [] [1, 2, 3] (.integer 7) (.label 1) repeatedList 56
    3 (by decide) lowerSelectVal_repeated
  have hfirst : selectVal tupleMemory sampleRegisters [] (.integer 7) (.label 1) repeatedList =
      .ok 2 := by
    decide +kernel
  cases hfirst.symm.trans hthird

end Beamr.Jit
