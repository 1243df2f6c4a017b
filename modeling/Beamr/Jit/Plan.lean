import Beamr.Jit.Arithmetic
import Beamr.Lib.MayReach

/-!
# Admission of a slice

The pass before translation. It checks the operands of every instruction, collects the labels
and the starts of the blocks, checks that branch targets are labels of the slice, and refuses
the slice when an instruction that may leave for the interpreter can run after an observable
side effect: leaving restarts the function, which would repeat the effect.
-/
namespace Beamr.Jit

open Loader

/-! ## Operand checks -/

def validateReadOperand : Operand → Except JitError Unit
  | .integer _ | .unsigned _ | .atom _ => .ok ()
  | operand => do
    let _ ← registerOperand operand

def validateWriteOperand (operand : Operand) : Except JitError Unit := do
  let _ ← registerOperand operand

def validateLabelOperand (operand : Operand) : Except JitError Unit := do
  let _ ← labelOperand operand

def immediateUsize : Operand → Except JitError ℕ
  | .unsigned value => .ok value
  | .integer value => if 0 ≤ value then .ok value.toNat else .error .unsupportedOperand
  | _ => .error .unsupportedOperand

def validateImportOperand (operand : Operand) : Except JitError Unit := do
  let _ ← immediateUsize operand

def immediateRawTerm : Operand → Except JitError Term.Word
  | .integer value => smallIntConstant value
  | .unsigned value => smallIntConstant value
  | .atom (some a) => .ok (Term.Word.ofAtom a)
  | .atom none => .ok Term.Word.nil
  | _ => .error .unsupportedOperand

def validateTagAtom : Operand → Except JitError Unit
  | .atom (some _) => .ok ()
  | _ => .error .unsupportedOperand

def validateSupportedTypeTest : TypeTestOp → Except JitError Unit
  | .isInteger | .isAtom | .isPid | .isBinary | .isList | .isTuple => .ok ()
  | _ => .error .unsupportedOpcode

def validateFloatRegisterOperand : Operand → Except JitError Unit
  | .floatRegister index => if index < 16 then .ok () else .error .unsupportedOperand
  | _ => .error .unsupportedOperand

def validateFmoveOperands (source dest : Operand) : Except JitError Unit :=
  match source, dest with
  | .floatRegister _, .floatRegister _ => do
    validateFloatRegisterOperand source
    validateFloatRegisterOperand dest
  | .floatRegister _, _ => do
    validateFloatRegisterOperand source
    validateWriteOperand dest
  | _, .floatRegister _ => do
    validateReadOperand source
    validateFloatRegisterOperand dest
  | _, _ => .error .unsupportedOperand

/-- The items of a list two by two. -/
def chunkPairs {α : Type} : List α → List (α × α)
  | a :: b :: rest => (a, b) :: chunkPairs rest
  | _ => []

def parseSelectPairs : Operand → Except JitError (List (Operand × Operand))
  | .list items =>
    if items.length % 2 = 0 then .ok (chunkPairs items) else .error .unsupportedOperand
  | _ => .error .unsupportedOperand

/-- Operands of the two forms that build a map. -/
structure PutMap where
  fail : Operand
  source : Operand
  destination : Operand
  pairs : List Operand

def parsePutMapOperands : List Operand → Except JitError PutMap
  | [fail, source, destination, _, .list items] =>
    if items.length % 2 = 0 then .ok ⟨fail, source, destination, items⟩
    else .error .unsupportedOperand
  | _ => .error .unsupportedOperand

/-- Operands of the forms that read a map: keys with destinations, or keys alone. -/
structure ReadMap where
  fail : Operand
  source : Operand
  items : List Operand

def parseGetMapElementsOperands : List Operand → Except JitError ReadMap
  | [fail, source, .list items] =>
    if items.length % 2 = 0 then .ok ⟨fail, source, items⟩ else .error .unsupportedOperand
  | _ => .error .unsupportedOperand

def parseHasMapFieldsOperands : List Operand → Except JitError ReadMap
  | [fail, source, .list keys] => .ok ⟨fail, source, keys⟩
  | _ => .error .unsupportedOperand

def mapFail (op : MapOp) (operands : List Operand) : Except JitError Operand :=
  match op with
  | .putMapAssoc | .putMapExact => (parsePutMapOperands operands).map PutMap.fail
  | .getMapElements => (parseGetMapElementsOperands operands).map ReadMap.fail
  | .hasMapFields => (parseHasMapFieldsOperands operands).map ReadMap.fail

/-- A call is translated as the end of the function, so the next instruction must return. -/
def requireTailPosition : Option Instruction → Except JitError Unit
  | some .return_ => .ok ()
  | _ => .error .unsupportedOpcode

def validateListOperand (validate : Operand → Except JitError Unit) :
    Operand → Except JitError Unit
  | .list operands => operands.forM validate
  | _ => .error .unsupportedOperand

def validateBif (op : BifOp) (operands : List Operand) : Except JitError Unit := do
  let parsed ← ParsedBif2.parse op operands
  let _ ← fromImport parsed.importIndex
  if !isNoFailLabel parsed.fail then
    validateLabelOperand parsed.fail
  validateReadOperand parsed.left
  validateReadOperand parsed.right
  validateWriteOperand parsed.destination

def validateMapOp (op : MapOp) (operands : List Operand) : Except JitError Unit :=
  match op with
  | .putMapAssoc | .putMapExact => do
    let parsed ← parsePutMapOperands operands
    validateLabelOperand parsed.fail
    validateReadOperand parsed.source
    validateWriteOperand parsed.destination
    parsed.pairs.forM validateReadOperand
  | .getMapElements => do
    let parsed ← parseGetMapElementsOperands operands
    validateLabelOperand parsed.fail
    validateReadOperand parsed.source
    (chunkPairs parsed.items).forM fun pair => do
      validateReadOperand pair.1
      validateWriteOperand pair.2
  | .hasMapFields => do
    let parsed ← parseHasMapFieldsOperands operands
    validateLabelOperand parsed.fail
    validateReadOperand parsed.source
    parsed.items.forM validateReadOperand

/-- The operand checks of one instruction; `next` is the instruction after it. -/
def validateInstruction (next : Option Instruction) : Instruction → Except JitError Unit
  | .label _ | .return_ | .line _ => .ok ()
  | .allocate .. | .allocateHeap .. | .allocateZero .. | .deallocate _ | .testHeap ..
  | .trim .. => .ok ()
  | .initYregs registers => validateListOperand validateWriteOperand registers
  | .move source destination => do
    validateReadOperand source
    validateWriteOperand destination
  | .swap left right => do
    validateReadOperand left
    validateReadOperand right
    validateWriteOperand left
    validateWriteOperand right
  | .typeTest op fail value => do
    validateSupportedTypeTest op
    validateLabelOperand fail
    validateReadOperand value
  | .putList head tail destination => do
    validateReadOperand head
    validateReadOperand tail
    validateWriteOperand destination
  | .getList source head tail => do
    validateReadOperand source
    validateWriteOperand head
    validateWriteOperand tail
  | .getHd source destination | .getTl source destination => do
    validateReadOperand source
    validateWriteOperand destination
  | .putTuple2 destination elements => do
    validateWriteOperand destination
    validateListOperand validateReadOperand elements
  | .getTupleElement source index destination => do
    validateReadOperand source
    let _ ← immediateUsize index
    validateWriteOperand destination
  | .comparison _ fail left right => do
    validateLabelOperand fail
    validateReadOperand left
    validateReadOperand right
  | .testArity fail tuple arity => do
    validateLabelOperand fail
    validateReadOperand tuple
    let _ ← immediateUsize arity
  | .isTaggedTuple fail value arity tag => do
    validateLabelOperand fail
    validateReadOperand value
    let _ ← immediateUsize arity
    validateTagAtom tag
  | .selectVal value fail list => do
    validateReadOperand value
    validateLabelOperand fail
    (← parseSelectPairs list).forM fun pair => do
      let _ ← immediateRawTerm pair.1
      validateLabelOperand pair.2
  | .jump target => validateLabelOperand target
  | .try_ destination label => do
    validateWriteOperand destination
    validateLabelOperand label
  | .tryEnd source | .tryCase source => validateWriteOperand source
  | .call _ label => do
    requireTailPosition next
    validateLabelOperand label
  | .callOnly _ label | .callLast _ label _ => validateLabelOperand label
  | .callExt _ importIndex => do
    requireTailPosition next
    validateImportOperand importIndex
  | .callExtOnly _ importIndex | .callExtLast _ importIndex _ =>
    validateImportOperand importIndex
  | .bif op operands => validateBif op operands
  | .makeFun _ => .ok ()
  | .fmove source dest => validateFmoveOperands source dest
  | .fconv source dest => do
    validateReadOperand source
    validateFloatRegisterOperand dest
  | .fadd fail left right dest | .fsub fail left right dest | .fmul fail left right dest
  | .fdiv fail left right dest => do
    validateLabelOperand fail
    validateFloatRegisterOperand left
    validateFloatRegisterOperand right
    validateFloatRegisterOperand dest
  | .fnegate fail source dest => do
    validateLabelOperand fail
    validateFloatRegisterOperand source
    validateFloatRegisterOperand dest
  | .apply _ | .callFun _ | .callFun2 .. => requireTailPosition next
  | .applyLast .. | .binaryOp .. => .ok ()
  | .mapOp op operands => validateMapOp op operands
  | .send | .removeMessage | .timeout => .ok ()
  | .loopRec fail destination => do
    validateLabelOperand fail
    validateWriteOperand destination
  | .loopRecEnd fail | .wait fail => validateLabelOperand fail
  | .waitTimeout fail timeout => do
    validateLabelOperand fail
    validateReadOperand timeout
  | .recvMarkerReserve dest => validateWriteOperand dest
  | .recvMarkerBind marker reference => do
    validateReadOperand marker
    validateReadOperand reference
  | .recvMarkerClear marker | .recvMarkerUse marker => validateReadOperand marker
  | .funcInfo .. | .ifEnd => .ok ()
  | .badmatch value | .badrecord value | .caseEnd value => validateReadOperand value
  | .selectTupleArity .. | .catch_ .. | .catchEnd _ | .tryCaseEnd _ | .raise .. | .rawRaise
  | .onLoad | .buildStacktrace | .nifStart | .updateRecord _ | .generic .. =>
    .error .unsupportedOpcode

def validateSlice : List Instruction → Except JitError Unit
  | [] => .ok ()
  | instruction :: rest => do
    validateInstruction rest.head? instruction
    validateSlice rest

/-! ## Classification -/

/-- Running the instruction again would repeat something that others can see. -/
def isObservableSideEffect : Instruction → Bool
  | .send | .removeMessage | .timeout | .recvMarkerReserve _ | .recvMarkerBind ..
  | .recvMarkerClear _ | .recvMarkerUse _ | .callExt .. | .callExtOnly .. | .callExtLast ..
  | .apply _ | .applyLast .. | .callFun _ | .callFun2 .. => true
  | _ => false

/-- The translated instruction may leave for the interpreter, which restarts the function. -/
def isRuntimeDeoptCapable : Instruction → Bool
  | .bif .. | .allocate .. | .allocateHeap .. | .allocateZero .. | .deallocate _ | .testHeap ..
  | .trim .. | .loopRec .. | .wait _ | .waitTimeout .. | .recvMarkerReserve _
  | .recvMarkerBind .. | .recvMarkerClear _ | .recvMarkerUse _ | .callExt .. | .callExtOnly ..
  | .callExtLast .. | .callLast .. | .callFun _ | .callFun2 .. | .apply _ | .applyLast ..
  | .putList .. | .putTuple2 .. | .makeFun _ | .binaryOp .. | .fmove .. | .funcInfo ..
  | .badmatch _ | .badrecord _ | .caseEnd _ | .ifEnd => true
  | _ => false

/-! ## Labels and blocks -/

/-- Index of a label; the later of two equal labels counts. -/
abbrev Labels := List (ℕ × ℕ)

structure TranslationPlan where
  labels : Labels
  blockStarts : List ℕ

/-- Whether the instruction after this one starts a block. -/
def endsBlock : Instruction → Bool
  | .label _ | .line _ | .initYregs _ | .move .. | .swap .. | .getList .. | .getHd ..
  | .getTl .. | .getTupleElement .. => false
  | _ => true

def TranslationPlan.record (plan : TranslationPlan) (index : ℕ) :
    Instruction → TranslationPlan
  | .label label => ⟨(label, index) :: plan.labels, index :: plan.blockStarts⟩
  | instruction =>
    if endsBlock instruction then ⟨plan.labels, (index + 1) :: plan.blockStarts⟩ else plan

def TranslationPlan.collect (plan : TranslationPlan) (index : ℕ) :
    List Instruction → TranslationPlan
  | [] => plan
  | instruction :: rest => (plan.record index instruction).collect (index + 1) rest

/-- Labels and block starts of a slice. -/
def TranslationPlan.ofSlice (instructions : List Instruction) : TranslationPlan :=
  TranslationPlan.collect ⟨[], [0, instructions.length]⟩ 0 instructions

def ensureKnownLabel (labels : Labels) (operand : Operand) : Except JitError Unit := do
  let label ← labelOperand operand
  if (labels.lookup label).isSome then .ok () else .error (.unknownLabel label)

/-- Branch targets of one instruction are labels of the slice. -/
def ensureKnownLabels (labels : Labels) : Instruction → Except JitError Unit
  | .typeTest _ fail _ | .comparison _ fail _ _ | .testArity fail _ _
  | .isTaggedTuple fail _ _ _ => ensureKnownLabel labels fail
  | .selectVal _ fail list => do
    ensureKnownLabel labels fail
    (← parseSelectPairs list).forM fun pair => ensureKnownLabel labels pair.2
  | .jump target | .try_ _ target | .call _ target | .callOnly _ target
  | .callLast _ target _ => ensureKnownLabel labels target
  | .bif op operands =>
    if op = .bif2 ∨ op = .gcBif2 then do
      let parsed ← ParsedBif2.parse op operands
      if !isNoFailLabel parsed.fail then
        ensureKnownLabel labels parsed.fail
    else .ok ()
  | .fadd fail _ _ _ | .fsub fail _ _ _ | .fmul fail _ _ _ | .fdiv fail _ _ _
  | .fnegate fail _ _ => ensureKnownLabel labels fail
  | .loopRec fail _ | .loopRecEnd fail | .wait fail | .waitTimeout fail _ =>
    ensureKnownLabel labels fail
  | .mapOp op operands => do
    ensureKnownLabel labels (← mapFail op operands)
  | _ => .ok ()

/-! ## Control flow -/

section

variable (labels : Labels) (length index : ℕ)

def fallThrough : List ℕ := if index + 1 < length then [index + 1] else []

def resolve : Operand → List ℕ
  | .label label => (labels.lookup label).toList
  | _ => []

/-- The indices that control can reach from the instruction at `index` inside the slice, as the
analysis sees them. -/
def instructionSuccessors : Instruction → List ℕ
  | .return_ | .callExt .. | .callExtOnly .. | .callExtLast .. | .apply _ | .applyLast ..
  | .callFun _ | .callFun2 .. | .funcInfo .. | .recvMarkerReserve _ | .recvMarkerBind ..
  | .recvMarkerClear _ | .recvMarkerUse _ | .badmatch _ | .badrecord _ | .caseEnd _
  | .ifEnd => []
  | .jump target => resolve labels target
  | .call _ label | .callOnly _ label | .callLast _ label _ => resolve labels label
  | .wait fail | .loopRecEnd fail => resolve labels fail
  | .selectVal _ fail list =>
    resolve labels fail ++
      match parseSelectPairs list with
      | .ok pairs => pairs.flatMap fun pair => resolve labels pair.2
      | .error _ => []
  | .typeTest _ fail _ | .comparison _ fail _ _ | .testArity fail _ _
  | .isTaggedTuple fail _ _ _ | .loopRec fail _ | .waitTimeout fail _ | .try_ _ fail
  | .fadd fail _ _ _ | .fsub fail _ _ _ | .fmul fail _ _ _ | .fdiv fail _ _ _
  | .fnegate fail _ _ => resolve labels fail ++ fallThrough length index
  | .bif op operands =>
    (match ParsedBif2.parse op operands with
      | .ok parsed => if isNoFailLabel parsed.fail then [] else resolve labels parsed.fail
      | .error _ => []) ++ fallThrough length index
  | .mapOp op operands =>
    (match mapFail op operands with
      | .ok fail => resolve labels fail
      | .error _ => []) ++ fallThrough length index
  | _ => fallThrough length index

end

def controlFlowSuccessors (instructions : List Instruction) (labels : Labels) (index : ℕ) :
    List ℕ :=
  match instructions[index]? with
  | some instruction => instructionSuccessors labels instructions.length index instruction
  | none => []

/-! ## The guard -/

def observableAt (instructions : List Instruction) (index : ℕ) : Bool :=
  instructions[index]?.any isObservableSideEffect

/-- Indices that the analysis takes to be reachable after an observable side effect: the
indices are queued in order and taken from the end. -/
def effectIn (instructions : List Instruction) (labels : Labels) (fuel : ℕ) :
    Option (List ℕ) :=
  MayReach.loop (controlFlowSuccessors instructions labels) (observableAt instructions) fuel
    ⟨[], (List.range instructions.length).reverse⟩

/-- Visits that the analysis needs at most. -/
def visitBound (instructions : List Instruction) : ℕ := 3 * instructions.length

/-- The first instruction that may leave after an effect refuses the slice. -/
def rejectDeoptAfterSideEffect (instructions : List Instruction) (labels : Labels) :
    Except JitError Unit :=
  match effectIn instructions labels (visitBound instructions) with
  | some reached =>
    if reached.any fun index => instructions[index]?.any isRuntimeDeoptCapable then
      .error .unsupportedOpcode
    else .ok ()
  | none => .error .unsupportedOpcode

def TranslationPlan.new (instructions : List Instruction) : Except JitError TranslationPlan := do
  if instructions.isEmpty then
    throw .emptyFunction
  validateSlice instructions
  let plan := TranslationPlan.ofSlice instructions
  instructions.forM (ensureKnownLabels plan.labels)
  rejectDeoptAfterSideEffect instructions plan.labels
  return plan

/-! ## Successors stay in the slice -/

theorem TranslationPlan.collect_labels {plan : TranslationPlan} {index : ℕ}
    {instructions : List Instruction} {entry : ℕ × ℕ}
    (h : entry ∈ (plan.collect index instructions).labels) :
    entry ∈ plan.labels ∨ entry.2 < index + instructions.length := by
  induction instructions generalizing plan index with
  | nil => exact .inl h
  | cons instruction rest ih =>
    rcases ih h with hrecord | hlater
    · by_cases hlabel : ∃ label, instruction = .label label
      · obtain ⟨label, rfl⟩ := hlabel
        rcases List.mem_cons.mp hrecord with rfl | hold
        · exact .inr (by simp)
        · exact .inl hold
      · left
        unfold TranslationPlan.record at hrecord
        split at hrecord
        next => exact absurd ⟨_, rfl⟩ hlabel
        next =>
          split at hrecord
          next => exact hrecord
          next => exact hrecord
    · right
      simp only [List.length_cons]
      omega

theorem lookup_lt {instructions : List Instruction} {label index : ℕ}
    (h : (TranslationPlan.ofSlice instructions).labels.lookup label = some index) :
    index < instructions.length := by
  have hmem : (label, index) ∈ (TranslationPlan.ofSlice instructions).labels := by
    obtain ⟨before, after, heq, -⟩ := List.lookup_eq_some_iff.mp h
    rw [heq]
    exact List.mem_append_right before List.mem_cons_self
  rcases TranslationPlan.collect_labels hmem with hnil | hlt
  · exact absurd hnil List.not_mem_nil
  · simpa using hlt

section

variable {labels : Labels} {length index : ℕ}

theorem mem_resolve {operand : Operand} {target : ℕ} :
    target ∈ resolve labels operand ↔
      ∃ label, operand = .label label ∧ labels.lookup label = some target := by
  cases operand <;> simp [resolve]

theorem mem_fallThrough {target : ℕ} :
    target ∈ fallThrough length index ↔ index + 1 < length ∧ target = index + 1 := by
  unfold fallThrough
  split <;> simp_all

theorem instructionSuccessors_lt (hlabels : ∀ label target,
      labels.lookup label = some target → target < length)
    (instruction : Instruction) {target : ℕ}
    (h : target ∈ instructionSuccessors labels length index instruction) :
    target < length := by
  have hresolve : ∀ {operand}, target ∈ resolve labels operand → target < length := by
    intro operand hmem
    obtain ⟨label, -, hlookup⟩ := mem_resolve.mp hmem
    exact hlabels label target hlookup
  have hnext : target ∈ fallThrough length index → target < length := by
    intro hmem
    obtain ⟨hlt, rfl⟩ := mem_fallThrough.mp hmem
    exact hlt
  have hboth : ∀ {operand}, target ∈ resolve labels operand ++ fallThrough length index →
      target < length := by
    intro operand hmem
    exact (List.mem_append.mp hmem).elim hresolve hnext
  cases instruction with
  | selectVal value fail list =>
    rcases List.mem_append.mp h with hfail | htargets
    · exact hresolve hfail
    · split at htargets
      next pairs hpairs =>
        obtain ⟨pair, -, hpair⟩ := List.mem_flatMap.mp htargets
        exact hresolve hpair
      next => cases htargets
  | «bif» op operands =>
    rcases List.mem_append.mp h with hfail | hfall
    · split at hfail
      next =>
        split at hfail
        next => cases hfail
        next => exact hresolve hfail
      next => cases hfail
    · exact hnext hfall
  | mapOp op operands =>
    rcases List.mem_append.mp h with hfail | hfall
    · split at hfail
      next => exact hresolve hfail
      next => cases hfail
    · exact hnext hfall
  | _ => first | exact hnext h | exact hresolve h | exact hboth h | exact absurd h List.not_mem_nil

end

theorem controlFlowSuccessors_lt {instructions : List Instruction} {index target : ℕ}
    (h : target ∈ controlFlowSuccessors instructions
      (TranslationPlan.ofSlice instructions).labels index) :
    target < instructions.length := by
  unfold controlFlowSuccessors at h
  split at h
  next instruction _ => exact instructionSuccessors_lt (fun _ _ => lookup_lt) instruction h
  next => exact absurd h List.not_mem_nil

/-! ## The analysis ends and is exact -/

/-- Some path over the analysed edges enters the index after an observable side effect. -/
def AfterSideEffect (instructions : List Instruction) (index : ℕ) : Prop :=
  ∃ start, observableAt instructions start ∧
    Relation.TransGen (fun i j => j ∈ controlFlowSuccessors instructions
      (TranslationPlan.ofSlice instructions).labels i) start index

section

variable (instructions : List Instruction)

theorem successors_closed :
    ∀ i ∈ Finset.range instructions.length, ∀ j ∈ controlFlowSuccessors instructions
      (TranslationPlan.ofSlice instructions).labels i,
      j ∈ Finset.range instructions.length := by
  intro i _ j hj
  exact Finset.mem_range.mpr (controlFlowSuccessors_lt hj)

theorem observableAt_lt {instructions : List Instruction} {index : ℕ}
    (h : observableAt instructions index) : index < instructions.length := by
  by_contra hge
  rw [observableAt, List.getElem?_eq_none (by omega)] at h
  cases h

theorem afterSideEffect_iff (index : ℕ) :
    AfterSideEffect instructions index ↔
      MayReach.Reached (controlFlowSuccessors instructions
        (TranslationPlan.ofSlice instructions).labels) (observableAt instructions)
        (Finset.range instructions.length) index := by
  constructor
  · rintro ⟨start, hobservable, hpath⟩
    exact ⟨start, Finset.mem_range.mpr (observableAt_lt hobservable), hobservable, hpath⟩
  · rintro ⟨start, -, hobservable, hpath⟩
    exact ⟨start, hobservable, hpath⟩

/-- The loop ends on every slice, and its marks are the indices behind a side effect. -/
theorem exists_effectIn :
    ∃ reached, (∀ fuel, visitBound instructions ≤ fuel →
        effectIn instructions (TranslationPlan.ofSlice instructions).labels fuel =
          some reached) ∧
      ∀ index, index ∈ reached ↔ AfterSideEffect instructions index := by
  have hnodes : ∀ i, i ∈ (List.range instructions.length).reverse ↔
      i ∈ Finset.range instructions.length := by
    intro i
    rw [List.mem_reverse, List.mem_range, Finset.mem_range]
  have hfuel : MayReach.State.potential (Finset.range instructions.length)
      ⟨[], (List.range instructions.length).reverse⟩ ≤ visitBound instructions := by
    simp only [MayReach.State.potential, visitBound, List.length_reverse, List.length_range,
      List.not_mem_nil, not_false_eq_true, Finset.filter_true, Finset.card_range]
    omega
  obtain ⟨reached, hloop⟩ := MayReach.exists_loop (successors_closed instructions)
    (fun i hi => (hnodes i).mp hi) hfuel
  refine ⟨reached, ?_, ?_⟩
  · intro fuel hle
    obtain ⟨more, rfl⟩ := Nat.exists_eq_add_of_le hle
    exact MayReach.loop_mono hloop more
  · intro index
    have hinv := (MayReach.Invariant.initial hnodes).loop (successors_closed instructions) hloop
    rw [hinv.mem_marked_iff (successors_closed instructions), afterSideEffect_iff]

/-- The guard passes a slice exactly when nothing behind a side effect may leave. -/
theorem rejectDeoptAfterSideEffect_ok_iff :
    rejectDeoptAfterSideEffect instructions (TranslationPlan.ofSlice instructions).labels =
        .ok () ↔
      ∀ index instruction, AfterSideEffect instructions index →
        instructions[index]? = some instruction → isRuntimeDeoptCapable instruction = false := by
  obtain ⟨reached, hloop, hreached⟩ := exists_effectIn instructions
  rw [rejectDeoptAfterSideEffect, hloop _ le_rfl]
  simp only
  constructor
  · intro h index instruction hafter hat
    by_contra hcapable
    split at h
    next => cases h
    next hnone =>
      apply hnone
      rw [List.any_eq_true]
      exact ⟨index, (hreached index).mpr hafter, by simpa [hat] using hcapable⟩
  · intro h
    split
    next hany =>
      obtain ⟨index, hindex, hat⟩ := List.any_eq_true.mp hany
      cases hget : instructions[index]? with
      | none => simp [hget] at hat
      | some instruction =>
        have := h index instruction ((hreached index).mp hindex) hget
        simp [hget, this] at hat
    next => rfl

/-- An accepted slice has the labels of the slice and passed the guard. -/
theorem TranslationPlan.new_ok {instructions : List Instruction} {plan : TranslationPlan}
    (h : TranslationPlan.new instructions = .ok plan) :
    plan = TranslationPlan.ofSlice instructions ∧
      rejectDeoptAfterSideEffect instructions plan.labels = .ok () := by
  unfold TranslationPlan.new at h
  split at h
  next => cases h
  next =>
    obtain ⟨_, -, h⟩ := except_bind_ok_iff.mp h
    obtain ⟨_, -, h⟩ := except_bind_ok_iff.mp h
    obtain ⟨_, hguard, h⟩ := except_bind_ok_iff.mp h
    cases h
    exact ⟨rfl, hguard⟩

end

end Beamr.Jit
