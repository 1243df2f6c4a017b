import Beamr.Jit.Plan
import Beamr.Jit.Native

/-!
# Control flow of the translated code

The branches that translation emits for the instructions of a slice. They are written down
from the translator and not from the successors that the guard of the plan uses: a wait with a
timeout goes back to the block of the receive before it, binary matching has fail branches, and
a call inside a try branches to the handler. Both compile modes are covered, so arithmetic has
the overflow exit of the typed mode. Values are left out, and so are failures of the translator
that only concern the value of an operand.
-/
namespace Beamr.Jit

open Loader

/-- Where a branch of the translated code goes. -/
inductive Edge
  /-- An instruction of the slice. -/
  | to (index : ℕ)
  /-- A handler of the slice, with the exception of a callee. -/
  | handler (index : ℕ)
  /-- The deopt block. -/
  | deopt
  /-- The deopt block, with the error of a send parked on the process. -/
  | abort
  /-- Return, yield and exception of the function. -/
  | leave
  deriving DecidableEq

/-- The branch goes to the deopt block. -/
def Edge.entersDeopt : Edge → Bool
  | .deopt | .abort => true
  | _ => false

/-! ## Targets -/

def labelBlock (labels : Labels) (operand : Operand) : Except JitError ℕ := do
  let label ← labelOperand operand
  match labels.lookup label with
  | some index => .ok index
  | none => .error (.unknownLabel label)

/-- First instruction of the block that holds the index. -/
def blockForInstruction (plan : TranslationPlan) (index : ℕ) : ℕ :=
  (plan.blockStarts.filter (· ≤ index)).foldr max 0

/-- The block after the last instruction returns. -/
def blockAfter (length index : ℕ) : Edge :=
  if index + 1 < length then .to (index + 1) else .leave

def isLoopRec : Instruction → Bool
  | .loopRec .. => true
  | _ => false

/-- Where a wait with a timeout goes when a message has arrived: the block of the last receive
before it in the slice. -/
def loopBlock (plan : TranslationPlan) (instructions : List Instruction) (index : ℕ) : ℕ :=
  match (List.range index).reverse.find? fun i => instructions[i]?.any isLoopRec with
  | some loopIndex => blockForInstruction plan loopIndex
  | none => blockForInstruction plan index

/-- Branches to labels of the slice, and others. -/
def emit (labels : Labels) (targets : List Operand) (others : List Edge) :
    Except JitError (List Edge) := do
  let indices ← targets.mapM (labelBlock labels)
  return indices.map Edge.to ++ others

/-! ## Exceptions -/

def tryRegisterTriplet (operand : Operand) : Except JitError Unit := do
  match ← registerOperand operand with
  | .y base => if base + 2 < 2 ^ 32 then .ok () else .error .unsupportedOperand
  | .x _ => .error .unsupportedOperand

/-- The handlers of the tries that are open after the instruction, innermost first, in the order
of the slice. -/
def translateTry (labels : Labels) (tryStack : List ℕ) :
    Instruction → Except JitError (List ℕ)
  | .try_ destination label => do
    let catchBlock ← labelBlock labels label
    tryRegisterTriplet destination
    return catchBlock :: tryStack
  | .tryEnd source => do
    let _ ← registerOperand source
    match tryStack with
    | _ :: outer => .ok outer
    | [] => .error .unsupportedOpcode
  | .tryCase source =>
    match tryStack with
    | _ :: outer => .ok outer
    | [] => do
      tryRegisterTriplet source
      return []
  | _ => .ok tryStack

/-- Branches on the status of a called helper: deopt, yield, exception, value. -/
def handleHelperReturn (tryStack : List ℕ) : List Edge :=
  match tryStack with
  | [] => [.deopt, .leave]
  | catchBlock :: _ => [.deopt, .leave, .handler catchBlock]

/-! ## Instructions -/

def supportedBinaryOp : BinaryOp → Bool
  | .bsStartMatch3 | .bsStartMatch4 | .bsGetInteger2 | .bsGetBinary2 | .bsTestTail2
  | .bsTestUnit | .bsGetUtf8 | .bsGetUtf16 | .bsGetUtf32 | .bsInitWritable | .bsCreateBin
  | .bsGetTail | .bsMatch => true
  | _ => false

def failOperand (op : BinaryOp) (operands : List Operand) : Option Operand :=
  match op with
  | .bsStartMatch3 | .bsStartMatch4 | .bsGetInteger2 | .bsGetBinary2 | .bsTestTail2
  | .bsTestUnit | .bsGetUtf8 | .bsGetUtf16 | .bsGetUtf32 | .bsMatch | .bsGetTail =>
    operands.head?
  | _ => none

/-- Branches of a binary instruction. The fail label of `bs_get_tail` is resolved, but the
failure goes to the deopt block. -/
def lowerBinaryOp (labels : Labels) (next : Edge) (op : BinaryOp) (operands : List Operand) :
    Except JitError (List Edge) :=
  if supportedBinaryOp op then
    match op with
    | .bsGetTail => do
      let _ ← (failOperand op operands).toList.mapM (labelBlock labels)
      return [.deopt, next]
    | .bsInitWritable => .ok [.deopt, next]
    | .bsCreateBin => .ok [.deopt, .leave, next]
    | _ => emit labels (failOperand op operands).toList [next]
  else .error .unsupportedOpcode

def lowerFmove (next : Edge) : Operand → Operand → Except JitError (List Edge)
  | .floatRegister _, .floatRegister _ => .ok [next]
  | .floatRegister _, _ => .ok [.deopt, next]
  | _, .floatRegister _ => .ok [.leave, next]
  | _, _ => .error .unsupportedOperand

/-- Branches of the translated instruction at an index of the slice. -/
def lowerInstruction (plan : TranslationPlan) (instructions : List Instruction)
    (tryStack : List ℕ) (index : ℕ) (instruction : Instruction) :
    Except JitError (List Edge) :=
  let next := blockAfter instructions.length index
  match instruction with
  | .label _ | .line _ | .initYregs _ | .move .. | .swap .. | .getList .. | .getHd ..
  | .getTl .. | .getTupleElement .. | .removeMessage | .timeout | .try_ .. | .tryEnd _
  | .tryCase _ => .ok [next]
  | .allocate .. | .allocateHeap .. | .allocateZero .. | .deallocate _ | .testHeap ..
  | .trim .. | .putList .. | .putTuple2 .. | .makeFun _ => .ok [.deopt, next]
  | .bif op operands => do
    let parsed ← ParsedBif2.parse op operands
    if isNoFailLabel parsed.fail then .ok [.deopt, next]
    else emit plan.labels [parsed.fail] [.deopt, next]
  | .typeTest _ fail _ | .comparison _ fail _ _ | .testArity fail _ _
  | .isTaggedTuple fail _ _ _ | .fadd fail _ _ _ | .fsub fail _ _ _ | .fmul fail _ _ _
  | .fdiv fail _ _ _ | .fnegate fail _ _ => emit plan.labels [fail] [next]
  | .selectVal _ fail list => do
    let pairs ← parseSelectPairs list
    emit plan.labels (fail :: pairs.map Prod.snd) []
  | .jump target => emit plan.labels [target] []
  | .send => .ok [.abort, next]
  | .loopRec fail _ => emit plan.labels [fail] [.deopt, next]
  | .loopRecEnd fail => emit plan.labels [fail] []
  | .wait fail => emit plan.labels [fail] [.leave, .deopt]
  | .waitTimeout fail _ =>
    emit plan.labels [fail] [.to (loopBlock plan instructions index), .leave, .deopt]
  | .recvMarkerReserve _ | .recvMarkerBind .. | .recvMarkerClear _ | .recvMarkerUse _
  | .funcInfo .. | .badmatch _ | .badrecord _ | .caseEnd _ | .ifEnd => .ok [.deopt]
  | .return_ => .ok [.leave]
  | .callExt .. | .callExtOnly .. | .callExtLast .. | .callFun _ | .callFun2 .. | .apply _
  | .applyLast .. => .ok (handleHelperReturn tryStack)
  | .call _ label | .callOnly _ label => emit plan.labels [label] [.leave]
  | .callLast _ label _ => emit plan.labels [label] [.leave, .deopt]
  | .fmove source dest => lowerFmove next source dest
  | .fconv .. => .ok [.leave, next]
  | .binaryOp op operands => lowerBinaryOp plan.labels next op operands
  | .mapOp op operands => do
    let fail ← mapFail op operands
    emit plan.labels [fail] [next]
  | .selectTupleArity .. | .catch_ .. | .catchEnd _ | .tryCaseEnd _ | .raise .. | .rawRaise
  | .onLoad | .buildStacktrace | .nifStart | .updateRecord _ | .generic .. =>
    .error .unsupportedOpcode

/-- Branches of the instructions from an index on. -/
def lowerFrom (plan : TranslationPlan) (instructions : List Instruction) (tryStack : List ℕ)
    (index : ℕ) : List Instruction → Except JitError (List (List Edge))
  | [] => .ok []
  | instruction :: rest => do
    let edges ← lowerInstruction plan instructions tryStack index instruction
    let tryStack' ← translateTry plan.labels tryStack instruction
    let others ← lowerFrom plan instructions tryStack' (index + 1) rest
    return edges :: others

/-- The control flow graph of the compiled slice: the branches of each instruction. -/
def lowerSlice (plan : TranslationPlan) (instructions : List Instruction) :
    Except JitError (List (List Edge)) :=
  lowerFrom plan instructions [] 0 instructions

/-! ## Branches and successors -/

section

variable {labels : Labels} {targets : List Operand} {others edges : List Edge}

theorem labelBlock_ok_iff {operand : Operand} {target : ℕ} :
    labelBlock labels operand = .ok target ↔ target ∈ resolve labels operand := by
  rw [mem_resolve]
  unfold labelBlock
  cases operand with
  | label label =>
    cases hlookup : labels.lookup label with
    | none => simp [labelOperand, hlookup]
    | some index => simp [labelOperand, hlookup]
  | _ => simp [labelOperand, bind, Except.bind]

theorem mem_mapM_labelBlock {operands : List Operand} {indices : List ℕ} {target : ℕ}
    (h : operands.mapM (labelBlock labels) = .ok indices) (hmem : target ∈ indices) :
    ∃ operand ∈ operands, target ∈ resolve labels operand := by
  induction operands generalizing indices with
  | nil =>
    cases h
    exact absurd hmem List.not_mem_nil
  | cons operand rest ih =>
    rw [List.mapM_cons] at h
    obtain ⟨first, hfirst, h⟩ := except_bind_ok_iff.mp h
    obtain ⟨later, hlater, h⟩ := except_bind_ok_iff.mp h
    cases h
    rcases List.mem_cons.mp hmem with rfl | hmem
    · exact ⟨operand, List.mem_cons_self, labelBlock_ok_iff.mp hfirst⟩
    · obtain ⟨other, hother, htarget⟩ := ih hlater hmem
      exact ⟨other, List.mem_cons_of_mem operand hother, htarget⟩

/-- A branch is to one of the labels or one of the others. -/
theorem mem_emit {edge : Edge} (h : emit labels targets others = .ok edges)
    (hedge : edge ∈ edges) :
    (∃ target, edge = .to target ∧ ∃ operand ∈ targets, target ∈ resolve labels operand) ∨
      edge ∈ others := by
  obtain ⟨indices, hindices, h⟩ := except_bind_ok_iff.mp h
  cases h
  rcases List.mem_append.mp hedge with hto | hother
  · obtain ⟨target, htarget, rfl⟩ := List.mem_map.mp hto
    exact .inl ⟨target, rfl, mem_mapM_labelBlock hindices htarget⟩
  · exact .inr hother

theorem to_mem_blockAfter {length index target : ℕ}
    (h : Edge.to target = blockAfter length index) : target ∈ fallThrough length index := by
  unfold blockAfter at h
  split at h
  next hlt =>
    cases h
    exact mem_fallThrough.mpr ⟨hlt, rfl⟩
  next => cases h

theorem blockAfter_ne_deopt (length index : ℕ) : blockAfter length index ≠ .deopt := by
  unfold blockAfter
  split <;> simp

end

section

variable {plan : TranslationPlan} {instructions : List Instruction} {tryStack : List ℕ}
  {index : ℕ} {instruction : Instruction} {edges : List Edge}

/-- Only instructions that the plan counts as capable of it branch to the deopt block, a send
with its error apart. -/
theorem deoptCapable_of_deopt_mem
    (h : lowerInstruction plan instructions tryStack index instruction = .ok edges)
    (hdeopt : Edge.deopt ∈ edges) : isRuntimeDeoptCapable instruction := by
  have hnext := blockAfter_ne_deopt instructions.length index
  have hemit : ∀ {targets others}, emit plan.labels targets others = .ok edges →
      Edge.deopt ∈ others := by
    intro targets others hem
    rcases mem_emit hem hdeopt with ⟨target, hto, -⟩ | hother
    · cases hto
    · exact hother
  have hplain : ∀ {others : List Edge}, (Except.ok others : Except JitError _) = .ok edges →
      Edge.deopt ∈ others := by
    rintro _ ⟨⟩
    exact hdeopt
  have hrefused : ∀ {e : JitError}, (Except.error e : Except JitError _) ≠ .ok edges := nofun
  -- the instructions that are not counted end in `next`, leave, or have a fail label
  cases instruction with
  | selectVal value fail list =>
    obtain ⟨pairs, -, h⟩ := except_bind_ok_iff.mp h
    exact absurd (hemit h) List.not_mem_nil
  | mapOp op operands =>
    obtain ⟨fail, -, h⟩ := except_bind_ok_iff.mp h
    exact absurd (List.mem_singleton.mp (hemit h)).symm hnext
  | send =>
    cases h
    simp [Ne.symm hnext] at hdeopt
  | fconv source dest =>
    cases h
    simp [Ne.symm hnext] at hdeopt
  | return_ =>
    cases h
    simp at hdeopt
  | jump target => exact absurd (hemit h) List.not_mem_nil
  | loopRecEnd fail => exact absurd (hemit h) List.not_mem_nil
  | call arity label => exact absurd (hemit h) (by simp)
  | callOnly arity label => exact absurd (hemit h) (by simp)
  | _ =>
    first
      | rfl
      | exact absurd (List.mem_singleton.mp (hplain h)).symm hnext
      | exact absurd (List.mem_singleton.mp (hemit h)).symm hnext
      | exact (hrefused h).elim

/-- A branch to an instruction of the slice is one of the successors that the plan uses, unless
the instruction may leave itself and has no side effect. -/
theorem mem_successors_of_to_mem {target : ℕ}
    (h : lowerInstruction plan instructions tryStack index instruction = .ok edges)
    (hto : Edge.to target ∈ edges) :
    target ∈ instructionSuccessors plan.labels instructions.length index instruction ∨
      (isRuntimeDeoptCapable instruction ∧ isObservableSideEffect instruction = false) := by
  have hnext := @to_mem_blockAfter instructions.length index target
  have hemit : ∀ {targets others}, emit plan.labels targets others = .ok edges →
      (∃ operand ∈ targets, target ∈ resolve plan.labels operand) ∨ Edge.to target ∈ others := by
    intro targets others hem
    rcases mem_emit hem hto with ⟨_, heq, htarget⟩ | hother
    · cases heq
      exact .inl htarget
    · exact .inr hother
  -- one fail label and the next instruction
  have hfail : ∀ {fail}, emit plan.labels [fail] [blockAfter instructions.length index] =
      .ok edges → target ∈ resolve plan.labels fail ++ fallThrough instructions.length index := by
    intro fail hem
    rcases hemit hem with ⟨operand, hoperand, htarget⟩ | hother
    · rw [List.mem_singleton.mp hoperand] at htarget
      exact List.mem_append_left _ htarget
    · exact List.mem_append_right _ (hnext (List.mem_singleton.mp hother))
  have hplain : ∀ {others : List Edge}, (Except.ok others : Except JitError _) = .ok edges →
      Edge.to target ∈ others := by
    rintro _ ⟨⟩
    exact hto
  have hrefused : ∀ {e : JitError}, (Except.error e : Except JitError _) ≠ .ok edges := nofun
  -- one label and a way out of the slice
  have hjump : ∀ {fail others}, emit plan.labels [fail] others = .ok edges →
      (Edge.to target ∉ others) → target ∈ resolve plan.labels fail := by
    intro fail others hem hothers
    rcases hemit hem with ⟨operand, hoperand, htarget⟩ | hother
    · rwa [List.mem_singleton.mp hoperand] at htarget
    · exact absurd hother hothers
  cases instruction with
  | selectVal value fail list =>
    obtain ⟨pairs, hpairs, h⟩ := except_bind_ok_iff.mp h
    left
    simp only [instructionSuccessors, hpairs, List.mem_append, List.mem_flatMap]
    rcases hemit h with ⟨operand, hoperand, htarget⟩ | hother
    · rcases List.mem_cons.mp hoperand with rfl | hpair
      · exact .inl htarget
      · obtain ⟨pair, hmem, rfl⟩ := List.mem_map.mp hpair
        exact .inr ⟨pair, hmem, htarget⟩
    · exact absurd hother List.not_mem_nil
  | mapOp op operands =>
    obtain ⟨fail, hparse, h⟩ := except_bind_ok_iff.mp h
    left
    simp only [instructionSuccessors, hparse]
    exact hfail h
  | send =>
    cases h
    left
    simp only [List.mem_cons, reduceCtorEq, List.not_mem_nil, or_false, false_or] at hto
    exact hnext hto
  | fconv source dest =>
    cases h
    left
    simp only [List.mem_cons, reduceCtorEq, List.not_mem_nil, or_false, false_or] at hto
    exact hnext hto
  | return_ =>
    cases h
    simp at hto
  | callExt arity importIndex | callExtOnly arity importIndex
  | callExtLast arity importIndex deallocate | callFun arity
  | callFun2 function arity destination | apply arity | applyLast arity deallocate =>
    cases h
    unfold handleHelperReturn at hto
    split at hto <;> simp at hto
  | recvMarkerReserve dest | recvMarkerBind marker reference | recvMarkerClear marker
  | recvMarkerUse marker =>
    cases h
    simp at hto
  | callLast arity label deallocate => exact .inl (hjump h (by simp))
  | jump target => exact .inl (hjump h List.not_mem_nil)
  | loopRecEnd fail => exact .inl (hjump h List.not_mem_nil)
  | call arity label => exact .inl (hjump h (by simp))
  | callOnly arity label => exact .inl (hjump h (by simp))
  | _ =>
    first
      | exact .inr ⟨rfl, rfl⟩
      | exact .inl (hnext (List.mem_singleton.mp (hplain h)))
      | exact .inl (List.mem_append_right _ (hnext (List.mem_singleton.mp (hplain h))))
      | exact .inl (hfail h)
      | exact (hrefused h).elim

/-- Only a send aborts. -/
theorem send_of_abort_mem
    (h : lowerInstruction plan instructions tryStack index instruction = .ok edges)
    (habort : Edge.abort ∈ edges) : instruction = .send := by
  have hnext : Edge.abort ≠ blockAfter instructions.length index := by
    unfold blockAfter
    split <;> simp
  have hemit : ∀ {targets others}, emit plan.labels targets others = .ok edges →
      Edge.abort ∈ others := by
    intro targets others hem
    rcases mem_emit hem habort with ⟨target, hto, -⟩ | hother
    · cases hto
    · exact hother
  have hplain : ∀ {others : List Edge}, (Except.ok others : Except JitError _) = .ok edges →
      Edge.abort ∈ others := by
    rintro _ ⟨⟩
    exact habort
  have hrefused : ∀ {e : JitError}, (Except.error e : Except JitError _) ≠ .ok edges := nofun
  cases instruction with
  | send => rfl
  | selectVal value fail list =>
    obtain ⟨pairs, -, h⟩ := except_bind_ok_iff.mp h
    exact absurd (hemit h) List.not_mem_nil
  | mapOp op operands =>
    obtain ⟨fail, -, h⟩ := except_bind_ok_iff.mp h
    exact absurd (hemit h) (by simp [hnext])
  | «bif» op operands =>
    obtain ⟨parsed, -, h⟩ := except_bind_ok_iff.mp h
    split at h
    next => exact absurd (hplain h) (by simp [hnext])
    next => exact absurd (hemit h) (by simp [hnext])
  | fmove source dest =>
    change lowerFmove _ source dest = _ at h
    unfold lowerFmove at h
    split at h <;> first
      | exact absurd (hplain h) (by simp [hnext])
      | exact (hrefused h).elim
  | binaryOp op operands =>
    change lowerBinaryOp _ _ op operands = _ at h
    unfold lowerBinaryOp at h
    split at h
    next =>
      split at h
      next =>
        obtain ⟨_, -, h⟩ := except_bind_ok_iff.mp h
        exact absurd (hplain h) (by simp [hnext])
      next => exact absurd (hplain h) (by simp [hnext])
      next => exact absurd (hplain h) (by simp [hnext])
      next => exact absurd (hemit h) (by simp [hnext])
    next => exact (hrefused h).elim
  | callExt arity importIndex | callExtOnly arity importIndex
  | callExtLast arity importIndex deallocate | callFun arity
  | callFun2 function arity destination | apply arity | applyLast arity deallocate =>
    have hmem := hplain h
    unfold handleHelperReturn at hmem
    split at hmem <;> simp at hmem
  | _ =>
    first
      | exact absurd (hplain h) (by simp [hnext])
      | exact absurd (hemit h) (by simp [hnext])
      | exact (hrefused h).elim

end

/-! ## Paths -/

def edgesAt (graph : List (List Edge)) (index : ℕ) : List Edge := graph[index]?.getD []

/-- A branch inside the slice, the exceptions of callees apart. -/
def Branches (graph : List (List Edge)) (i j : ℕ) : Prop := Edge.to j ∈ edgesAt graph i

theorem lowerFrom_getElem? {plan : TranslationPlan} {instructions rest : List Instruction}
    {tryStack : List ℕ} {index k : ℕ} {graph : List (List Edge)} {edges : List Edge}
    (h : lowerFrom plan instructions tryStack index rest = .ok graph)
    (hk : graph[k]? = some edges) :
    ∃ stack instruction, rest[k]? = some instruction ∧
      lowerInstruction plan instructions stack (index + k) instruction = .ok edges := by
  induction rest generalizing tryStack index k graph with
  | nil =>
    cases h
    simp at hk
  | cons instruction rest ih =>
    obtain ⟨first, hfirst, h⟩ := except_bind_ok_iff.mp h
    obtain ⟨stack, -, h⟩ := except_bind_ok_iff.mp h
    obtain ⟨others, hothers, h⟩ := except_bind_ok_iff.mp h
    cases h
    cases k with
    | zero =>
      cases hk
      exact ⟨tryStack, instruction, rfl, hfirst⟩
    | succ k =>
      obtain ⟨stack', found, hfound, hlower⟩ := ih hothers hk
      refine ⟨stack', found, hfound, ?_⟩
      rwa [Nat.add_right_comm] at hlower

theorem mem_edgesAt {plan : TranslationPlan} {instructions : List Instruction}
    {graph : List (List Edge)} {index : ℕ} {edge : Edge}
    (h : lowerSlice plan instructions = .ok graph) (hedge : edge ∈ edgesAt graph index) :
    ∃ stack instruction edges, instructions[index]? = some instruction ∧
      lowerInstruction plan instructions stack index instruction = .ok edges ∧
      edge ∈ edges := by
  unfold edgesAt at hedge
  cases hget : graph[index]? with
  | none => simp [hget] at hedge
  | some edges =>
    rw [hget] at hedge
    obtain ⟨stack, instruction, hinstruction, hlower⟩ := lowerFrom_getElem? h hget
    rw [Nat.zero_add] at hlower
    exact ⟨stack, instruction, edges, hinstruction, hlower, hedge⟩

/-- In an accepted slice the analysis covers the emitted branches: the ones it does not know
start at instructions that it would have refused after a side effect. -/
theorem afterSideEffect_of_path {instructions : List Instruction} {plan : TranslationPlan}
    {graph : List (List Edge)} (hplan : TranslationPlan.new instructions = .ok plan)
    (hgraph : lowerSlice plan instructions = .ok graph) {start index : ℕ}
    (hstart : observableAt instructions start)
    (hpath : Relation.TransGen (Branches graph) start index) :
    AfterSideEffect instructions index := by
  obtain ⟨rfl, hguard⟩ := TranslationPlan.new_ok hplan
  have hclean := (rejectDeoptAfterSideEffect_ok_iff instructions).mp hguard
  rw [afterSideEffect_iff]
  refine (MayReach.Reached.of_path (successors_closed instructions) ?_
    (Finset.mem_range.mpr (observableAt_lt hstart)) hstart hpath).2
  intro i _ htainted j hbranch
  obtain ⟨stack, instruction, edges, hat, hlower, hmem⟩ := mem_edgesAt hgraph hbranch
  rcases mem_successors_of_to_mem hlower hmem with hsuccessor | ⟨hcapable, hpure⟩
  · simpa only [controlFlowSuccessors, hat] using hsuccessor
  · exfalso
    rcases htainted with hobservable | hreached
    · simp [observableAt, hat, hpure] at hobservable
    · have hafter := (afterSideEffect_iff instructions i).mpr hreached
      rw [hclean i instruction hafter hat] at hcapable
      cases hcapable

theorem not_deopt_of_afterSideEffect {instructions : List Instruction} {plan : TranslationPlan}
    {graph : List (List Edge)} (hplan : TranslationPlan.new instructions = .ok plan)
    (hgraph : lowerSlice plan instructions = .ok graph) {index : ℕ}
    (hafter : AfterSideEffect instructions index) : Edge.deopt ∉ edgesAt graph index := by
  intro hdeopt
  obtain ⟨rfl, hguard⟩ := TranslationPlan.new_ok hplan
  obtain ⟨stack, instruction, edges, hat, hlower, hmem⟩ := mem_edgesAt hgraph hdeopt
  have hclean := (rejectDeoptAfterSideEffect_ok_iff instructions).mp hguard
  have hcapable := deoptCapable_of_deopt_mem hlower hmem
  rw [hclean index instruction hafter hat] at hcapable
  cases hcapable

/-- The analysis ends on every slice. In an accepted slice it covers every instruction that the
translated code can enter after an observable side effect, and none of these restarts the
function: only the abort of a send still goes to the deopt block, and it ends the call with the
error of the send. -/
theorem lowerSlice_keeps_effects (instructions : List Instruction) :
    ∃ reached, (∀ fuel, visitBound instructions ≤ fuel →
        effectIn instructions (TranslationPlan.ofSlice instructions).labels fuel =
          some reached) ∧
      ∀ plan graph, TranslationPlan.new instructions = .ok plan →
        lowerSlice plan instructions = .ok graph →
        ∀ start index, observableAt instructions start →
          Relation.TransGen (Branches graph) start index →
          index ∈ reached ∧
            ∀ edge ∈ edgesAt graph index, edge.entersDeopt →
              edge = .abort ∧ instructions[index]? = some .send ∧
                ∀ (ε τ : Type) (services : SendServices ε) (dest message : Term.Word)
                  (parked : Parked ε τ) (returned : JitReturn),
                  (jitSendMessage services dest message).1 ≠ .sent →
                  parked.execError = (jitSendMessage services dest message).2 →
                  ∃ e, callNative parked returned = .error e := by
  obtain ⟨reached, hloop, hreached⟩ := exists_effectIn instructions
  refine ⟨reached, hloop, ?_⟩
  intro plan graph hplan hgraph start index hstart hpath
  have hafter := afterSideEffect_of_path hplan hgraph hstart hpath
  refine ⟨(hreached index).mpr hafter, ?_⟩
  intro edge hedge henters
  have habort : edge = .abort := by
    cases edge with
    | abort => rfl
    | deopt => exact absurd hedge (not_deopt_of_afterSideEffect hplan hgraph hafter)
    | _ => cases henters
  refine ⟨habort, ?_, ?_⟩
  · subst habort
    obtain ⟨stack, instruction, edges, hat, hlower, hmem⟩ := mem_edgesAt hgraph hedge
    rw [hat, send_of_abort_mem hlower hmem]
  · intro ε τ services dest message parked returned hstatus hparked
    exact callNative_abort hstatus parked returned hparked

/-- Two sends in a row. -/
def twoSends : List Instruction := [.send, .send, .return_]

/-- The branches of two sends in a row. -/
def twoSendsGraph : List (List Edge) := [[.abort, .to 1], [.abort, .to 2], [.leave]]

theorem lowerSlice_keeps_effects_twoSends :
    ∃ reached, effectIn twoSends [] (visitBound twoSends) = some reached ∧ 1 ∈ reached ∧
      ∀ edge ∈ edgesAt twoSendsGraph 1, edge.entersDeopt → edge = .abort := by
  obtain ⟨reached, hloop, hkeeps⟩ := lowerSlice_keeps_effects twoSends
  have hpath : Relation.TransGen (Branches twoSendsGraph) 0 1 :=
    .single (show Edge.to 1 ∈ edgesAt twoSendsGraph 0 by decide)
  have hat := hkeeps (TranslationPlan.ofSlice twoSends) twoSendsGraph rfl rfl 0 1 rfl hpath
  exact ⟨reached, hloop _ le_rfl, hat.1, fun edge hedge henters => (hat.2 edge hedge henters).1⟩

/-- A match on a binary after a send, in a slice that the plan refuses. -/
def sendThenMatch : List Instruction :=
  [.send, .binaryOp .bsTestTail2 [.label 2, .x 0, .unsigned 0], .return_, .label 2, .return_]

def sendThenMatchGraph : List (List Edge) :=
  [[.abort, .to 1], [.to 3, .to 2], [.leave], [.to 4], [.leave]]

/-- A second send still branches to the deopt block after the first, and in a refused slice the
analysis misses the fail branch of a match. -/
theorem not_lowerSlice_keeps_effects :
    (TranslationPlan.new twoSends = .ok (TranslationPlan.ofSlice twoSends) ∧
      lowerSlice (TranslationPlan.ofSlice twoSends) twoSends = .ok twoSendsGraph ∧
      observableAt twoSends 0 ∧ Relation.TransGen (Branches twoSendsGraph) 0 1 ∧
      ∃ edge ∈ edgesAt twoSendsGraph 1, edge.entersDeopt) ∧
    (lowerSlice (TranslationPlan.ofSlice sendThenMatch) sendThenMatch = .ok sendThenMatchGraph ∧
      observableAt sendThenMatch 0 ∧ Relation.TransGen (Branches sendThenMatchGraph) 0 3 ∧
      ∃ reached, effectIn sendThenMatch (TranslationPlan.ofSlice sendThenMatch).labels
        (visitBound sendThenMatch) = some reached ∧ 3 ∉ reached) := by
  constructor
  · have hpath : Relation.TransGen (Branches twoSendsGraph) 0 1 :=
      .single (show Edge.to 1 ∈ edgesAt twoSendsGraph 0 by decide)
    exact ⟨rfl, rfl, rfl, hpath, .abort, by decide, rfl⟩
  · have hpath : Relation.TransGen (Branches sendThenMatchGraph) 0 3 :=
      .tail (.single (show Edge.to 1 ∈ edgesAt sendThenMatchGraph 0 by decide))
        (show Edge.to 3 ∈ edgesAt sendThenMatchGraph 1 by decide)
    exact ⟨rfl, rfl, hpath, [2, 1], by decide, by decide⟩

end Beamr.Jit
