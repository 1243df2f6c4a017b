import Beamr.Lib.Entries
import Beamr.Loader.Container

/-!
# The load-time validator

The checks of `validate_module` on a decoded module: export labels, register ranges, frames, calls
and the labels of the control-flow instructions. Beside it, the operands that the interpreter takes
as a label to go on at. The validator looks at some of them only, and takes a null label anywhere.
-/
namespace Beamr.Loader.Validate

/-! ## Errors -/

/-- What a validation error says, with the operands and numbers of its message. -/
inductive ValidationFault where
  | exportLabel (label : ℕ)
  | xRegister (index : ℕ)
  | yRegister (index : ℕ)
  | outsideFrame (index frameSize : ℕ)
  | floatRegister (index : ℕ)
  | callArity (actual label expected : ℕ)
  | importIndex (index : ℕ)
  | resolvedImportIndex (index : ℕ)
  | externalCallArity (actual index expected : ℕ)
  | stackNeed (operand : Operand)
  | labelOutOfRange (operand : Operand)
  | notALabel (operand : Operand)
  | labelTarget (label : ℕ)
  | importOperand (operand : Operand)
  | arityOperand (name : String) (operand : Operand)

/-- The instruction and what is wrong with it. -/
structure ValidationError where
  instruction : ℕ
  fault : ValidationFault

abbrev Validation := Except ValidationError

/-! ## Operands -/

def operandToU64 : Operand → Option ℕ
  | .unsigned value => some value
  | .integer value => if 0 ≤ value then some value.toNat else none
  | _ => none

def operandToU32 (operand : Operand) : Option ℕ :=
  (operandToU64 operand).bind fun value => if value < 2 ^ 32 then some value else none

def operandToU8 (operand : Operand) : Option ℕ :=
  (operandToU64 operand).bind fun value => if value < 2 ^ 8 then some value else none

/-- The label that an operand names. -/
def labelOperand : Operand → Except ValidationFault ℕ
  | .label label => .ok label
  | .unsigned label => if label < 2 ^ 32 then .ok label else .error (.labelOutOfRange (.unsigned label))
  | .character label =>
    if label < 2 ^ 32 then .ok label else .error (.labelOutOfRange (.character label))
  | .integer label =>
    if 0 ≤ label then
      if label < 2 ^ 32 then .ok label.toNat else .error (.labelOutOfRange (.integer label))
    else .error (.notALabel (.integer label))
  | other => .error (.notALabel other)

def expectLabelOperand (index : ℕ) (operand : Operand) (labels : List ℕ) : Validation ℕ :=
  match labelOperand operand with
  | .error fault => .error ⟨index, fault⟩
  | .ok label =>
    if label = 0 ∨ label ∈ labels then .ok label else .error ⟨index, .labelTarget label⟩

def expectImportIndex (index : ℕ) (operand : Operand) : Validation ℕ :=
  match operandToU64 operand with
  | some value => .ok value
  | none => .error ⟨index, .importOperand operand⟩

def expectArityOperand (index : ℕ) (operand : Operand) (name : String) : Validation ℕ :=
  match operandToU8 operand with
  | some value => .ok value
  | none => .error ⟨index, .arityOperand name operand⟩

mutual

def validateOperand (index : ℕ) (frameSize : Option ℕ) : Operand → Validation Unit
  | .x register => if register ≥ 256 then .error ⟨index, .xRegister register⟩ else .ok ()
  | .y register =>
    if register ≥ 256 then .error ⟨index, .yRegister register⟩
    else
      match frameSize with
      | some frameSize =>
        if register < frameSize then .ok () else .error ⟨index, .outsideFrame register frameSize⟩
      | none => .ok ()
  | .floatRegister register =>
    if register ≥ 16 then .error ⟨index, .floatRegister register⟩ else .ok ()
  | .list operands => validateOperands index frameSize operands
  | .typedRegister register _ => validateOperand index frameSize register
  | _ => .ok ()

def validateOperands (index : ℕ) (frameSize : Option ℕ) : List Operand → Validation Unit
  | [] => .ok ()
  | operand :: rest => do
    validateOperand index frameSize operand
    validateOperands index frameSize rest

end

def instructionOperands : Instruction → List Operand
  | .label _ | .return_ | .send | .removeMessage | .timeout | .ifEnd | .rawRaise | .onLoad
  | .buildStacktrace | .nifStart => []
  | .funcInfo a b c | .allocateHeap a b c | .callLast a b c | .callExtLast a b c | .putList a b c
  | .getTupleElement a b c | .getList a b c | .comparison _ a b c | .testArity a b c
  | .selectVal a b c | .selectTupleArity a b c | .fnegate a b c | .callFun2 a b c => [a, b, c]
  | .move a b | .fmove a b | .fconv a b | .call a b | .callOnly a b | .callExt a b
  | .callExtOnly a b | .allocate a b | .allocateZero a b | .testHeap a b | .putTuple2 a b
  | .getHd a b | .getTl a b | .typeTest _ a b | .loopRec a b | .waitTimeout a b
  | .recvMarkerBind a b | .catch_ a b | .try_ a b | .raise a b | .trim a b | .swap a b
  | .applyLast a b => [a, b]
  | .fadd a b c d | .fsub a b c d | .fmul a b c d | .fdiv a b c d | .isTaggedTuple a b c d =>
    [a, b, c, d]
  | .deallocate a | .jump a | .loopRecEnd a | .wait a | .recvMarkerReserve a | .recvMarkerClear a
  | .recvMarkerUse a | .catchEnd a | .tryEnd a | .tryCase a | .tryCaseEnd a | .badmatch a
  | .badrecord a | .caseEnd a | .line a | .initYregs a | .callFun a | .apply a => [a]
  | .bif _ operands | .binaryOp _ operands | .mapOp _ operands | .makeFun operands
  | .generic _ _ operands | .updateRecord operands => operands

/-! ## The validator -/

def collectLabels (instructions : List Instruction) : List ℕ :=
  instructions.filterMap fun
    | .label label => some label
    | _ => none

/-- Arities by the label in front of the `func_info`; the last one counts. -/
def collectFunctionArities : List Instruction → Option ℕ → List (ℕ × ℕ) → List (ℕ × ℕ)
  | [], _, arities => arities
  | .label label :: rest, _, arities => collectFunctionArities rest (some label) arities
  | .funcInfo _ _ arity :: rest, previousLabel, arities =>
    match previousLabel, operandToU8 arity with
    | some label, some arity =>
      collectFunctionArities rest previousLabel (Entries.put (· == ·) label arity arities)
    | _, _ => collectFunctionArities rest previousLabel arities
  | _ :: rest, previousLabel, arities => collectFunctionArities rest previousLabel arities

/-- What the checks of an instruction read of the module. -/
structure ValidationContext where
  imports : List ImportEntry
  resolvedImports : ℕ
  labels : List ℕ
  functions : List (ℕ × ℕ)

def validateCall (context : ValidationContext) (index : ℕ) (arity label : Operand) :
    Validation Unit := do
  let label ← expectLabelOperand index label context.labels
  match Entries.get (· == ·) context.functions label with
  | none => .ok ()
  | some expected =>
    let actual ← expectArityOperand index arity "call arity"
    if actual ≠ expected then .error ⟨index, .callArity actual label expected⟩ else .ok ()

def validateExternalCall (context : ValidationContext) (index : ℕ) (arity importIndex : Operand) :
    Validation Unit := do
  let importIndex ← expectImportIndex index importIndex
  match context.imports[importIndex]? with
  | none => .error ⟨index, .importIndex importIndex⟩
  | some entry =>
    if importIndex ≥ context.resolvedImports then .error ⟨index, .resolvedImportIndex importIndex⟩
    else
      let actual ← expectArityOperand index arity "external call arity"
      if actual ≠ entry.arity then
        .error ⟨index, .externalCallArity actual importIndex entry.arity⟩
      else .ok ()

def validateLabel (context : ValidationContext) (index : ℕ) (label : Operand) : Validation Unit := do
  let _ ← expectLabelOperand index label context.labels
  .ok ()

def validateControlFlow (context : ValidationContext) (index : ℕ) : Instruction → Validation Unit
  | .call arity label | .callOnly arity label | .callLast arity label _ =>
    validateCall context index arity label
  | .callExt arity importIndex | .callExtOnly arity importIndex
  | .callExtLast arity importIndex _ => validateExternalCall context index arity importIndex
  | .typeTest _ fail _ | .comparison _ fail _ _ | .fadd fail _ _ _ | .fsub fail _ _ _
  | .fmul fail _ _ _ | .fdiv fail _ _ _ | .fnegate fail _ _ | .testArity fail _ _
  | .isTaggedTuple fail _ _ _ | .selectVal _ fail _ | .selectTupleArity _ fail _
  | .loopRec fail _ | .loopRecEnd fail | .wait fail | .waitTimeout fail _ =>
    validateLabel context index fail
  | .jump target => validateLabel context index target
  | .catch_ _ label | .try_ _ label => validateLabel context index label
  | _ => .ok ()

def updateFrameSize (index : ℕ) (frameSize : Option ℕ) : Instruction → Validation (Option ℕ)
  | .allocate stackNeed _ | .allocateHeap stackNeed _ _ | .allocateZero stackNeed _ =>
    match operandToU32 stackNeed with
    | some size => .ok (some size)
    | none => .error ⟨index, .stackNeed stackNeed⟩
  | .deallocate _ => .ok none
  | .trim _ remaining => .ok (if frameSize.isSome then operandToU32 remaining else frameSize)
  | .return_ | .callLast _ _ _ | .callExtLast _ _ _ | .applyLast _ _ | .jump _ | .rawRaise
  | .raise _ _ | .badmatch _ | .badrecord _ | .caseEnd _ | .ifEnd | .tryCaseEnd _ | .loopRecEnd _
  | .wait _ | .funcInfo _ _ _ => .ok none
  | _ => .ok frameSize

def validateInstructions (context : ValidationContext) :
    ℕ → Option ℕ → List Instruction → Validation Unit
  | _, _, [] => .ok ()
  | index, frameSize, instruction :: rest => do
    validateOperands index frameSize (instructionOperands instruction)
    validateControlFlow context index instruction
    let frameSize ← updateFrameSize index frameSize instruction
    validateInstructions context (index + 1) frameSize rest

def validateExports (labels : List ℕ) : List ExportEntry → Validation Unit
  | [] => .ok ()
  | entry :: rest =>
    if entry.label ∈ labels then validateExports labels rest
    else .error ⟨0, .exportLabel entry.label⟩

/-- Of the resolved imports only their number counts. -/
def validateModule (parsed : ParsedModule) (resolvedImports : ℕ) : Validation Unit := do
  let labels := collectLabels parsed.instructions
  let functions := collectFunctionArities parsed.instructions none []
  validateExports labels parsed.exports
  validateInstructions ⟨parsed.imports, resolvedImports, labels, functions⟩ 0 none
    parsed.instructions

/-! ## Where the interpreter goes on -/

/-- The second of every two operands of a select list. -/
def pairTargets : List Operand → List Operand
  | _ :: target :: rest => target :: pairTargets rest
  | _ => []

def selectTargets : Operand → List Operand
  | .list items => pairTargets items
  | _ => []

/-- The operands at which `validateControlFlow` looks for a label. -/
def checkedLabels : Instruction → List Operand
  | .call _ label | .callOnly _ label | .callLast _ label _ => [label]
  | .typeTest _ fail _ | .comparison _ fail _ _ | .fadd fail _ _ _ | .fsub fail _ _ _
  | .fmul fail _ _ _ | .fdiv fail _ _ _ | .fnegate fail _ _ | .testArity fail _ _
  | .isTaggedTuple fail _ _ _ | .selectVal _ fail _ | .selectTupleArity _ fail _
  | .loopRec fail _ | .loopRecEnd fail | .wait fail | .waitTimeout fail _ => [fail]
  | .jump target => [target]
  | .catch_ _ label | .try_ _ label => [label]
  | _ => []

/-- The operands that the interpreter takes as a label and the validator does not look at: the
targets of the select lists, and the fail labels of BIFs, binary and map operations. -/
def uncheckedLabels : Instruction → List Operand
  | .selectVal _ _ list | .selectTupleArity _ _ list => selectTargets list
  | .bif .bif0 _ => []
  | .bif _ operands => operands.take 1
  | .binaryOp .bsInitWritable _ | .binaryOp .bsGetTail _ | .binaryOp .bsGetPosition _
  | .binaryOp .bsSetPosition _ => []
  | .binaryOp _ operands => operands.take 1
  | .mapOp _ operands => operands.take 1
  | _ => []

/-- The instructions that do without the label when it is null: a BIF and `bs_create_bin` then fail
in place, and the float instructions never use theirs. -/
def admitsNull : Instruction → Bool
  | .bif _ _ | .binaryOp .bsCreateBin _ | .fadd _ _ _ _ | .fsub _ _ _ _ | .fmul _ _ _ _
  | .fdiv _ _ _ _ | .fnegate _ _ _ => true
  | _ => false

/-- A label operand is a label of the module, or null where the instruction admits it. -/
def SafeLabel (labels : List ℕ) (null : Bool) (operand : Operand) : Prop :=
  ∀ label, labelOperand operand = .ok label → label ∈ labels ∨ label = 0 ∧ null = true

/-- Every label operand in a jump or failure position of an instruction is safe. -/
def JumpsSafe (instructions : List Instruction) : Prop :=
  ∀ instruction ∈ instructions, ∀ operand ∈ checkedLabels instruction ++ uncheckedLabels instruction,
    SafeLabel (collectLabels instructions) (admitsNull instruction) operand

/-! ## What the validator ensures -/

theorem expectLabelOperand_ok {index label : ℕ} {operand : Operand} {labels : List ℕ}
    (h : expectLabelOperand index operand labels = .ok label) :
    labelOperand operand = .ok label ∧ (label = 0 ∨ label ∈ labels) := by
  rw [expectLabelOperand] at h
  cases hlabel : labelOperand operand with
  | error fault =>
    rw [hlabel] at h
    cases h
  | ok value =>
    simp only [hlabel] at h
    split at h
    next hknown =>
      cases h
      exact ⟨rfl, hknown⟩
    next => cases h

/-- The label of the operand is null or a label of the module. -/
def Known (labels : List ℕ) (operand : Operand) : Prop :=
  ∃ label, labelOperand operand = .ok label ∧ (label = 0 ∨ label ∈ labels)

theorem validateLabel_ok {context : ValidationContext} {index : ℕ} {operand : Operand}
    (h : validateLabel context index operand = .ok ()) : Known context.labels operand := by
  obtain ⟨label, hlabel, -⟩ := except_bind_ok_iff.mp h
  exact ⟨label, expectLabelOperand_ok hlabel⟩

theorem validateCall_ok {context : ValidationContext} {index : ℕ} {arity operand : Operand}
    (h : validateCall context index arity operand = .ok ()) : Known context.labels operand := by
  obtain ⟨label, hlabel, -⟩ := except_bind_ok_iff.mp h
  exact ⟨label, expectLabelOperand_ok hlabel⟩

theorem validateControlFlow_ok {context : ValidationContext} {index : ℕ} {instruction : Instruction}
    (h : validateControlFlow context index instruction = .ok ()) :
    ∀ operand ∈ checkedLabels instruction, Known context.labels operand := by
  intro operand hmem
  cases instruction
  case call | callOnly | callLast =>
    rw [checkedLabels, List.mem_singleton] at hmem
    exact hmem ▸ validateCall_ok h
  all_goals first
    | (rw [checkedLabels, List.mem_singleton] at hmem; exact hmem ▸ validateLabel_ok h)
    | cases hmem

/-- Every instruction of a module that the validator accepts has been looked at. -/
theorem validateInstructions_ok {context : ValidationContext} {instructions : List Instruction}
    {index : ℕ} {frameSize : Option ℕ}
    (h : validateInstructions context index frameSize instructions = .ok ()) :
    ∀ instruction ∈ instructions, ∀ operand ∈ checkedLabels instruction,
      Known context.labels operand := by
  induction instructions generalizing index frameSize with
  | nil => simp
  | cons first rest ih =>
    obtain ⟨-, -, h⟩ := except_bind_ok_iff.mp h
    obtain ⟨⟨⟩, hflow, h⟩ := except_bind_ok_iff.mp h
    obtain ⟨size, -, hrest⟩ := except_bind_ok_iff.mp h
    refine List.forall_mem_cons.mpr ⟨?_, ih hrest⟩
    exact validateControlFlow_ok hflow

theorem validateModule_ok {parsed : ParsedModule} {resolvedImports : ℕ}
    (h : validateModule parsed resolvedImports = .ok ()) :
    ∀ instruction ∈ parsed.instructions, ∀ operand ∈ checkedLabels instruction,
      Known (collectLabels parsed.instructions) operand := by
  obtain ⟨-, -, h⟩ := except_bind_ok_iff.mp h
  exact validateInstructions_ok h

/-- Of an accepted module, the jumps are safe exactly when the label operands the validator does
not look at are, and no other has a null label that the instruction does not admit. -/
theorem jumpsSafe_iff (parsed : ParsedModule) (resolvedImports : ℕ)
    (h : validateModule parsed resolvedImports = .ok ()) :
    JumpsSafe parsed.instructions ↔ ∀ instruction ∈ parsed.instructions,
      (∀ operand ∈ uncheckedLabels instruction,
        SafeLabel (collectLabels parsed.instructions) (admitsNull instruction) operand) ∧
      (∀ operand ∈ checkedLabels instruction, labelOperand operand = .ok 0 →
        admitsNull instruction = true ∨ 0 ∈ collectLabels parsed.instructions) := by
  constructor
  · intro hsafe instruction hinstruction
    refine ⟨?_, ?_⟩
    · intro operand hoperand
      exact hsafe instruction hinstruction operand (List.mem_append_right _ hoperand)
    · intro operand hoperand hnull
      rcases hsafe instruction hinstruction operand (List.mem_append_left _ hoperand) 0 hnull with
        hdefined | ⟨-, hadmits⟩
      · exact .inr hdefined
      · exact .inl hadmits
  · intro hcondition instruction hinstruction operand hoperand
    obtain ⟨hunchecked, hnull⟩ := hcondition instruction hinstruction
    rcases List.mem_append.mp hoperand with hchecked | hother
    · obtain ⟨known, hknown, hcases⟩ := validateModule_ok h instruction hinstruction operand hchecked
      intro label hlabel
      rw [hknown] at hlabel
      cases hlabel
      rcases hcases with rfl | hdefined
      · rcases hnull operand hchecked hknown with hadmits | hdefined
        · exact .inr ⟨rfl, hadmits⟩
        · exact .inl hdefined
      · exact .inl hdefined
    · exact hunchecked operand hother

/-- A module with the given code and nothing else. -/
def codeOnly (instructions : List Instruction) : ParsedModule :=
  ⟨0, [0], instructions, [], [], [], [], [], [], none⟩

/-- A `select_val` whose only target is a label that no instruction defines is accepted. -/
theorem not_jumpsSafe_select :
    let code := [.label 1, .selectVal (.x 0) (.label 1) (.list [.integer 7, .label 99])]
    validateModule (codeOnly code) 0 = .ok () ∧ ¬ JumpsSafe code := by
  intro code
  refine ⟨rfl, fun hsafe => ?_⟩
  have hmem : Operand.label 99 ∈ checkedLabels code[1] ++ uncheckedLabels code[1] :=
    List.mem_cons_of_mem _ (List.mem_cons_self ..)
  have hlabel := hsafe code[1] (List.getElem_mem _) (.label 99) hmem 99 rfl
  simp [code, collectLabels] at hlabel

/-- A module whose select list has defined targets. -/
theorem jumpsSafe_select :
    let code := [.label 1, .selectVal (.x 0) (.label 1) (.list [.integer 7, .label 1])]
    validateModule (codeOnly code) 0 = .ok () ∧ JumpsSafe code := by
  intro code
  refine ⟨rfl, (jumpsSafe_iff (codeOnly code) 0 rfl).mpr ?_⟩
  intro instruction hinstruction
  have hlabels : collectLabels (codeOnly code).instructions = [1] := rfl
  rw [hlabels]
  rcases List.mem_cons.mp hinstruction with rfl | hinstruction
  · exact ⟨fun _ h => (List.not_mem_nil h).elim, fun _ h => (List.not_mem_nil h).elim⟩
  · obtain rfl := List.mem_singleton.mp hinstruction
    refine ⟨?_, ?_⟩
    · intro operand hoperand label hlabel
      obtain rfl := List.mem_singleton.mp hoperand
      cases hlabel
      exact .inl (List.mem_singleton.mpr rfl)
    · intro operand hoperand hlabel
      obtain rfl := List.mem_singleton.mp hoperand
      cases hlabel

end Beamr.Loader.Validate
