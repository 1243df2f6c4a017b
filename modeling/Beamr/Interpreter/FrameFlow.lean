import Beamr.Interpreter.Bif
import Beamr.Loader.Validate

/-!
# Frames along control flow

Which frames a function has allocated along the paths of its code, whatever the data, and the frame
size that the validator keeps in one pass over the instructions in their textual order. The pass
forgets the size behind most instructions that control does not fall through, but not behind all.
-/
namespace Beamr.Interpreter

open Loader Loader.Validate

/-! ## Control paths -/

/-- Control within one call of a function: the next instruction, the sizes of the frames it has
allocated, innermost first, and its handlers, each with its position and the frames below it. -/
structure Control where
  position : ℕ
  frames : List ℕ
  handlers : List (ℕ × ℕ)
  deriving DecidableEq

def operandU16 (operand : Operand) (context : String) : Except ExecError ℕ := do
  let value ← operandUsize operand context
  if value < 2 ^ 16 then .ok value else .error (.invalidOperand context)

def labelName : Instruction → Option ℕ
  | .label label => some label
  | _ => none

/-- The index of a label: of several, the last one. -/
def labelIp (label : ℕ) : List Instruction → Option ℕ
  | [] => none
  | first :: rest =>
    match labelIp label rest with
    | some index => some (index + 1)
    | none => if labelName first = some label then some 0 else none

def targetIp (code : List Instruction) (operand : Operand) : Option ℕ :=
  match operandLabel operand with
  | .ok label => labelIp label code
  | .error _ => none

/-- Control goes on to the next instruction on some path, with the frames as they are unless the
instruction is about frames. An instruction that the interpreter does not know ends the process. -/
def goesOn (code : List Instruction) : Instruction → Bool
  | .funcInfo _ _ _ | .callOnly _ _ | .callExtOnly _ _ | .callLast _ _ _ | .callExtLast _ _ _
  | .applyLast _ _ | .return_ | .selectVal _ _ _ | .selectTupleArity _ _ _ | .jump _
  | .loopRecEnd _ | .wait _ | .tryCaseEnd _ | .badmatch _ | .badrecord _ | .caseEnd _ | .ifEnd
  | .raise _ _ | .rawRaise | .onLoad | .nifStart => false
  | .catch_ _ label | .try_ _ label => (targetIp code label).isSome
  | .generic _ name _ => name == "executable_line"
  | _ => true

/-- The frames with which control goes on. -/
def framesAfter (code : List Instruction) (instruction : Instruction) (frames : List ℕ) :
    Option (List ℕ) :=
  match instruction with
  | .allocate stackNeed _ | .allocateHeap stackNeed _ _ | .allocateZero stackNeed _ =>
    match operandU16 stackNeed "stack slots" with
    | .ok slots => some (slots :: frames)
    | .error _ => none
  | .deallocate words =>
    match operandU16 words "deallocate words", frames with
    | .ok _, _ :: outer => some outer
    | _, _ => none
  | .trim words remaining =>
    match operandU16 words "trim words", operandU16 remaining "trim remaining", frames with
    | .ok words, .ok remaining, slots :: outer =>
      if slots = words + remaining then some (remaining :: outer) else none
    | _, _, _ => none
  | other => if goesOn code other then some frames else none

/-- The handlers with which control goes on. A `catch_end` keeps its handler when it ends an
exception. -/
def handlersAfter (code : List Instruction) (instruction : Instruction) (control : Control) :
    List (List (ℕ × ℕ)) :=
  match instruction with
  | .catch_ _ label | .try_ _ label =>
    match targetIp code label with
    | some position => [(position, control.frames.length) :: control.handlers]
    | none => []
  | .tryEnd _ => [control.handlers.tail]
  | .catchEnd _ => [control.handlers, control.handlers.tail]
  | _ => [control.handlers]

/-- The operands at which an instruction may go on instead. Calls start a path of their own, and the
float instructions do not use their label. -/
def branchOperands : Instruction → List Operand
  | .call _ _ | .callOnly _ _ | .callLast _ _ _ | .fadd _ _ _ _ | .fsub _ _ _ _ | .fmul _ _ _ _
  | .fdiv _ _ _ _ | .fnegate _ _ _ | .catch_ _ _ | .try_ _ _ => []
  | other => checkedLabels other ++ uncheckedLabels other

/-- Where an exception goes: to the innermost handler, with the frames it found. -/
def raised (control : Control) : List Control :=
  match control.handlers with
  | [] => []
  | (position, depth) :: handlers =>
    [⟨position, control.frames.drop (control.frames.length - depth), handlers⟩]

/-- Where control can be after one instruction. -/
def successors (code : List Instruction) (control : Control) : List Control :=
  match code[control.position]? with
  | none => []
  | some instruction =>
    (framesAfter code instruction control.frames).toList.flatMap (fun frames =>
      (handlersAfter code instruction control).map (Control.mk (control.position + 1) frames)) ++
    ((branchOperands instruction).filterMap (targetIp code)).map (fun position =>
      ⟨position, control.frames, control.handlers⟩) ++
    raised control

def isFuncInfo : Instruction → Bool
  | .funcInfo _ _ _ => true
  | _ => false

/-- The paths start behind each `func_info`, with no frame. -/
inductive Reaches (code : List Instruction) : Control → Prop
  | entry {index : ℕ} {instruction : Instruction} : code[index]? = some instruction →
      isFuncInfo instruction = true → Reaches code ⟨index + 1, [], []⟩
  | step {control next : Control} : Reaches code control → next ∈ successors code control →
      Reaches code next

mutual

/-- The Y registers that an operand names. -/
def yRegisters : Operand → List ℕ
  | .y register => [register]
  | .list operands => yRegistersAll operands
  | .typedRegister register _ => yRegisters register
  | _ => []

def yRegistersAll : List Operand → List ℕ
  | [] => []
  | operand :: rest => yRegisters operand ++ yRegistersAll rest

end

def yUses (instruction : Instruction) : List ℕ := yRegistersAll (instructionOperands instruction)

/-- The innermost frame has the Y register. -/
def hasRegister : List ℕ → ℕ → Bool
  | [], _ => false
  | size :: _, y => y < size

/-- Along every path a Y register is used only when the innermost frame has it. -/
def FrameCorrect (code : List Instruction) : Prop :=
  ∀ control, Reaches code control → ∀ instruction, code[control.position]? = some instruction →
    ∀ y ∈ yUses instruction, hasRegister control.frames y = true

/-! ## The pass of the validator -/

/-- What the pass holds behind an instruction that does not end it. -/
def nextFrame (frameSize : Option ℕ) (instruction : Instruction) : Option ℕ :=
  (updateFrameSize 0 frameSize instruction).toOption.join

/-- What the pass holds in front of an instruction. -/
def frameBefore (code : List Instruction) (index : ℕ) : Option ℕ :=
  (code.take index).foldl nextFrame none

/-- The checks of the validator that have nothing to do with frames: the same ones with no frame
known. -/
def OtherChecks (context : ValidationContext) (code : List Instruction) : Prop :=
  ∀ index instruction, code[index]? = some instruction →
    validateOperands index none (instructionOperands instruction) = .ok () ∧
    validateControlFlow context index instruction = .ok ()

/-- The size operand of an allocation. -/
def stackNeedOf : Instruction → Option Operand
  | .allocate stackNeed _ | .allocateHeap stackNeed _ _ | .allocateZero stackNeed _ =>
    some stackNeed
  | _ => none

/-- Behind the instruction at `index` the pass holds a size that the instruction names. -/
def SetsFrame (code : List Instruction) (index size : ℕ) : Prop :=
  ∃ instruction, code[index]? = some instruction ∧
    ((∃ stackNeed, stackNeedOf instruction = some stackNeed ∧
        operandToU32 stackNeed = some size) ∨
      ∃ words remaining, instruction = .trim words remaining ∧
        (frameBefore code index).isSome ∧ operandToU32 remaining = some size)

/-- The instructions behind which the pass holds what it held in front of them. -/
def keepsFrame : Instruction → Bool
  | .allocate _ _ | .allocateHeap _ _ _ | .allocateZero _ _ | .deallocate _ | .trim _ _ | .return_
  | .callLast _ _ _ | .callExtLast _ _ _ | .applyLast _ _ | .jump _ | .rawRaise | .raise _ _
  | .badmatch _ | .badrecord _ | .caseEnd _ | .ifEnd | .tryCaseEnd _ | .loopRecEnd _ | .wait _
  | .funcInfo _ _ _ => false
  | _ => true

/-- From `start` to `stop` the pass holds the size that the instruction at `start` has set. -/
def Held (code : List Instruction) (start stop size : ℕ) : Prop :=
  SetsFrame code start size ∧ start < stop ∧
    ∀ index instruction, start < index → index < stop → code[index]? = some instruction →
      keepsFrame instruction = true

/-- The held size is not the one control arrives with: no path gets past the instruction that set
it with a frame of that size, or control does not go on at one of the instructions since. -/
def Stale (code : List Instruction) (start stop size : ℕ) : Prop :=
  (¬ ∃ outer handlers, Reaches code ⟨start + 1, size :: outer, handlers⟩) ∨
    ∃ index instruction, start < index ∧ index < stop ∧ code[index]? = some instruction ∧
      goesOn code instruction = false

/-- Every allocation names its size by an unsigned integer of 32 bits, and where the pass still
holds a size that is stale, the Y registers used are below it. -/
def FramesKnown (code : List Instruction) : Prop :=
  (∀ instruction ∈ code, ∀ stackNeed, stackNeedOf instruction = some stackNeed →
    (operandToU32 stackNeed).isSome) ∧
  ∀ start stop size instruction, Held code start stop size → Stale code start stop size →
    code[stop]? = some instruction → ∀ y ∈ yUses instruction, y < size

/-! ## The operand checks -/

mutual

theorem validateOperand_some (index size : ℕ) : ∀ operand : Operand,
    validateOperand index (some size) operand = .ok () ↔
      validateOperand index none operand = .ok () ∧ ∀ y ∈ yRegisters operand, y < size
  | .y register => by
    by_cases hrange : register ≥ 256
    · simp [validateOperand, hrange]
    · by_cases hframe : register < size
      · simp [validateOperand, hrange, hframe, yRegisters]
      · simp [validateOperand, hrange, hframe, yRegisters]
  | .list operands => by
    simpa only [validateOperand, yRegisters] using validateOperands_some index size operands
  | .typedRegister register _ => by
    simpa only [validateOperand, yRegisters] using validateOperand_some index size register
  | .integer _ | .unsigned _ | .atom _ | .x _ | .label _ | .character _ | .literal _
  | .floatRegister _ | .allocation _ => by simp [validateOperand, yRegisters]

theorem validateOperands_some (index size : ℕ) : ∀ operands : List Operand,
    validateOperands index (some size) operands = .ok () ↔
      validateOperands index none operands = .ok () ∧ ∀ y ∈ yRegistersAll operands, y < size
  | [] => by simp [validateOperands, yRegistersAll]
  | operand :: rest => by
    have hfirst := validateOperand_some index size operand
    have hrest := validateOperands_some index size rest
    simp only [validateOperands, except_bind_ok_iff, exists_const, yRegistersAll, List.mem_append,
      or_imp, forall_and, hfirst, hrest]
    tauto

end

/-- With a frame size known, the Y registers have to be below it in addition. -/
theorem validateOperands_iff (index : ℕ) (frameSize : Option ℕ) (operands : List Operand) :
    validateOperands index frameSize operands = .ok () ↔
      validateOperands index none operands = .ok () ∧
        ∀ size, frameSize = some size → ∀ y ∈ yRegistersAll operands, y < size := by
  cases frameSize with
  | none => simp
  | some size => simp [validateOperands_some]

/-! ## The frame size of the pass -/

theorem updateFrameSize_ok_iff (index : ℕ) (frameSize next : Option ℕ) (instruction : Instruction) :
    updateFrameSize index frameSize instruction = .ok next ↔
      (∀ stackNeed, stackNeedOf instruction = some stackNeed → (operandToU32 stackNeed).isSome) ∧
        nextFrame frameSize instruction = next := by
  cases instruction
  case allocate stackNeed live | allocateZero stackNeed live | allocateHeap stackNeed need live =>
    cases hsize : operandToU32 stackNeed with
    | none => simp [updateFrameSize, hsize, stackNeedOf]
    | some size => simp [updateFrameSize, hsize, stackNeedOf, nextFrame, Except.toOption]
  all_goals simp [updateFrameSize, stackNeedOf, nextFrame, Except.toOption]

theorem nextFrame_keeps {instruction : Instruction} (h : keepsFrame instruction = true)
    (frameSize : Option ℕ) : nextFrame frameSize instruction = frameSize := by
  cases instruction
  all_goals first
    | rfl
    | (cases frameSize <;> rfl)
    | cases h

theorem nextFrame_eq_some {frameSize : Option ℕ} {instruction : Instruction} {size : ℕ}
    (h : nextFrame frameSize instruction = some size) :
    (keepsFrame instruction = true ∧ frameSize = some size) ∨
      (∃ stackNeed, stackNeedOf instruction = some stackNeed ∧
        operandToU32 stackNeed = some size) ∨
      ∃ words remaining, instruction = .trim words remaining ∧ frameSize.isSome ∧
        operandToU32 remaining = some size := by
  by_cases hkeeps : keepsFrame instruction = true
  · rw [nextFrame_keeps hkeeps] at h
    exact .inl ⟨hkeeps, h⟩
  cases instruction
  case allocate stackNeed live | allocateZero stackNeed live | allocateHeap stackNeed need live =>
    refine .inr (.inl ⟨stackNeed, rfl, ?_⟩)
    cases hsize : operandToU32 stackNeed with
    | none => simp [nextFrame, updateFrameSize, hsize, Except.toOption] at h
    | some held => simpa [nextFrame, updateFrameSize, hsize, Except.toOption] using h
  case trim words remaining =>
    cases frameSize with
    | none => simp [nextFrame, updateFrameSize, Except.toOption] at h
    | some held =>
      exact .inr (.inr ⟨words, remaining, rfl, rfl,
        by simpa [nextFrame, updateFrameSize, Except.toOption] using h⟩)
  all_goals first
    | exact absurd rfl hkeeps
    | simp [nextFrame, updateFrameSize, Except.toOption] at h

theorem frameBefore_succ {code : List Instruction} {index : ℕ} {instruction : Instruction}
    (h : code[index]? = some instruction) :
    frameBefore code (index + 1) = nextFrame (frameBefore code index) instruction := by
  rw [frameBefore, List.take_add_one, h, List.foldl_append]
  rfl

theorem frameBefore_of_sets {code : List Instruction} {index size : ℕ}
    (h : SetsFrame code index size) : frameBefore code (index + 1) = some size := by
  obtain ⟨instruction, hat, hsets⟩ := h
  rw [frameBefore_succ hat]
  rcases hsets with ⟨stackNeed, hneed, hsize⟩ | ⟨words, remaining, rfl, hknown, hsize⟩
  · cases instruction
    case allocate | allocateZero | allocateHeap =>
      obtain rfl := Option.some.inj hneed
      simp [nextFrame, updateFrameSize, hsize, Except.toOption]
    all_goals cases hneed
  · simp [nextFrame, updateFrameSize, hknown, hsize, Except.toOption]

/-- What the pass holds somewhere has been set by an instruction and kept by the ones since. -/
theorem held_of_frameBefore {code : List Instruction} {stop size : ℕ}
    (h : frameBefore code stop = some size) : ∃ start, Held code start stop size := by
  induction stop generalizing size with
  | zero => simp [frameBefore] at h
  | succ stop ih =>
    cases hat : code[stop]? with
    | none =>
      have hsame : frameBefore code (stop + 1) = frameBefore code stop := by
        rw [frameBefore, frameBefore, List.take_add_one, hat]
        simp
      obtain ⟨start, hsets, hlt, hkeeps⟩ := ih (hsame ▸ h)
      refine ⟨start, hsets, by omega, ?_⟩
      intro index instruction hafter hbefore hinstruction
      by_cases hindex : index = stop
      · rw [hindex, hat] at hinstruction
        cases hinstruction
      · exact hkeeps index instruction hafter (by omega) hinstruction
    | some last =>
      rw [frameBefore_succ hat] at h
      rcases nextFrame_eq_some h with ⟨hkept, hframe⟩ | hsets
      · obtain ⟨start, hsets, hlt, hkeeps⟩ := ih hframe
        refine ⟨start, hsets, by omega, ?_⟩
        intro index instruction hafter hbefore hinstruction
        by_cases hindex : index = stop
        · rw [hindex, hat] at hinstruction
          cases hinstruction
          exact hkept
        · exact hkeeps index instruction hafter (by omega) hinstruction
      · exact ⟨stop, ⟨last, hat, hsets⟩, by omega, by omega⟩

theorem frameBefore_of_held {code : List Instruction} {start stop size : ℕ}
    (h : Held code start stop size) (hstop : stop ≤ code.length) :
    frameBefore code stop = some size := by
  obtain ⟨hsets, hlt, hkeeps⟩ := h
  induction stop, hlt using Nat.le_induction with
  | base => exact frameBefore_of_sets hsets
  | succ stop hle ih =>
    have hat : code[stop]? = some code[stop] := List.getElem?_eq_getElem (by omega)
    rw [frameBefore_succ hat, nextFrame_keeps (hkeeps stop _ hle (by omega) hat)]
    exact ih (by omega) fun index instruction hafter hbefore =>
      hkeeps index instruction hafter (by omega)

/-! ## Control that goes on -/

theorem framesAfter_of_goesOn {code : List Instruction} {instruction : Instruction}
    (hkeeps : keepsFrame instruction = true) (hgoes : goesOn code instruction = true)
    (frames : List ℕ) : framesAfter code instruction frames = some frames := by
  cases instruction
  case allocate | allocateHeap | allocateZero | deallocate | trim => cases hkeeps
  all_goals simp [framesAfter, hgoes]

theorem exists_handlersAfter {code : List Instruction} {instruction : Instruction}
    (hgoes : goesOn code instruction = true) (control : Control) :
    ∃ handlers, handlers ∈ handlersAfter code instruction control := by
  cases instruction
  case catch_ destination label | try_ destination label =>
    obtain ⟨position, hposition⟩ := Option.isSome_iff_exists.mp hgoes
    exact ⟨(position, control.frames.length) :: control.handlers,
      by simp [handlersAfter, hposition]⟩
  all_goals exact ⟨_, List.mem_cons_self ..⟩

/-- A step through an instruction that keeps the frames. -/
theorem Reaches.goOn {code : List Instruction} {index : ℕ} {frames : List ℕ}
    {handlers : List (ℕ × ℕ)} {instruction : Instruction}
    (h : Reaches code ⟨index, frames, handlers⟩) (hat : code[index]? = some instruction)
    (hkeeps : keepsFrame instruction = true) (hgoes : goesOn code instruction = true) :
    ∃ handlers', Reaches code ⟨index + 1, frames, handlers'⟩ := by
  obtain ⟨handlers', hmem⟩ := exists_handlersAfter hgoes ⟨index, frames, handlers⟩
  refine ⟨handlers', h.step ?_⟩
  simp only [successors, hat, framesAfter_of_goesOn hkeeps hgoes, List.mem_append]
  exact .inl (.inl (by simpa using hmem))

/-- A size that is held and not stale is the one control arrives with on some path. -/
theorem Held.reaches {code : List Instruction} {start stop size : ℕ} (h : Held code start stop size)
    (hstale : ¬ Stale code start stop size) (hstop : stop ≤ code.length) :
    ∃ outer handlers, Reaches code ⟨stop, size :: outer, handlers⟩ := by
  obtain ⟨-, hlt, hkeeps⟩ := h
  obtain ⟨hstart, hgoes⟩ := not_or.mp hstale
  simp only [not_exists, not_and, Bool.not_eq_false] at hgoes
  clear hstale
  induction stop, hlt using Nat.le_induction with
  | base => exact not_not.mp hstart
  | succ stop hle ih =>
    obtain ⟨outer, handlers, hreaches⟩ := ih (by omega)
      (fun index instruction hafter hbefore => hkeeps index instruction hafter (by omega))
      (fun index instruction hafter hbefore => hgoes index instruction hafter (by omega))
    have hat : code[stop]? = some code[stop] := List.getElem?_eq_getElem (by omega)
    exact ⟨outer, hreaches.goOn hat (hkeeps stop _ hle (by omega) hat)
      (hgoes stop _ hle (by omega) hat)⟩

/-! ## The verdict of the validator -/

/-- The validator accepts when at each instruction its other checks pass, the Y registers are below
the size the pass holds and the size of an allocation can be read. -/
theorem validateInstructions_ok_iff (context : ValidationContext) (index : ℕ)
    (frameSize : Option ℕ) (code : List Instruction) :
    validateInstructions context index frameSize code = .ok () ↔
      ∀ k instruction, code[k]? = some instruction →
        validateOperands (index + k) ((code.take k).foldl nextFrame frameSize)
          (instructionOperands instruction) = .ok () ∧
        validateControlFlow context (index + k) instruction = .ok () ∧
        ∀ stackNeed, stackNeedOf instruction = some stackNeed →
          (operandToU32 stackNeed).isSome := by
  induction code generalizing index frameSize with
  | nil => simp [validateInstructions]
  | cons first rest ih =>
    simp only [validateInstructions, except_bind_ok_iff, updateFrameSize_ok_iff]
    constructor
    · rintro ⟨⟨⟩, hoperands, ⟨⟩, hflow, next, ⟨hsized, rfl⟩, hrest⟩ k instruction hat
      cases k with
      | zero =>
        obtain rfl := Option.some.inj hat
        exact ⟨hoperands, hflow, hsized⟩
      | succ k =>
        have hlater := (ih _ _).mp hrest k instruction hat
        rwa [show index + 1 + k = index + (k + 1) by omega] at hlater
    · intro hall
      obtain ⟨hoperands, hflow, hsized⟩ := hall 0 first rfl
      refine ⟨(), hoperands, (), hflow, _, ⟨hsized, rfl⟩, (ih _ _).mpr ?_⟩
      intro k instruction hat
      have hlater := hall (k + 1) instruction hat
      rwa [show index + (k + 1) = index + 1 + k by omega] at hlater

/-- Code is correct for its frames when some controls contain the entries and what follows them, and
all have the registers that their instruction uses. -/
theorem frameCorrect_of_closed {code : List Instruction} (controls : List Control)
    (hentry : ∀ index < code.length, (code[index]?.any isFuncInfo) = true →
      ⟨index + 1, [], []⟩ ∈ controls)
    (hstep : ∀ control ∈ controls, ∀ next ∈ successors code control, next ∈ controls)
    (huses : ∀ control ∈ controls, ∀ y ∈ code[control.position]?.elim [] yUses,
      hasRegister control.frames y = true) : FrameCorrect code := by
  intro control hreaches instruction hat y hy
  refine huses control ?_ y (by simpa [hat] using hy)
  clear hat hy
  induction hreaches with
  | entry hat hinfo =>
    exact hentry _ (List.getElem?_eq_some_iff.mp hat).1 (by simpa [hat] using hinfo)
  | step _ hnext ih => exact hstep _ ih _ hnext

/-- A function that keeps its argument in a frame of one. -/
def keepingCode : List Instruction :=
  [.funcInfo (.atom none) (.atom none) (.integer 1),
    .allocate (.integer 1) (.integer 1),
    .move (.x 0) (.y 0),
    .deallocate (.integer 1),
    .return_]

/-- A function with a frame of three jumps to a block that stands behind the `select_val` of a
function with a frame of one. -/
def islandCode : List Instruction :=
  [.funcInfo (.atom none) (.atom none) (.integer 1),
    .allocate (.integer 3) (.integer 1),
    .jump (.label 1),
    .funcInfo (.atom none) (.atom none) (.integer 1),
    .allocate (.integer 1) (.integer 1),
    .selectVal (.x 0) (.label 2) (.list []),
    .label 1,
    .move (.x 0) (.y 2),
    .deallocate (.integer 3),
    .return_,
    .label 2,
    .deallocate (.integer 1),
    .return_]

def islandContext : ValidationContext := ⟨[], 0, [1, 2], []⟩

theorem islandCode_correct : FrameCorrect islandCode :=
  frameCorrect_of_closed
    [⟨1, [], []⟩, ⟨2, [3], []⟩, ⟨6, [3], []⟩, ⟨7, [3], []⟩, ⟨8, [3], []⟩, ⟨9, [], []⟩, ⟨4, [], []⟩,
      ⟨5, [1], []⟩, ⟨10, [1], []⟩, ⟨11, [1], []⟩, ⟨12, [], []⟩]
    (by decide) (by decide) (by decide)

theorem islandCode_otherChecks : OtherChecks islandContext islandCode := by
  intro index instruction hat
  have hlt : index < 13 := (List.getElem?_eq_some_iff.mp hat).1
  interval_cases index <;> (cases hat; exact ⟨rfl, rfl⟩)

end Beamr.Interpreter
