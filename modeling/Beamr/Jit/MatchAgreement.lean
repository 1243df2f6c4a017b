import Beamr.Jit.BinaryMatch

/-!
# Agreement of compiled binary matching

A match instruction that the translator takes and the interpreter's are run on one context. They
take the same branch, write the same terms and leave the same position exactly when the bits that
are read meet a condition: whole bytes at byte boundaries, no extracted number that is 0, and for
`bs_match` no move before a failure.
-/
namespace Beamr.Jit

open Loader Term Interpreter ByteOrder

/-! ## Match commands -/

section Commands

/-- What the interpreter does at a command. -/
def MatchCommand.step (context : MatchContext) (memory : Memory) :
    MatchCommand → Except ExecError MatchStep
  | .ensureAtLeast stride unit => do
    let stride ← operandUsize stride "bs_match ensure stride"
    .ok (context.testStep
      (stride ≤ context.remainingBits ∧ context.remainingBits % max unit 1 = 0))
  | .ensureExactly bits => .ok (context.testStep (context.remainingBits = bits))
  | .integer flags bits destination =>
    integerStep context memory (.unsigned bits) (.unsigned 1) flags destination
  | .binary bits destination => binaryStep context memory (.unsigned bits) (.unsigned 1) destination
  | .getTail destination => tailStep context memory destination

/-- Sizes of a machine word. -/
def MatchCommand.Sized : MatchCommand → Prop
  | .integer _ bits _ | .binary bits _ => bits < 2 ^ 64
  | _ => True

variable (memory : Memory) (source : Operand) (saved : ℕ)

/-- The interpreter's loop, at commands that the translator takes. -/
def runParsed : MatchContext → List MatchCommand → Except ExecError MatchOutcome
  | context, [] => .ok ⟨.next, [], context.positionBits⟩
  | context, command :: rest => do
    match ← command.step context memory with
    | .matched written bits => do
      let outcome ← runParsed (context.moveTo bits) rest
      .ok (outcome.after written)
    | .failed => .ok ⟨.fail, [], saved⟩

/-! ## When they agree -/

/-- The interpreter fails before it writes anything. -/
def InterpreterGivesUp (context : MatchContext) : List MatchCommand → Prop
  | [] => False
  | .ensureAtLeast stride unit :: rest =>
    ∃ bits, operandUsize stride "bs_match ensure stride" = .ok bits ∧
      (bits ≤ context.remainingBits ∧ context.remainingBits % max unit 1 = 0 →
        InterpreterGivesUp context rest)
  | .ensureExactly bits :: rest =>
    context.remainingBits = bits → InterpreterGivesUp context rest
  | .integer _ bits _ :: _ => context.hasBits bits = false
  | .binary bits _ :: _ =>
    bits % 8 = 0 ∧ context.positionBits % 8 = 0 ∧ context.hasBits bits = false
  | .getTail _ :: _ => context.positionBits % 8 ≠ 0

/-- The helper makes no number of the segment, or one of no bits, which is 0. -/
def RefusesInteger (context : MatchContext) (flags : Operand) (bits : ℕ) : Prop :=
  ∀ bytes value, context.hasBits bits = true → context.slice memory bits = some bytes →
    decodeInteger bytes (rawSegmentFlags (flagsToRaw flags)) = .ok value →
    -(2 ^ 60) ≤ value ∧ value < 2 ^ 60 → bits = 0

def RefusesBinary (context : MatchContext) (bits : ℕ) : Prop :=
  context.hasBits (askedBits context bits) = false ∨
    context.slice memory (askedBits context bits) = none

/-- Compiled code fails before it writes anything or moves the context. -/
def CompiledGivesUp (context : MatchContext) : List MatchCommand → Prop
  | [] => False
  | .ensureAtLeast _ unit :: rest =>
    unit ≠ 0 ∧ context.remainingBits % unit = 0 → CompiledGivesUp context rest
  | .ensureExactly bits :: rest => context.remainingBits = bits → CompiledGivesUp context rest
  | .integer flags bits _ :: _ => RefusesInteger memory context flags bits
  | .binary bits _ :: _ => RefusesBinary memory context bits
  | .getTail _ :: _ => RefusesBinary memory context remainingSize

/-- Every command meets its condition, the first one that does not match stands where the
instruction started, and no command that is followed by another has overwritten the register of
the context; where the two tests of `ensure_at_least` differ, the side that goes on gives up. -/
def CommandsMeet : Bool → MatchContext → List MatchCommand → Prop
  | _, _, [] => True
  | false, context, command :: rest =>
    context.positionBits = saved ∧ InterpreterGivesUp context (command :: rest)
  | true, context, .ensureAtLeast stride unit :: rest =>
    ∃ bits, operandUsize stride "bs_match ensure stride" = .ok bits ∧
      if bits ≤ context.remainingBits ∧ context.remainingBits % max unit 1 = 0 then
        if unit ≠ 0 ∧ context.remainingBits % unit = 0 then CommandsMeet true context rest
        else context.positionBits = saved ∧ InterpreterGivesUp context rest
      else
        if unit ≠ 0 ∧ context.remainingBits % unit = 0 then
          context.positionBits = saved ∧ CompiledGivesUp memory context rest
        else context.positionBits = saved
  | true, context, .ensureExactly bits :: rest =>
    if context.remainingBits = bits then CommandsMeet true context rest
    else context.positionBits = saved
  | true, context, .integer flags bits destination :: rest =>
    IntegerMeets context memory flags bits ∧
      if context.hasBits bits then
        CommandsMeet (leavesRegister source destination)
          (context.moveTo (context.positionBits + bits)) rest
      else context.positionBits = saved
  | true, context, .binary bits destination :: rest =>
    BinaryMeets context memory bits ∧
      if context.hasBits bits then
        CommandsMeet (leavesRegister source destination)
          (context.moveTo (context.positionBits + bits)) rest
      else context.positionBits = saved
  | true, context, .getTail destination :: rest =>
    TailMeets context memory ∧
      if context.positionBits % 8 = 0 then
        CommandsMeet (leavesRegister source destination) (context.moveTo context.totalBits) rest
      else context.positionBits = saved

end Commands

section Extraction

variable {context : MatchContext} {memory : Memory} {source destination : Operand} {saved stop : ℕ}
  {command : MatchCommand} {rest : List MatchCommand}

/-- A command that extracts a term: each side fails, or writes a term and moves to `stop`. -/
structure Extracts (context : MatchContext) (memory : Memory) (command : MatchCommand)
    (destination : Operand) (stop : ℕ) : Prop where
  step : ∀ {step}, command.step context memory = .ok step →
    step = .failed ∨ ∃ value, step = .matched (some (destination, value)) stop
  call : (∃ position, command.call.run context memory = .failed position) ∨
    ∃ value, command.call.run context memory = .passed (some (destination, value)) stop
  unmoved : command.step context memory = .ok .failed →
    ∀ {position}, command.call.run context memory = .failed position →
      position = context.positionBits

theorem runParsed_failed (h : command.step context memory = .ok .failed) :
    runParsed memory saved context (command :: rest) = .ok ⟨.fail, [], saved⟩ := by
  rw [runParsed, h]
  rfl

theorem runParsed_matched {written : Option (Operand × Extracted)} {position : ℕ}
    (h : command.step context memory = .ok (.matched written position)) :
    runParsed memory saved context (command :: rest) =
      (runParsed memory saved (context.moveTo position) rest >>= fun outcome =>
        .ok (outcome.after written)) := by
  rw [runParsed, h]
  rfl

theorem runParsed_error {e : ExecError} (h : command.step context memory = .error e) :
    runParsed memory saved context (command :: rest) = .error e := by
  rw [runParsed, h]
  rfl

theorem runCalls_failed {position : ℕ} (h : command.call.run context memory = .failed position) :
    runCalls memory source true context ((command :: rest).map MatchCommand.call) =
      ⟨.fail, [], position⟩ := by
  rw [List.map_cons, runCalls, h]

theorem runCalls_passed {written : Option (Operand × Extracted)} {position : ℕ}
    (h : command.call.run context memory = .passed written position) :
    runCalls memory source true context ((command :: rest).map MatchCommand.call) =
      (runCalls memory source (keepsContext source written) (context.moveTo position)
        (rest.map MatchCommand.call)).after written := by
  rw [List.map_cons, runCalls, h]

theorem bind_after_eq_iff {x : Except ExecError MatchOutcome} {outcome : MatchOutcome}
    {write write' : Operand × Extracted} :
    (x >>= fun o => .ok (o.after (some write))) = .ok (outcome.after (some write')) ↔
      write = write' ∧ x = .ok outcome := by
  cases x with
  | error e => simp [bind, Except.bind]
  | ok o =>
    obtain ⟨branch, writes, position⟩ := o
    obtain ⟨branch', writes', position'⟩ := outcome
    simp only [except_ok_bind, Except.ok.injEq, MatchOutcome.after, MatchOutcome.mk.injEq,
      Option.toList_some, List.cons_append, List.nil_append, List.cons.injEq]
    tauto

theorem after_ne_failed {outcome : MatchOutcome} {write : Operand × Extracted} {position : ℕ} :
    outcome.after (some write) ≠ ⟨.fail, [], position⟩ := by
  intro h
  have hwrites := congrArg MatchOutcome.writes h
  simp [MatchOutcome.after] at hwrites

theorem bind_after_ne_failed {x : Except ExecError MatchOutcome} {write : Operand × Extracted}
    {position : ℕ} : (x >>= fun o => .ok (o.after (some write))) ≠ .ok ⟨.fail, [], position⟩ := by
  intro h
  obtain ⟨o, -, h⟩ := except_bind_ok_iff.mp h
  exact after_ne_failed (Except.ok.inj h)

/-- The two sides of an extraction. -/
theorem extract_agree_iff (hextracts : Extracts context memory command destination stop) :
    runParsed memory saved context (command :: rest) =
        .ok (runCalls memory source true context ((command :: rest).map MatchCommand.call)) ↔
      Agree context (command.step context memory) (command.call.run context memory) ∧
        (command.step context memory = .ok .failed → context.positionBits = saved) ∧
        (command.step context memory ≠ .ok .failed →
          runParsed memory saved (context.moveTo stop) rest =
            .ok (runCalls memory source (leavesRegister source destination) (context.moveTo stop)
              (rest.map MatchCommand.call))) := by
  cases hstep : command.step context memory with
  | error e =>
    rw [runParsed_error hstep]
    exact iff_of_false (fun h => by cases h) fun h => h.1
  | ok step =>
    rcases hextracts.step hstep with rfl | ⟨value, rfl⟩
    · rw [runParsed_failed hstep]
      rcases hextracts.call with ⟨position, hcall⟩ | ⟨value, hcall⟩
      · obtain rfl := hextracts.unmoved hstep hcall
        rw [runCalls_failed hcall, hcall, agree_failed_iff]
        simp [eq_comm]
      · rw [runCalls_passed hcall, hcall, agree_passed_iff]
        exact iff_of_false (fun h => after_ne_failed (Except.ok.inj h).symm) fun h => by cases h.1
    · rw [runParsed_matched hstep]
      rcases hextracts.call with ⟨position, hcall⟩ | ⟨value', hcall⟩
      · rw [runCalls_failed hcall, hcall, agree_failed_iff]
        exact iff_of_false bind_after_ne_failed fun h => by cases h.1.1
      · rw [runCalls_passed hcall, hcall, agree_passed_iff, bind_after_eq_iff]
        simp [keepsContext]

end Extraction

section Extractions

variable {context : MatchContext} {memory : Memory} {destination : Operand} {bits : ℕ}

theorem segmentBits_unsigned (h : bits < 2 ^ 64) :
    Matching.segmentBits (.unsigned bits) (.unsigned 1) = .ok bits := by
  change (if bits * 1 < 2 ^ 64 then _ else _) = _
  rw [if_pos (by omega), Nat.mul_one]

theorem checkedWord_cases (value : ℤ) (destination : Operand) :
    (∃ position, checkedWord (extractedWord context value bits) destination = .failed position) ∨
      ∃ value', checkedWord (extractedWord context value bits) destination =
        .passed (some (destination, value')) (context.positionBits + bits) := by
  rw [extractedWord_checked]
  split
  · split
    · exact .inl ⟨_, rfl⟩
    · exact .inr ⟨_, rfl⟩
  · exact .inl ⟨_, rfl⟩

theorem getInteger_run_cases (context : MatchContext) (memory : Memory) (destination : Operand)
    (bits raw : ℕ) :
    (∃ position,
      (MatchCall.getInteger bits raw destination).run context memory = .failed position) ∨
      ∃ value, (MatchCall.getInteger bits raw destination).run context memory =
        .passed (some (destination, value)) (context.positionBits + bits) := by
  cases hfit : context.hasBits bits with
  | false => exact .inl ⟨_, getInteger_run_unfit raw hfit⟩
  | true =>
    cases hslice : context.slice memory bits with
    | none => exact .inl ⟨_, getInteger_run_none raw hslice⟩
    | some bytes =>
      cases hraw : decodeInteger bytes (rawSegmentFlags raw) with
      | error e => exact .inl ⟨_, getInteger_run_error hslice hraw⟩
      | ok value =>
        rw [getInteger_run_ok hfit hslice hraw]
        exact checkedWord_cases value destination

theorem getBinary_run_cases (context : MatchContext) (memory : Memory) (destination : Operand)
    (bits : ℕ) :
    (MatchCall.getBinary bits destination).run context memory = .failed context.positionBits ∨
      ∃ value, (MatchCall.getBinary bits destination).run context memory =
        .passed (some (destination, value)) (context.positionBits + askedBits context bits) := by
  cases hfit : context.hasBits (askedBits context bits) with
  | false => exact .inl (getBinary_run_failed (.inl hfit))
  | true =>
    cases hslice : context.slice memory (askedBits context bits) with
    | none => exact .inl (getBinary_run_failed (.inr hslice))
    | some bytes => exact .inr ⟨_, getBinary_run_passed hfit hslice⟩

theorem integerStep_failed_iff {size unit flags : Operand}
    (hbits : Matching.segmentBits size unit = .ok bits) :
    integerStep context memory size unit flags destination = .ok .failed ↔
      context.hasBits bits = false := by
  constructor
  · intro h
    by_contra hfit
    exact integerStep_ne_failed hbits (by simpa using hfit) h
  · exact integerStep_unfit hbits

theorem integer_step_cases (flags destination : Operand) (h : bits < 2 ^ 64) {step : MatchStep}
    (hstep : (MatchCommand.integer flags bits destination).step context memory = .ok step) :
    step = .failed ∨
      ∃ value, step = .matched (some (destination, value)) (context.positionBits + bits) := by
  change integerStep context memory _ _ flags destination = _ at hstep
  cases hfit : context.hasBits bits with
  | false =>
    rw [integerStep_unfit (segmentBits_unsigned h) hfit] at hstep
    exact .inl (Except.ok.inj hstep).symm
  | true =>
    rw [integerStep_fit (segmentBits_unsigned h) hfit] at hstep
    obtain ⟨value, -, hstep⟩ := except_bind_ok_iff.mp hstep
    obtain ⟨word, -, hstep⟩ := except_bind_ok_iff.mp hstep
    exact .inr ⟨_, (Except.ok.inj hstep).symm⟩

theorem extracts_integer (flags destination : Operand) (h : bits < 2 ^ 64) :
    Extracts context memory (.integer flags bits destination) destination
      (context.positionBits + bits) where
  step := integer_step_cases flags destination h
  call := getInteger_run_cases context memory destination bits (flagsToRaw flags)
  unmoved hfailed {position} hcall := by
    have hfit := (integerStep_failed_iff (segmentBits_unsigned h)).mp hfailed
    change (MatchCall.getInteger bits _ destination).run context memory = _ at hcall
    rw [getInteger_run_unfit _ hfit] at hcall
    exact (CallStep.failed.inj hcall).symm

theorem binaryStep_failed_iff {size unit : Operand}
    (hbits : Matching.segmentBits size unit = .ok bits) :
    binaryStep context memory size unit destination = .ok .failed ↔
      bits % 8 = 0 ∧ context.positionBits % 8 = 0 ∧ context.hasBits bits = false := by
  by_cases hunaligned : bits % 8 ≠ 0 ∨ context.positionBits % 8 ≠ 0
  · rw [binaryStep_unaligned hbits hunaligned]
    exact iff_of_false (fun h => by cases h) fun h => by
      have h1 := h.1
      have h2 := h.2.1
      omega
  · rw [binaryStep_aligned hbits hunaligned, ← and_assoc, and_iff_right (by omega)]
    cases context.hasBits bits with
    | false => simp
    | true => cases context.slice memory bits <;> simp

theorem binary_step_cases (destination : Operand) (h : bits < 2 ^ 64) {step : MatchStep}
    (hstep : (MatchCommand.binary bits destination).step context memory = .ok step) :
    step = .failed ∨
      ∃ value, step = .matched (some (destination, value)) (context.positionBits + bits) := by
  change binaryStep context memory _ _ destination = _ at hstep
  by_cases hunaligned : bits % 8 ≠ 0 ∨ context.positionBits % 8 ≠ 0
  · rw [binaryStep_unaligned (segmentBits_unsigned h) hunaligned] at hstep
    cases hstep
  · rw [binaryStep_aligned (segmentBits_unsigned h) hunaligned] at hstep
    split at hstep
    · exact .inl (Except.ok.inj hstep).symm
    · cases hslice : context.slice memory bits with
      | none =>
        rw [hslice] at hstep
        cases hstep
      | some bytes =>
        rw [hslice] at hstep
        exact .inr ⟨_, (Except.ok.inj hstep).symm⟩

theorem extracts_binary (destination : Operand) (h : bits < 2 ^ 64)
    (hasked : askedBits context bits = bits) :
    Extracts context memory (.binary bits destination) destination
      (context.positionBits + bits) where
  step := binary_step_cases destination h
  call := by
    rcases getBinary_run_cases context memory destination bits with hcall | ⟨value, hcall⟩
    · exact .inl ⟨_, hcall⟩
    · rw [hasked] at hcall
      exact .inr ⟨value, hcall⟩
  unmoved _ {position} hcall := by
    rcases getBinary_run_cases context memory destination bits with hrun | ⟨value, hrun⟩
    · exact CallStep.failed.inj (hcall.symm.trans hrun)
    · cases hcall.symm.trans hrun

theorem tailStep_failed_iff :
    tailStep context memory destination = .ok .failed ↔ context.positionBits % 8 ≠ 0 := by
  rw [tailStep]
  by_cases hunaligned : context.positionBits % 8 ≠ 0
  · rw [if_pos hunaligned]
    exact iff_of_true rfl hunaligned
  · rw [if_neg hunaligned]
    cases context.slice memory context.remainingBits <;> simp [hunaligned]

theorem tail_step_cases (destination : Operand) {step : MatchStep}
    (hstep : (MatchCommand.getTail destination).step context memory = .ok step) :
    step = .failed ∨
      ∃ value, step = .matched (some (destination, value)) context.totalBits := by
  change tailStep context memory destination = _ at hstep
  rw [tailStep] at hstep
  split at hstep
  · exact .inl (Except.ok.inj hstep).symm
  · split at hstep
    · cases hstep
    · exact .inr ⟨_, (Except.ok.inj hstep).symm⟩

theorem hasBits_remaining :
    context.hasBits context.remainingBits = true ↔ context.positionBits ≤ context.totalBits := by
  rw [MatchContext.hasBits, MatchContext.remainingBits, decide_eq_true_eq]
  omega

theorem extracts_tail (destination : Operand) :
    Extracts context memory (.getTail destination) destination context.totalBits where
  step := tail_step_cases destination
  call := by
    have hasked : askedBits context remainingSize = context.remainingBits := if_pos rfl
    by_cases hle : context.positionBits ≤ context.totalBits
    · have hend : context.positionBits + askedBits context remainingSize = context.totalBits := by
        rw [hasked, MatchContext.remainingBits]
        omega
      rcases getBinary_run_cases context memory destination remainingSize with
        hcall | ⟨value, hcall⟩
      · exact .inl ⟨_, hcall⟩
      · rw [hend] at hcall
        exact .inr ⟨value, hcall⟩
    · have hunfit : context.hasBits (askedBits context remainingSize) = false := by
        rw [hasked, ← Bool.not_eq_true, hasBits_remaining]
        exact hle
      exact .inl ⟨_, getBinary_run_failed (.inl hunfit)⟩
  unmoved _ {position} hcall := by
    rcases getBinary_run_cases context memory destination remainingSize with hrun | ⟨value, hrun⟩
    · exact CallStep.failed.inj (hcall.symm.trans hrun)
    · cases hcall.symm.trans hrun

end Extractions

section Runs

variable {memory : Memory} {source : Operand} {saved : ℕ}

theorem step_test {context : MatchContext} {stride : Operand} {bits unit : ℕ}
    (h : operandUsize stride "bs_match ensure stride" = .ok bits) :
    (MatchCommand.ensureAtLeast stride unit).step context memory = .ok (context.testStep
      (bits ≤ context.remainingBits ∧ context.remainingBits % max unit 1 = 0)) := by
  rw [MatchCommand.step, h]
  rfl

theorem step_test_error {context : MatchContext} {stride : Operand} {unit : ℕ} {e : ExecError}
    (h : operandUsize stride "bs_match ensure stride" = .error e) :
    (MatchCommand.ensureAtLeast stride unit).step context memory = .error e := by
  rw [MatchCommand.step, h]
  rfl

theorem runParsed_test {context : MatchContext} {command : MatchCommand}
    {rest : List MatchCommand} (passes : Bool)
    (h : command.step context memory = .ok (context.testStep passes)) :
    runParsed memory saved context (command :: rest) =
      if passes then runParsed memory saved context rest else .ok ⟨.fail, [], saved⟩ := by
  cases passes with
  | false => exact runParsed_failed h
  | true =>
    rw [runParsed_matched h, if_pos rfl]
    change (runParsed memory saved context rest >>= fun o => .ok o) = _
    cases runParsed memory saved context rest <;> rfl

theorem runCalls_test {context : MatchContext} {command : MatchCommand} {rest : List MatchCommand}
    (passes : Bool) (h : command.call.run context memory = checkedTest context passes) :
    runCalls memory source true context ((command :: rest).map MatchCommand.call) =
      if passes then runCalls memory source true context (rest.map MatchCommand.call)
      else ⟨.fail, [], context.positionBits⟩ := by
  cases passes with
  | false => exact runCalls_failed h
  | true => exact runCalls_passed h

/-- An extraction that does not fail writes. -/
theorem runParsed_gives_up {context : MatchContext} {command : MatchCommand}
    {rest : List MatchCommand} {destination : Operand} {stop position : ℕ}
    (h : ∀ {step}, command.step context memory = .ok step →
      step = .failed ∨ ∃ value, step = .matched (some (destination, value)) stop) :
    runParsed memory saved context (command :: rest) = .ok ⟨.fail, [], position⟩ ↔
      position = saved ∧ command.step context memory = .ok .failed := by
  cases hstep : command.step context memory with
  | error e =>
    rw [runParsed_error hstep]
    simp
  | ok step =>
    rcases h hstep with rfl | ⟨value, rfl⟩
    · rw [runParsed_failed hstep]
      simp [eq_comm]
    · rw [runParsed_matched hstep]
      exact iff_of_false bind_after_ne_failed fun h => by cases h.2

theorem runParsed_gives_up_iff {commands : List MatchCommand} {context : MatchContext}
    {position : ℕ} (hsized : ∀ command ∈ commands, command.Sized) :
    runParsed memory saved context commands = .ok ⟨.fail, [], position⟩ ↔
      position = saved ∧ InterpreterGivesUp context commands := by
  induction commands with
  | nil => simp [runParsed, InterpreterGivesUp]
  | cons command rest ih =>
    have hrest := ih fun c hc => hsized c (List.mem_cons_of_mem _ hc)
    have hcommand := hsized command (List.mem_cons_self ..)
    cases command with
    | ensureAtLeast stride unit =>
      cases hstride : operandUsize stride "bs_match ensure stride" with
      | error e =>
        rw [runParsed_error (step_test_error hstride)]
        simp [InterpreterGivesUp, hstride]
      | ok bits =>
        rw [runParsed_test _ (step_test hstride), InterpreterGivesUp]
        simp only [hstride, Except.ok.injEq, exists_eq_left', decide_eq_true_eq]
        split
        next hpasses =>
          rw [hrest]
          exact and_congr_right fun _ => (imp_iff_right hpasses).symm
        next hfails =>
          simp only [hfails, false_imp_iff, and_true, Except.ok.injEq, MatchOutcome.mk.injEq,
            true_and]
          exact eq_comm
    | ensureExactly bits =>
      rw [runParsed_test (context.remainingBits = bits) rfl, InterpreterGivesUp]
      simp only [decide_eq_true_eq]
      split
      next hpasses =>
        rw [hrest]
        exact and_congr_right fun _ => (imp_iff_right hpasses).symm
      next hfails =>
        simp only [hfails, false_imp_iff, and_true, Except.ok.injEq, MatchOutcome.mk.injEq,
          true_and]
        exact eq_comm
    | integer flags bits destination =>
      rw [runParsed_gives_up (integer_step_cases flags destination hcommand), InterpreterGivesUp]
      exact and_congr_right fun _ => integerStep_failed_iff (segmentBits_unsigned hcommand)
    | binary bits destination =>
      rw [runParsed_gives_up (binary_step_cases destination hcommand), InterpreterGivesUp]
      exact and_congr_right fun _ => binaryStep_failed_iff (segmentBits_unsigned hcommand)
    | getTail destination =>
      rw [runParsed_gives_up (tail_step_cases destination), InterpreterGivesUp]
      exact and_congr_right fun _ => tailStep_failed_iff

theorem getInteger_refuses_iff {context : MatchContext} {flags destination : Operand} {bits : ℕ} :
    (MatchCall.getInteger bits (flagsToRaw flags) destination).run context memory =
        .failed context.positionBits ↔ RefusesInteger memory context flags bits := by
  cases hfit : context.hasBits bits with
  | false =>
    rw [getInteger_run_unfit _ hfit]
    exact iff_of_true rfl fun bytes value hfit' => by rw [hfit] at hfit'; cases hfit'
  | true =>
    cases hslice : context.slice memory bits with
    | none =>
      rw [getInteger_run_none _ hslice]
      exact iff_of_true rfl fun bytes value _ h => by rw [hslice] at h; cases h
    | some bytes =>
      cases hraw : decodeInteger bytes (rawSegmentFlags (flagsToRaw flags)) with
      | error e =>
        rw [getInteger_run_error hslice hraw]
        refine iff_of_true rfl fun bytes' value _ h hvalue => ?_
        obtain rfl := Option.some.inj (hslice.symm.trans h)
        rw [hraw] at hvalue
        cases hvalue
      | ok value =>
        have hrefuses : RefusesInteger memory context flags bits ↔
            (-(2 ^ 60) ≤ value ∧ value < 2 ^ 60 → bits = 0) := by
          constructor
          · intro h
            exact h bytes value hfit hslice hraw
          · intro h bytes' value' _ hbytes hvalue
            obtain rfl := Option.some.inj (hslice.symm.trans hbytes)
            obtain rfl := Except.ok.inj (hraw.symm.trans hvalue)
            exact h
        rw [getInteger_run_ok hfit hslice hraw, extractedWord_checked, hrefuses]
        by_cases hsmall : -(2 ^ 60) ≤ value ∧ value < 2 ^ 60
        · rw [if_pos hsmall, forall_prop_of_true hsmall]
          by_cases hzero : value = 0
          · rw [if_pos hzero, CallStep.failed.injEq]
            omega
          · rw [if_neg hzero]
            refine iff_of_false (fun h => by cases h) fun hbits => hzero ?_
            subst hbits
            have hnil := List.length_eq_zero_iff.mp (length_slice hslice)
            exact (decodeInteger_eq_zero_iff hraw).mpr (by simp [hnil])
        · rw [if_neg hsmall]
          exact iff_of_true rfl fun h => absurd h hsmall

theorem getBinary_refuses_iff {context : MatchContext} {destination : Operand} {bits : ℕ} :
    (MatchCall.getBinary bits destination).run context memory = .failed context.positionBits ↔
      RefusesBinary memory context bits := by
  constructor
  · intro hcall
    by_contra hrefuses
    obtain ⟨hfit, hslice⟩ := not_or.mp hrefuses
    obtain ⟨bytes, hbytes⟩ := Option.ne_none_iff_exists'.mp hslice
    rw [getBinary_run_passed (by simpa using hfit) hbytes] at hcall
    cases hcall
  · exact getBinary_run_failed

/-- An extraction that is compiled fails without a move or not at all. -/
theorem runCalls_gives_up {context : MatchContext} {command : MatchCommand}
    {rest : List MatchCommand} {destination : Operand} {stop position : ℕ}
    (hcall : (∃ position, command.call.run context memory = .failed position) ∨
      ∃ value, command.call.run context memory = .passed (some (destination, value)) stop) :
    runCalls memory source true context ((command :: rest).map MatchCommand.call) =
        ⟨.fail, [], position⟩ ↔
      command.call.run context memory = .failed position := by
  rcases hcall with ⟨position', hcall⟩ | ⟨value, hcall⟩
  · rw [runCalls_failed hcall, hcall]
    simp
  · rw [runCalls_passed hcall, hcall]
    exact iff_of_false after_ne_failed fun h => by cases h

theorem runCalls_gives_up_iff {commands : List MatchCommand} {context : MatchContext} :
    runCalls memory source true context (commands.map MatchCommand.call) =
        ⟨.fail, [], context.positionBits⟩ ↔
      CompiledGivesUp memory context commands := by
  induction commands with
  | nil => simp [runCalls, CompiledGivesUp]
  | cons command rest ih =>
    cases command with
    | ensureAtLeast stride unit =>
      rw [runCalls_test (jitBsTestUnit context unit) rfl, CompiledGivesUp, jitBsTestUnit]
      simp only [decide_eq_true_eq]
      split
      next hpasses => rw [ih, imp_iff_right hpasses]
      next hfails => simp [hfails]
    | ensureExactly bits =>
      rw [runCalls_test (jitBsTestTail context bits) rfl, CompiledGivesUp, jitBsTestTail]
      simp only [decide_eq_true_eq]
      split
      next hpasses => rw [ih, imp_iff_right hpasses]
      next hfails => simp [hfails]
    | integer flags bits destination =>
      rw [runCalls_gives_up
        (getInteger_run_cases context memory destination bits (flagsToRaw flags)), CompiledGivesUp]
      exact getInteger_refuses_iff
    | binary bits destination =>
      have hcases := getBinary_run_cases context memory destination bits
      rw [runCalls_gives_up (hcases.imp_left fun h => ⟨_, h⟩), CompiledGivesUp]
      exact getBinary_refuses_iff
    | getTail destination =>
      have hcases := getBinary_run_cases context memory destination remainingSize
      rw [runCalls_gives_up (hcases.imp_left fun h => ⟨_, h⟩), CompiledGivesUp]
      exact getBinary_refuses_iff

end Runs

section Lockstep

variable {memory : Memory} {source : Operand} {saved : ℕ}

/-- One extraction, then the rest. -/
theorem extract_meets_iff {context : MatchContext} {command : MatchCommand}
    {rest : List MatchCommand} {destination : Operand} {stop : ℕ} {meets fits tail : Prop}
    [Decidable fits] (hextracts : Extracts context memory command destination stop)
    (hagree : Agree context (command.step context memory) (command.call.run context memory) ↔ meets)
    (hfails : command.step context memory = .ok .failed ↔ ¬ fits)
    (htail : meets → fits →
      (runParsed memory saved (context.moveTo stop) rest =
        .ok (runCalls memory source (leavesRegister source destination) (context.moveTo stop)
          (rest.map MatchCommand.call)) ↔ tail)) :
    runParsed memory saved context (command :: rest) =
        .ok (runCalls memory source true context ((command :: rest).map MatchCommand.call)) ↔
      meets ∧ if fits then tail else context.positionBits = saved := by
  rw [extract_agree_iff hextracts, hagree, Ne, hfails]
  refine and_congr_right fun hmeets => ?_
  by_cases hfits : fits
  · simp [hfits, htail hmeets hfits]
  · simp [hfits]

theorem checkedWord_ge {context : MatchContext} {value : ℤ} {bits position : ℕ}
    {destination : Operand}
    (h : checkedWord (extractedWord context value bits) destination = .failed position) :
    context.positionBits ≤ position := by
  rw [extractedWord_checked] at h
  split_ifs at h <;> cases h <;> omega

/-- A call that fails has not moved the context back. -/
theorem call_failed_ge {context : MatchContext} {command : MatchCommand} {position : ℕ}
    (h : command.call.run context memory = .failed position) : context.positionBits ≤ position := by
  have htest : ∀ passes, checkedTest context passes = .failed position →
      context.positionBits ≤ position := by
    intro passes hrun
    cases passes with
    | false => exact (CallStep.failed.inj hrun).le
    | true => cases hrun
  have hbinary : ∀ bits destination,
      (MatchCall.getBinary bits destination).run context memory = .failed position →
      context.positionBits ≤ position := by
    intro bits destination hrun
    rcases getBinary_run_cases context memory destination bits with hcall | ⟨value, hcall⟩
    · exact (CallStep.failed.inj (hcall.symm.trans hrun)).le
    · cases hcall.symm.trans hrun
  cases command with
  | ensureAtLeast stride unit => exact htest _ h
  | ensureExactly bits => exact htest _ h
  | integer flags bits destination =>
    change (MatchCall.getInteger bits (flagsToRaw flags) destination).run context memory = _ at h
    cases hfit : context.hasBits bits with
    | false =>
      rw [getInteger_run_unfit _ hfit] at h
      exact (CallStep.failed.inj h).le
    | true =>
      cases hslice : context.slice memory bits with
      | none =>
        rw [getInteger_run_none _ hslice] at h
        exact (CallStep.failed.inj h).le
      | some bytes =>
        cases hraw : decodeInteger bytes (rawSegmentFlags (flagsToRaw flags)) with
        | error e =>
          rw [getInteger_run_error hslice hraw] at h
          exact (CallStep.failed.inj h).le
        | ok value =>
          rw [getInteger_run_ok hfit hslice hraw] at h
          exact checkedWord_ge h
  | binary bits destination => exact hbinary bits destination h
  | getTail destination => exact hbinary remainingSize destination h

/-- Nor has code that gives up. -/
theorem runCalls_failed_ge {commands : List MatchCommand} {context : MatchContext} {position : ℕ}
    (h : runCalls memory source true context (commands.map MatchCommand.call) =
      ⟨.fail, [], position⟩) : context.positionBits ≤ position := by
  induction commands with
  | nil => cases h
  | cons command rest ih =>
    cases hcall : command.call.run context memory with
    | failed position' =>
      rw [runCalls_failed hcall] at h
      cases h
      exact call_failed_ge hcall
    | passed written position' =>
      rw [runCalls_passed hcall] at h
      cases written with
      | some write => exact absurd h after_ne_failed
      | none =>
        have hsame : position' = context.positionBits := by
          cases command with
          | ensureAtLeast stride unit =>
            change checkedTest context (jitBsTestUnit context unit) = _ at hcall
            cases hpasses : jitBsTestUnit context unit <;> rw [hpasses] at hcall <;> cases hcall
            rfl
          | ensureExactly bits =>
            change checkedTest context (jitBsTestTail context bits) = _ at hcall
            cases hpasses : jitBsTestTail context bits <;> rw [hpasses] at hcall <;> cases hcall
            rfl
          | integer flags bits destination =>
            rcases getInteger_run_cases context memory destination bits (flagsToRaw flags) with
              ⟨position, hrun⟩ | ⟨value, hrun⟩ <;> cases hrun.symm.trans hcall
          | binary bits destination =>
            rcases getBinary_run_cases context memory destination bits with hrun | ⟨value, hrun⟩ <;>
              cases hrun.symm.trans hcall
          | getTail destination =>
            rcases getBinary_run_cases context memory destination remainingSize with
              hrun | ⟨value, hrun⟩ <;>
              cases hrun.symm.trans hcall
        subst hsame
        exact ih h

/-- The run over the commands, from any place where the interpreter has got to. -/
theorem commands_agree_iff {commands : List MatchCommand} {held : Bool} {context : MatchContext}
    (hsized : ∀ command ∈ commands, command.Sized) (hsaved : saved ≤ context.positionBits) :
    runParsed memory saved context commands =
        .ok (runCalls memory source held context (commands.map MatchCommand.call)) ↔
      CommandsMeet memory source saved held context commands := by
  induction commands generalizing held context with
  | nil => exact iff_of_true (by cases held <;> rfl) (by cases held <;> trivial)
  | cons command rest ih =>
    have hsized' : ∀ c ∈ rest, c.Sized := fun c hc => hsized c (List.mem_cons_of_mem _ hc)
    have hcommand := hsized command (List.mem_cons_self ..)
    cases held with
    | false =>
      have hrun : runCalls memory source false context ((command :: rest).map MatchCommand.call) =
        ⟨.fail, [], context.positionBits⟩ := rfl
      rw [hrun, runParsed_gives_up_iff hsized]
      cases command <;> exact Iff.rfl
    | true =>
      cases command with
      | ensureAtLeast stride unit =>
        rw [runCalls_test (jitBsTestUnit context unit) rfl, CommandsMeet, jitBsTestUnit]
        cases hstride : operandUsize stride "bs_match ensure stride" with
        | error e =>
          rw [runParsed_error (step_test_error hstride)]
          simp
        | ok bits =>
          rw [runParsed_test _ (step_test hstride)]
          simp only [Except.ok.injEq, exists_eq_left', decide_eq_true_eq]
          by_cases hstep : bits ≤ context.remainingBits ∧ context.remainingBits % max unit 1 = 0
          · rw [if_pos hstep, if_pos hstep]
            by_cases hcall : unit ≠ 0 ∧ context.remainingBits % unit = 0
            · rw [if_pos hcall, if_pos hcall]
              exact ih hsized' hsaved
            · rw [if_neg hcall, if_neg hcall]
              exact runParsed_gives_up_iff hsized'
          · rw [if_neg hstep, if_neg hstep]
            by_cases hcall : unit ≠ 0 ∧ context.remainingBits % unit = 0
            · rw [if_pos hcall, if_pos hcall, Except.ok.injEq]
              constructor
              · intro hrun
                have hle := runCalls_failed_ge hrun.symm
                obtain rfl : saved = context.positionBits := le_antisymm hsaved hle
                exact ⟨rfl, runCalls_gives_up_iff.mp hrun.symm⟩
              · rintro ⟨rfl, hgives⟩
                exact (runCalls_gives_up_iff.mpr hgives).symm
            · rw [if_neg hcall, if_neg hcall]
              simp [eq_comm]
      | ensureExactly bits =>
        rw [runParsed_test (context.remainingBits = bits) rfl,
          runCalls_test (jitBsTestTail context bits) rfl, CommandsMeet, jitBsTestTail]
        simp only [decide_eq_true_eq]
        by_cases hpasses : context.remainingBits = bits
        · rw [if_pos hpasses, if_pos hpasses, if_pos hpasses]
          exact ih hsized' hsaved
        · rw [if_neg hpasses, if_neg hpasses, if_neg hpasses]
          simp [eq_comm]
      | integer flags bits destination =>
        refine extract_meets_iff (extracts_integer flags destination hcommand)
          (agree_integer_iff (segmentBits_unsigned hcommand)) ?_
          fun _ _ => ih hsized' (hsaved.trans (Nat.le_add_right _ _))
        rw [Bool.not_eq_true]
        exact integerStep_failed_iff (segmentBits_unsigned hcommand)
      | binary bits destination =>
        by_cases hunaligned : bits % 8 ≠ 0 ∨ context.positionBits % 8 ≠ 0
        · have hstep :
              (MatchCommand.binary bits destination).step context memory = .error .badarg :=
            binaryStep_unaligned (segmentBits_unsigned hcommand) hunaligned
          rw [runParsed_error hstep, CommandsMeet]
          refine iff_of_false (fun h => by cases h) fun h => ?_
          obtain ⟨⟨h1, h2, -⟩, -⟩ := h
          omega
        · have hasked : askedBits context bits = bits := by
            rw [askedBits, remainingSize, if_neg (by omega)]
          refine extract_meets_iff (extracts_binary destination hcommand hasked)
            (agree_binary_iff (segmentBits_unsigned hcommand)) ?_
            fun _ _ => ih hsized' (hsaved.trans (Nat.le_add_right _ _))
          rw [Bool.not_eq_true]
          refine (binaryStep_failed_iff (segmentBits_unsigned hcommand)).trans ?_
          rw [← and_assoc, and_iff_right (by omega)]
      | getTail destination =>
        refine extract_meets_iff (extracts_tail destination) agree_tail_iff tailStep_failed_iff
          fun hmeets haligned => ih hsized' ?_
        rcases hmeets with hunaligned | ⟨-, hle⟩
        · exact absurd haligned hunaligned
        · exact hsaved.trans hle

end Lockstep

/-! ## From operands to commands -/

section Operands

variable {context : MatchContext} {memory : Memory} {module : BinaryModule}
  {widenSingle : ℕ → Float64}

theorem operandUsize_of_immediate {operand : Operand} {value : ℕ}
    (h : immediateU64 operand = .ok value) (name : String) :
    operandUsize operand name = .ok value := by
  unfold immediateU64 at h
  split at h
  · cases h
    rfl
  · next number =>
    split at h
    next hnonnegative =>
      cases h
      rw [operandUsize, if_pos hnonnegative]
    next => cases h
  · cases h

theorem segmentBits_of_lower {size unit : Operand} {bits : ℕ}
    (h : lowerSegmentBits size unit = .ok bits) :
    Matching.segmentBits size unit = .ok bits ∧ bits < 2 ^ 64 := by
  obtain ⟨sizeValue, hsize, h⟩ := except_bind_ok_iff.mp h
  obtain ⟨unitValue, hunit, h⟩ := except_bind_ok_iff.mp h
  split at h
  next hfits =>
    cases h
    rw [Matching.segmentBits, operandUsize_of_immediate hsize, operandUsize_of_immediate hunit]
    exact ⟨if_pos hfits, hfits⟩
  next => cases h

theorem checkRegister_ok {operand register : Operand} (h : checkRegister operand = .ok register) :
    register = operand := by
  unfold checkRegister at h
  cases hregister : registerOperand operand with
  | error e =>
    rw [hregister] at h
    cases h
  | ok r =>
    rw [hregister] at h
    exact (Except.ok.inj h).symm

theorem failBlock_ok {labels : List ℕ} {operands : List Operand} {block : ℕ}
    (h : failBlock labels operands = .ok block) :
    ∃ fail rest, operands = fail :: rest ∧ operandLabel fail = .ok block := by
  cases operands with
  | nil => cases h
  | cons fail rest => exact ⟨fail, rest, rfl, knownLabel_ok h⟩

/-- Only the size matters of a size and a unit. -/
theorem integerStep_congr {size unit size' unit' flags destination : Operand}
    (h : Matching.segmentBits size unit = Matching.segmentBits size' unit') :
    integerStep context memory size unit flags destination =
      integerStep context memory size' unit' flags destination := by
  rw [integerStep, integerStep, getIntegerValue_eq, getIntegerValue_eq, h]

theorem binaryStep_congr {size unit size' unit' destination : Operand}
    (h : Matching.segmentBits size unit = Matching.segmentBits size' unit') :
    binaryStep context memory size unit destination =
      binaryStep context memory size' unit' destination := by
  rw [binaryStep, binaryStep, getBinaryBytes, getBinaryBytes, h]

theorem commandName_number {tag : Operand} {number : ℤ} (h : commandNumber tag = some number) :
    commandName tag = numberedCommand number := by
  unfold commandNumber at h
  split at h
  · cases h
    rfl
  · cases h
    rfl
  · cases h

/-- What the interpreter makes of the operands of a command. -/
structure Stands (widenSingle : ℕ → Float64) (module : BinaryModule) (memory : Memory)
    (operand : Operand) (command : MatchCommand) : Prop where
  sized : command.Sized
  need : ∀ context, ∃ words, (nestedCommand operand >>= commandHeapNeed context) = .ok words
  step : ∀ context, (nestedCommand operand >>= commandStep widenSingle context memory module) =
    command.step context memory

theorem stands_of_parse {operand : Operand} {command : MatchCommand}
    (h : parseMatchCommand operand = .ok command) :
    Stands widenSingle module memory operand command := by
  unfold parseMatchCommand at h
  split at h
  next tag args =>
    have hname : ∀ {number name}, commandNumber tag = some number →
        numberedCommand number = .ok name →
        nestedCommand (.list (tag :: args)) = .ok (name, args) := by
      intro number name hnumber hnamed
      rw [nestedCommand, commandName_number hnumber, hnamed]
      rfl
    split at h
    next live bits hnumber =>
      obtain ⟨unit, hunit, rfl⟩ := except_map_ok h
      have hnested := hname hnumber rfl
      refine ⟨trivial, fun context => ⟨0, by rw [hnested]; rfl⟩, fun context => ?_⟩
      rw [hnested, except_ok_bind, commandStep, operandUsize_of_immediate hunit]
      rfl
    next bits unit hnumber =>
      obtain ⟨expected, hexpected, rfl⟩ := except_map_ok h
      have hnested := hname hnumber rfl
      refine ⟨trivial, fun context => ⟨0, by rw [hnested]; rfl⟩, fun context => ?_⟩
      rw [hnested, except_ok_bind, commandStep, operandUsize_of_immediate hexpected]
      rfl
    next live flags size unit dst hnumber =>
      obtain ⟨count, hcount, h⟩ := except_bind_ok_iff.mp h
      obtain ⟨register, hregister, hcommand⟩ := except_bind_ok_iff.mp h
      obtain rfl := checkRegister_ok hregister
      obtain rfl := Except.ok.inj hcommand
      obtain ⟨hbits, hlt⟩ := segmentBits_of_lower hcount
      have hnested := hname hnumber rfl
      refine ⟨hlt, fun context => ⟨0, by rw [hnested]; rfl⟩, fun context => ?_⟩
      rw [hnested, except_ok_bind, commandStep]
      exact integerStep_congr (hbits.trans (segmentBits_unsigned hlt).symm)
    next live flags size unit dst hnumber =>
      obtain ⟨count, hcount, h⟩ := except_bind_ok_iff.mp h
      obtain ⟨register, hregister, hcommand⟩ := except_bind_ok_iff.mp h
      obtain rfl := checkRegister_ok hregister
      obtain rfl := Except.ok.inj hcommand
      obtain ⟨hbits, hlt⟩ := segmentBits_of_lower hcount
      have hnested := hname hnumber rfl
      refine ⟨hlt, fun context => ⟨_, by rw [hnested, except_ok_bind, commandHeapNeed, hbits]; rfl⟩,
        fun context => ?_⟩
      rw [hnested, except_ok_bind, commandStep]
      exact binaryStep_congr (hbits.trans (segmentBits_unsigned hlt).symm)
    next live dst hnumber =>
      obtain ⟨register, hregister, rfl⟩ := except_map_ok h
      obtain rfl := checkRegister_ok hregister
      have hnested := hname hnumber rfl
      exact ⟨trivial, fun context => ⟨_, by rw [hnested]; rfl⟩,
        fun context => by rw [hnested]; rfl⟩
    next live extra dst hnumber =>
      obtain ⟨register, hregister, rfl⟩ := except_map_ok h
      obtain rfl := checkRegister_ok hregister
      have hnested := hname hnumber rfl
      exact ⟨trivial, fun context => ⟨_, by rw [hnested]; rfl⟩,
        fun context => by rw [hnested]; rfl⟩
    next => cases h
  next => cases h

/-- The commands that the translator takes, as the interpreter goes through them. -/
theorem stands_of_mapM {operands : List Operand} {commands : List MatchCommand}
    (h : operands.mapM parseMatchCommand = .ok commands) :
    List.Forall₂ (Stands widenSingle module memory) operands commands := by
  induction operands generalizing commands with
  | nil =>
    obtain rfl := Except.ok.inj h
    exact .nil
  | cons operand operands ih =>
    obtain ⟨command, rest, hcommand, hrest, rfl⟩ := except_mapM_cons_ok h
    exact .cons (stands_of_parse hcommand) (ih hrest)

theorem sized_of_stands {operands : List Operand} {commands : List MatchCommand}
    (h : List.Forall₂ (Stands widenSingle module memory) operands commands) :
    ∀ command ∈ commands, command.Sized := by
  induction h with
  | nil => simp
  | cons hcommand hrest ih => exact List.forall_mem_cons.mpr ⟨hcommand.sized, ih⟩

theorem heapNeed_of_stands {operands : List Operand} {commands : List MatchCommand}
    (context : MatchContext)
    (h : List.Forall₂ (Stands widenSingle module memory) operands commands) :
    ∃ words, matchCommandsHeapNeed context (operands.map nestedCommand) = .ok words := by
  induction h with
  | nil => exact ⟨0, rfl⟩
  | cons hcommand hrest ih =>
    obtain ⟨needed, hneeded⟩ := hcommand.need context
    obtain ⟨words, hwords⟩ := ih
    obtain ⟨parsed, hparsed, hneeded⟩ := except_bind_ok_iff.mp hneeded
    refine ⟨needed + words, ?_⟩
    rw [List.map_cons, matchCommandsHeapNeed, hparsed, except_ok_bind, hneeded, except_ok_bind,
      hwords]
    rfl

theorem runCommandSteps_eq {operands : List Operand} {commands : List MatchCommand}
    {saved label : ℕ} {fail : Operand} (hfail : operandLabel fail = .ok label)
    (h : List.Forall₂ (Stands widenSingle module memory) operands commands) :
    runCommandSteps widenSingle module memory saved fail context (operands.map nestedCommand) =
      runParsed memory saved context commands := by
  induction h generalizing context with
  | nil => rfl
  | @cons operand command operands commands hcommand hrest ih =>
    have hstep := hcommand.step context
    rw [List.map_cons, runCommandSteps, runParsed]
    cases hnested : nestedCommand operand with
    | error e =>
      rw [hnested] at hstep
      rw [← hstep]
      rfl
    | ok parsed =>
      rw [hnested, except_ok_bind] at hstep
      rw [except_ok_bind, hstep]
      cases command.step context memory with
      | error e => rfl
      | ok step =>
        cases step with
        | matched written bits =>
          rw [except_ok_bind, except_ok_bind]
          dsimp only
          rw [ih]
        | failed =>
          rw [except_ok_bind, except_ok_bind]
          dsimp only
          rw [hfail]
          rfl

end Operands

/-! ## The instructions -/

/-- When an instruction that the translator takes does as the interpreter does. -/
def MatchMeets (memory : Memory) (context : MatchContext) (op : MatchOp)
    (operands : List Operand) : Prop :=
  match op, operands with
  | .getInteger2, operands => ∃ get bits, lowerGetOperands operands = .ok get ∧
      lowerSegmentBits get.size get.unit = .ok bits ∧ IntegerMeets context memory get.flags bits
  | .getBinary2, operands => ∃ get bits, lowerGetOperands operands = .ok get ∧
      lowerSegmentBits get.size get.unit = .ok bits ∧ BinaryMeets context memory bits
  | .getUtf utf, operands => ∃ get, lowerUtfOperands operands = .ok get ∧
      UtfMeets context memory utf get.flags
  | .testUnit, [_fail, _context, unit] => immediateU64 unit ≠ .ok 0
  | .bsMatch, _fail :: source :: rest => ∃ commands,
      (commandOperands rest).mapM parseMatchCommand = .ok commands ∧
      CommandsMeet memory source context.positionBits true context commands
  | _, _ => True

section Instructions

variable {context : MatchContext} {memory : Memory} {labels : List ℕ} {operands : List Operand}

/-- An instruction of one step. -/
theorem conclude_agrees_iff {fail source : Operand} {label : ℕ} {call : MatchCall}
    {step : Except ExecError MatchStep} (hfail : operandLabel fail = .ok label) :
    (step >>= context.conclude fail) = .ok (runCalls memory source true context [call]) ↔
      Agree context step (call.run context memory) := by
  cases hcall : call.run context memory with
  | passed written position =>
    have hrun : runCalls memory source true context [call] = ⟨.next, written.toList, position⟩ := by
      rw [runCalls, hcall]
      cases keepsContext source written <;> simp [runCalls, MatchOutcome.after, MatchContext.moveTo]
    rw [hrun, agree_passed_iff]
    cases step with
    | error e => simp [bind, Except.bind]
    | ok step =>
      cases step with
      | matched written' position' =>
        rw [except_ok_bind, MatchContext.conclude]
        cases written <;> cases written' <;> simp
      | failed =>
        rw [except_ok_bind, MatchContext.conclude, hfail]
        simp
  | failed position =>
    have hrun : runCalls memory source true context [call] = ⟨.fail, [], position⟩ := by
      rw [runCalls, hcall]
    rw [hrun, agree_failed_iff]
    cases step with
    | error e => simp [bind, Except.bind]
    | ok step =>
      cases step with
      | matched written' position' =>
        rw [except_ok_bind, MatchContext.conclude]
        simp
      | failed =>
        rw [except_ok_bind, MatchContext.conclude, hfail]
        simp [eq_comm]

theorem lowerGetOperands_ok {get : GetOperands} (h : lowerGetOperands operands = .ok get)
    (name : String) :
    parseGetOperands operands name = .ok get ∧ operands.head? = some get.fail := by
  have hparsed := except_mapError_ok h
  unfold parseGetOperands at hparsed ⊢
  split at hparsed
  · exact ⟨hparsed, by rw [← Except.ok.inj hparsed]; rfl⟩
  · exact ⟨hparsed, by rw [← Except.ok.inj hparsed]; rfl⟩
  · cases hparsed

theorem lowerUtfOperands_ok {get : UtfOperands} (h : lowerUtfOperands operands = .ok get)
    (name : String) :
    parseUtfGetOperands operands name = .ok get ∧ operands.head? = some get.fail := by
  have hparsed := except_mapError_ok h
  unfold parseUtfGetOperands at hparsed ⊢
  split at hparsed
  · exact ⟨hparsed, by rw [← Except.ok.inj hparsed]; rfl⟩
  · exact ⟨hparsed, by rw [← Except.ok.inj hparsed]; rfl⟩
  · cases hparsed

/-- Compiled and interpreted, a match instruction has the same outcome exactly when it meets its
condition. -/
theorem match_op_agrees_iff (widenSingle : ℕ → Float64) (module : BinaryModule) {op : MatchOp}
    {code : MatchCode} (hlower : lowerMatchOp labels op operands = .ok code)
    (context : MatchContext) (memory : Memory) :
    runMatchOp widenSingle module memory context op operands = .ok (code.run context memory) ↔
      MatchMeets memory context op operands := by
  obtain ⟨block, hblock, hlower⟩ := except_bind_ok_iff.mp hlower
  obtain ⟨fail, rest, rfl, hfail⟩ := failBlock_ok hblock
  cases op with
  | getInteger2 =>
    obtain ⟨get, hget, hlower⟩ := except_bind_ok_iff.mp hlower
    obtain ⟨bits, hbits, hlower⟩ := except_bind_ok_iff.mp hlower
    obtain ⟨source, hsource, hlower⟩ := except_bind_ok_iff.mp hlower
    obtain ⟨destination, hdestination, hcode⟩ := except_bind_ok_iff.mp hlower
    obtain rfl := checkRegister_ok hdestination
    obtain rfl := Except.ok.inj hcode
    obtain ⟨hparse, hhead⟩ := lowerGetOperands_ok hget "bs_get_integer2"
    obtain rfl := Option.some.inj hhead
    have hmeets : MatchMeets memory context .getInteger2 (get.fail :: rest) ↔
        IntegerMeets context memory get.flags bits := by
      simp [MatchMeets, hget, hbits]
    rw [hmeets, runMatchOp, hparse, except_ok_bind,
      ← agree_integer_iff (segmentBits_of_lower hbits).1]
    exact conclude_agrees_iff hfail
  | getBinary2 =>
    obtain ⟨get, hget, hlower⟩ := except_bind_ok_iff.mp hlower
    obtain ⟨bits, hbits, hlower⟩ := except_bind_ok_iff.mp hlower
    obtain ⟨source, hsource, hlower⟩ := except_bind_ok_iff.mp hlower
    obtain ⟨destination, hdestination, hcode⟩ := except_bind_ok_iff.mp hlower
    obtain rfl := checkRegister_ok hdestination
    obtain rfl := Except.ok.inj hcode
    obtain ⟨hparse, hhead⟩ := lowerGetOperands_ok hget "bs_get_binary2"
    obtain rfl := Option.some.inj hhead
    have hmeets : MatchMeets memory context .getBinary2 (get.fail :: rest) ↔
        BinaryMeets context memory bits := by
      simp [MatchMeets, hget, hbits]
    rw [hmeets, runMatchOp, hparse, except_ok_bind,
      ← agree_binary_iff (segmentBits_of_lower hbits).1]
    exact conclude_agrees_iff hfail
  | getUtf utf =>
    obtain ⟨get, hget, hlower⟩ := except_bind_ok_iff.mp hlower
    obtain ⟨source, hsource, hlower⟩ := except_bind_ok_iff.mp hlower
    obtain ⟨destination, hdestination, hcode⟩ := except_bind_ok_iff.mp hlower
    obtain rfl := checkRegister_ok hdestination
    obtain rfl := Except.ok.inj hcode
    obtain ⟨hparse, hhead⟩ := lowerUtfOperands_ok hget utf.operandsName
    obtain rfl := Option.some.inj hhead
    have hmeets : MatchMeets memory context (.getUtf utf) (get.fail :: rest) ↔
        UtfMeets context memory utf get.flags := by
      simp [MatchMeets, hget]
    rw [hmeets, runMatchOp, hparse, except_ok_bind, ← agree_utf_iff]
    exact conclude_agrees_iff hfail
  | skipBits2 => cases hlower
  | testTail2 =>
    rcases rest with _ | ⟨source, _ | ⟨expected, _ | ⟨extra, more⟩⟩⟩
    · cases hlower
    · cases hlower
    · obtain ⟨register, hregister, hlower⟩ := except_bind_ok_iff.mp hlower
      obtain ⟨bits, hbits, hcode⟩ := except_bind_ok_iff.mp hlower
      obtain rfl := Except.ok.inj hcode
      have hrun : runMatchOp widenSingle module memory context .testTail2
          [fail, source, expected] =
          (.ok (context.testStep (context.remainingBits = bits)) >>= context.conclude fail) := by
        rw [runMatchOp, operandUsize_of_immediate hbits]
        rfl
      rw [hrun]
      exact (conclude_agrees_iff hfail).trans (agree_test_iff.trans (iff_of_true rfl trivial))
    · cases hlower
  | testUnit =>
    rcases rest with _ | ⟨source, _ | ⟨operand, _ | ⟨extra, more⟩⟩⟩
    · cases hlower
    · cases hlower
    · obtain ⟨register, hregister, hlower⟩ := except_bind_ok_iff.mp hlower
      obtain ⟨unit, hunit, hcode⟩ := except_bind_ok_iff.mp hlower
      obtain rfl := Except.ok.inj hcode
      have hmeets : MatchMeets memory context .testUnit [fail, source, operand] ↔ unit ≠ 0 := by
        simp [MatchMeets, hunit]
      rw [hmeets, runMatchOp, operandUsize_of_immediate hunit, except_ok_bind]
      by_cases hzero : unit = 0
      · rw [if_pos hzero]
        exact iff_of_false (fun h => by cases h) fun h => h hzero
      · rw [if_neg hzero]
        have hagrees : Agree context (.ok (context.testStep (context.remainingBits % unit = 0)))
            (checkedTest context (jitBsTestUnit context unit)) := by
          rw [agree_test_iff]
          simp [jitBsTestUnit, hzero]
        have hrun : ((.ok (context.testStep (context.remainingBits % unit = 0)) :
            Except ExecError MatchStep) >>= context.conclude fail) =
            .ok (runCalls memory register true context [.testUnit unit]) :=
          (conclude_agrees_iff hfail).mpr hagrees
        exact iff_of_true hrun hzero
    · cases hlower
  | bsMatch =>
    rcases rest with _ | ⟨source, rest⟩
    · cases hlower
    · change lowerBsMatch (fail :: source :: rest) = .ok code at hlower
      rw [lowerBsMatch] at hlower
      split at hlower
      next hnested =>
        obtain ⟨commands, hcommands, hlower⟩ := except_bind_ok_iff.mp hlower
        obtain ⟨register, hregister, hcode⟩ := except_bind_ok_iff.mp hlower
        obtain rfl := checkRegister_ok hregister
        obtain rfl := Except.ok.inj hcode
        have hstands : List.Forall₂ (Stands widenSingle module memory) (commandOperands rest)
          commands := stands_of_mapM hcommands
        obtain ⟨words, hwords⟩ := heapNeed_of_stands context hstands
        have hmeets : MatchMeets memory context .bsMatch (fail :: register :: rest) ↔
            CommandsMeet memory register context.positionBits true context commands := by
          simp [MatchMeets, hcommands]
        rw [hmeets, runMatchOp, commandStream, if_pos hnested, hwords, except_ok_bind,
          runCommandSteps_eq hfail hstands]
        exact commands_agree_iff (sized_of_stands hstands) le_rfl
      next => cases hlower

/-- A byte that is not 0, at the start of a binary of one. -/
theorem match_op_agrees_byte :
    runMatchOp (fun _ => doubleOfBits 0) sampleModule (heldMemory [7]) ⟨0, 8, 20⟩ .getInteger2
        [.label 1, .x 0, .unsigned 8, .unsigned 1, .unsigned 0, .x 1] =
      .ok (MatchCode.run ⟨.x 0, [.getInteger 8 0 (.x 1)]⟩ ⟨0, 8, 20⟩ (heldMemory [7])) := by
  have hlower : lowerMatchOp [1] .getInteger2
      [.label 1, .x 0, .unsigned 8, .unsigned 1, .unsigned 0, .x 1] =
        .ok ⟨.x 0, [.getInteger 8 0 (.x 1)]⟩ := rfl
  exact (match_op_agrees_iff (fun _ => doubleOfBits 0) sampleModule hlower ⟨0, 8, 20⟩
    (heldMemory [7])).mpr ⟨⟨.label 1, .x 0, .unsigned 8, .unsigned 1, .unsigned 0, .x 1⟩, 8,
      rfl, rfl, .inr ⟨[7], 7, rfl, by decide, rfl, rfl, by decide⟩⟩

/-- The byte 0 is extracted by the interpreter, and taken for the null word by compiled code. -/
theorem not_match_op_agrees :
    ¬ ∀ (widenSingle : ℕ → Float64) (module : BinaryModule) (labels : List ℕ) (op : MatchOp)
      (operands : List Operand) (code : MatchCode) (context : MatchContext) (memory : Memory),
      lowerMatchOp labels op operands = .ok code →
      runMatchOp widenSingle module memory context op operands =
        .ok (code.run context memory) := by
  intro h
  have hrun : (integerStep ⟨0, 8, 20⟩ (heldMemory [0]) (.unsigned 8) (.unsigned 1) (.unsigned 0)
      (.x 1) >>= MatchContext.conclude ⟨0, 8, 20⟩ (.label 1)) =
      .ok (runCalls (heldMemory [0]) (.x 0) true ⟨0, 8, 20⟩
        [.getInteger 8 (flagsToRaw (.unsigned 0)) (.x 1)]) :=
    h (fun _ => doubleOfBits 0) sampleModule [1] .getInteger2
      [.label 1, .x 0, .unsigned 8, .unsigned 1, .unsigned 0, .x 1] ⟨.x 0, [.getInteger 8 0 (.x 1)]⟩
      ⟨0, 8, 20⟩ (heldMemory [0]) rfl
  have hlabel : operandLabel (.label 1) = .ok 1 := rfl
  have hmeets := (agree_integer_iff (segmentBits_unsigned (by norm_num))).mp
    ((conclude_agrees_iff hlabel).mp hrun)
  have hbytes : MatchContext.slice ⟨0, 8, 20⟩ (heldMemory [0]) 8 = some [0] := rfl
  rcases hmeets with hunfit | ⟨bytes, value, hslice, ⟨byte, hbyte, hnonzero⟩, -⟩
  · cases hunfit
  · obtain rfl := Option.some.inj (hbytes.symm.trans hslice)
    exact hnonzero (List.mem_singleton.mp hbyte)

end Instructions

end Beamr.Jit
