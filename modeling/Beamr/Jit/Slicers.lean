import Beamr.Loader.FunctionSlices

/-!
# The two slicers

The AOT compiler cuts the functions of a parsed module by hand, as the loaded module does for the
JIT. Compiled code is cached by function, so both have to cut the same instructions.
-/
namespace Beamr.Jit

open Loader

/-- `exported_instructions`, with the texts of its errors. -/
def exportedInstructions (parsed : ParsedModule) (exp : ExportEntry) :
    Except String (List Instruction) := do
  let entry ←
    match labelIndex parsed.instructions exp.label with
    | some entry => .ok entry
    | none =>
      .error ("export label " ++ toString exp.label ++ " is absent from module code")
  let funcInfoIp ←
    match parsed.instructions[entry]? with
    | some instruction =>
      if instruction.isFuncInfo then .ok entry
      else
        match funcInfoBefore parsed.instructions entry with
        | some ip => .ok ip
        | none =>
          .error ("export label " ++ toString exp.label ++ " entry has no func_info prelude")
    | none => .error ("entry instruction " ++ toString entry ++ " is outside module code")
  let start := backOverLabel parsed.instructions (backOverLines parsed.instructions funcInfoIp)
  let stop := nextFuncInfo parsed.instructions (funcInfoIp + 1)
  .ok (parsed.instructions.extract start stop)

section

variable {parsed : ParsedModule} {module : Module} {ip funcInfoIp : ℕ}

/-- A label that is an entry stands right behind the `func_info`. -/
theorem exists_funcInfo_of_entry (hloaded : Loaded parsed module) {label : ℕ}
    (hlabel : module.labelIndex label = some ip) (hentry : module.isFunctionEntry ip = true) :
    ∃ funcInfoIp instruction, ip = funcInfoIp + 1 ∧
      funcInfoAt parsed.instructions funcInfoIp = true ∧
      parsed.instructions[ip]? = some instruction ∧ instruction.isFuncInfo = false := by
  obtain ⟨hcode, hlabels, htable⟩ := hloaded.tables
  have hisLabel := labelIndex_isLabel (hlabels ▸ hlabel)
  obtain ⟨instruction, hget, hinstruction⟩ : ∃ instruction,
      parsed.instructions[ip]? = some instruction ∧ instruction.isLabel = true := by
    simpa [Option.any_eq_true] using hisLabel
  have hnot : instruction.isFuncInfo = false := by
    cases instruction with
    | label _ => rfl
    | _ => cases hinstruction
  obtain hat | ⟨funcInfoIp, rfl, hbefore⟩ :=
    Module.funcInfo_of_isFunctionEntry (hcode.symm ▸ htable) hentry
  · rw [hcode, funcInfoAt, hget] at hat
    simp [hnot] at hat
  · exact ⟨funcInfoIp, instruction, rfl, hcode ▸ hbefore, hget, hnot⟩

theorem functionInstructions_eq (hloaded : Loaded parsed module)
    (hentry : module.isFunctionEntry (funcInfoIp + 1) = true)
    (hfuncInfo : funcInfoAt parsed.instructions funcInfoIp = true) {instruction : Instruction}
    (hget : parsed.instructions[funcInfoIp + 1]? = some instruction)
    (hnot : instruction.isFuncInfo = false) :
    module.functionInstructions (funcInfoIp + 1) = some (parsed.instructions.extract
      (backOverLabel parsed.instructions (backOverLines parsed.instructions funcInfoIp))
      (nextFuncInfo parsed.instructions (funcInfoIp + 1))) := by
  obtain ⟨hcode, -, -⟩ := hloaded.tables
  unfold Module.functionInstructions
  rw [if_pos hentry, hcode]
  simp [hget, hnot, funcInfoBefore, hfuncInfo, getRange_functionSlice hfuncInfo]

theorem exportedInstructions_eq {exp : ExportEntry}
    (hlabel : labelIndex parsed.instructions exp.label = some (funcInfoIp + 1))
    (hfuncInfo : funcInfoAt parsed.instructions funcInfoIp = true) {instruction : Instruction}
    (hget : parsed.instructions[funcInfoIp + 1]? = some instruction)
    (hnot : instruction.isFuncInfo = false) :
    exportedInstructions parsed exp = .ok (parsed.instructions.extract
      (backOverLabel parsed.instructions (backOverLines parsed.instructions funcInfoIp))
      (nextFuncInfo parsed.instructions (funcInfoIp + 1))) := by
  unfold exportedInstructions
  simp [hlabel, hget, hnot, funcInfoBefore, hfuncInfo, bind, Except.bind]

end

/-- For a loaded module and an export whose label leads to the entry of a function, the module and
the AOT compiler cut the same instructions: those around the only `func_info` in the slice, in front
of the label, from the label and the lines before it to the `func_info` of the next function. -/
theorem slicers_agree (parsed : ParsedModule) (module : Module) (exp : ExportEntry) (ip : ℕ)
    (hloaded : Loaded parsed module) (hlabel : module.labelIndex exp.label = some ip)
    (hentry : module.isFunctionEntry ip = true) : ∃ start stop,
      module.functionInstructions ip = some (parsed.instructions.extract start stop) ∧
      exportedInstructions parsed exp = .ok (parsed.instructions.extract start stop) ∧
      ∃ funcInfoIp, ip = funcInfoIp + 1 ∧
        FunctionSlice parsed.instructions funcInfoIp start stop := by
  obtain ⟨funcInfoIp, instruction, rfl, hfuncInfo, hget, hnot⟩ :=
    exists_funcInfo_of_entry hloaded hlabel hentry
  obtain ⟨-, hlabels, -⟩ := hloaded.tables
  exact ⟨_, _, functionInstructions_eq hloaded hentry hfuncInfo hget hnot,
    exportedInstructions_eq (hlabels ▸ hlabel) hfuncInfo hget hnot, funcInfoIp, rfl,
    functionSlice hfuncInfo⟩

section Witness

/-- A local function between two exported ones, with a line in front of each `func_info`. -/
def slicedModule : ParsedModule where
  name := 0
  atoms := []
  instructions := [
    .label 1, .line (.unsigned 0), .funcInfo (.atom (some 0)) (.atom (some 1)) (.unsigned 0),
    .label 2, .return_,
    .label 3, .line (.unsigned 0), .funcInfo (.atom (some 0)) (.atom (some 2)) (.unsigned 1),
    .label 4, .label 5, .return_]
  imports := []
  exports := [⟨2, 1, 4⟩]
  lambdas := []
  literals := []
  stringTable := []
  lineInfo := []
  typeChunk := none

def slicedLoaded : Module where
  name := 0
  generation := 1
  origin := .preloaded
  exports := collected [((2, 1), 4)]
  labelIndex := labelIndex slicedModule.instructions
  code := slicedModule.instructions
  functionTable := filterMapFrom functionEntry 0 slicedModule.instructions
  lineTable := filterMapFrom lineEntry 0 slicedModule.instructions
  literals := []
  resolvedImports := []
  lambdas := []
  stringTable := []
  lineInfo := []

theorem slicers_agree_example : Loaded slicedModule slicedLoaded ∧ ∃ start stop,
    slicedLoaded.functionInstructions 8 = some (slicedModule.instructions.extract start stop) ∧
      exportedInstructions slicedModule ⟨2, 1, 4⟩ =
        .ok (slicedModule.instructions.extract start stop) ∧
      ∃ funcInfoIp, 8 = funcInfoIp + 1 ∧
        FunctionSlice slicedModule.instructions funcInfoIp start stop := by
  have hloaded : Loaded slicedModule slicedLoaded :=
    ⟨fun _ => .ok (), [], .preloaded, { slicedLoaded with generation := 0 }, 1, rfl, rfl⟩
  exact ⟨hloaded, slicers_agree slicedModule slicedLoaded ⟨2, 1, 4⟩ 8 hloaded rfl rfl⟩

end Witness

end Beamr.Jit
