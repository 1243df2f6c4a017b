import Beamr.Loader.Imports
import Beamr.Loader.ModuleVersions

/-!
# The instructions of a function

A function stands in the code from its prelude label, before its `func_info`, to the `func_info` of
the next one. Calls enter at the label behind the `func_info`.
-/
namespace Beamr.Loader

/-! ## Entries -/

/-- `binary_search_by_key` in entries that stand in the order of their keys: the index of the entry
with the key, or else the index where it would be inserted. -/
def binarySearchByKey {α : Type} (key : α → ℕ) (target : ℕ) (entries : List α) : Except ℕ ℕ :=
  let index := entries.findIdx fun entry => target ≤ key entry
  if (entries[index]?).map key = some target then .ok index else .error index

def Instruction.isFuncInfo : Instruction → Bool
  | .funcInfo .. => true
  | _ => false

def Instruction.isLine : Instruction → Bool
  | .line _ => true
  | _ => false

def Instruction.isLabel : Instruction → Bool
  | .label _ => true
  | _ => false

/-- The `func_info` itself, or the instruction right behind it. -/
def Module.isFunctionEntry (module : Module) (ip : ℕ) : Bool :=
  if module.code.length ≤ ip then false
  else
    match binarySearchByKey (fun entry => entry.1) ip module.functionTable with
    | .ok _ => true
    | .error 0 => false
    | .error (index + 1) =>
      match module.functionTable[index]? with
      | some (entryIp, _, _) => ip = entryIp + 1
      | none => false

/-! ## Slices -/

section

variable (code : List Instruction)

def funcInfoAt (ip : ℕ) : Bool := (code[ip]?).any (·.isFuncInfo)

/-- `checked_sub(1)`, if there is a `func_info`. -/
def funcInfoBefore : ℕ → Option ℕ
  | 0 => none
  | ip + 1 => if funcInfoAt code ip then some ip else none

/-- Back over the line markers in front of a `func_info`. -/
def backOverLines : ℕ → ℕ
  | 0 => 0
  | start + 1 => if (code[start]?).any (·.isLine) then backOverLines start else start + 1

def backOverLabel : ℕ → ℕ
  | 0 => 0
  | start + 1 => if (code[start]?).any (·.isLabel) then start else start + 1

/-- The next `func_info` from an instruction on, or the end of the code. -/
def nextFuncInfo (ip : ℕ) : ℕ :=
  match (code.drop ip).findIdx? (·.isFuncInfo) with
  | some index => ip + index
  | none => code.length

/-- `get(start..end)` -/
def getRange (start stop : ℕ) : Option (List Instruction) :=
  if start ≤ stop ∧ stop ≤ code.length then some (code.extract start stop) else none

end

def Module.functionInstructions (module : Module) (entryIp : ℕ) : Option (List Instruction) :=
  if module.isFunctionEntry entryIp then do
    let instruction ← module.code[entryIp]?
    let funcInfoIp ←
      if instruction.isFuncInfo then some entryIp else funcInfoBefore module.code entryIp
    let start := backOverLabel module.code (backOverLines module.code funcInfoIp)
    let stop := nextFuncInfo module.code (funcInfoIp + 1)
    getRange module.code start stop
  else none

/-! ## The function table -/

theorem mem_filterMapFrom {α β : Type} {f : ℕ → α → Option β} {b : β} (items : List α) (ip : ℕ) :
    b ∈ filterMapFrom f ip items ↔ ∃ i a, items[i]? = some a ∧ f (ip + i) a = some b := by
  induction items generalizing ip with
  | nil => simp [filterMapFrom]
  | cons item items ih =>
    have hsplit : (∃ i a, (item :: items)[i]? = some a ∧ f (ip + i) a = some b) ↔
        f ip item = some b ∨ ∃ i a, items[i]? = some a ∧ f (ip + 1 + i) a = some b := by
      constructor
      · rintro ⟨i, a, hi, hf⟩
        cases i with
        | zero =>
          cases hi
          exact .inl hf
        | succ i =>
          rw [List.getElem?_cons_succ] at hi
          rw [show ip + (i + 1) = ip + 1 + i by omega] at hf
          exact .inr ⟨i, a, hi, hf⟩
      · rintro (hf | ⟨i, a, hi, hf⟩)
        · exact ⟨0, item, rfl, hf⟩
        · rw [show ip + 1 + i = ip + (i + 1) by omega] at hf
          exact ⟨i + 1, a, hi, hf⟩
    rw [hsplit, filterMapFrom]
    cases hitem : f ip item with
    | none => simp [ih]
    | some value => simp [ih, eq_comm]

theorem functionEntry_eq_some {ip entryIp arity : ℕ} {function : Atom} {instruction : Instruction}
    (h : functionEntry ip instruction = some (entryIp, function, arity)) :
    entryIp = ip ∧ instruction.isFuncInfo = true := by
  cases instruction with
  | funcInfo m f a =>
    simp only [functionEntry] at h
    split at h
    · cases h
      exact ⟨rfl, rfl⟩
    · cases h
  | _ => cases h

/-- The table has `func_info` instructions only. -/
theorem funcInfoAt_of_mem {code : List Instruction} {entry : ℕ × Atom × ℕ}
    (h : entry ∈ filterMapFrom functionEntry 0 code) : funcInfoAt code entry.1 = true := by
  obtain ⟨i, instruction, hi, hentry⟩ := (mem_filterMapFrom code 0).1 h
  obtain ⟨hip, hfuncInfo⟩ := functionEntry_eq_some hentry
  rw [hip, Nat.zero_add, funcInfoAt, hi]
  exact hfuncInfo

theorem filterMapFrom_functionEntry_sorted (code : List Instruction) (ip : ℕ) :
    (filterMapFrom functionEntry ip code).Pairwise (·.1 < ·.1) := by
  induction code generalizing ip with
  | nil => exact .nil
  | cons instruction code ih =>
    rw [filterMapFrom]
    cases hentry : functionEntry ip instruction with
    | none => exact ih (ip + 1)
    | some entry =>
      refine List.pairwise_cons.2 ⟨fun later hlater => ?_, ih (ip + 1)⟩
      obtain ⟨i, a, -, ha⟩ := (mem_filterMapFrom code (ip + 1)).1 hlater
      have hfirst := (functionEntry_eq_some hentry).1
      have hsecond := (functionEntry_eq_some ha).1
      omega

section Search

variable {α : Type} {key : α → ℕ} {target index : ℕ} {entries : List α}

theorem binarySearchByKey_ok (h : binarySearchByKey key target entries = .ok index) :
    ∃ entry ∈ entries, key entry = target := by
  simp only [binarySearchByKey] at h
  split at h
  · next hkey =>
    obtain ⟨entry, hentry, heq⟩ := Option.map_eq_some_iff.1 hkey
    exact ⟨entry, List.mem_of_getElem? hentry, heq⟩
  · cases h

/-- An entry would be inserted behind those with a smaller key and before those with a larger one,
and no entry has the key. -/
theorem binarySearchByKey_error (hsorted : entries.Pairwise (key · < key ·))
    (h : binarySearchByKey key target entries = .error index) : index ≤ entries.length ∧
      ∀ i entry, entries[i]? = some entry →
        (i < index → key entry < target) ∧ (index ≤ i → target < key entry) := by
  simp only [binarySearchByKey] at h
  split at h
  · cases h
  · next hkey =>
    cases h
    refine ⟨List.findIdx_le_length, fun i entry hentry => ⟨fun hlt => ?_, fun hle => ?_⟩⟩
    · obtain ⟨hi, rfl⟩ := List.getElem?_eq_some_iff.1 hentry
      simpa using List.not_of_lt_findIdx hlt
    · obtain ⟨hi, rfl⟩ := List.getElem?_eq_some_iff.1 hentry
      have hlength := hle.trans_lt hi
      have hfound := List.findIdx_getElem (w := hlength)
      rw [decide_eq_true_iff] at hfound
      rw [List.getElem?_eq_getElem hlength, Option.map_some, Option.some.injEq] at hkey
      obtain heq | hlt := Nat.eq_or_lt_of_le hle
      · simp only [heq] at hfound hkey
        omega
      · have := List.pairwise_iff_getElem.1 hsorted _ _ hlength hi hlt
        omega

end Search

/-- The table of the functions has its entries at the `func_info` instructions. -/
theorem Module.isFunctionEntry_iff {module : Module} {ip : ℕ}
    (htable : module.functionTable = filterMapFrom functionEntry 0 module.code) :
    module.isFunctionEntry ip = true ↔ ip < module.code.length ∧
      ∃ entry ∈ module.functionTable, ip = entry.1 ∨ ip = entry.1 + 1 := by
  have hsorted : module.functionTable.Pairwise (·.1 < ·.1) :=
    htable ▸ filterMapFrom_functionEntry_sorted module.code 0
  unfold isFunctionEntry
  by_cases hlt : module.code.length ≤ ip
  · simp [hlt]
  · rw [if_neg hlt]
    have hip : ip < module.code.length := by omega
    cases hsearch : binarySearchByKey (fun entry => entry.1) ip module.functionTable with
    | ok index =>
      obtain ⟨entry, hentry, rfl⟩ := binarySearchByKey_ok hsearch
      exact iff_of_true rfl ⟨hip, entry, hentry, .inl rfl⟩
    | error insertion =>
      obtain ⟨hle, herror⟩ := binarySearchByKey_error hsorted hsearch
      -- The entry in front of the address stands just below the place of insertion.
      have hlast (entry : ℕ × Atom × ℕ) (hmem : entry ∈ module.functionTable)
          (heq : ip = entry.1 ∨ ip = entry.1 + 1) :
          ∃ index last, insertion = index + 1 ∧ module.functionTable[index]? = some last ∧
            ip = last.1 + 1 := by
        obtain ⟨i, hi, rfl⟩ := List.getElem_of_mem hmem
        have hi' := herror i _ (List.getElem?_eq_getElem hi)
        have hbelow : i < insertion := by
          by_contra hge
          have := hi'.2 (Nat.le_of_not_lt hge)
          omega
        have hindex : insertion - 1 < module.functionTable.length := by omega
        have hbefore := (herror (insertion - 1) _ (List.getElem?_eq_getElem hindex)).1 (by omega)
        refine ⟨insertion - 1, _, by omega, List.getElem?_eq_getElem hindex, ?_⟩
        obtain heqi | hlti := Nat.eq_or_lt_of_le (show i ≤ insertion - 1 by omega)
        · simp only [← heqi] at hbefore ⊢
          omega
        · have := List.pairwise_iff_getElem.1 hsorted _ _ hi hindex hlti
          omega
      cases insertion with
      | zero =>
        refine iff_of_false (by simp) ?_
        rintro ⟨-, entry, hmem, heq⟩
        obtain ⟨index, _, hzero, -⟩ := hlast entry hmem heq
        omega
      | succ index =>
        cases hget : module.functionTable[index]? with
        | none =>
          refine iff_of_false (by simp [hget]) ?_
          rintro ⟨-, entry, hmem, heq⟩
          obtain ⟨_, last, hindex, hsome, -⟩ := hlast entry hmem heq
          cases hindex
          rw [hget] at hsome
          cases hsome
        | some last =>
          constructor
          · intro h
            exact ⟨hip, last, List.mem_of_getElem? hget, .inr (by simpa [hget] using h)⟩
          · rintro ⟨-, entry, hmem, heq⟩
            obtain ⟨_, last', hindex, hsome, heq'⟩ := hlast entry hmem heq
            cases hindex
            rw [hget] at hsome
            cases hsome
            simpa [hget] using heq'

theorem Module.funcInfo_of_isFunctionEntry {module : Module} {ip : ℕ}
    (htable : module.functionTable = filterMapFrom functionEntry 0 module.code)
    (h : module.isFunctionEntry ip = true) :
    funcInfoAt module.code ip = true ∨
      ∃ entryIp, ip = entryIp + 1 ∧ funcInfoAt module.code entryIp = true := by
  obtain ⟨-, entry, hentry, heq⟩ := (isFunctionEntry_iff htable).1 h
  have hfuncInfo := funcInfoAt_of_mem (htable ▸ hentry)
  obtain rfl | rfl := heq
  · exact .inl hfuncInfo
  · exact .inr ⟨entry.1, rfl, hfuncInfo⟩

/-! ## The shape of a slice -/

section

variable {code : List Instruction} {ip : ℕ}

theorem funcInfoAt_lt (h : funcInfoAt code ip = true) : ip < code.length := by
  by_contra hge
  simp [funcInfoAt, List.getElem?_eq_none (Nat.le_of_not_lt hge)] at h

theorem backOverLines_le : backOverLines code ip ≤ ip := by
  induction ip with
  | zero => exact Nat.le_refl 0
  | succ ip ih =>
    rw [backOverLines]
    split
    · exact Nat.le_succ_of_le ih
    · exact Nat.le_refl _

theorem backOverLines_isLine {i : ℕ} (hi : backOverLines code ip ≤ i) (hip : i < ip) :
    (code[i]?).any (·.isLine) = true := by
  induction ip with
  | zero => omega
  | succ ip ih =>
    rw [backOverLines] at hi
    split at hi
    · next hline =>
      obtain hlt | rfl := Nat.lt_succ_iff_lt_or_eq.1 hip
      · exact ih hi hlt
      · exact hline
    · omega

theorem backOverLabel_le : backOverLabel code ip ≤ ip := by
  cases ip with
  | zero => exact Nat.le_refl 0
  | succ ip =>
    rw [backOverLabel]
    split
    · exact Nat.le_succ ip
    · exact Nat.le_refl _

theorem backOverLabel_isLabel {i : ℕ} (hi : backOverLabel code ip ≤ i) (hip : i < ip) :
    (code[i]?).any (·.isLabel) = true := by
  cases ip with
  | zero => omega
  | succ ip =>
    rw [backOverLabel] at hi
    split at hi
    · next hlabel =>
      have : i = ip := by omega
      exact this ▸ hlabel
    · omega

theorem nextFuncInfo_bounds (h : ip ≤ code.length) :
    ip ≤ nextFuncInfo code ip ∧ nextFuncInfo code ip ≤ code.length := by
  unfold nextFuncInfo
  split
  · next index hindex =>
    obtain ⟨hlt, -⟩ := List.findIdx?_eq_some_iff_getElem.1 hindex
    rw [List.length_drop] at hlt
    omega
  · exact ⟨h, le_rfl⟩

theorem nextFuncInfo_none {i : ℕ} (hi : ip ≤ i) (hnext : i < nextFuncInfo code ip) :
    funcInfoAt code i = false := by
  have hdrop : code[i]? = (code.drop ip)[i - ip]? := by
    rw [List.getElem?_drop, show ip + (i - ip) = i by omega]
  unfold nextFuncInfo at hnext
  rw [funcInfoAt, hdrop]
  split at hnext
  · next index hindex =>
    obtain ⟨hlt, -, hbefore⟩ := List.findIdx?_eq_some_iff_getElem.1 hindex
    rw [List.getElem?_eq_getElem (show i - ip < (code.drop ip).length by omega)]
    simpa using hbefore (i - ip) (by omega)
  · next hnone =>
    cases hget : (code.drop ip)[i - ip]? with
    | none => rfl
    | some instruction =>
      simpa using List.findIdx?_eq_none_iff.1 hnone instruction (List.mem_of_getElem? hget)

/-- A slice of the code with one `func_info`, behind at most a label and lines. -/
structure FunctionSlice (code : List Instruction) (funcInfoIp start stop : ℕ) : Prop where
  start_le : start ≤ funcInfoIp
  lt_stop : funcInfoIp < stop
  stop_le : stop ≤ code.length
  before : ∀ i, start ≤ i → i < funcInfoIp →
    (code[i]?).any (·.isLabel) = true ∨ (code[i]?).any (·.isLine) = true
  funcInfo : funcInfoAt code funcInfoIp = true
  rest : ∀ i, funcInfoIp < i → i < stop → funcInfoAt code i = false

theorem functionSlice (h : funcInfoAt code ip = true) :
    FunctionSlice code ip (backOverLabel code (backOverLines code ip))
      (nextFuncInfo code (ip + 1)) := by
  have hbounds := nextFuncInfo_bounds (Nat.succ_le_of_lt (funcInfoAt_lt h))
  refine ⟨backOverLabel_le.trans backOverLines_le, hbounds.1, hbounds.2, fun i hstart hi => ?_, h,
    fun i hip hi => nextFuncInfo_none hip hi⟩
  by_cases hlines : backOverLines code ip ≤ i
  · exact .inr (backOverLines_isLine hlines hi)
  · exact .inl (backOverLabel_isLabel hstart (by omega))

theorem getRange_functionSlice (h : funcInfoAt code ip = true) :
    getRange code (backOverLabel code (backOverLines code ip)) (nextFuncInfo code (ip + 1)) =
      some (code.extract (backOverLabel code (backOverLines code ip))
        (nextFuncInfo code (ip + 1))) := by
  have hslice := functionSlice h
  exact if_pos ⟨(hslice.start_le.trans_lt hslice.lt_stop).le, hslice.stop_le⟩

end

/-! ## Loaded modules -/

/-- The module is one that the loader made of the parsed module, with the generation that the
registry gave it. -/
def Loaded (parsed : ParsedModule) (module : Module) : Prop :=
  ∃ materialise resolvedImports origin prepared generation,
    moduleFromParsed materialise parsed resolvedImports origin = .ok prepared ∧
      module = { prepared with generation }

section

variable {parsed : ParsedModule} {module : Module}

theorem Loaded.tables (h : Loaded parsed module) : module.code = parsed.instructions ∧
    module.labelIndex = labelIndex parsed.instructions ∧
    module.functionTable = filterMapFrom functionEntry 0 parsed.instructions := by
  obtain ⟨materialise, resolvedImports, origin, prepared, generation, hparsed, rfl⟩ := h
  unfold moduleFromParsed at hparsed
  cases hpool : materialise parsed.literals with
  | error e => simp [hpool, bind, Except.bind] at hparsed
  | ok _ =>
    simp only [hpool, bind, Except.bind] at hparsed
    cases hparsed
    exact ⟨rfl, rfl, rfl⟩

/-- A label of the code leads to a label. -/
theorem labelIndex_isLabel {code : List Instruction} {label ip : ℕ}
    (h : labelIndex code label = some ip) : (code[ip]?).any (·.isLabel) = true := by
  obtain ⟨⟨found, _⟩, hfind, rfl⟩ := Option.map_eq_some_iff.1 h
  have hmem := List.mem_reverse.1 (List.mem_of_find?_eq_some hfind)
  obtain ⟨i, instruction, hi, hentry⟩ := (mem_filterMapFrom code 0).1 hmem
  cases instruction with
  | label label =>
    cases hentry
    simp [hi, Instruction.isLabel]
  | _ => cases hentry

end

end Beamr.Loader
