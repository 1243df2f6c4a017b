import Beamr.Loader.RoundTrip

/-!
# Which loaded modules encode

The encoder can fail on atoms it does not know, on lengths wider than their field, on
malformed big integers, on instructions of the wrong shape and on typed registers of a module
without a `Type` chunk. What the loader checks rules out all of these but two: it takes typed
registers whether or not there is a `Type` chunk, and it does not bound the literals that wide
integers of the code add to the literal table.
-/
namespace Beamr.Loader

open ByteOrder Decoder

/-- The computation returns a value. -/
def Succeeds {ε α : Type} (r : Except ε α) : Prop := ∃ a, r = .ok a

section Succeeds

variable {ε α β : Type}

theorem Succeeds.ok (a : α) : Succeeds (.ok a : Except ε α) := ⟨a, rfl⟩

theorem not_succeeds_error (e : ε) : ¬ Succeeds (.error e : Except ε α) := by
  rintro ⟨a, h⟩
  cases h

theorem succeeds_bind_iff {r : Except ε α} {f : α → Except ε β} :
    Succeeds (r >>= f) ↔ ∃ a, r = .ok a ∧ Succeeds (f a) := by
  constructor
  · rintro ⟨b, h⟩
    obtain ⟨a, ha, hb⟩ := except_bind_ok_iff.mp h
    exact ⟨a, ha, b, hb⟩
  · rintro ⟨a, ha, b, hb⟩
    exact ⟨b, except_bind_ok_iff.mpr ⟨a, ha, hb⟩⟩

/-- A step after which nothing fails. -/
theorem succeeds_bind_ok {r : Except ε α} {f : α → β} :
    Succeeds (r >>= fun a => .ok (f a)) ↔ Succeeds r := by
  rw [succeeds_bind_iff]
  constructor
  · rintro ⟨a, ha, -⟩
    exact ⟨a, ha⟩
  · rintro ⟨a, ha⟩
    exact ⟨a, ha, .ok _⟩

/-- Two steps after which nothing fails. -/
theorem succeeds_bind_bind_ok {γ : Type} {r : Except ε α} {q : Except ε β} {f : α → β → γ} :
    Succeeds (r >>= fun a => q >>= fun b => .ok (f a b)) ↔ Succeeds r ∧ Succeeds q := by
  rw [succeeds_bind_iff]
  constructor
  · rintro ⟨a, ha, hq⟩
    exact ⟨⟨a, ha⟩, succeeds_bind_ok.mp hq⟩
  · rintro ⟨⟨a, ha⟩, hq⟩
    exact ⟨a, ha, succeeds_bind_ok.mpr hq⟩

end Succeeds

/-! ## Code -/

mutual

/-- A typed register occurs in the operand. -/
def Operand.typed : Operand → Bool
  | .list operands => typedAny operands
  | .typedRegister _ _ => true
  | _ => false

def typedAny : List Operand → Bool
  | [] => false
  | operand :: operands => operand.typed || typedAny operands

end

/-- A typed register occurs in the instruction. -/
def Instruction.typed (i : Instruction) : Bool :=
  match instructionOperands i with
  | .ok operands => typedAny operands
  | .error _ => false

section Code

variable {atoms : List Atom} {n : ℕ} {e : AtomEncoder}

theorem typedAny_eq_false {operands : List Operand} :
    typedAny operands = false ↔ ∀ o ∈ operands, o.typed = false := by
  induction operands with
  | nil => simp [typedAny]
  | cons o os ih => simp [typedAny, ih]

theorem indexOf_succeeds (he : e.atoms = atoms) {atom : Atom} (h : atom ∈ atoms) :
    Succeeds (e.indexOf atom) := by
  unfold AtomEncoder.indexOf
  cases hi : e.atoms.idxOf? atom with
  | some position => exact .ok _
  | none =>
    rw [he] at hi
    exact absurd h (List.idxOf?_eq_none_iff.mp hi)

theorem encodeOperands_succeeds_iff {operands : List Operand} :
    Succeeds (encodeOperands e operands) ↔ ∀ o ∈ operands, Succeeds (encodeOperand e o) := by
  induction operands with
  | nil =>
    rw [encodeOperands]
    simpa using Succeeds.ok _
  | cons o os ih =>
    rw [encodeOperands, succeeds_bind_bind_ok, ih]
    simp

/-- The one operand a decoded stream may hold and the encoder refuses. -/
theorem encodeOperand_succeeds_iff (he : e.atoms = atoms) {o : Operand} (ho : o.Decoded atoms n) :
    Succeeds (encodeOperand e o) ↔ e.typeChunkPresent = true ∨ o.typed = false := by
  induction ho with
  | someAtom ha =>
    rw [encodeOperand, succeeds_bind_ok]
    simpa [Operand.typed] using indexOf_succeeds he ha
  | list _ _ ih =>
    rw [encodeOperand, succeeds_bind_ok, encodeOperands_succeeds_iff, Operand.typed,
      typedAny_eq_false]
    cases hp : e.typeChunkPresent with
    | true =>
      simp only [hp, true_or, iff_true] at ih ⊢
      exact ih
    | false =>
      simp only [hp, Bool.false_eq_true, false_or] at ih ⊢
      exact forall₂_congr ih
  | typedRegister _ _ ih =>
    rw [encodeOperand, Operand.typed]
    cases hp : e.typeChunkPresent with
    | true =>
      simp only [hp, true_or, iff_true, if_true] at ih ⊢
      exact succeeds_bind_ok.mpr ih
    | false => simpa using not_succeeds_error _
  | _ =>
    rw [encodeOperand]
    simpa [Operand.typed] using Succeeds.ok _

theorem operandList_succeeds_iff (he : e.atoms = atoms) {operands : List Operand}
    (hd : ∀ o ∈ operands, o.Decoded atoms n) :
    Succeeds (encodeOperands e operands) ↔
      e.typeChunkPresent = true ∨ typedAny operands = false := by
  rw [encodeOperands_succeeds_iff, typedAny_eq_false]
  cases hp : e.typeChunkPresent with
  | true =>
    simp only [true_or, iff_true]
    exact fun o ho => (encodeOperand_succeeds_iff he (hd o ho)).mpr (.inl hp)
  | false =>
    simp only [Bool.false_eq_true, false_or]
    refine forall₂_congr fun o ho => ?_
    rw [encodeOperand_succeeds_iff he (hd o ho), hp]
    simp

theorem encodeInstruction_succeeds_iff (he : e.atoms = atoms) {i : Instruction}
    (hd : i.Decoded atoms n) :
    Succeeds (encodeInstruction e i) ↔ e.typeChunkPresent = true ∨ i.typed = false := by
  obtain ⟨opcode, operands, -, -, hopcode, hoperands, -, -, hall⟩ := hd.operands
  rw [encodeInstruction, hopcode, except_ok_bind, hoperands, except_ok_bind, succeeds_bind_ok,
    operandList_succeeds_iff he hall, Instruction.typed, hoperands]

theorem mapError_succeeds_iff {α : Type} {f : EncodeError → EncodeError}
    {r : Except EncodeError α} : Succeeds (mapError f r) ↔ Succeeds r := by
  cases r with
  | ok a => exact ⟨fun _ => .ok a, fun _ => .ok a⟩
  | error e =>
    exact ⟨fun h => absurd h (not_succeeds_error _), fun h => absurd h (not_succeeds_error _)⟩

theorem encodeInstructions_succeeds_iff (he : e.atoms = atoms) {is : List Instruction} :
    ∀ {index : ℕ}, (∀ i ∈ is, i.Decoded atoms n) →
      (Succeeds (encodeInstructions e index is) ↔
        e.typeChunkPresent = true ∨ is.any Instruction.typed = false) := by
  induction is with
  | nil =>
    intro index _
    simpa [encodeInstructions] using Succeeds.ok _
  | cons i is ih =>
    intro index hd
    have hi := hd i (by simp)
    obtain ⟨opcode, operands, -, -, hopcode, -⟩ := hi.operands
    rw [encodeInstructions, hopcode, except_ok_bind, succeeds_bind_bind_ok, mapError_succeeds_iff,
      encodeInstruction_succeeds_iff he hi, ih fun j hj => hd j (by simp [hj]), List.any_cons,
      Bool.or_eq_false_iff]
    tauto

theorem encodeCodeChunk_succeeds_iff (he : e.atoms = atoms) {is : List Instruction}
    (hd : ∀ i ∈ is, i.Decoded atoms n) :
    Succeeds (encodeCodeChunk e is) ↔
      e.typeChunkPresent = true ∨ is.any Instruction.typed = false := by
  rw [encodeCodeChunk, succeeds_bind_ok, encodeInstructions_succeeds_iff he hd]

end Code

/-! ## Index tables -/

section Tables

variable {atoms : List Atom} {table : AtomTable} {e : AtomEncoder}

theorem u32Len_succeeds_iff {value : ℕ} : Succeeds (u32Len value) ↔ value < 2 ^ 32 := by
  constructor
  · rintro ⟨n, h⟩
    obtain ⟨rfl, hlt⟩ := u32Len_ok h
    exact hlt
  · intro h
    rw [u32Len, if_pos h]
    exact .ok _

theorem u16Len_succeeds {value : ℕ} (h : value < 2 ^ 16) : Succeeds (u16Len value) := by
  rw [u16Len, if_pos h]
  exact .ok _

theorem resolve_succeeds (he : e.atomTable = table) {atom : Atom} {name : List UInt8}
    (h : table.resolve atom = some name) : e.resolve atom = .ok name := by
  rw [AtomEncoder.resolve, he, h]

theorem mapM_resolve_succeeds (he : e.atomTable = table) {as : List Atom}
    (h : ∀ a ∈ as, AtomDecoded table a) :
    ∃ names, as.mapM e.resolve = .ok names ∧ names.length = as.length := by
  induction as with
  | nil => exact ⟨[], rfl, rfl⟩
  | cons a as ih =>
    obtain ⟨name, hname, -⟩ := h a (by simp)
    obtain ⟨names, hnames, hlen⟩ := ih fun b hb => h b (by simp [hb])
    refine ⟨name :: names, ?_, by simp [hlen]⟩
    rw [List.mapM_cons, resolve_succeeds he hname, except_ok_bind, hnames]
    rfl

theorem encodeAtomChunk_succeeds (he : e.atomTable = table) {as : List Atom}
    (h : ∀ a ∈ as, AtomDecoded table a) (hmax : as.length ≤ maxTableEntries) :
    Succeeds (encodeAtomChunk e as) := by
  obtain ⟨names, hnames, hlen⟩ := mapM_resolve_succeeds he h
  rw [maxTableEntries] at hmax
  rw [encodeAtomChunk, hnames, except_ok_bind, if_pos (by omega)]
  exact .ok _

theorem encodeEntries_succeeds {α : Type} {f : ℕ → α → Except EncodeError (List UInt8)}
    {as : List α} {bound : ℕ} (h : ∀ a ∈ as, ∀ i < bound, Succeeds (f i a)) :
    ∀ {index : ℕ}, index + as.length ≤ bound → Succeeds (encodeEntries f index as) := by
  induction as with
  | nil => exact fun _ => .ok _
  | cons a as ih =>
    intro index hbound
    rw [List.length_cons] at hbound
    rw [encodeEntries, succeeds_bind_bind_ok]
    exact ⟨h a (by simp) index (by omega), ih (fun b hb => h b (by simp [hb])) (by omega)⟩

/-- A table within the loader's limit encodes when its entries do. -/
theorem encodeTable_succeeds {α : Type} {f : ℕ → α → Except EncodeError (List UInt8)}
    {as : List α} (hmax : as.length ≤ maxTableEntries)
    (h : ∀ a ∈ as, ∀ i < maxTableEntries, Succeeds (f i a)) : Succeeds (encodeTable f as) := by
  have hlen : as.length < 2 ^ 32 := by
    rw [maxTableEntries] at hmax
    omega
  rw [encodeTable, succeeds_bind_bind_ok]
  exact ⟨u32Len_succeeds_iff.mpr hlen, encodeEntries_succeeds h (by omega)⟩

theorem encodeImportEntry_succeeds (he : e.atoms = atoms) {entry : ImportEntry}
    (hd : entry.Decoded atoms) (i : ℕ) : Succeeds (encodeImportEntry e i entry) := by
  obtain ⟨hm, hf, -⟩ := hd
  rw [encodeImportEntry, succeeds_bind_bind_ok]
  exact ⟨indexOf_succeeds he hm, indexOf_succeeds he hf⟩

theorem encodeExportEntry_succeeds (he : e.atoms = atoms) {entry : ExportEntry}
    (hd : entry.Decoded atoms) (i : ℕ) : Succeeds (encodeExportEntry e i entry) := by
  rw [encodeExportEntry, succeeds_bind_ok]
  exact indexOf_succeeds he hd.1

theorem encodeLambdaEntry_succeeds (he : e.atoms = atoms) {entry : LambdaEntry}
    (hd : entry.Decoded atoms) {i : ℕ} (hi : i < maxTableEntries) :
    Succeeds (encodeLambdaEntry e i entry) := by
  rw [maxTableEntries] at hi
  rw [encodeLambdaEntry, succeeds_bind_bind_ok]
  exact ⟨indexOf_succeeds he hd.1, u32Len_succeeds_iff.mpr (by omega)⟩

theorem encodeLineChunk_succeeds {infos : List LineInfo} (hmax : infos.length ≤ maxTableEntries) :
    Succeeds (encodeLineChunk infos) := by
  rw [maxTableEntries] at hmax
  rw [encodeLineChunk, succeeds_bind_ok, u32Len_succeeds_iff]
  omega

theorem encodeOptional_succeeds {α : Type} {encode : List α → Except EncodeError (List UInt8)}
    {entries : List α} (h : Succeeds (encode entries)) : Succeeds (encodeOptional encode entries) := by
  unfold encodeOptional
  split_ifs
  · exact .ok _
  · exact succeeds_bind_ok.mpr h

end Tables

/-! ## Literals -/

section Literals

variable {table : AtomTable} {e : AtomEncoder}

theorem encodedSize_le_sizeList (table : AtomTable) {l : Literal} : ∀ {ls : List Literal}, l ∈ ls →
    l.encodedSize table ≤ sizeList table ls
  | k :: ls, h => by
    rw [sizeList]
    rcases List.mem_cons.mp h with rfl | h
    · omega
    · have := encodedSize_le_sizeList table h
      omega

theorem encodedSize_le_sizePairs (table : AtomTable) {p : Literal × Literal} :
    ∀ {ps : List (Literal × Literal)}, p ∈ ps →
      p.1.encodedSize table + p.2.encodedSize table ≤ sizePairs table ps
  | (k, v) :: ps, h => by
    rw [sizePairs]
    rcases List.mem_cons.mp h with rfl | h
    · exact Nat.le_add_right _ _
    · have := encodedSize_le_sizePairs table h
      omega

theorem encodeAtomName_succeeds {name : List UInt8} (h : name.length < 2 ^ 16) :
    Succeeds (encodeAtomName name) := by
  unfold encodeAtomName
  split_ifs
  · exact .ok _
  · exact succeeds_bind_ok.mpr (u16Len_succeeds h)

theorem encodeAtom_succeeds (he : e.atomTable = table) {atom : Atom} {name : List UInt8}
    (hr : table.resolve atom = some name) (hlen : name.length < 2 ^ 16) :
    Succeeds (e.resolve atom >>= encodeAtomName) := by
  rw [resolve_succeeds he hr, except_ok_bind]
  exact encodeAtomName_succeeds hlen

theorem tupleHeader_succeeds {arity : ℕ} (h : arity < 2 ^ 32) : Succeeds (tupleHeader arity) := by
  unfold tupleHeader
  split_ifs
  · exact .ok _
  · exact succeeds_bind_ok.mpr (u32Len_succeeds_iff.mpr h)

theorem encodeBigInteger_succeeds {sign : UInt8} {magnitude : List UInt8} (hs : sign ≤ 1)
    (h : magnitude.length < 2 ^ 32) : Succeeds (encodeBigInteger (sign :: magnitude)) := by
  rw [encodeBigInteger, if_neg (UInt8.not_lt.mpr hs)]
  split_ifs
  · exact .ok _
  · exact succeeds_bind_ok.mpr (u32Len_succeeds_iff.mpr h)

theorem encodeLiterals_succeeds {ls : List Literal} (h : ∀ l ∈ ls, Succeeds (encodeLiteral e l)) :
    Succeeds (encodeLiterals e ls) := by
  induction ls with
  | nil =>
    rw [encodeLiterals]
    exact .ok _
  | cons l ls ih =>
    rw [encodeLiterals, succeeds_bind_bind_ok]
    exact ⟨h l (by simp), ih fun k hk => h k (by simp [hk])⟩

theorem encodePairs_succeeds {ps : List (Literal × Literal)}
    (hk : ∀ p ∈ ps, Succeeds (encodeLiteral e p.1)) (hv : ∀ p ∈ ps, Succeeds (encodeLiteral e p.2)) :
    Succeeds (encodePairs e ps) := by
  induction ps with
  | nil =>
    rw [encodePairs]
    exact .ok _
  | cons p ps ih =>
    obtain ⟨k, hfirst⟩ := hk p (by simp)
    rw [encodePairs, hfirst, except_ok_bind, succeeds_bind_bind_ok]
    exact ⟨hv p (by simp), ih (fun q hq => hk q (by simp [hq])) fun q hq => hv q (by simp [hq])⟩

/-- A decoded literal that fits its size prefix encodes. -/
theorem encodeLiteral_succeeds (he : e.atomTable = table) {depth : ℕ} {l : Literal}
    (hl : l.Decoded table depth) : l.encodedSize table < 2 ^ 32 → Succeeds (encodeLiteral e l) := by
  induction hl with
  | @bigInteger _ sign magnitude hs _ =>
    intro hsize
    rw [Literal.encodedSize, List.length_cons] at hsize
    rw [encodeLiteral]
    exact encodeBigInteger_succeeds hs (by split_ifs at hsize <;> omega)
  | atom hr hlen =>
    intro _
    rw [encodeLiteral]
    exact encodeAtom_succeeds he hr hlen
  | binary =>
    intro hsize
    rw [Literal.encodedSize] at hsize
    rw [encodeLiteral, succeeds_bind_ok, u32Len_succeeds_iff]
    omega
  | tuple hmax _ ih =>
    intro hsize
    rw [Literal.encodedSize] at hsize
    rw [maxTableEntries] at hmax
    rw [encodeLiteral, succeeds_bind_bind_ok]
    refine ⟨tupleHeader_succeeds (by omega), encodeLiterals_succeeds fun l hl => ih l hl ?_⟩
    have := encodedSize_le_sizeList table hl
    omega
  | @list _ elements tail hmax _ _ ih iht =>
    intro hsize
    rw [Literal.encodedSize] at hsize
    rw [maxTableEntries] at hmax
    obtain ⟨n, hn⟩ := u32Len_succeeds_iff.mpr (show elements.length < 2 ^ 32 by omega)
    rw [encodeLiteral, hn, except_ok_bind, succeeds_bind_bind_ok]
    refine ⟨encodeLiterals_succeeds fun l hl => ih l hl ?_, iht (by omega)⟩
    have := encodedSize_le_sizeList table hl
    omega
  | @map _ pairs hmax _ _ ihk ihv =>
    intro hsize
    rw [Literal.encodedSize] at hsize
    rw [maxTableEntries] at hmax
    rw [encodeLiteral, succeeds_bind_bind_ok]
    have hle : ∀ p ∈ pairs, p.1.encodedSize table + p.2.encodedSize table < 2 ^ 32 := by
      intro p hp
      have := encodedSize_le_sizePairs table hp
      omega
    refine ⟨u32Len_succeeds_iff.mpr (by omega), encodePairs_succeeds ?_ ?_⟩
    · exact fun p hp => ihk p hp (by have := hle p hp; omega)
    · exact fun p hp => ihv p hp (by have := hle p hp; omega)
  | string hlen =>
    intro _
    rw [encodeLiteral, succeeds_bind_ok]
    exact u16Len_succeeds hlen
  | exportFun hm hf hml hfl _ =>
    intro _
    obtain ⟨mb, hmb⟩ := encodeAtomName_succeeds hml
    rw [encodeLiteral, resolve_succeeds he hm, except_ok_bind, hmb, except_ok_bind,
      resolve_succeeds he hf, except_ok_bind, succeeds_bind_ok]
    exact encodeAtomName_succeeds hfl
  | _ =>
    intro _
    rw [encodeLiteral]
    exact .ok _

theorem encodeLiteralEntry_succeeds (he : e.atomTable = table) {depth : ℕ} {l : Literal}
    (hl : l.Decoded table depth) (hsize : l.encodedSize table + 1 < 2 ^ 32) :
    Succeeds (encodeLiteralEntry e l) := by
  obtain ⟨term, hterm⟩ := encodeLiteral_succeeds he hl (by omega)
  have hlen := encodeLiteral_length hterm
  rw [encodeLiteralEntry, hterm, except_ok_bind, succeeds_bind_ok, u32Len_succeeds_iff, hlen, he]
  exact hsize

theorem encodeLiteralEntries_succeeds (he : e.atomTable = table) {depth : ℕ} {ls : List Literal}
    (hd : ∀ l ∈ ls, l.Decoded table depth) (hsize : ∀ l ∈ ls, l.encodedSize table + 1 < 2 ^ 32) :
    Succeeds (encodeLiteralEntries e ls) := by
  induction ls with
  | nil => exact .ok _
  | cons l ls ih =>
    rw [encodeLiteralEntries, succeeds_bind_bind_ok]
    exact ⟨encodeLiteralEntry_succeeds he (hd l (by simp)) (hsize l (by simp)),
      ih (fun k hk => hd k (by simp [hk])) fun k hk => hsize k (by simp [hk])⟩

/-- The literal table encodes exactly when its payload fits the 32-bit size field. -/
theorem encodeLiteralChunk_succeeds_iff (he : e.atomTable = table) {depth : ℕ} {ls : List Literal}
    (hd : ∀ l ∈ ls, l.Decoded table depth) :
    Succeeds (encodeLiteralChunk e ls) ↔ payloadSize table ls < 2 ^ 32 := by
  unfold encodeLiteralChunk
  by_cases hempty : ls.isEmpty
  · obtain rfl := List.isEmpty_iff.mp hempty
    rw [if_pos hempty]
    simpa [payloadSize, sizeList] using Succeeds.ok _
  rw [if_neg hempty]
  constructor
  · intro h
    obtain ⟨n, hn, h⟩ := succeeds_bind_iff.mp h
    obtain ⟨entries, hentries, h⟩ := succeeds_bind_iff.mp h
    have hlen := encodeLiteralEntries_length hentries
    have hfit := u32Len_succeeds_iff.mp (succeeds_bind_ok.mp h)
    rw [List.length_append, u32Bytes_length, hlen, he] at hfit
    rw [payloadSize]
    omega
  · intro hfit
    rw [payloadSize] at hfit
    have hsize : ∀ l ∈ ls, l.encodedSize table + 1 < 2 ^ 32 := by
      intro l hl
      have := encodedSize_le_sizeList table hl
      omega
    obtain ⟨entries, hentries⟩ := encodeLiteralEntries_succeeds he hd hsize
    have hlen := encodeLiteralEntries_length hentries
    rw [he] at hlen
    obtain ⟨n, hn⟩ := u32Len_succeeds_iff.mpr (show ls.length < 2 ^ 32 by omega)
    rw [hn, except_ok_bind, hentries, except_ok_bind, succeeds_bind_ok, u32Len_succeeds_iff,
      List.length_append, u32Bytes_length, hlen]
    omega

end Literals

/-! ## Modules -/

section Modules

variable {m : ParsedModule} {table table' : AtomTable} {inflate : Inflate} {bytes : List UInt8}

/-- A typed register occurs in the code of the module. -/
def ParsedModule.usesTypes (m : ParsedModule) : Bool := m.instructions.any Instruction.typed

theorem moduleChunks_succeeds_iff (hm : m.Decoded table) :
    Succeeds (moduleChunks m table) ↔
      (m.typeChunk.isSome = true ∨ m.usesTypes = false) ∧ payloadSize table m.literals < 2 ^ 32 := by
  obtain ⟨a, ha⟩ := encodeAtomChunk_succeeds (e := m.encoder table) rfl hm.atoms hm.atomCount
  obtain ⟨i, hi⟩ := encodeTable_succeeds hm.importCount fun entry hentry k _ =>
    encodeImportEntry_succeeds (e := m.encoder table) rfl (hm.imports entry hentry) k
  obtain ⟨x, hx⟩ := encodeTable_succeeds hm.exportCount fun entry hentry k _ =>
    encodeExportEntry_succeeds (e := m.encoder table) rfl (hm.exports entry hentry) k
  have hlambda : Succeeds (encodeLambdaChunk (m.encoder table) m.lambdas) :=
    encodeTable_succeeds hm.lambdaCount fun entry hentry k hk =>
      encodeLambdaEntry_succeeds rfl (hm.lambdas entry hentry) hk
  obtain ⟨f, hf⟩ := encodeOptional_succeeds hlambda
  obtain ⟨n, hn⟩ := encodeOptional_succeeds (encodeLineChunk_succeeds hm.lineCount)
  have hcode : Succeeds (encodeCodeChunk (m.encoder table) m.instructions) ↔
      m.typeChunk.isSome = true ∨ m.usesTypes = false :=
    encodeCodeChunk_succeeds_iff rfl hm.instructions
  have hlits : Succeeds (encodeLiteralChunk (m.encoder table) m.literals) ↔
      payloadSize table m.literals < 2 ^ 32 := encodeLiteralChunk_succeeds_iff rfl hm.literals
  rw [← hcode, ← hlits]
  constructor
  · rintro ⟨chunks, h⟩
    obtain ⟨_, c, _, _, _, l, _, -, -, hc, -, -, -, hl, -⟩ := moduleChunks_ok h
    exact ⟨⟨c, hc⟩, ⟨l, hl⟩⟩
  · rintro ⟨⟨c, hc⟩, ⟨l, hl⟩⟩
    refine ⟨chunkList a c i x f l m.stringTable n m.typeChunk, ?_⟩
    exact except_bind_ok_iff.mpr ⟨a, ha, except_bind_ok_iff.mpr ⟨c, hc,
      except_bind_ok_iff.mpr ⟨i, hi, except_bind_ok_iff.mpr ⟨x, hx,
      except_bind_ok_iff.mpr ⟨f, hf, except_bind_ok_iff.mpr ⟨l, hl,
      except_bind_ok_iff.mpr ⟨n, hn, rfl⟩⟩⟩⟩⟩⟩⟩

/-- A loaded module encodes exactly when it has a `Type` chunk or no typed registers, and its
literal table, with the literals its code added, stays below `2^32` bytes. -/
theorem encodeModule_of_load_iff (hload : loadBeamChunks inflate bytes table = .ok (m, table')) :
    (∃ bytes', encodeModule m table' = .ok bytes') ↔
      (m.typeChunk.isSome = true ∨ m.usesTypes = false) ∧
        payloadSize table' m.literals < 2 ^ 32 := by
  have hchunks := moduleChunks_succeeds_iff (loadBeamChunks_decoded hload)
  exact succeeds_bind_ok.trans hchunks

end Modules

/-! ## A typed move

`move {tr, x0, 0}, x0`, in a module with the given `Type` chunk or without one. -/

section Typed

def typedCode : List UInt8 :=
  u32Bytes 16 ++ u32Bytes 0 ++ u32Bytes 64 ++ u32Bytes 0 ++ u32Bytes 0 ++
    64 :: (pushUnsigned 7 5 ++ pushUnsigned 3 0 ++ pushUnsigned 0 0 ++ pushUnsigned 3 0)

def typedModule (typeChunk : Option (List UInt8)) : ParsedModule :=
  codeModule [.move (.typedRegister (.x 0) 0) (.x 0)] [] typeChunk

theorem loadBeamChunks_typed (inflate : Inflate) (typeChunk : Option (List UInt8))
    (hsize : (frameBody (codeChunks typedCode typeChunk)).length < 2 ^ 32) :
    loadBeamChunks inflate (frameContainer (codeChunks typedCode typeChunk)) .withCommonAtoms =
      .ok (typedModule typeChunk, .withCommonAtoms) := loadBeamChunks_code inflate typeChunk rfl hsize

/-- The typed move with a `Type` chunk of one word. -/
theorem encodeModule_of_load_typed :
    loadBeamChunks noInflate (frameContainer (codeChunks typedCode (some (u32Bytes 1))))
      .withCommonAtoms = .ok (typedModule (some (u32Bytes 1)), .withCommonAtoms) ∧
    ∃ bytes, encodeModule (typedModule (some (u32Bytes 1))) .withCommonAtoms = .ok bytes := by
  have hload := loadBeamChunks_typed noInflate (some (u32Bytes 1)) (by decide)
  exact ⟨hload, (encodeModule_of_load_iff hload).mpr ⟨.inl rfl, by decide⟩⟩

/-- Without a `Type` chunk the same code loads and does not encode. -/
theorem not_encodeModule_of_load : ¬ ∀ (inflate : Inflate) (bytes : List UInt8)
    (table table' : AtomTable) (m : ParsedModule),
    loadBeamChunks inflate bytes table = .ok (m, table') →
    ∃ bytes', encodeModule m table' = .ok bytes' := by
  intro hall
  have hload := loadBeamChunks_typed noInflate none (by decide)
  obtain ⟨bytes', henc⟩ := hall _ _ _ _ _ hload
  have hfail : encodeModule (typedModule none) .withCommonAtoms =
      .error (.typedRegisterWithoutTypeChunk (some 0) 0) := by rfl
  rw [hfail] at henc
  cases henc

end Typed

end Beamr.Loader
