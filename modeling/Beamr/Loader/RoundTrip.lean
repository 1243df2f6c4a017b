import Beamr.Loader.Container

/-!
# Whole-module round trip

A loaded module can be encoded and loaded again. The second load decodes more than the
first: integers that left the code stream for the constant pool now sit in the literal
table and are charged to the same allowances as the rest of the module. The second load
succeeds, with the same module, exactly when the cost of the module fits.
-/
namespace Beamr.Loader

open ByteOrder Decoder

/-- What holds of a module that came out of the loader. -/
structure ParsedModule.Decoded (table : AtomTable) (m : ParsedModule) : Prop where
  name : m.atoms.head? = some m.name
  atoms : ∀ atom ∈ m.atoms, AtomDecoded table atom
  atomCount : m.atoms.length ≤ maxTableEntries
  instructions : ∀ i ∈ m.instructions, i.Decoded m.atoms m.literals.length
  imports : ∀ entry ∈ m.imports, entry.Decoded m.atoms
  importCount : m.imports.length ≤ maxTableEntries
  exports : ∀ entry ∈ m.exports, entry.Decoded m.atoms
  exportCount : m.exports.length ≤ maxTableEntries
  lambdas : ∀ entry ∈ m.lambdas, entry.Decoded m.atoms
  lambdaCount : m.lambdas.length ≤ maxTableEntries
  lambdaIds : assignLambdaUniqueIds m.name table
    (m.lambdas.map fun l => { l with uniqueId := 0 }) = .ok m.lambdas
  literals : ∀ l ∈ m.literals, l.Decoded table maxEtfDepth
  lineInfo : ∀ info ∈ m.lineInfo, info.Decoded
  lineCount : m.lineInfo.length ≤ maxTableEntries

theorem runChunk_ok {α : Type} {d : LoadM α} {s s' : DecodeState} {bytes : List UInt8} {a : α}
    (h : runChunk d s bytes = .ok (a, s')) : ∃ c, d s bytes = .ok (a, s', c) := by
  unfold runChunk at h
  cases hd : d s bytes with
  | error e => rw [hd] at h; cases h
  | ok r =>
    obtain ⟨x, y, z⟩ := r
    rw [hd] at h
    obtain ⟨rfl, rfl⟩ := Prod.mk.inj (Except.ok.inj h)
    exact ⟨z, rfl⟩

theorem runChunk_of_ok {α : Type} {d : LoadM α} {s s' : DecodeState} {bytes c : List UInt8} {a : α}
    (h : d s bytes = .ok (a, s', c)) : runChunk d s bytes = .ok (a, s') := by
  rw [runChunk, h]

/-- A property of the entries a table decoder returns, which an absent chunk has too. -/
theorem runOptional_ok {α : Type} {d : LoadM (List α)} {s s' : DecodeState}
    {chunk : Option (List UInt8)} {as : List α} {P : List α → DecodeState → DecodeState → Prop}
    (hnil : P [] s s) (hd : ∀ bytes c, d s bytes = .ok (as, s', c) → P as s s')
    (h : runOptional d s chunk = .ok (as, s')) : P as s s' := by
  cases chunk with
  | none =>
    obtain ⟨rfl, rfl⟩ := Prod.mk.inj (Except.ok.inj h)
    exact hnil
  | some bytes =>
    obtain ⟨c, hc⟩ := runChunk_ok h
    exact hd bytes c hc

theorem required_ok {α : Type} {e : LoadError} {o : Option α} {a : α}
    (h : required e o = .ok a) : o = some a := by
  cases o with
  | none => cases h
  | some b => exact congrArg some (Except.ok.inj h)

section Load

variable {inflate : Inflate}

/-- What a table decoder establishes, for a present or an absent chunk. -/
def TableDecoded {α : Type} (Q : α → Prop) (size : ℕ) (as : List α) (s s' : DecodeState) : Prop :=
  (∀ a ∈ as, Q a) ∧ as.length ≤ maxTableEntries ∧ Spent s s' as.length (as.length * size)

theorem TableDecoded.nil {α : Type} (Q : α → Prop) (size : ℕ) (s : DecodeState) :
    TableDecoded Q size [] s s := ⟨by simp, by simp, by simpa using Spent.refl s⟩

/-- The intermediate results of a successful load. -/
theorem loadBeamChunks_steps {bytes : List UInt8} {table table' : AtomTable} {m : ParsedModule}
    (h : loadBeamChunks inflate bytes table = .ok (m, table')) :
    ∃ chunks atomChunk codeChunk literals extra rawLambdas s₁ s₂ s₃ s₄ s₅ s₆,
      parseBeamChunks bytes = .ok chunks ∧
      (findChunk chunks tagAtU8).or (findChunk chunks tagAtom) = some atomChunk ∧
      runChunk decodeAtomChunk ⟨table, .default⟩ atomChunk = .ok (m.atoms, s₁) ∧
      m.atoms.head? = some m.name ∧
      runOptional (decodeLiteralChunk inflate) s₁ (findChunk chunks tagLitT) = .ok (literals, s₂) ∧
      findChunk chunks tagCode = some codeChunk ∧
      decodeCodeChunk codeChunk m.atoms literals = .ok (m.instructions, extra) ∧
      runOptional (decodeImportChunk m.atoms) s₂ (findChunk chunks tagImpT) = .ok (m.imports, s₃) ∧
      runOptional (decodeExportChunk m.atoms) s₃ (findChunk chunks tagExpT) = .ok (m.exports, s₄) ∧
      runOptional (decodeLambdaChunk m.atoms) s₄ (findChunk chunks tagFunT) =
        .ok (rawLambdas, s₅) ∧
      assignLambdaUniqueIds m.name s₅.atomTable rawLambdas = .ok m.lambdas ∧
      runOptional decodeLineChunk s₅ (findChunk chunks tagLine) = .ok (m.lineInfo, s₆) ∧
      m.literals = literals ++ extra ∧ m.stringTable = (findChunk chunks tagStrT).getD [] ∧
      m.typeChunk = findChunk chunks tagType ∧ table' = s₆.atomTable := by
  unfold loadBeamChunks at h
  obtain ⟨chunks, hparse, h⟩ := except_bind_ok_iff.mp h
  obtain ⟨atomChunk, hatom, h⟩ := except_bind_ok_iff.mp h
  obtain ⟨⟨atoms, s₁⟩, hatoms, h⟩ := except_bind_ok_iff.mp h
  obtain ⟨name, hname, h⟩ := except_bind_ok_iff.mp h
  obtain ⟨⟨literals, s₂⟩, hlits, h⟩ := except_bind_ok_iff.mp h
  obtain ⟨codeChunk, hcode, h⟩ := except_bind_ok_iff.mp h
  obtain ⟨⟨instructions, extra⟩, hinstr, h⟩ := except_bind_ok_iff.mp h
  obtain ⟨⟨imports, s₃⟩, himp, h⟩ := except_bind_ok_iff.mp h
  obtain ⟨⟨exports, s₄⟩, hexp, h⟩ := except_bind_ok_iff.mp h
  obtain ⟨⟨rawLambdas, s₅⟩, hfun, h⟩ := except_bind_ok_iff.mp h
  obtain ⟨lambdas, hids, h⟩ := except_bind_ok_iff.mp h
  obtain ⟨⟨lines, s₆⟩, hline, h⟩ := except_bind_ok_iff.mp h
  obtain ⟨rfl, rfl⟩ := Prod.mk.inj (Except.ok.inj h)
  exact ⟨chunks, atomChunk, codeChunk, literals, extra, rawLambdas, s₁, s₂, s₃, s₄, s₅, s₆, hparse,
    required_ok hatom, hatoms, required_ok hname, hlits, required_ok hcode, hinstr, himp, hexp,
    hfun, hids, hline, rfl, rfl, rfl, rfl⟩

theorem loadBeamChunks_decoded {bytes : List UInt8} {table table' : AtomTable} {m : ParsedModule}
    (h : loadBeamChunks inflate bytes table = .ok (m, table')) : m.Decoded table' := by
  obtain ⟨chunks, atomChunk, codeChunk, literals, extra, rawLambdas, s₁, s₂, s₃, s₄, s₅, s₆, -, -,
    hatoms, hname, hlits, -, hcode, himp, hexp, hfun, hids, hline, hlit, -, -, rfl⟩ :=
    loadBeamChunks_steps h
  obtain ⟨_, hatoms⟩ := runChunk_ok hatoms
  obtain ⟨hadec, hacount, hasp⟩ := decodeAtomChunk_sound hatoms
  obtain ⟨hldec, -, hlext⟩ := runOptional_ok (P := fun ls s s' =>
    (∀ l ∈ ls, l.Decoded s'.atomTable maxEtfDepth) ∧ ls.length ≤ maxTableEntries ∧
      s'.atomTable.Extends s.atomTable) ⟨by simp, by simp, .refl _⟩
    (fun _ _ hd => decodeLiteralChunk_sound hd) hlits
  obtain ⟨hidec, hicount, hisp⟩ := runOptional_ok
    (P := TableDecoded (ImportEntry.Decoded m.atoms) sizeOfImportEntry) (.nil _ _ _)
    (fun _ _ hd => decodeTable_sound (fun _ _ _ _ _ hx => decodeImportEntry_sound hx) hd) himp
  obtain ⟨hedec, hecount, hesp⟩ := runOptional_ok
    (P := TableDecoded (ExportEntry.Decoded m.atoms) sizeOfExportEntry) (.nil _ _ _)
    (fun _ _ hd => decodeTable_sound (fun _ _ _ _ _ hx => decodeExportEntry_sound hx) hd) hexp
  obtain ⟨hfdec, hfcount, hfsp⟩ := runOptional_ok
    (P := TableDecoded (LambdaEntry.Decoded m.atoms) sizeOfLambdaEntry) (.nil _ _ _)
    (fun _ _ hd => decodeTable_sound
      (fun _ _ _ _ _ hx => ⟨(decodeLambdaEntry_sound hx).1, (decodeLambdaEntry_sound hx).2.1⟩) hd)
    hfun
  obtain ⟨hndec, hncount, hnsp⟩ := runOptional_ok (P := TableDecoded LineInfo.Decoded sizeOfLineInfo)
    (.nil _ _ _) (fun _ _ hd => decodeLineChunk_sound hd) hline
  obtain ⟨hflen, hlamdec⟩ := assignLambdaUniqueIds_decoded hids hfdec
  obtain ⟨hxdec, hinstr⟩ := decodeCodeChunk_sound hcode
  -- every table the load went through is extended by the one it returns
  have hx2 : s₆.atomTable.Extends s₂.atomTable :=
    hnsp.2.2.trans (hfsp.2.2.trans (hesp.2.2.trans hisp.2.2))
  have hx1 : s₆.atomTable.Extends s₁.atomTable := hx2.trans hlext
  exact {
    name := hname
    atoms := fun a ha => (hadec a ha).extends hx1
    atomCount := hacount
    instructions := by rw [hlit]; exact hinstr
    imports := hidec
    importCount := hicount
    exports := hedec
    exportCount := hecount
    lambdas := hlamdec
    lambdaCount := by rw [hflen]; exact hfcount
    lambdaIds := assignLambdaUniqueIds_reset hnsp.2.2 hids
    literals := by
      intro l hl
      rw [hlit] at hl
      rcases List.mem_append.mp hl with hl | hl
      · exact (hldec l hl).extends hx2
      · exact hxdec l hl _
    lineInfo := hndec
    lineCount := hncount }

end Load

/-! ## The cost of loading a module -/

/-- Bytes charged for the literal table; an empty table has no chunk. -/
def literalBytes (table : AtomTable) (literals : List Literal) : ℕ :=
  if literals.isEmpty then 0 else tableBytes table literals

/-- Nodes charged while the encoded module is loaded. -/
def ParsedModule.decodeNodes (m : ParsedModule) : ℕ :=
  m.atoms.length + tableNodes m.literals + m.imports.length + m.exports.length +
    m.lambdas.length + m.lineInfo.length

/-- Bytes charged while the encoded module is loaded. -/
def ParsedModule.decodeBytes (table : AtomTable) (m : ParsedModule) : ℕ :=
  m.atoms.length * sizeOfAtom + literalBytes table m.literals +
    m.imports.length * sizeOfImportEntry + m.exports.length * sizeOfExportEntry +
    m.lambdas.length * sizeOfLambdaEntry + m.lineInfo.length * sizeOfLineInfo

/-- The module's tables fit the allowances of one load. -/
def ParsedModule.FitsBudget (table : AtomTable) (m : ParsedModule) : Prop :=
  m.decodeNodes ≤ defaultDecodeNodeBudget ∧ m.decodeBytes table ≤ defaultDecodeByteBudget

/-! ## The chunks of an encoded module -/

/-- The encoder of a module's own atoms. -/
def ParsedModule.encoder (m : ParsedModule) (table : AtomTable) : AtomEncoder :=
  ⟨m.atoms, table, m.typeChunk.isSome⟩

/-- The chunk list for given chunk bodies. -/
def chunkList (atomChunk codeChunk importChunk exportChunk : List UInt8)
    (lambdaChunk literalChunk : Option (List UInt8)) (stringTable : List UInt8)
    (lineChunk typeChunk : Option (List UInt8)) : List (FourCC × List UInt8) :=
  [(tagAtU8, atomChunk), (tagCode, codeChunk), (tagImpT, importChunk), (tagExpT, exportChunk)] ++
    (lambdaChunk.map fun c => (tagFunT, c)).toList ++
    (literalChunk.map fun c => (tagLitT, c)).toList ++
    [(tagStrT, stringTable)] ++
    (lineChunk.map fun c => (tagLine, c)).toList ++
    (typeChunk.map fun c => (tagType, c)).toList

section Chunks

variable {a c i x y : List UInt8} {f l n t : Option (List UInt8)}

theorem findChunk_chunkList :
    let chunks := chunkList a c i x f l y n t
    findChunk chunks tagAtU8 = some a ∧ findChunk chunks tagCode = some c ∧
    findChunk chunks tagImpT = some i ∧ findChunk chunks tagExpT = some x ∧
    findChunk chunks tagFunT = f ∧ findChunk chunks tagLitT = l ∧
    findChunk chunks tagStrT = some y ∧ findChunk chunks tagLine = n ∧
    findChunk chunks tagType = t := by
  cases f <;> cases l <;> cases n <;> cases t <;>
    exact ⟨rfl, rfl, rfl, rfl, rfl, rfl, rfl, rfl, rfl⟩

theorem chunkList_tags : ∀ chunk ∈ chunkList a c i x f l y n t, chunk.1.length = 4 := by
  cases f <;> cases l <;> cases n <;> cases t <;> simp [chunkList] <;> decide

end Chunks

theorem encodeOptional_ok {α : Type} {encode : List α → Except EncodeError (List UInt8)}
    {entries : List α} {chunk : Option (List UInt8)} (h : encodeOptional encode entries = .ok chunk) :
    chunk = none ∧ entries = [] ∨ ∃ bytes, chunk = some bytes ∧ encode entries = .ok bytes := by
  unfold encodeOptional at h
  split_ifs at h with hempty
  · exact .inl ⟨(Except.ok.inj h).symm, List.isEmpty_iff.mp hempty⟩
  · obtain ⟨bytes, hbytes, h⟩ := except_bind_ok_iff.mp h
    exact .inr ⟨bytes, (Except.ok.inj h).symm, hbytes⟩

theorem moduleChunks_ok {m : ParsedModule} {table : AtomTable}
    {chunks : List (FourCC × List UInt8)} (h : moduleChunks m table = .ok chunks) :
    ∃ a c i x f l n, chunks = chunkList a c i x f l m.stringTable n m.typeChunk ∧
      encodeAtomChunk (m.encoder table) m.atoms = .ok a ∧
      encodeCodeChunk (m.encoder table) m.instructions = .ok c ∧
      encodeImportChunk (m.encoder table) m.imports = .ok i ∧
      encodeExportChunk (m.encoder table) m.exports = .ok x ∧
      (f = none ∧ m.lambdas = [] ∨
        ∃ fc, f = some fc ∧ encodeLambdaChunk (m.encoder table) m.lambdas = .ok fc) ∧
      encodeLiteralChunk (m.encoder table) m.literals = .ok l ∧
      (n = none ∧ m.lineInfo = [] ∨ ∃ nc, n = some nc ∧ encodeLineChunk m.lineInfo = .ok nc) := by
  unfold moduleChunks at h
  obtain ⟨a, ha, h⟩ := except_bind_ok_iff.mp h
  obtain ⟨c, hc, h⟩ := except_bind_ok_iff.mp h
  obtain ⟨i, hi, h⟩ := except_bind_ok_iff.mp h
  obtain ⟨x, hx, h⟩ := except_bind_ok_iff.mp h
  obtain ⟨f, hf, h⟩ := except_bind_ok_iff.mp h
  obtain ⟨l, hl, h⟩ := except_bind_ok_iff.mp h
  obtain ⟨n, hn, h⟩ := except_bind_ok_iff.mp h
  exact ⟨a, c, i, x, f, l, n, (Except.ok.inj h).symm, ha, hc, hi, hx, encodeOptional_ok hf, hl,
    encodeOptional_ok hn⟩

theorem encodeLiteralChunk_none {e : AtomEncoder} {ls : List Literal}
    (h : encodeLiteralChunk e ls = .ok none) : ls = [] := by
  by_contra hne
  unfold encodeLiteralChunk at h
  rw [if_neg (by simpa using hne)] at h
  obtain ⟨_, -, h⟩ := except_bind_ok_iff.mp h
  obtain ⟨_, -, h⟩ := except_bind_ok_iff.mp h
  obtain ⟨_, -, h⟩ := except_bind_ok_iff.mp h
  cases h

theorem encodeLiteralChunk_nonempty {e : AtomEncoder} {ls : List Literal} {bytes : List UInt8}
    (h : encodeLiteralChunk e ls = .ok (some bytes)) : ls.isEmpty = false := by
  cases hemp : ls.isEmpty with
  | false => rfl
  | true => rw [encodeLiteralChunk, if_pos hemp] at h; cases h

/-! ## Each chunk reloads -/

section Reload

variable {m : ParsedModule} {table : AtomTable} {inflate : Inflate}

theorem reload_literals (inflate : Inflate) (hm : m.Decoded table) {l : Option (List UInt8)} {s : DecodeState}
    (ht : s.atomTable = table) (hmax : m.literals.length ≤ maxTableEntries)
    (h : encodeLiteralChunk (m.encoder table) m.literals = .ok l)
    (hcov : s.Covers (tableNodes m.literals) (literalBytes table m.literals)) :
    runOptional (decodeLiteralChunk inflate) s l =
      .ok (m.literals, s.charge (tableNodes m.literals) (literalBytes table m.literals)) := by
  cases l with
  | none =>
    rw [encodeLiteralChunk_none h]
    rfl
  | some bytes =>
    rw [literalBytes, encodeLiteralChunk_nonempty h] at hcov ⊢
    obtain ⟨_, hrun⟩ := decodeLiteralChunk_encode (e := m.encoder table)
      hm.literals hmax ht h hcov
    exact runChunk_of_ok hrun

theorem reload_imports (hm : m.Decoded table) {i : List UInt8} {s : DecodeState}
    (h : encodeImportChunk (m.encoder table) m.imports = .ok i)
    (hcov : s.Covers m.imports.length (m.imports.length * sizeOfImportEntry)) :
    runOptional (decodeImportChunk m.atoms) s (some i) =
      .ok (m.imports, s.charge m.imports.length (m.imports.length * sizeOfImportEntry)) := by
  have hatoms : m.atoms.length < 2 ^ 32 := hm.atomCount.trans_lt (by norm_num [maxTableEntries])
  exact runChunk_of_ok (decodeTable_encode hm.importCount
    (fun _ _ _ hl => encodeImportEntry_length hl)
    (fun entry hentry s i _ hb => reads_importEntry (e := m.encoder table) rfl hatoms
      (hm.imports entry hentry) s i hb) h hcov)

theorem reload_exports (hm : m.Decoded table) {x : List UInt8} {s : DecodeState}
    (h : encodeExportChunk (m.encoder table) m.exports = .ok x)
    (hcov : s.Covers m.exports.length (m.exports.length * sizeOfExportEntry)) :
    runOptional (decodeExportChunk m.atoms) s (some x) =
      .ok (m.exports, s.charge m.exports.length (m.exports.length * sizeOfExportEntry)) := by
  have hatoms : m.atoms.length < 2 ^ 32 := hm.atomCount.trans_lt (by norm_num [maxTableEntries])
  exact runChunk_of_ok (decodeTable_encode hm.exportCount
    (fun _ _ _ hl => encodeExportEntry_length hl)
    (fun entry hentry s i _ hb => reads_exportEntry (e := m.encoder table) rfl hatoms
      (hm.exports entry hentry) s i hb) h hcov)

theorem encodeEntries_map {α : Type} {f : ℕ → α → Except EncodeError (List UInt8)} {g : α → α}
    (hg : ∀ i a, f i (g a) = f i a) : ∀ (i : ℕ) (as : List α),
      encodeEntries f i (as.map g) = encodeEntries f i as
  | _, [] => rfl
  | i, a :: as => by
    rw [List.map_cons, encodeEntries, encodeEntries, hg, encodeEntries_map hg]

/-- Lambdas reload without identifiers. -/
theorem reload_lambdas (hm : m.Decoded table) {f : Option (List UInt8)} {s : DecodeState}
    (h : f = none ∧ m.lambdas = [] ∨
      ∃ fc, f = some fc ∧ encodeLambdaChunk (m.encoder table) m.lambdas = .ok fc)
    (hcov : s.Covers m.lambdas.length (m.lambdas.length * sizeOfLambdaEntry)) :
    runOptional (decodeLambdaChunk m.atoms) s f =
      .ok (m.lambdas.map fun l => { l with uniqueId := 0 },
        s.charge m.lambdas.length (m.lambdas.length * sizeOfLambdaEntry)) := by
  obtain ⟨rfl, hnil⟩ | ⟨fc, rfl, hfc⟩ := h
  · rw [hnil]
    rfl
  · have hatoms : m.atoms.length < 2 ^ 32 := hm.atomCount.trans_lt (by norm_num [maxTableEntries])
    set raw := m.lambdas.map fun l => { l with uniqueId := 0 } with hraw
    have hlen : raw.length = m.lambdas.length := by simp [hraw]
    have hmap := encodeEntries_map (f := encodeLambdaEntry (m.encoder table))
      (g := fun l => { l with uniqueId := 0 }) (fun _ _ => rfl) 0 m.lambdas
    have henc : encodeTable (encodeLambdaEntry (m.encoder table)) raw = .ok fc := by
      rw [← hfc, encodeLambdaChunk, encodeTable, encodeTable, hlen, hraw, hmap]
    rw [← hlen] at hcov ⊢
    refine runChunk_of_ok (decodeTable_encode (by rw [hlen]; exact hm.lambdaCount)
      (fun _ _ _ hl => encodeLambdaEntry_length hl) ?_ henc hcov)
    intro entry hentry s i bs hb
    obtain ⟨l, hl, rfl⟩ := List.mem_map.mp hentry
    exact reads_lambdaEntry (e := m.encoder table) rfl hatoms (hm.lambdas l hl) s i hb

theorem reload_lines (hm : m.Decoded table) {n : Option (List UInt8)} {s : DecodeState}
    (h : n = none ∧ m.lineInfo = [] ∨ ∃ nc, n = some nc ∧ encodeLineChunk m.lineInfo = .ok nc)
    (hcov : s.Covers m.lineInfo.length (m.lineInfo.length * sizeOfLineInfo)) :
    runOptional decodeLineChunk s n =
      .ok (m.lineInfo, s.charge m.lineInfo.length (m.lineInfo.length * sizeOfLineInfo)) := by
  obtain ⟨rfl, hnil⟩ | ⟨nc, rfl, hnc⟩ := h
  · rw [hnil]
    rfl
  · exact runChunk_of_ok (decodeLineChunk_encode hm.lineInfo hm.lineCount hnc hcov)

/-- The second load of a module whose cost fits gives the module back. -/
theorem loadBeamChunks_of_fits (hm : m.Decoded table) {chunks : List (FourCC × List UInt8)}
    (h : moduleChunks m table = .ok chunks) (hframe : (frameBody chunks).length < 2 ^ 32)
    (hfit : m.FitsBudget table) :
    loadBeamChunks inflate (frameContainer chunks) table = .ok (m, table) := by
  obtain ⟨a, c, i, x, f, l, n, rfl, ha, hc, hi, hx, hf, hl, hn⟩ := moduleChunks_ok h
  obtain ⟨hfa, hfc, hfi, hfx, hff, hfl, hfs, hfn, hft⟩ := findChunk_chunkList (a := a) (c := c)
    (i := i) (x := x) (f := f) (l := l) (y := m.stringTable) (n := n) (t := m.typeChunk)
  have hlits : m.literals.length ≤ 1000000 := by
    have hnodes := hfit.1
    unfold ParsedModule.decodeNodes tableNodes defaultDecodeNodeBudget at hnodes
    omega
  have hatoms : m.atoms.length < 2 ^ 63 := hm.atomCount.trans_lt (by norm_num [maxTableEntries])
  set s₀ : DecodeState := ⟨table, .default⟩ with hs₀
  have htable : s₀.atomTable = table := rfl
  have hcov : s₀.Covers m.decodeNodes (m.decodeBytes table) := hfit
  simp only [ParsedModule.decodeNodes, ParsedModule.decodeBytes, Nat.add_assoc] at hcov
  -- each table finds its own share left over by the tables before it
  have hca := decodeAtomChunk_encode (e := m.encoder table) hm.atoms hm.atomCount rfl ha hcov.left
  replace hcov := DecodeState.covers_charge hcov
  have hcl := reload_literals inflate hm rfl
    (hlits.trans (by norm_num [maxTableEntries])) hl hcov.left
  replace hcov := DecodeState.covers_charge hcov
  have hcc : decodeCodeChunk c m.atoms m.literals = .ok (m.instructions, []) :=
    decodeCodeChunk_encode (e := m.encoder table) rfl hatoms (hlits.trans_lt (by norm_num))
      hm.instructions hc
  have hci := reload_imports hm hi hcov.left
  replace hcov := DecodeState.covers_charge hcov
  have hcx := reload_exports hm hx hcov.left
  replace hcov := DecodeState.covers_charge hcov
  have hcf := reload_lambdas hm hf hcov.left
  replace hcov := DecodeState.covers_charge hcov
  have hcn := reload_lines hm hn hcov
  unfold loadBeamChunks
  rw [parseBeamChunks_frameContainer _ chunkList_tags hframe]
  simp only [except_ok_bind, hfa, hfc, hfi, hfx, hff, hfl, hfs, hfn, hft, Option.some_or, required,
    hm.name, runChunk_of_ok hca, hcl, hcc, hci, hcx, hcf, hcn, ← hs₀, htable,
    hm.lambdaIds, DecodeState.charge_atomTable, List.append_nil, Option.getD_some]

end Reload

/-! ## The round trip -/

section RoundTrip

variable {m : ParsedModule} {table table' : AtomTable} {inflate : Inflate}

/-- The encoded module stays within the 32-bit length of the container. -/
def ParsedModule.FitsContainer (table : AtomTable) (m : ParsedModule) : Prop :=
  ∀ chunks, moduleChunks m table = .ok chunks → (frameBody chunks).length < 2 ^ 32

/-- The literal table of a second load has the length of the first and has cost its share. -/
theorem reload_literals_spent {e : AtomEncoder} {literals reloaded : List Literal}
    {l : Option (List UInt8)} {s s' : DecodeState}
    (h : encodeLiteralChunk e literals = .ok l)
    (hrun : runOptional (decodeLiteralChunk inflate) s l = .ok (reloaded, s')) :
    reloaded.length = literals.length ∧ (reloaded = literals →
      Spent s s' (tableNodes literals) (literalBytes e.atomTable literals)) := by
  cases l with
  | none =>
    obtain ⟨rfl, rfl⟩ := Prod.mk.inj (Except.ok.inj hrun)
    rw [encodeLiteralChunk_none h]
    exact ⟨rfl, fun _ => .refl s⟩
  | some bytes =>
    obtain ⟨_, hd⟩ := runChunk_ok hrun
    obtain ⟨hlen, hspent⟩ := decodeLiteralChunk_spent h hd
    refine ⟨hlen, ?_⟩
    rintro rfl
    rw [literalBytes, encodeLiteralChunk_nonempty h]
    exact hspent

/-- A second load that gives the module back has paid for all of it. -/
theorem fits_of_loadBeamChunks {chunks : List (FourCC × List UInt8)}
    (h : moduleChunks m table = .ok chunks) (hframe : (frameBody chunks).length < 2 ^ 32)
    (hload : loadBeamChunks inflate (frameContainer chunks) table = .ok (m, table')) :
    m.FitsBudget table := by
  obtain ⟨a, c, i, x, f, l, n, rfl, ha, hc, hi, hx, hf, hl, hn⟩ := moduleChunks_ok h
  obtain ⟨hfa, hfc, hfi, hfx, hff, hfl, hfs, hfn, hft⟩ := findChunk_chunkList (a := a) (c := c)
    (i := i) (x := x) (f := f) (l := l) (y := m.stringTable) (n := n) (t := m.typeChunk)
  obtain ⟨chunks, atomChunk, codeChunk, literals, extra, rawLambdas, s₁, s₂, s₃, s₄, s₅, s₆, hparse,
    -, hatoms, -, hlits, -, -, himp, hexp, hfun, hids, hline, hlit, -, -, rfl⟩ :=
    loadBeamChunks_steps hload
  rw [parseBeamChunks_frameContainer _ chunkList_tags hframe] at hparse
  obtain rfl := Except.ok.inj hparse
  obtain ⟨_, hatoms⟩ := runChunk_ok hatoms
  obtain ⟨-, -, hasp⟩ := decodeAtomChunk_sound hatoms
  rw [hfl] at hlits
  obtain ⟨hlen, hlsp⟩ := reload_literals_spent hl hlits
  -- no literal comes from the code this time: the table alone has the full length
  have hsame : literals = m.literals := by
    have hx : extra.length = 0 := by
      have := congrArg List.length hlit
      rw [List.length_append] at this
      omega
    rw [hlit, List.length_eq_zero_iff.mp hx, List.append_nil]
  obtain ⟨-, -, hisp⟩ := runOptional_ok
    (P := TableDecoded (ImportEntry.Decoded m.atoms) sizeOfImportEntry) (.nil _ _ _)
    (fun _ _ hd => decodeTable_sound (fun _ _ _ _ _ hx => decodeImportEntry_sound hx) hd) himp
  obtain ⟨-, -, hesp⟩ := runOptional_ok
    (P := TableDecoded (ExportEntry.Decoded m.atoms) sizeOfExportEntry) (.nil _ _ _)
    (fun _ _ hd => decodeTable_sound (fun _ _ _ _ _ hx => decodeExportEntry_sound hx) hd) hexp
  obtain ⟨hfdec, -, hfsp⟩ := runOptional_ok
    (P := TableDecoded (LambdaEntry.Decoded m.atoms) sizeOfLambdaEntry) (.nil _ _ _)
    (fun _ _ hd => decodeTable_sound
      (fun _ _ _ _ _ hx => ⟨(decodeLambdaEntry_sound hx).1, (decodeLambdaEntry_sound hx).2.1⟩) hd)
    hfun
  obtain ⟨-, -, hnsp⟩ := runOptional_ok (P := TableDecoded LineInfo.Decoded sizeOfLineInfo)
    (.nil _ _ _) (fun _ _ hd => decodeLineChunk_sound hd) hline
  obtain ⟨hflen, -⟩ := assignLambdaUniqueIds_decoded hids hfdec
  rw [← hflen] at hfsp
  exact (((((hasp.trans (hlsp hsame)).trans hisp).trans hesp).trans hfsp).trans hnsp).covers

/-- Loading, encoding and loading again gives the module back exactly when the tables of the
module, with the literals that were embedded in its code, fit the allowances of one load. -/
theorem load_encodeModule_iff {bytes bytes' : List UInt8}
    (hload : loadBeamChunks inflate bytes table = .ok (m, table'))
    (henc : encodeModule m table' = .ok bytes') (hsize : m.FitsContainer table') :
    (∃ table'', loadBeamChunks inflate bytes' table' = .ok (m, table'')) ↔
      m.FitsBudget table' := by
  obtain ⟨chunks, hchunks, henc⟩ := except_bind_ok_iff.mp henc
  obtain rfl := Except.ok.inj henc
  have hframe := hsize chunks hchunks
  constructor
  · rintro ⟨table'', hreload⟩
    exact fits_of_loadBeamChunks hchunks hframe hreload
  · intro hfit
    exact ⟨table', loadBeamChunks_of_fits (loadBeamChunks_decoded hload) hchunks hframe hfit⟩

end RoundTrip

/-! ## Modules of one atom

A container with the atom `ok`, a code chunk and perhaps a `Type` chunk. -/

def codeChunks (code : List UInt8) (typeChunk : Option (List UInt8)) :
    List (FourCC × List UInt8) :=
  [(tagAtU8, u32Bytes 1 ++ [2, 111, 107]), (tagCode, code)] ++
    (typeChunk.map fun c => (tagType, c)).toList

def codeModule (instructions : List Instruction) (literals : List Literal)
    (typeChunk : Option (List UInt8)) : ParsedModule where
  name := 0
  atoms := [0]
  instructions := instructions
  imports := []
  exports := []
  lambdas := []
  literals := literals
  stringTable := []
  lineInfo := []
  typeChunk := typeChunk

theorem codeChunks_tags (code : List UInt8) (typeChunk : Option (List UInt8)) :
    ∀ chunk ∈ codeChunks code typeChunk, chunk.1.length = 4 := by
  cases typeChunk <;> simp [codeChunks] <;> decide

theorem loadBeamChunks_code (inflate : Inflate) {code : List UInt8}
    (typeChunk : Option (List UInt8)) {instructions : List Instruction} {literals : List Literal}
    (hcode : decodeCodeChunk code [0] [] = .ok (instructions, literals))
    (hsize : (frameBody (codeChunks code typeChunk)).length < 2 ^ 32) :
    loadBeamChunks inflate (frameContainer (codeChunks code typeChunk)) .withCommonAtoms =
      .ok (codeModule instructions literals typeChunk, .withCommonAtoms) := by
  have hframe := parseBeamChunks_frameContainer _ (codeChunks_tags code typeChunk) hsize
  have hatoms : runChunk decodeAtomChunk ⟨.withCommonAtoms, .default⟩ (u32Bytes 1 ++ [2, 111, 107]) =
      .ok ([0], (⟨.withCommonAtoms, .default⟩ : DecodeState).charge 1 sizeOfAtom) := rfl
  set chunks := codeChunks code typeChunk
  have hfa : findChunk chunks tagAtU8 = some (u32Bytes 1 ++ [2, 111, 107]) := rfl
  have hfc : findChunk chunks tagCode = some code := rfl
  have hft : findChunk chunks tagType = typeChunk := by cases typeChunk <;> rfl
  have hrest : ∀ tag ∈ [tagLitT, tagImpT, tagExpT, tagFunT, tagLine, tagStrT],
      findChunk chunks tag = none := by
    simp only [List.forall_mem_cons]
    cases typeChunk <;> exact ⟨rfl, rfl, rfl, rfl, rfl, rfl, by simp⟩
  unfold loadBeamChunks
  rw [hframe, except_ok_bind]
  simp (disch := simp) only [hfa, hfc, hft, hrest, Option.some_or, required, except_ok_bind, hatoms,
    List.head?_cons, runOptional, hcode]
  rfl

/-! ## Modules of wide integers

Code of `n` instructions `move 2^62, x0`. An integer of this size is no immediate, so every
instruction adds a literal. The code reader charges nothing for these, the literal reader two
nodes each. -/

section Wide

def wideInteger : ℤ := 2 ^ 62

/-- The operands of one instruction. -/
def wideOperands : List UInt8 := pushSigned 1 wideInteger ++ pushUnsigned 3 0

def wideCode : ℕ → List UInt8
  | 0 => []
  | n + 1 => 64 :: (wideOperands ++ wideCode n)

def wideBytes (n : ℕ) : List UInt8 :=
  frameContainer [
    (tagAtU8, u32Bytes 1 ++ [2, 111, 107]),
    (tagCode, u32Bytes 16 ++ u32Bytes 0 ++ u32Bytes 64 ++ u32Bytes 0 ++ u32Bytes 0 ++ wideCode n)]

/-- The instructions as decoded, with literals from `index` on. -/
def wideMoves : ℕ → ℕ → List Instruction
  | _, 0 => []
  | index, n + 1 => .move (.literal index) (.x 0) :: wideMoves (index + 1) n

def wideModule (n : ℕ) : ParsedModule where
  name := 0
  atoms := [0]
  instructions := wideMoves 0 n
  imports := []
  exports := []
  lambdas := []
  literals := List.replicate n (.integer wideInteger)
  stringTable := []
  lineInfo := []
  typeChunk := none

variable {atoms : List Atom} {inflate : Inflate}

/-- The state with one more literal from the code. -/
def withWide (s : CompactState) : CompactState :=
  { s with extraLiterals := s.extraLiterals ++ [.integer wideInteger] }

theorem reads_wideInteger (s : CompactState) :
    Reads (readOperand atoms []) s (pushSigned 1 wideInteger) (.literal s.extraLiterals.length)
      (withWide s) := by
  refine reads_operand_of_fuel fun fuel hfuel => ?_
  have hpos := pushSigned_pos 1 wideInteger
  refine reads_operandFuel_simple (by omega) (taggedValue_pushSigned (by decide)) ?_
  intro rest
  rw [operandOf, integerOperand, if_neg (by decide)]
  simp only [pushExtraLiteral, List.length_nil, Nat.zero_add]
  rfl

theorem reads_xZero (s : CompactState) :
    Reads (readOperand atoms []) s (pushUnsigned 3 0) (.x 0) s := by
  refine reads_operand_of_fuel fun fuel hfuel => ?_
  have hpos := pushUnsigned_pos 3 0
  exact reads_operandFuel_simple (by omega)
    (taggedValue_pushUnsigned (by norm_num) (by norm_num) (by norm_num))
    ((Reads.ofExcept s (unsignedU32_of_lt (by norm_num) _)).bind_nil (Reads.pure _ _))

theorem reads_wideOperands (s : CompactState) :
    Reads (decodeInstruction atoms [] 64) s wideOperands
      (.move (.literal s.extraLiterals.length) (.x 0)) (withWide s) := by
  have hoperands : Reads (many (readOperand atoms []) 2) s wideOperands
      [.literal s.extraLiterals.length, .x 0] (withWide s) := by
    refine (reads_wideInteger s).bind ?_
    refine Reads.bind_pure (a := [.x 0]) ?_ (Reads.pure _ _)
    exact (reads_xZero _).bind_pure ((Reads.pure [] _).bind_nil (Reads.pure _ _))
  exact (Reads.ofExcept s rfl).bind_nil (hoperands.bind_pure (Reads.ofExcept _ rfl))

theorem readsAll_wideCode (atoms : List Atom) : ∀ (n : ℕ) (s : CompactState) (fuel : ℕ), n ≤ fuel →
    ReadsAll (decodeInstructionsFuel atoms [] fuel) s (wideCode n)
      (wideMoves s.extraLiterals.length n)
      { s with extraLiterals := s.extraLiterals ++ List.replicate n (.integer wideInteger) }
  | 0, s, fuel, _ => by
    have hnil : ReadsAll (decodeInstructionsFuel atoms [] fuel) s [] [] s := by cases fuel <;> rfl
    simpa [wideCode, wideMoves] using hnil
  | n + 1, s, fuel, hfuel => by
    obtain ⟨g, rfl⟩ : ∃ g, fuel = g + 1 := ⟨fuel - 1, by omega⟩
    have hrec := readsAll_wideCode atoms n (withWide s) g (by omega)
    have hone := readsAll_instructions_cons (by norm_num) (by norm_num) (reads_wideOperands s) hrec
    simpa [withWide, wideMoves, wideCode, List.replicate_succ] using hone

theorem wideOperands_length : wideOperands.length = 10 := by decide

theorem wideCode_length : ∀ n, (wideCode n).length = 11 * n
  | 0 => rfl
  | n + 1 => by
    rw [wideCode, List.length_cons, List.length_append, wideOperands_length, wideCode_length n]
    omega

theorem mem_wideMoves : ∀ {n index : ℕ} {i : Instruction}, i ∈ wideMoves index n →
    ∃ k, i = .move (.literal k) (.x 0) ∧ k < index + n
  | 0, _, _, h => by simp [wideMoves] at h
  | n + 1, index, i, h => by
    rcases List.mem_cons.mp h with rfl | h
    · exact ⟨index, rfl, by omega⟩
    · obtain ⟨k, hk, hlt⟩ := mem_wideMoves h
      exact ⟨k, hk, by omega⟩

theorem checkHeader_wideMoves (n : ℕ) : checkHeader (wideMoves 0 n) 64 0 = .ok () := by
  have hlabel : labelAbove (wideMoves 0 n) 0 = none := by
    rw [labelAbove, List.findSome?_eq_none_iff]
    intro i hi
    obtain ⟨k, rfl, -⟩ := mem_wideMoves hi
    rfl
  have hmax : maxHeaderOpcode (wideMoves 0 n) = none := by
    have hnil : (wideMoves 0 n).filterMap Instruction.headerOpcode = [] := by
      rw [List.filterMap_eq_nil_iff]
      intro i hi
      obtain ⟨k, rfl, -⟩ := mem_wideMoves hi
      rfl
    rw [maxHeaderOpcode, hnil]
    rfl
  rw [checkHeader, hlabel, hmax]

theorem decodeCodeChunk_wide (atoms : List Atom) (n : ℕ) :
    decodeCodeChunk (u32Bytes 16 ++ u32Bytes 0 ++ u32Bytes 64 ++ u32Bytes 0 ++ u32Bytes 0 ++
      wideCode n) atoms [] = .ok (wideMoves 0 n, List.replicate n (.integer wideInteger)) := by
  set header := u32Bytes 16 ++ u32Bytes 0 ++ u32Bytes 64 ++ u32Bytes 0 ++ u32Bytes 0 with hheader
  have hlen : header.length = 20 := rfl
  have hrun := readsAll_wideCode atoms n .initial (wideCode n).length
    (by rw [wideCode_length]; omega)
  have hdec : decodeInstructions (wideCode n) atoms [] =
      .ok (wideMoves 0 n, List.replicate n (.integer wideInteger)) :=
    except_bind_ok_iff.mpr ⟨_, hrun, rfl⟩
  have hread : ∀ offset, offset + 4 ≤ 20 →
      readU32At (header ++ wideCode n) offset = readU32At header offset := by
    intro offset hoff
    rw [readU32At, readU32At, List.drop_append_of_le_length (by omega),
      List.take_append_of_le_length (by simp [hlen]; omega)]
  have h0 : readU32At header 0 = 16 := by decide
  have h4 : readU32At header 4 = 0 := by decide
  have h8 : readU32At header 8 = 64 := by decide
  have h12 : readU32At header 12 = 0 := by decide
  unfold decodeCodeChunk
  rw [hread 0 (by norm_num), hread 4 (by norm_num), hread 8 (by norm_num), hread 12 (by norm_num),
    h0, h4, h8, h12, if_neg (by simp [hlen]), if_neg (by simp), if_neg (by simp),
    List.drop_left' hlen, hdec]
  exact except_bind_ok_iff.mpr ⟨_, rfl,
    except_bind_ok_iff.mpr ⟨(), checkHeader_wideMoves n, rfl⟩⟩

theorem loadBeamChunks_wide (inflate : Inflate) {n : ℕ} (hn : n ≤ 1000000) :
    loadBeamChunks inflate (wideBytes n) .withCommonAtoms =
      .ok (wideModule n, .withCommonAtoms) := by
  refine loadBeamChunks_code inflate none (decodeCodeChunk_wide [0] n) ?_
  simp only [codeChunks, Option.map_none, Option.toList_none, List.append_nil, frameBody,
    List.flatMap_cons, List.flatMap_nil, frameChunk, List.length_append, u32Bytes_length,
    wideCode_length, List.length_replicate, padding]
  simp [tagBeam, tagAtU8, tagCode, AtomTable.ascii]
  omega

theorem pushUnsigned_length_le (tag : ℕ) {v : ℕ} (h : v < 2 ^ 64) :
    (pushUnsigned tag v).length ≤ 9 := by
  have hsize := Nat.size_le.mpr h
  unfold pushUnsigned pushShort pushWide minimalUnsignedBe
  split_ifs
  · simp
  · simp
  · simp only [List.length_cons, beBytes_length]
    omega

theorem encodeInstructions_wideMoves (e : AtomEncoder) : ∀ (n index position : ℕ),
    index + n ≤ 1000000 → ∃ bytes, encodeInstructions e position (wideMoves index n) = .ok bytes ∧
      bytes.length ≤ 28 * n
  | 0, _, _, _ => ⟨[], rfl, by simp⟩
  | n + 1, index, position, h => by
    obtain ⟨rest, hrest, hlen⟩ :=
      encodeInstructions_wideMoves e n (index + 1) (position + 1) (by omega)
    refine ⟨64 :: ((pushUnsigned 7 4 ++ pushUnsigned 0 index) ++ (pushUnsigned 3 0 ++ [])) ++ rest,
      ?_, ?_⟩
    · rw [wideMoves, encodeInstructions, hrest]
      rfl
    · have h4 := pushUnsigned_length_le 7 (v := 4) (by norm_num)
      have hi := pushUnsigned_length_le 0 (v := index) (by omega)
      have h0 := pushUnsigned_length_le 3 (v := 0) (by norm_num)
      simp only [List.length_append, List.length_cons, List.length_nil]
      omega

theorem encodeLiteralEntries_wide (e : AtomEncoder) : ∀ n, ∃ bytes,
    encodeLiteralEntries e (List.replicate n (.integer wideInteger)) = .ok bytes ∧
      bytes.length = 16 * n
  | 0 => ⟨[], rfl, rfl⟩
  | n + 1 => by
    obtain ⟨rest, hrest, hlen⟩ := encodeLiteralEntries_wide e n
    have hone : ∃ first, encodeLiteralEntry e (.integer wideInteger) = .ok first ∧
        first.length = 16 := ⟨_, rfl, by decide⟩
    obtain ⟨first, hfirst, hflen⟩ := hone
    refine ⟨first ++ rest, ?_, ?_⟩
    · rw [List.replicate_succ, encodeLiteralEntries, hfirst, hrest]
      rfl
    · rw [List.length_append, hflen, hlen]
      omega

theorem encodeLiteralChunk_wide (e : AtomEncoder) {n : ℕ} (hn : n ≤ 1000000) : ∃ chunk,
    encodeLiteralChunk e (List.replicate n (.integer wideInteger)) = .ok chunk ∧
      ∀ bytes ∈ chunk, bytes.length ≤ 16 * n + 8 := by
  unfold encodeLiteralChunk
  split_ifs with hempty
  · exact ⟨none, rfl, by simp⟩
  · obtain ⟨entries, hentries, hlen⟩ := encodeLiteralEntries_wide e n
    refine ⟨some (u32Bytes 0 ++ (u32Bytes n ++ entries)), ?_, ?_⟩
    · rw [List.length_replicate, u32Len, if_pos (by omega), except_ok_bind, hentries,
        except_ok_bind]
      simp only []
      rw [u32Len, if_pos (by simp [hlen]; omega)]
      rfl
    · intro bytes hbytes
      obtain rfl := Option.mem_some_iff.mp hbytes
      simp [hlen]
      omega

theorem frameChunk_length_le (tag data : List UInt8) (ht : tag.length = 4) :
    (frameChunk (tag, data)).length ≤ data.length + 11 := by
  simp only [frameChunk, List.length_append, ht, u32Bytes_length, List.length_replicate, padding]
  omega

theorem moduleChunks_wide {n : ℕ} (hn : n ≤ 1000000) : ∃ chunks,
    moduleChunks (wideModule n) .withCommonAtoms = .ok chunks ∧
      (frameBody chunks).length < 2 ^ 32 := by
  set e : AtomEncoder := ⟨[0], .withCommonAtoms, false⟩
  obtain ⟨body, hbody, hblen⟩ := encodeInstructions_wideMoves e n 0 0 (by omega)
  obtain ⟨literals, hlits, hllen⟩ := encodeLiteralChunk_wide e hn
  have hcode : ∃ code, encodeCodeChunk e (wideMoves 0 n) = .ok code ∧
      code.length ≤ 28 * n + 20 := by
    refine ⟨_, by rw [encodeCodeChunk, hbody]; rfl, ?_⟩
    simp only [List.length_append, u32Bytes_length]
    omega
  obtain ⟨code, hcode, hclen⟩ := hcode
  refine ⟨chunkList (u32Bytes 1 ++ [2, 111, 107]) code (u32Bytes 0) (u32Bytes 0) none literals []
    none none, ?_, ?_⟩
  · have hatoms : encodeAtomChunk e [0] = .ok (u32Bytes 1 ++ [2, 111, 107]) := by rfl
    unfold moduleChunks
    simp only [wideModule, Option.isSome_none]
    rw [hatoms, except_ok_bind, hcode, except_ok_bind, hlits]
    rfl
  · have ha := frameChunk_length_le tagAtU8 (u32Bytes 1 ++ [2, 111, 107]) rfl
    have hc := frameChunk_length_le tagCode code rfl
    have hi := frameChunk_length_le tagImpT (u32Bytes 0) rfl
    have hx := frameChunk_length_le tagExpT (u32Bytes 0) rfl
    have hs := frameChunk_length_le tagStrT [] rfl
    simp only [List.length_append, u32Bytes_length, List.length_cons, List.length_nil] at ha hi hx hs
    cases literals with
    | none =>
      simp only [frameBody, chunkList, Option.map_none, Option.toList_none, List.append_nil,
        List.cons_append, List.nil_append, List.flatMap_cons, List.flatMap_nil, List.length_append,
        tagBeam_length]
      omega
    | some bytes =>
      have hl := frameChunk_length_le tagLitT bytes rfl
      have hb := hllen bytes rfl
      simp only [frameBody, chunkList, Option.map_none, Option.toList_none, List.append_nil,
        Option.map_some, Option.toList_some, List.cons_append, List.nil_append, List.flatMap_cons,
        List.flatMap_nil, List.length_append, tagBeam_length]
      omega

theorem nodesList_wide : ∀ n, nodesList (List.replicate n (.integer wideInteger)) = n
  | 0 => rfl
  | n + 1 => by
    have hone : (Literal.integer wideInteger).nodes = 1 := by simp [Literal.nodes]
    rw [List.replicate_succ, nodesList, nodesList_wide n, hone]
    omega

theorem wideModule_nodes (n : ℕ) : (wideModule n).decodeNodes = 2 * n + 1 := by
  simp only [ParsedModule.decodeNodes, wideModule, tableNodes, List.length_replicate,
    nodesList_wide, List.length_nil, List.length_cons]
  omega

theorem encodeModule_wide {n : ℕ} (hn : n ≤ 1000000) : ∃ bytes,
    encodeModule (wideModule n) .withCommonAtoms = .ok bytes ∧
      (wideModule n).FitsContainer .withCommonAtoms := by
  obtain ⟨chunks, hchunks, hframe⟩ := moduleChunks_wide hn
  refine ⟨frameContainer chunks, by rw [encodeModule, hchunks]; rfl, ?_⟩
  intro chunks' hchunks'
  rwa [Except.ok.inj (hchunks'.symm.trans hchunks)]

/-- A stand-in for a decompressor on a stream that is none. -/
def noInflate : Inflate := fun _ _ => .error (.decodeError "corrupt deflate stream")

theorem load_encodeModule_iff_wide_one : ∃ bytes,
    encodeModule (wideModule 1) .withCommonAtoms = .ok bytes ∧
    (wideModule 1).FitsBudget .withCommonAtoms ∧
    ∃ table, loadBeamChunks noInflate bytes .withCommonAtoms = .ok (wideModule 1, table) := by
  obtain ⟨bytes, henc, hsize⟩ := encodeModule_wide (n := 1) (by norm_num)
  have hfit : (wideModule 1).FitsBudget .withCommonAtoms := ⟨by decide, by decide⟩
  exact ⟨bytes, henc, hfit,
    (load_encodeModule_iff (loadBeamChunks_wide noInflate (by norm_num)) henc hsize).mpr hfit⟩

/-- Half a million wide integers load and encode, but the encoded module no longer loads. -/
theorem not_load_encodeModule : ¬ ∀ (inflate : Inflate) (bytes bytes' : List UInt8)
    (table table' : AtomTable) (m : ParsedModule),
    loadBeamChunks inflate bytes table = .ok (m, table') → encodeModule m table' = .ok bytes' →
    ∃ table'', loadBeamChunks inflate bytes' table' = .ok (m, table'') := by
  intro hall
  have hload := loadBeamChunks_wide noInflate (n := 500000) (by norm_num)
  obtain ⟨chunks, hchunks, hframe⟩ := moduleChunks_wide (n := 500000) (by norm_num)
  have henc : encodeModule (wideModule 500000) .withCommonAtoms = .ok (frameContainer chunks) := by
    rw [encodeModule, hchunks]
    rfl
  obtain ⟨table, hreload⟩ := hall _ _ _ _ _ _ hload henc
  have hfit := (fits_of_loadBeamChunks hchunks hframe hreload).1
  rw [wideModule_nodes, defaultDecodeNodeBudget] at hfit
  omega

end Wide

end Beamr.Loader
