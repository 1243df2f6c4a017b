import Beamr.Loader.ChunkCodec
import Beamr.Loader.Code

/-!
# The container, loading and encoding

`FOR1`/`BEAM` framing of chunks, `loadBeamChunks` from bytes to a decoded module and
`encodeModule` back. Loading interns atoms, so it returns the atom table as well.
-/
namespace Beamr.Loader

open ByteOrder Decoder

/-! ## Framing -/

abbrev FourCC := List UInt8

def tagFor1 : FourCC := AtomTable.ascii "FOR1"
def tagBeam : FourCC := AtomTable.ascii "BEAM"
def tagAtU8 : FourCC := AtomTable.ascii "AtU8"
def tagAtom : FourCC := AtomTable.ascii "Atom"
def tagCode : FourCC := AtomTable.ascii "Code"
def tagImpT : FourCC := AtomTable.ascii "ImpT"
def tagExpT : FourCC := AtomTable.ascii "ExpT"
def tagFunT : FourCC := AtomTable.ascii "FunT"
def tagLitT : FourCC := AtomTable.ascii "LitT"
def tagStrT : FourCC := AtomTable.ascii "StrT"
def tagLine : FourCC := AtomTable.ascii "Line"
def tagType : FourCC := AtomTable.ascii "Type"

/-- Zero bytes that align a chunk to four. -/
def padding (length : ℕ) : ℕ := (4 - length % 4) % 4

/-- The chunk loop, on the bytes up to the declared end. -/
def parseChunks (rest : List UInt8) : Except LoadError (List (FourCC × List UInt8)) :=
  if rest = [] then .ok []
  else if rest.length < 8 then .error .invalidFormat
  else
    let length := readU32At rest 4
    if 8 + length > rest.length then .error .invalidFormat
    else if 8 + length + padding length > rest.length then .error .invalidFormat
    else do
      let chunks ← parseChunks (rest.drop (8 + length + padding length))
      .ok ((rest.take 4, (rest.drop 8).take length) :: chunks)
termination_by rest.length
decreasing_by simp only [List.length_drop]; omega

def parseBeamChunks (bytes : List UInt8) : Except LoadError (List (FourCC × List UInt8)) :=
  if bytes.length < 12 ∨ bytes.take 4 ≠ tagFor1 ∨ (bytes.drop 8).take 4 ≠ tagBeam then
    .error .invalidFormat
  else
    let declaredSize := readU32At bytes 4
    if declaredSize + 8 > bytes.length ∨ declaredSize < 4 then .error .invalidFormat
    else parseChunks ((bytes.take (declaredSize + 8)).drop 12)

/-- First chunk with the tag. -/
def findChunk (chunks : List (FourCC × List UInt8)) (tag : FourCC) : Option (List UInt8) :=
  chunks.findSome? fun chunk => if chunk.1 = tag then some chunk.2 else none

/-- Lengths are written as 32-bit words, whatever their size. -/
def frameChunk (chunk : FourCC × List UInt8) : List UInt8 :=
  chunk.1 ++ u32Bytes chunk.2.length ++ chunk.2 ++ List.replicate (padding chunk.2.length) 0

def frameBody (chunks : List (FourCC × List UInt8)) : List UInt8 :=
  tagBeam ++ chunks.flatMap frameChunk

def frameContainer (chunks : List (FourCC × List UInt8)) : List UInt8 :=
  tagFor1 ++ u32Bytes (frameBody chunks).length ++ frameBody chunks

/-! ## Loading -/

structure ParsedModule where
  name : Atom
  atoms : List Atom
  instructions : List Instruction
  imports : List ImportEntry
  exports : List ExportEntry
  lambdas : List LambdaEntry
  literals : List Literal
  stringTable : List UInt8
  lineInfo : List LineInfo
  typeChunk : Option (List UInt8)

/-- Run a chunk decoder on a chunk. -/
def runChunk {α : Type} (d : LoadM α) (s : DecodeState) (bytes : List UInt8) :
    Except LoadError (α × DecodeState) :=
  match d s bytes with
  | .error e => .error e
  | .ok (a, s', _) => .ok (a, s')

/-- A table whose chunk may be absent. -/
def runOptional {α : Type} (d : LoadM (List α)) (s : DecodeState) :
    Option (List UInt8) → Except LoadError (List α × DecodeState)
  | some bytes => runChunk d s bytes
  | none => .ok ([], s)

def required {α : Type} (e : LoadError) : Option α → Except LoadError α
  | some a => .ok a
  | none => .error e

def loadBeamChunks (inflate : Inflate) (bytes : List UInt8) (atomTable : AtomTable) :
    Except LoadError (ParsedModule × AtomTable) := do
  let chunks ← parseBeamChunks bytes
  let atomChunk ← required (.missingChunk "Atom/AtU8")
    ((findChunk chunks tagAtU8).or (findChunk chunks tagAtom))
  let (atoms, s) ← runChunk decodeAtomChunk ⟨atomTable, .default⟩ atomChunk
  let name ← required (.decodeError "atom chunk is empty") atoms.head?
  let (literals, s) ← runOptional (decodeLiteralChunk inflate) s (findChunk chunks tagLitT)
  let codeChunk ← required (.missingChunk "Code") (findChunk chunks tagCode)
  let (instructions, extraLiterals) ← decodeCodeChunk codeChunk atoms literals
  let (imports, s) ← runOptional (decodeImportChunk atoms) s (findChunk chunks tagImpT)
  let (exports, s) ← runOptional (decodeExportChunk atoms) s (findChunk chunks tagExpT)
  let (rawLambdas, s) ← runOptional (decodeLambdaChunk atoms) s (findChunk chunks tagFunT)
  let lambdas ← assignLambdaUniqueIds name s.atomTable rawLambdas
  let (lineInfo, s) ← runOptional decodeLineChunk s (findChunk chunks tagLine)
  .ok ({
    name := name
    atoms := atoms
    instructions := instructions
    imports := imports
    exports := exports
    lambdas := lambdas
    literals := literals ++ extraLiterals
    stringTable := (findChunk chunks tagStrT).getD []
    lineInfo := lineInfo
    typeChunk := findChunk chunks tagType }, s.atomTable)

/-! ## Encoding -/

/-- A chunk written only for a nonempty table. -/
def encodeOptional {α : Type} (encode : List α → Except EncodeError (List UInt8))
    (entries : List α) : Except EncodeError (Option (List UInt8)) :=
  if entries.isEmpty then .ok none else do .ok (some (← encode entries))

/-- The chunks of a module in canonical order. -/
def moduleChunks (m : ParsedModule) (atomTable : AtomTable) :
    Except EncodeError (List (FourCC × List UInt8)) := do
  let e : AtomEncoder := ⟨m.atoms, atomTable, m.typeChunk.isSome⟩
  let atomChunk ← encodeAtomChunk e m.atoms
  let codeChunk ← encodeCodeChunk e m.instructions
  let importChunk ← encodeImportChunk e m.imports
  let exportChunk ← encodeExportChunk e m.exports
  let lambdaChunk ← encodeOptional (encodeLambdaChunk e) m.lambdas
  let literalChunk ← encodeLiteralChunk e m.literals
  let lineChunk ← encodeOptional encodeLineChunk m.lineInfo
  .ok ([(tagAtU8, atomChunk), (tagCode, codeChunk), (tagImpT, importChunk),
      (tagExpT, exportChunk)] ++
    (lambdaChunk.map fun c => (tagFunT, c)).toList ++
    (literalChunk.map fun c => (tagLitT, c)).toList ++
    [(tagStrT, m.stringTable)] ++
    (lineChunk.map fun c => (tagLine, c)).toList ++
    (m.typeChunk.map fun c => (tagType, c)).toList)

def encodeModule (m : ParsedModule) (atomTable : AtomTable) : Except EncodeError (List UInt8) := do
  .ok (frameContainer (← moduleChunks m atomTable))

/-! ## Framed chunks parse to themselves -/

theorem tagFor1_length : tagFor1.length = 4 := rfl

theorem tagBeam_length : tagBeam.length = 4 := rfl

theorem readU32At_four {tag rest : List UInt8} {v : ℕ} (ht : tag.length = 4) (hv : v < 2 ^ 32) :
    readU32At (tag ++ (u32Bytes v ++ rest)) 4 = v := readU32At_append ht hv

theorem parseChunks_nil : parseChunks [] = .ok [] := by
  rw [parseChunks, if_pos rfl]

/-- A chunk in front of others, with as many bytes of any value as align it to four. -/
theorem parseChunks_chunk {tag data fill rest : List UInt8} (ht : tag.length = 4)
    (hlen : data.length < 2 ^ 32) (hfill : fill.length = padding data.length) :
    parseChunks (tag ++ (u32Bytes data.length ++ (data ++ (fill ++ rest)))) =
      (do .ok ((tag, data) :: (← parseChunks rest))) := by
  set whole := tag ++ (u32Bytes data.length ++ (data ++ (fill ++ rest))) with hshape
  have hread : readU32At whole 4 = data.length := readU32At_four ht hlen
  have hwl : whole.length = 8 + data.length + padding data.length + rest.length := by
    rw [hshape]
    simp only [List.length_append, ht, u32Bytes_length, hfill]
    omega
  have hne : whole ≠ [] := by
    intro hnil
    rw [hnil] at hwl
    simp at hwl
    omega
  have htake : whole.take 4 = tag := by rw [hshape, List.take_left' ht]
  have hdata : (whole.drop 8).take data.length = data := by
    rw [hshape, ← List.append_assoc, List.drop_left' (by simp [ht]), List.take_left' rfl]
  have hdrop : whole.drop (8 + data.length + padding data.length) = rest := by
    have hassoc : whole = (tag ++ u32Bytes data.length ++ data ++ fill) ++ rest := by simp [hshape]
    rw [hassoc, List.drop_left' (by simp [ht, hfill]; omega)]
  rw [parseChunks, if_neg hne, if_neg (by omega)]
  simp only [hread, htake, hdata, hdrop]
  rw [if_neg (by omega), if_neg (by omega)]

theorem parseChunks_frameChunk {tag data rest : List UInt8} (ht : tag.length = 4)
    (hlen : data.length < 2 ^ 32) :
    parseChunks (frameChunk (tag, data) ++ rest) =
      (do .ok ((tag, data) :: (← parseChunks rest))) := by
  rw [← parseChunks_chunk ht hlen (List.length_replicate (a := (0 : UInt8)))]
  simp [frameChunk]

theorem parseChunks_flatMap : ∀ (chunks : List (FourCC × List UInt8)),
    (∀ c ∈ chunks, c.1.length = 4 ∧ c.2.length < 2 ^ 32) →
    parseChunks (chunks.flatMap frameChunk) = .ok chunks
  | [], _ => parseChunks_nil
  | (tag, data) :: chunks, h => by
    obtain ⟨ht, hlen⟩ := h (tag, data) (by simp)
    have hrec := parseChunks_flatMap chunks fun c hc => h c (by simp [hc])
    rw [List.flatMap_cons, parseChunks_frameChunk ht hlen, hrec]
    rfl

theorem le_flatMap_frameChunk {chunks : List (FourCC × List UInt8)} {c : FourCC × List UInt8}
    (h : c ∈ chunks) : c.2.length ≤ (chunks.flatMap frameChunk).length := by
  have hone : c.2.length ≤ (frameChunk c).length := by simp [frameChunk]; omega
  obtain ⟨pre, post, rfl⟩ := List.append_of_mem h
  simp only [List.flatMap_append, List.flatMap_cons, List.length_append]
  omega

/-- The container of chunks that together stay below `2^32` bytes parses to the chunks. -/
theorem parseBeamChunks_frameContainer (chunks : List (FourCC × List UInt8))
    (htags : ∀ c ∈ chunks, c.1.length = 4) (hsize : (frameBody chunks).length < 2 ^ 32) :
    parseBeamChunks (frameContainer chunks) = .ok chunks := by
  have hbody : (frameBody chunks).length = 4 + (chunks.flatMap frameChunk).length := by
    rw [frameBody, List.length_append, tagBeam_length]
  have hlen : (frameContainer chunks).length = 8 + (frameBody chunks).length := by
    rw [frameContainer, List.length_append, List.length_append, tagFor1_length, u32Bytes_length]
  have hread : readU32At (frameContainer chunks) 4 = (frameBody chunks).length := by
    rw [frameContainer, List.append_assoc]
    exact readU32At_four rfl hsize
  have hfor : (frameContainer chunks).take 4 = tagFor1 := by
    rw [frameContainer, List.append_assoc, List.take_left' tagFor1_length]
  have hdrop8 : (frameContainer chunks).drop 8 = frameBody chunks := by
    rw [frameContainer, List.drop_left' (by
      rw [List.length_append, tagFor1_length, u32Bytes_length])]
  have hbeam : ((frameContainer chunks).drop 8).take 4 = tagBeam := by
    rw [hdrop8, frameBody, List.take_left' tagBeam_length]
  have hrest : ((frameContainer chunks).take ((frameBody chunks).length + 8)).drop 12 =
      chunks.flatMap frameChunk := by
    rw [List.take_of_length_le (by omega), show 12 = 8 + 4 from rfl, ← List.drop_drop, hdrop8,
      frameBody, List.drop_left' tagBeam_length]
  unfold parseBeamChunks
  rw [if_neg (by rw [hfor, hbeam]; simp; omega)]
  simp only [hread]
  rw [if_neg (by omega), hrest]
  refine parseChunks_flatMap chunks fun c hc => ⟨htags c hc, ?_⟩
  have := le_flatMap_frameChunk hc
  omega

end Beamr.Loader
