import Beamr.Loader.LiteralCodec

/-!
# Index tables

The atom, import, export, lambda and line chunks. Import, export and lambda tables
have one shape: a count, a charge for the vector, and per entry a node and a fixed
number of 32-bit words.
-/
namespace Beamr.Loader

open ByteOrder Decoder

/-! ## Decoders -/

/-- `size_of` of the table entries on a 64-bit target. -/
def sizeOfAtom : ℕ := 4
def sizeOfImportEntry : ℕ := 12
def sizeOfExportEntry : ℕ := 12
def sizeOfLambdaEntry : ℕ := 24
def sizeOfLineInfo : ℕ := 8

/-- Length prefix of a name in the negative-count form. -/
def readCompactLength : LoadM ℕ := do
  let (tag, value) ← readTaggedInteger
  if tag ≠ 0 ∨ value < 0 then fail (.decodeError "malformed AtU8 atom length")
  else pure value.toNat

def readAtomLength (compactLengths : Bool) : LoadM ℕ :=
  if compactLengths then readCompactLength
  else do pure (← readU8).toNat

def decodeAtomEntry (compactLengths : Bool) : LoadM Atom := do
  chargeNode
  let len ← readAtomLength compactLengths
  let text ← readBytes len
  internName text (.decodeError "atom name is not valid UTF-8")

def decodeAtomChunk : LoadM (List Atom) := do
  let rawCount ← readI32
  ensureCount rawCount.natAbs 1 "atom count"
  chargeBytes (rawCount.natAbs * sizeOfAtom)
  let atoms ← many (decodeAtomEntry (decide (rawCount < 0))) rawCount.natAbs
  expectEmpty "atom"
  pure atoms

def resolveAtom (index : ℕ) (atoms : List Atom) : Except LoadError Atom :=
  if index = 0 then .error (.decodeError "atom index 0 is invalid here")
  else match atoms[index - 1]? with
    | some atom => .ok atom
    | none => .error (.decodeError s!"atom index {index} out of range")

def checkedArity (value : ℕ) : Except LoadError ℕ :=
  if value < 256 then .ok value else .error (.decodeError s!"arity {value} out of range")

/-- Count, vector charge, and per entry a node and the entry's own words. -/
def decodeTable {α : Type} (name label : String) (entryBytes entrySize : ℕ) (entry : LoadM α) :
    LoadM (List α) := do
  let count ← readU32
  ensureCount count entryBytes label
  chargeBytes (count * entrySize)
  let entries ← many (chargeNode >>= fun _ => entry) count
  expectEmpty name
  pure entries

def decodeImportEntry (atoms : List Atom) : LoadM ImportEntry := do
  let module ← ofExcept (resolveAtom (← readU32) atoms)
  let function ← ofExcept (resolveAtom (← readU32) atoms)
  let arity ← ofExcept (checkedArity (← readU32))
  pure ⟨module, function, arity⟩

def decodeImportChunk (atoms : List Atom) : LoadM (List ImportEntry) :=
  decodeTable "import" "import count" 12 sizeOfImportEntry (decodeImportEntry atoms)

def decodeExportEntry (atoms : List Atom) : LoadM ExportEntry := do
  let function ← ofExcept (resolveAtom (← readU32) atoms)
  let arity ← ofExcept (checkedArity (← readU32))
  let label ← readU32
  pure ⟨function, arity, label⟩

def decodeExportChunk (atoms : List Atom) : LoadM (List ExportEntry) :=
  decodeTable "export" "export count" 12 sizeOfExportEntry (decodeExportEntry atoms)

/-- The index and the old unique value are read and dropped; the identifier is assigned later. -/
def decodeLambdaEntry (atoms : List Atom) : LoadM LambdaEntry := do
  let function ← ofExcept (resolveAtom (← readU32) atoms)
  let arity ← ofExcept (checkedArity (← readU32))
  let label ← readU32
  let _index ← readU32
  let numFree ← readU32
  let _oldUniq ← readU32
  pure ⟨function, arity, label, numFree, 0⟩

def decodeLambdaChunk (atoms : List Atom) : LoadM (List LambdaEntry) :=
  decodeTable "lambda" "lambda count" 24 sizeOfLambdaEntry (decodeLambdaEntry atoms)

/-- `u32::try_from` on a line number or file index. -/
def lineU32 (value : ℤ) (context : String) : Except LoadError ℕ :=
  if 0 ≤ value ∧ value < 2 ^ 32 then .ok value.toNat
  else .error (.decodeError s!"{context} {value} out of range")

/-- One line item and the file it leaves current. -/
def decodeLine (currentFile : ℕ) : LoadM LineInfo := do
  chargeNode
  let (tag, value) ← readTaggedInteger
  if tag = 0 ∨ tag = 1 then do
    let line ← ofExcept (lineU32 value "line number")
    pure ⟨currentFile, line⟩
  else if tag = 2 then do
    let file ← ofExcept (lineU32 value "line file index")
    let (lineTag, lineValue) ← readTaggedInteger
    if lineTag ≠ 1 then
      fail (.decodeError s!"expected line number after file ref, got compact tag {lineTag}")
    else do
      let line ← ofExcept (lineU32 lineValue "line number")
      pure ⟨file, line⟩
  else fail (.decodeError s!"unsupported line compact tag {tag}")

/-- The line items; the file of one is the current file of the next. -/
def decodeLines : ℕ → ℕ → LoadM (List LineInfo)
  | _, 0 => pure []
  | currentFile, n + 1 => do
    let line ← decodeLine currentFile
    let lines ← decodeLines line.file n
    pure (line :: lines)

/-- The line chunk when it is not empty. -/
def decodeLineTable : LoadM (List LineInfo) := do
  let _version ← readU32
  let _flags ← readU32
  let _numLineInstrs ← readU32
  let numLines ← readU32
  let _numFnames ← readU32
  ensureCount numLines 1 "line count"
  chargeBytes (numLines * sizeOfLineInfo)
  let lines ← decodeLines 0 numLines
  require (lines.length == numLines)
    (.decodeError s!"Line chunk declared {numLines} lines but decoded {lines.length}")
  pure lines

def decodeLineChunk : LoadM (List LineInfo) := do
  let unread ← remaining
  if unread.isEmpty then pure [] else decodeLineTable

/-! ## Lambda identifiers -/

/-- One byte of FNV-1a on 64-bit words. -/
def hashByte (hash : UInt64) (b : UInt8) : UInt64 := (hash ^^^ b.toUInt64) * 0x100000001b3

def hashBytes (hash : UInt64) (bytes : List UInt8) : UInt64 := bytes.foldl hashByte hash

def hashBytesWithLen (hash : UInt64) (bytes : List UInt8) : UInt64 :=
  hashBytes (hashBytes hash (beBytes 8 bytes.length)) bytes

def lambdaUniqueId (atomTable : AtomTable) (moduleName functionName : Atom) (arity numFree : ℕ) :
    Except LoadError ℕ :=
  match atomTable.resolve moduleName with
  | none => .error (.decodeError "module atom is not interned")
  | some moduleBytes =>
    match atomTable.resolve functionName with
    | none => .error (.decodeError "lambda function atom is not interned")
    | some functionBytes =>
      let hash := hashBytesWithLen 0xcbf29ce484222325 moduleBytes
      let hash := hashBytesWithLen hash functionBytes
      let hash := hashBytes hash [UInt8.ofNat arity]
      .ok (hashBytes hash (u32Bytes numFree)).toNat

def assignLambdaUniqueIds (moduleName : Atom) (atomTable : AtomTable) :
    List LambdaEntry → Except LoadError (List LambdaEntry)
  | [] => .ok []
  | lambda :: lambdas => do
    let uniqueId ←
      lambdaUniqueId atomTable moduleName lambda.function lambda.arity lambda.numFree
    let rest ← assignLambdaUniqueIds moduleName atomTable lambdas
    .ok ({ lambda with uniqueId := uniqueId } :: rest)

/-! ## Encoders -/

/-- Concatenate the encodings of a list, each given its position. -/
def encodeEntries {α : Type} (f : ℕ → α → Except EncodeError (List UInt8)) :
    ℕ → List α → Except EncodeError (List UInt8)
  | _, [] => .ok []
  | index, a :: as => do
    let first ← f index a
    let rest ← encodeEntries f (index + 1) as
    .ok (first ++ rest)

def encodeAtomEntry (compactLengths : Bool) (name : List UInt8) : List UInt8 :=
  if compactLengths then pushUnsigned 0 name.length ++ name
  else UInt8.ofNat name.length :: name

def encodeAtomChunk (e : AtomEncoder) (atoms : List Atom) : Except EncodeError (List UInt8) := do
  let names ← atoms.mapM e.resolve
  if names.length < 2 ^ 31 then
    let compactLengths := names.any fun name => decide (255 < name.length)
    let count : ℤ := if compactLengths then -(names.length : ℤ) else names.length
    .ok (u32Bytes (ofSigned 32 count) ++ names.flatMap (encodeAtomEntry compactLengths))
  else .error .valueOutOfRange

def encodeTable {α : Type} (f : ℕ → α → Except EncodeError (List UInt8)) (entries : List α) :
    Except EncodeError (List UInt8) := do
  let count ← u32Len entries.length
  let body ← encodeEntries f 0 entries
  .ok (u32Bytes count ++ body)

def encodeImportEntry (e : AtomEncoder) (_position : ℕ) (entry : ImportEntry) :
    Except EncodeError (List UInt8) := do
  let module ← e.indexOf entry.module
  let function ← e.indexOf entry.function
  .ok (u32Bytes module ++ u32Bytes function ++ u32Bytes entry.arity)

def encodeImportChunk (e : AtomEncoder) (imports : List ImportEntry) :
    Except EncodeError (List UInt8) := encodeTable (encodeImportEntry e) imports

def encodeExportEntry (e : AtomEncoder) (_position : ℕ) (entry : ExportEntry) :
    Except EncodeError (List UInt8) := do
  let function ← e.indexOf entry.function
  .ok (u32Bytes function ++ u32Bytes entry.arity ++ u32Bytes entry.label)

def encodeExportChunk (e : AtomEncoder) (exports : List ExportEntry) :
    Except EncodeError (List UInt8) := encodeTable (encodeExportEntry e) exports

def encodeLambdaEntry (e : AtomEncoder) (position : ℕ) (entry : LambdaEntry) :
    Except EncodeError (List UInt8) := do
  let function ← e.indexOf entry.function
  let index ← u32Len position
  .ok (u32Bytes function ++ u32Bytes entry.arity ++ u32Bytes entry.label ++ u32Bytes index ++
    u32Bytes entry.numFree ++ u32Bytes 0)

def encodeLambdaChunk (e : AtomEncoder) (lambdas : List LambdaEntry) :
    Except EncodeError (List UInt8) := encodeTable (encodeLambdaEntry e) lambdas

/-- A file reference only when the file changes. -/
def encodeLine (currentFile : ℕ) (info : LineInfo) : List UInt8 :=
  (if info.file ≠ currentFile then pushUnsigned 2 info.file else []) ++ pushSigned 1 info.line

def encodeLines : ℕ → List LineInfo → List UInt8
  | _, [] => []
  | currentFile, info :: infos => encodeLine currentFile info ++ encodeLines info.file infos

def encodeLineChunk (lineInfo : List LineInfo) : Except EncodeError (List UInt8) := do
  let count ← u32Len lineInfo.length
  .ok (u32Bytes 0 ++ u32Bytes 0 ++ u32Bytes count ++ u32Bytes count ++ u32Bytes 0 ++
    encodeLines 0 lineInfo)

end Beamr.Loader
