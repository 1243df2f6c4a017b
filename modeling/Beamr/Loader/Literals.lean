import Beamr.Loader.Compact

/-!
# The literal table

External terms of the `LitT` chunk: decoder with its depth, node, byte and atom
allowances, encoder, and the round trip between them. What a literal costs to
decode is a function of the literal (`Literal.nodes`, `Literal.bytes`), so the
budget needed to read an encoded table back is known from the table.
-/
namespace Beamr.Loader

open ByteOrder Decoder

/-! ## Decoder -/

/-- `size_of::<Literal>()` on a 64-bit target. -/
def sizeOfLiteral : ℕ := 32

/-- Intern a decoded name, paying for it when it is new. -/
def internName (bytes : List UInt8) (malformed : LoadError) : LoadM Atom :=
  if h : utf8Valid bytes = true then do
    let s ← getState
    match s.atomTable.lookup bytes with
    | some atom => pure atom
    | none => do
      chargeAtom
      let s ← getState
      setState { s with atomTable := (s.atomTable.intern bytes h).2 }
      pure (s.atomTable.intern bytes h).1
  else fail malformed

def decodeAtomLiteral (bytes : List UInt8) : LoadM Literal := do
  pure (.atom (← internName bytes (.decodeError "ETF atom is not valid UTF-8")))

def descend (nested : Option (LoadM Literal)) : LoadM (LoadM Literal) :=
  ofOption (.decodeError "ETF nesting exceeds limit") nested

def decodeTuple (nested : Option (LoadM Literal)) (arity : ℕ) : LoadM Literal := do
  ensureCount arity 1 "ETF tuple arity"
  chargeBytes (arity * sizeOfLiteral)
  let element ← descend nested
  let elements ← many element arity
  pure (.tuple elements)

def decodeList (nested : Option (LoadM Literal)) : LoadM Literal := do
  let len ← readU32
  ensureCount len 1 "ETF list length"
  chargeBytes (len * sizeOfLiteral)
  let element ← descend nested
  let elements ← many element len
  let tail ← element
  pure (.list elements tail)

def decodePair (element : LoadM Literal) : LoadM (Literal × Literal) := do
  let key ← element
  let value ← element
  pure (key, value)

def decodeMap (nested : Option (LoadM Literal)) : LoadM Literal := do
  let len ← readU32
  ensureCount len 2 "ETF map size"
  chargeBytes (len * (2 * sizeOfLiteral))
  let element ← descend nested
  let pairs ← many (decodePair element) len
  pure (.map pairs)

def decodeExportFun (nested : Option (LoadM Literal)) : LoadM Literal := do
  let element ← descend nested
  let module ← element
  let function ← element
  let arity ← element
  chargeBytes (3 * sizeOfLiteral)
  match module, function, arity with
  | .atom module, .atom function, .integer arity =>
    if 0 ≤ arity ∧ arity < 256 then pure (.exportFun module function arity.toNat)
    else fail (.decodeError "EXPORT_EXT arity out of range")
  | _, _, _ => fail (.decodeError "EXPORT_EXT components must be two atoms and an arity")

/-- Signed value of a sign byte and a little-endian magnitude. -/
def bigMagnitude (sign : UInt8) (magnitude : List UInt8) : ℤ :=
  if sign = 1 then -(leNat magnitude : ℤ) else leNat magnitude

def decodeBigInteger (len : ℕ) : LoadM Literal := do
  let sign ← readU8
  if sign > 1 then fail (.decodeError s!"invalid bignum sign {sign}")
  else do
    let bytes ← readBytes len
    if len ≤ 8 ∧ FitsSigned 64 (bigMagnitude sign bytes) then
      pure (.integer (bigMagnitude sign bytes))
    else do
      chargeBytes (len + 1)
      pure (.bigInteger (sign :: bytes))

/-- The term after its tag byte. -/
def decodeBody (nested : Option (LoadM Literal)) (tag : ℕ) : LoadM Literal :=
  match tag with
  | 70 => do pure (.float (beNat (← readBytes 8)))
  | 97 => do pure (.integer ((← readU8).toNat : ℤ))
  | 98 => do pure (.integer (← readI32))
  | 100 => do decodeAtomLiteral (← readBytes (← readU16))
  | 118 => do decodeAtomLiteral (← readBytes (← readU16))
  | 119 => do decodeAtomLiteral (← readBytes (← readU8).toNat)
  | 104 => do decodeTuple nested (← readU8).toNat
  | 105 => do decodeTuple nested (← readU32)
  | 106 => pure .nil
  | 107 => do
    let len ← readU16
    chargeBytes len
    pure (.string (← readBytes len))
  | 108 => decodeList nested
  | 109 => do
    let len ← readU32
    chargeBytes len
    pure (.binary (← readBytes len))
  | 110 => do decodeBigInteger (← readU8).toNat
  | 111 => do decodeBigInteger (← readU32)
  | 113 => decodeExportFun nested
  | 116 => decodeMap nested
  | other => fail (.decodeError s!"unsupported ETF literal tag {other}")

def decodeTermWith (nested : Option (LoadM Literal)) : LoadM Literal := do
  chargeNode
  decodeBody nested (← readU8).toNat

/-- `decode_external_term` with the nesting allowance still left. -/
def decodeExternalTerm : ℕ → LoadM Literal
  | 0 => decodeTermWith none
  | depth + 1 => decodeTermWith (some (decodeExternalTerm depth))

/-- Run a decoder on a sub-slice of its own. -/
def onSlice {α : Type} (bytes : List UInt8) (d : LoadM α) : LoadM α := fun s c =>
  match d s bytes with
  | .error e => .error e
  | .ok (a, s', _) => .ok (a, s', c)

/-- The bytes of one table entry: version byte, term, nothing more. -/
def decodeVersionedTerm : LoadM Literal := do
  let version ← readU8
  if version ≠ 131 then fail (.decodeError "ETF literal missing version byte")
  else do
    let literal ← decodeExternalTerm maxEtfDepth
    expectEmpty "literal ETF"
    pure literal

def decodeLiteralEntry : LoadM Literal := do
  chargeNode
  let size ← readU32
  let termBytes ← readBytes size
  onSlice termBytes decodeVersionedTerm

/-- Reading at most `limit` bytes of the zlib stream in `bytes`. -/
abbrev Inflate := (bytes : List UInt8) → (limit : ℕ) → Except LoadError (List UInt8)

def decompressBounded (inflate : Inflate) (bytes : List UInt8) (declaredSize : ℕ) :
    LoadM (List UInt8) := do
  let s ← getState
  let limit := s.budget.bytesRemaining
  let out ← ofExcept (inflate bytes (limit + 1))
  require (out.length ≤ limit) (.decodeError "literal chunk exceeds decode byte budget")
  require (out.length == declaredSize)
    (.decodeError s!"literal chunk decompressed to {out.length} bytes, expected {declaredSize}")
  chargeBytes out.length
  pure out

def decodeLiteralPayload : LoadM (List Literal) := do
  let count ← readU32
  ensureCount count 4 "literal count"
  chargeBytes (count * sizeOfLiteral)
  let literals ← many decodeLiteralEntry count
  expectEmpty "literal"
  pure literals

def decodeLiteralChunk (inflate : Inflate) : LoadM (List Literal) := do
  let uncompressedSize ← readU32
  let rest ← remaining
  if uncompressedSize = 0 then do
    chargeBytes rest.length
    onSlice rest decodeLiteralPayload
  else do
    let payload ← decompressBounded inflate rest uncompressedSize
    onSlice payload decodeLiteralPayload

/-! ## Encoder -/

/-- `u32::try_from` on a length. -/
def u32Len (value : ℕ) : Except EncodeError ℕ :=
  if value < 2 ^ 32 then .ok value else .error .valueOutOfRange

def u16Len (value : ℕ) : Except EncodeError ℕ :=
  if value < 2 ^ 16 then .ok value else .error .valueOutOfRange

/-- Bytes without high zeros, at least one. -/
def trimTrailingZeros (bytes : List UInt8) : List UInt8 :=
  let trimmed := bytes.rdropWhile (· == 0)
  if trimmed.isEmpty then bytes.take 1 else trimmed

def encodeInteger (value : ℤ) : List UInt8 :=
  if 0 ≤ value ∧ value < 256 then [97, UInt8.ofNat value.toNat]
  else if FitsSigned 32 value then 98 :: u32Bytes (ofSigned 32 value)
  else
    let trimmed := trimTrailingZeros (leBytes 8 value.natAbs)
    110 :: UInt8.ofNat trimmed.length :: signByte (decide (value < 0)) :: trimmed

def encodeBigInteger : List UInt8 → Except EncodeError (List UInt8)
  | [] => .error .malformedBigInteger
  | sign :: magnitude =>
    if sign > 1 then .error .malformedBigInteger
    else if magnitude.length < 256 then
      .ok (110 :: UInt8.ofNat magnitude.length :: sign :: magnitude)
    else do
      let length ← u32Len magnitude.length
      .ok (111 :: (u32Bytes length ++ sign :: magnitude))

def encodeAtomName (bytes : List UInt8) : Except EncodeError (List UInt8) :=
  if bytes.length < 256 then .ok (119 :: UInt8.ofNat bytes.length :: bytes)
  else do
    let length ← u16Len bytes.length
    .ok (118 :: (u16Bytes length ++ bytes))

/-- Tag and arity of a tuple. -/
def tupleHeader (arity : ℕ) : Except EncodeError (List UInt8) :=
  if arity < 256 then .ok [104, UInt8.ofNat arity]
  else do .ok (105 :: u32Bytes (← u32Len arity))

mutual

def encodeLiteral (e : AtomEncoder) : Literal → Except EncodeError (List UInt8)
  | .integer value => .ok (encodeInteger value)
  | .float bits => .ok (70 :: beBytes 8 bits)
  | .bigInteger bytes => encodeBigInteger bytes
  | .atom atom => do encodeAtomName (← e.resolve atom)
  | .binary bytes => do
      let length ← u32Len bytes.length
      .ok (109 :: (u32Bytes length ++ bytes))
  | .tuple elements => do
      let header ← tupleHeader elements.length
      let body ← encodeLiterals e elements
      .ok (header ++ body)
  | .nil => .ok [106]
  | .list elements tail => do
      let length ← u32Len elements.length
      let body ← encodeLiterals e elements
      let last ← encodeLiteral e tail
      .ok (108 :: (u32Bytes length ++ body ++ last))
  | .map pairs => do
      let length ← u32Len pairs.length
      let body ← encodePairs e pairs
      .ok (116 :: (u32Bytes length ++ body))
  | .string bytes => do
      let length ← u16Len bytes.length
      .ok (107 :: (u16Bytes length ++ bytes))
  | .exportFun module function arity => do
      let moduleName ← encodeAtomName (← e.resolve module)
      let functionName ← encodeAtomName (← e.resolve function)
      .ok (113 :: (moduleName ++ functionName ++ encodeInteger arity))

def encodeLiterals (e : AtomEncoder) : List Literal → Except EncodeError (List UInt8)
  | [] => .ok []
  | literal :: literals => do
      let first ← encodeLiteral e literal
      let rest ← encodeLiterals e literals
      .ok (first ++ rest)

def encodePairs (e : AtomEncoder) : List (Literal × Literal) → Except EncodeError (List UInt8)
  | [] => .ok []
  | (key, value) :: pairs => do
      let keyBytes ← encodeLiteral e key
      let valueBytes ← encodeLiteral e value
      let rest ← encodePairs e pairs
      .ok (keyBytes ++ valueBytes ++ rest)

end

/-- One table entry: size prefix, version byte, term. -/
def encodeLiteralEntry (e : AtomEncoder) (literal : Literal) : Except EncodeError (List UInt8) := do
  let term ← encodeLiteral e literal
  let size ← u32Len (term.length + 1)
  .ok (u32Bytes size ++ 131 :: term)

def encodeLiteralEntries (e : AtomEncoder) : List Literal → Except EncodeError (List UInt8)
  | [] => .ok []
  | literal :: literals => do
      let first ← encodeLiteralEntry e literal
      let rest ← encodeLiteralEntries e literals
      .ok (first ++ rest)

def encodeLiteralChunk (e : AtomEncoder) (literals : List Literal) :
    Except EncodeError (Option (List UInt8)) :=
  if literals.isEmpty then .ok none
  else do
    let count ← u32Len literals.length
    let entries ← encodeLiteralEntries e literals
    let payload := u32Bytes count ++ entries
    let _ ← u32Len payload.length
    .ok (some (u32Bytes 0 ++ payload))

/-! ## Decode cost of a literal -/

mutual

/-- Nodes charged while a literal is decoded. -/
def Literal.nodes : Literal → ℕ
  | .tuple elements => 1 + nodesList elements
  | .list elements tail => 1 + nodesList elements + tail.nodes
  | .map pairs => 1 + nodesPairs pairs
  | .exportFun _ _ _ => 4
  | _ => 1

def nodesList : List Literal → ℕ
  | [] => 0
  | l :: ls => l.nodes + nodesList ls

def nodesPairs : List (Literal × Literal) → ℕ
  | [] => 0
  | (k, v) :: ps => k.nodes + v.nodes + nodesPairs ps

end

mutual

/-- Bytes charged while a literal is decoded. -/
def Literal.bytes : Literal → ℕ
  | .tuple elements => elements.length * sizeOfLiteral + bytesList elements
  | .list elements tail => elements.length * sizeOfLiteral + bytesList elements + tail.bytes
  | .map pairs => pairs.length * (2 * sizeOfLiteral) + bytesPairs pairs
  | .exportFun _ _ _ => 3 * sizeOfLiteral
  | .bigInteger bytes => bytes.length
  | .binary bytes => bytes.length
  | .string bytes => bytes.length
  | _ => 0

def bytesList : List Literal → ℕ
  | [] => 0
  | l :: ls => l.bytes + bytesList ls

def bytesPairs : List (Literal × Literal) → ℕ
  | [] => 0
  | (k, v) :: ps => k.bytes + v.bytes + bytesPairs ps

end

/-! ## Encoded size of a literal -/

/-- Bytes of an atom reference: tag, length, name. -/
def atomNameSize (table : AtomTable) (atom : Atom) : ℕ :=
  match table.resolve atom with
  | some name => if name.length < 256 then 2 + name.length else 3 + name.length
  | none => 0

mutual

/-- Bytes an encoded literal takes, its version byte and size prefix not counted. -/
def Literal.encodedSize (table : AtomTable) : Literal → ℕ
  | .integer value => (encodeInteger value).length
  | .float _ => 9
  | .bigInteger bytes => if bytes.length ≤ 256 then 2 + bytes.length else 5 + bytes.length
  | .atom atom => atomNameSize table atom
  | .binary bytes => 5 + bytes.length
  | .tuple elements => (if elements.length < 256 then 2 else 5) + sizeList table elements
  | .nil => 1
  | .list elements tail => 5 + sizeList table elements + tail.encodedSize table
  | .map pairs => 5 + sizePairs table pairs
  | .string bytes => 3 + bytes.length
  | .exportFun module function arity =>
      1 + atomNameSize table module + atomNameSize table function + (encodeInteger arity).length

def sizeList (table : AtomTable) : List Literal → ℕ
  | [] => 0
  | l :: ls => l.encodedSize table + sizeList table ls

def sizePairs (table : AtomTable) : List (Literal × Literal) → ℕ
  | [] => 0
  | (k, v) :: ps => k.encodedSize table + v.encodedSize table + sizePairs table ps

end

end Beamr.Loader
