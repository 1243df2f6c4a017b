import Beamr.Etf.Decode

/-!
# Terms between nodes

The codec of the distribution. It writes the parts of a term as the codec of the runtime does, but
no strings and no export funs, and it also takes references of other nodes. Its decoder is one of
its own: it knows two widths of a big integer's magnitude, the one of a machine word and the others.
The nesting is counted down: `left` is how much of `MAX_ETF_DEPTH` a term may still use.
-/
namespace Beamr.Distribution.TermCodec

open Term ByteOrder Decoder
open Etf (EncodeError DecodeState maxEtfDepth encodeInteger encodeBigint encodeAtom encodeFloat
  encodeReference encodePid encodeExternalPid encodeBinary tupleHeader mapHeader listHeader
  collectList)

/-! ## The encoder -/

/-- Two id words, the high one first. -/
def encodeExternalReference (table : AtomTable) (node : Atom) (id : UInt64) :
    Except EncodeError (List UInt8) := do
  let node ← encodeAtom table node
  .ok (Etf.Tags.newerReferenceExt :: beBytes 2 2 ++ node ++ beBytes 4 0 ++
    beBytes 4 (id.toNat / 2 ^ 32) ++ beBytes 4 (id.toNat % 2 ^ 32))

def encodeTermInner (table : AtomTable) : ℕ → Value → Except EncodeError (List UInt8)
  | 0, _ => .error .tooDeep
  | left + 1, v =>
    match v with
    | .number (.smallInt n) => encodeInteger n.value
    | .number (.float x) => .ok (encodeFloat x)
    | .number (.bigInt negative limbs) => encodeBigint negative limbs
    | .atom a => encodeAtom table a
    | .pid (.local number) => encodePid number
    | .pid (.remote node number serial) => encodeExternalPid table node number serial
    | .reference (.local id) => encodeReference id
    | .reference (.remote node id) => encodeExternalReference table node id
    | .tuple elements => do
      let header ← tupleHeader elements.length
      let body ← elements.mapM (encodeTermInner table left)
      .ok (header ++ body.flatten)
    | .binary b => encodeBinary b
    | .map entries => do
      let header ← mapHeader entries.length
      let body ← (entries.flatMap fun e => [e.1, e.2]).mapM (encodeTermInner table left)
      .ok (header ++ body.flatten)
    | .nil => .ok [Etf.Tags.nilExt]
    | .cons head tail => do
      let (elements, last) := collectList (.cons head tail)
      let header ← listHeader elements.length
      let body ← (elements ++ [last]).mapM (encodeTermInner table left)
      .ok (header ++ body.flatten)
    | .closure _ _ => .error .unsupportedTerm
    | .other _ => .error .unsupportedTerm

def encodeTermResult (table : AtomTable) (term : Value) : Except EncodeError (List UInt8) := do
  .ok (Etf.Tags.version :: (← encodeTermInner table (maxEtfDepth + 1) term))

/-! ## The decoder -/

inductive DecodeError
  | emptyInput
  | badVersion (version : UInt8)
  | truncated
  | trailingBytes
  | unsupportedTag (tag : UInt8)
  | invalidUtf8
  | tooDeep
  | integerOutOfRange
  | invalidBigSign (sign : UInt8)
  | invalidExternalNode
  | invalidReferenceArity (arity : ℕ)
  | heapAllocationFailed
  deriving DecidableEq

/-- A decoder that works on an atom table and on a heap with so many words available. -/
abbrev TermDecoder := Decoder DecodeError (DecodeState ℕ)

def readU8 : TermDecoder UInt8 := byte .truncated

def readBytes (n : ℕ) : TermDecoder (List UInt8) := take .truncated n

def readU16 : TermDecoder ℕ := do return beNat (← readBytes 2)

def readU32 : TermDecoder ℕ := do return beNat (← readBytes 4)

def readI32 : TermDecoder ℤ := do return toSigned 32 (← readU32)

/-- Every term takes a byte at least. -/
def ensureDecodableSequence (termCount : ℕ) : TermDecoder Unit := do
  require (termCount ≤ (← remaining).length) .truncated

def alloc (words : ℕ) (term : Value) : TermDecoder Value := do
  let s ← getState
  require (words ≤ s.heap) .heapAllocationFailed
  setState { s with heap := s.heap - words }
  return term

/-- The cells are made from the last one on. -/
def allocList : List Value → Value → TermDecoder Value
  | [], tail => return tail
  | element :: rest, tail => do alloc 2 (.cons element (← allocList rest tail))

def decodeAtom (name : List UInt8) : TermDecoder Value :=
  if h : utf8Valid name = true then do
    let s ← getState
    setState { s with atoms := (s.atoms.intern name h).2 }
    return .atom (s.atoms.intern name h).1
  else fail .invalidUtf8

def decodeSmallInteger (value : ℤ) : TermDecoder Value := do
  return .number (.smallInt (← ofOption .integerOutOfRange (Etf.trySmallInt value)))

def decodeSign : TermDecoder Bool := do
  match ← readU8 with
  | 0 => return false
  | 1 => return true
  | other => fail (.invalidBigSign other)

def allocBigint (negative : Bool) (limbs : List UInt64) : TermDecoder Value :=
  alloc (3 + limbs.length) (.number (.bigInt negative limbs))

/-- The value of up to eight bytes has to be an `i64`. -/
def decodeWord (signed : ℤ) : TermDecoder Value :=
  if FitsSigned 64 signed then
    match Etf.trySmallInt signed with
    | some n => return .number (.smallInt n)
    | none => allocBigint (signed < 0) [UInt64.ofNat signed.natAbs]
  else fail .integerOutOfRange

def decodeBigInteger (length : ℕ) : TermDecoder Value := do
  let negative ← decodeSign
  let bytes ← readBytes length
  if length ≤ 8 then decodeWord (if negative then -leNat bytes else leNat bytes)
  else allocBigint negative (Etf.limbsOf bytes)

section Nested

-- `decodeOne` decodes a term one level further down.
variable (decodeOne : TermDecoder Value)

def decodeTuple (arity : ℕ) : TermDecoder Value := do
  ensureDecodableSequence arity
  let elements ← many decodeOne arity
  alloc (1 + elements.length) (.tuple elements)

def decodeList (length : ℕ) : TermDecoder Value := do
  ensureDecodableSequence (length + 1)
  let elements ← many decodeOne length
  let tail ← decodeOne
  allocList elements tail

def decodeEntry : TermDecoder (Value × Value) := do
  let key ← decodeOne
  let value ← decodeOne
  return (key, value)

def decodeMap (length : ℕ) : TermDecoder Value := do
  ensureDecodableSequence (length * 2)
  let entries ← many (decodeEntry decodeOne) length
  alloc (2 + entries.length + entries.length) (.map entries)

/-- The node of a pid or a reference is itself a term. -/
def decodeNodeAtom : TermDecoder Atom := do
  match ← decodeOne with
  | .atom node => return node
  | _ => fail .invalidExternalNode

def decodeNewPid : TermDecoder Value := do
  let node ← decodeNodeAtom decodeOne
  let id ← readU32
  let serial ← readU32
  let _ ← readU32
  alloc 4 (.pid (.remote node (UInt64.ofNat id) (UInt64.ofNat serial)))

def decodeNewerReference : TermDecoder Value := do
  let length ← readU16
  require (length ≠ 0 ∧ length ≤ 2) (.invalidReferenceArity length)
  let node ← decodeNodeAtom decodeOne
  let _ ← readU32
  let words ← many readU32 length
  let id : UInt64 := words.foldl (fun id word => (id <<< 32) ||| UInt64.ofNat word) 0
  alloc 3 (.reference (.remote node id))

def decodeBody (tag : UInt8) : TermDecoder Value :=
  if tag = Etf.Tags.newFloatExt then do
    let bytes ← readBytes 8
    alloc 2 (.number (.float (Etf.f64FromBits (beNat bytes))))
  else if tag = Etf.Tags.smallIntegerExt then do return Etf.smallInt (← readU8)
  else if tag = Etf.Tags.integerExt then do decodeSmallInteger (← readI32)
  else if tag = Etf.Tags.atomUtf8Ext then do
    let length ← readU16
    decodeAtom (← readBytes length)
  else if tag = Etf.Tags.smallAtomUtf8Ext then do
    let length ← readU8
    decodeAtom (← readBytes length.toNat)
  else if tag = Etf.Tags.smallTupleExt then do decodeTuple decodeOne (← readU8).toNat
  else if tag = Etf.Tags.largeTupleExt then do decodeTuple decodeOne (← readU32)
  else if tag = Etf.Tags.nilExt then return .nil
  else if tag = Etf.Tags.stringExt then do
    let length ← readU16
    let bytes ← readBytes length
    allocList (bytes.map Etf.smallInt) .nil
  else if tag = Etf.Tags.listExt then do decodeList decodeOne (← readU32)
  else if tag = Etf.Tags.binaryExt then do
    let length ← readU32
    let bytes ← readBytes length
    alloc (Etf.allocBinaryWordCount bytes.length) (.binary (Etf.storedBinary bytes))
  else if tag = Etf.Tags.smallBigExt then do decodeBigInteger (← readU8).toNat
  else if tag = Etf.Tags.largeBigExt then do decodeBigInteger (← readU32)
  else if tag = Etf.Tags.mapExt then do decodeMap decodeOne (← readU32)
  else if tag = Etf.Tags.newPidExt then decodeNewPid decodeOne
  else if tag = Etf.Tags.newerReferenceExt then decodeNewerReference decodeOne
  else fail (.unsupportedTag tag)

end Nested

def decodeOne : ℕ → TermDecoder Value
  | 0 => fail .tooDeep
  | left + 1 => do decodeBody (decodeOne left) (← readU8)

/-- The version byte and one term. -/
def decodeTermPrefix : TermDecoder Value := do
  let bytes ← remaining
  require (!bytes.isEmpty) .emptyInput
  let version ← readU8
  require (version == Etf.Tags.version) (.badVersion version)
  decodeOne (maxEtfDepth + 1)

def decodeTerm (s : DecodeState ℕ) (bytes : List UInt8) :
    Except DecodeError (Value × DecodeState ℕ) :=
  match decodeTermPrefix s bytes with
  | .error e => .error e
  | .ok (term, s, rest) => if rest.isEmpty then .ok (term, s) else .error .trailingBytes

end Beamr.Distribution.TermCodec
