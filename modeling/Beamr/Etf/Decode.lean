import Beamr.Etf.Encode
import Beamr.Lib.Decoder

/-!
# The external term format: decoder

The decoder of the runtime. The atom table and the heap of the calling process are its state; what
the heap grants is a parameter. The nesting is counted down as in the encoder: `left` is how much of
`MAX_ETF_DEPTH` a term may still use.
-/
namespace Beamr.Etf

open Term ByteOrder Decoder

inductive DecodeError
  | emptyInput
  | badVersion (version : UInt8)
  | truncated
  | trailingBytes
  | unsupportedTag (tag : UInt8)
  | invalidUtf8
  | unsafeAtom (name : List UInt8)
  | tooDeep
  | integerOutOfRange
  | invalidBigSign (sign : UInt8)
  | heapAllocationFailed
  | invalidExportFunction
  | sizeLimitExceeded
  | decompressionFailed
  | decompressedSizeMismatch (expected actual : ℕ)
  deriving DecidableEq

structure DecodeOptions where
  safe : Bool := false
  returnUsed : Bool := false

structure DecodedTerm where
  term : Value
  used : ℕ

/-- The heap terms are decoded to: its limit, and how it answers a request for words. -/
structure DecodeContext (H : Type) where
  maxHeapWords : ℕ
  allocWords : H → ℕ → Option H

structure DecodeState (H : Type) where
  atoms : AtomTable
  heap : H

variable {H : Type} (context : DecodeContext H) (options : DecodeOptions)

/-! ## The cursor -/

def readU8 : Decoder DecodeError (DecodeState H) UInt8 := byte .truncated

def readBytes (n : ℕ) : Decoder DecodeError (DecodeState H) (List UInt8) := take .truncated n

def readU16 : Decoder DecodeError (DecodeState H) ℕ := do return beNat (← readBytes 2)

def readU32 : Decoder DecodeError (DecodeState H) ℕ := do return beNat (← readBytes 4)

def readI32 : Decoder DecodeError (DecodeState H) ℤ := do return toSigned 32 (← readU32)

def expectEmpty : Decoder DecodeError (DecodeState H) Unit := do
  require (← remaining).isEmpty .trailingBytes

/-! ## The heap -/

def ensureHeapWords (words : ℕ) : Decoder DecodeError (DecodeState H) Unit :=
  require (words ≤ context.maxHeapWords) .sizeLimitExceeded

/-- Every allocator asks for its words and then writes the term. -/
def alloc (words : ℕ) (term : Value) : Decoder DecodeError (DecodeState H) Value := do
  let s ← getState
  let heap ← ofOption .heapAllocationFailed (context.allocWords s.heap words)
  setState { s with heap }
  return term

def packedWordCount (bytes : ℕ) : ℕ := (bytes + 7) / 8

def refcBinaryThreshold : ℕ := 64

def procBinWords : ℕ := 3

def allocBinaryWordCount (length : ℕ) : ℕ :=
  if length ≤ refcBinaryThreshold then 2 + packedWordCount length else procBinWords

/-- Bytes over the threshold go off the heap. -/
def storedBinary (bytes : List UInt8) : BinaryRef :=
  if bytes.length ≤ refcBinaryThreshold then .inline bytes else .refc bytes

def listWithTail (elements : List Value) (tail : Value) : Value := elements.foldr .cons tail

/-! ## Parts -/

def trySmallInt (value : ℤ) : Option SmallInt :=
  if h : -(2 ^ 60) ≤ value ∧ value < 2 ^ 60 then some (.ofRange value h) else none

def smallInt (b : UInt8) : Value :=
  .number (.smallInt ⟨b.toNat, by omega, by have := b.toNat_lt; omega⟩)

def decodeSmallInteger (value : ℤ) : Decoder DecodeError (DecodeState H) Value := do
  return .number (.smallInt (← ofOption .integerOutOfRange (trySmallInt value)))

def f64FromBits (bits : ℕ) : Float64 :=
  ⟨decide (2 ^ 63 ≤ bits), bits % 2 ^ 63, Nat.mod_lt _ (by norm_num)⟩

def decodeAtom (name : List UInt8) : Decoder DecodeError (DecodeState H) Value :=
  if h : utf8Valid name = true then do
    let s ← getState
    if options.safe then
      return .atom (← ofOption (.unsafeAtom name) (s.atoms.lookup name))
    else
      setState { s with atoms := (s.atoms.intern name h).2 }
      return .atom (s.atoms.intern name h).1
  else fail .invalidUtf8

/-- The limbs of a little-endian magnitude. -/
def limbsOf (bytes : List UInt8) : List UInt64 :=
  (chunks8 bytes).map fun chunk => UInt64.ofNat (leNat chunk)

def allocBigint (negative : Bool) (limbs : List UInt64) : Decoder DecodeError (DecodeState H) Value :=
  alloc context (3 + limbs.length) (.number (.bigInt negative limbs))

def decodeSign : Decoder DecodeError (DecodeState H) Bool := do
  match ← readU8 with
  | 0 => return false
  | 1 => return true
  | other => fail (.invalidBigSign other)

def decodeBigInteger (length : ℕ) : Decoder DecodeError (DecodeState H) Value := do
  let negative ← decodeSign
  let bytes ← readBytes length
  if length ≤ 8 then
    let value := leNat bytes
    if value < 2 ^ 63 then
      let integer : ℤ := if negative then -value else value
      match trySmallInt integer with
      | some n => return .number (.smallInt n)
      | none => allocBigint context (integer < 0) [UInt64.ofNat integer.natAbs]
    else if negative ∧ value = 2 ^ 63 then allocBigint context true [UInt64.ofNat (2 ^ 63)]
    else allocBigint context negative [UInt64.ofNat value]
  else
    ensureHeapWords context ((length + 7) / 8 + 3)
    allocBigint context negative (limbsOf bytes)

/-! ## Terms -/

section Nested

-- `decodeOne` decodes a term one level further down.
variable (decodeOne : Decoder DecodeError (DecodeState H) Value)

def decodeTuple (arity : ℕ) : Decoder DecodeError (DecodeState H) Value := do
  ensureHeapWords context (arity + 1)
  let elements ← many decodeOne arity
  alloc context (1 + elements.length) (.tuple elements)

def decodeList (length : ℕ) : Decoder DecodeError (DecodeState H) Value := do
  ensureHeapWords context (length * 2)
  let elements ← many decodeOne length
  let tail ← decodeOne
  alloc context (elements.length * 2) (listWithTail elements tail)

def decodeEntry : Decoder DecodeError (DecodeState H) (Value × Value) := do
  let key ← decodeOne
  let value ← decodeOne
  return (key, value)

def decodeMap (length : ℕ) : Decoder DecodeError (DecodeState H) Value := do
  ensureHeapWords context (length * 2 + 2)
  let entries ← many (decodeEntry decodeOne) length
  alloc context (2 + entries.length + entries.length) (.map entries)

/-- Module, function and arity as a tuple. -/
def decodeExport : Decoder DecodeError (DecodeState H) Value := do
  let module ← decodeOne
  match ← decodeOne with
  | .atom function => do
    let arity ← decodeOne
    alloc context 4 (.tuple [module, .atom function, arity])
  | _ => fail .invalidExportFunction

/-- The node of a pid or a reference is itself a term. -/
def decodeNode (tag : UInt8) : Decoder DecodeError (DecodeState H) Atom := do
  match ← decodeOne with
  | .atom node => return node
  | _ => fail (.unsupportedTag tag)

def decodePid (hasCreationU32 : Bool) : Decoder DecodeError (DecodeState H) Value := do
  let node ← decodeNode decodeOne Tags.newPidExt
  let id ← readU32
  let serial ← readU32
  let _ ← readBytes (if hasCreationU32 then 4 else 1)
  alloc context 4 (.pid (.remote node (UInt64.ofNat id) (UInt64.ofNat serial)))

/-- Any number of id words, of which the low 64 bits are kept. -/
def decodeNewerReference : Decoder DecodeError (DecodeState H) Value := do
  let wordCount ← readU16
  let _ ← decodeNode decodeOne Tags.newerReferenceExt
  let _ ← readU32
  let words ← many readU32 wordCount
  let id : UInt64 := words.foldl (fun id word => (id <<< 32) ||| UInt64.ofNat word) 0
  alloc context 2 (.reference (.local id))

def decodeReference : Decoder DecodeError (DecodeState H) Value := do
  let _ ← decodeNode decodeOne Tags.referenceExt
  let id ← readU32
  let _ ← readU8
  alloc context 2 (.reference (.local (UInt64.ofNat id)))

/-- A term whose tag is read, with the terms in it left to `decodeOne`. -/
def decodeBody (tag : UInt8) : Decoder DecodeError (DecodeState H) Value :=
  if tag = Tags.newFloatExt then do
    let bytes ← readBytes 8
    alloc context 2 (.number (.float (f64FromBits (beNat bytes))))
  else if tag = Tags.smallIntegerExt then do return smallInt (← readU8)
  else if tag = Tags.integerExt then do decodeSmallInteger (← readI32)
  else if tag = Tags.atomUtf8Ext then do
    let length ← readU16
    decodeAtom options (← readBytes length)
  else if tag = Tags.smallAtomUtf8Ext then do
    let length ← readU8
    decodeAtom options (← readBytes length.toNat)
  else if tag = Tags.smallTupleExt then do decodeTuple context decodeOne (← readU8).toNat
  else if tag = Tags.largeTupleExt then do decodeTuple context decodeOne (← readU32)
  else if tag = Tags.nilExt then return .nil
  else if tag = Tags.stringExt then do
    let length ← readU16
    ensureHeapWords context (length * 2)
    let bytes ← readBytes length
    alloc context (bytes.length * 2) (listWithTail (bytes.map smallInt) .nil)
  else if tag = Tags.listExt then do decodeList context decodeOne (← readU32)
  else if tag = Tags.binaryExt then do
    let length ← readU32
    ensureHeapWords context (packedWordCount length + 2)
    let bytes ← readBytes length
    alloc context (allocBinaryWordCount bytes.length) (.binary (storedBinary bytes))
  else if tag = Tags.smallBigExt then do decodeBigInteger context (← readU8).toNat
  else if tag = Tags.largeBigExt then do decodeBigInteger context (← readU32)
  else if tag = Tags.exportExt then decodeExport context decodeOne
  else if tag = Tags.mapExt then do decodeMap context decodeOne (← readU32)
  else if tag = Tags.pidExt ∨ tag = Tags.newPidExt then
    decodePid context decodeOne (tag == Tags.newPidExt)
  else if tag = Tags.newerReferenceExt then decodeNewerReference context decodeOne
  else if tag = Tags.referenceExt then decodeReference context decodeOne
  else fail (.unsupportedTag tag)

end Nested

def decodeAfterTag : ℕ → UInt8 → Decoder DecodeError (DecodeState H) Value
  | 0, _ => fail .tooDeep
  | left + 1, tag => decodeBody context options (do decodeAfterTag left (← readU8)) tag

def decodeOne (left : ℕ) : Decoder DecodeError (DecodeState H) Value := do
  decodeAfterTag context options left (← readU8)

/-! ## The whole input -/

/-- The zlib stream at the front of the bytes, read up to a number of bytes: what came out and how
much of the input went in. -/
abbrev InflateStream := List UInt8 → ℕ → Option (List UInt8 × ℕ)

def decompressBounded (inflate : InflateStream) (bytes : List UInt8) (declaredSize : ℕ) :
    Except DecodeError (List UInt8 × ℕ) :=
  match inflate bytes (declaredSize + 1) with
  | none => .error .decompressionFailed
  | some (out, compressedUsed) =>
    if out.length = declaredSize then .ok (out, compressedUsed)
    else .error (.decompressedSizeMismatch declaredSize out.length)

/-- A decoder on bytes of its own, which it has to use up. -/
def onInflated (bytes : List UInt8) (d : Decoder DecodeError (DecodeState H) Value) :
    Decoder DecodeError (DecodeState H) Value := do
  let s ← getState
  let (term, s, _) ← ofExcept ((do let term ← d; expectEmpty; return term) s bytes)
  setState s
  return term

def decodeVersioned (inflate : InflateStream) : Decoder DecodeError (DecodeState H) Value := do
  let version ← readU8
  require (version == Tags.version) (.badVersion version)
  let tag ← readU8
  if tag = Tags.compressedExt then do
    let declaredSize ← readU32
    require (declaredSize ≤ context.maxHeapWords * 8) .sizeLimitExceeded
    let (inflated, compressedUsed) ←
      ofExcept (decompressBounded inflate (← remaining) declaredSize)
    let _ ← readBytes compressedUsed
    onInflated inflated (decodeOne context options (maxEtfDepth + 1))
  else decodeAfterTag context options (maxEtfDepth + 1) tag

def decodeTermWithOptions (inflate : InflateStream) (s : DecodeState H) (bytes : List UInt8) :
    Except DecodeError (DecodedTerm × DecodeState H) :=
  match decodeVersioned context options inflate s bytes with
  | .error e => .error e
  | .ok (term, s, rest) =>
    if !options.returnUsed && !rest.isEmpty then .error .trailingBytes
    else .ok (⟨term, bytes.length - rest.length⟩, s)

end Beamr.Etf
