import Beamr.Lib.ByteOrder
import Beamr.Term.Value
import Mathlib.Data.List.DropRight

/-!
# The external term format: encoders

The flat encoder and the scatter-gather encoder. The functions they share return the bytes they
append; the flat encoder appends them to one buffer, the other to the open segment, with the
binaries of 64 bytes and more left where they are. The nesting is counted down: `left` is how much
of `MAX_ETF_DEPTH` a term and what is below it may still use, so that nothing left is too deep.
-/
namespace Beamr.Etf

open Term ByteOrder

namespace Tags

def version : UInt8 := 131
def smallIntegerExt : UInt8 := 97
def integerExt : UInt8 := 98
def newFloatExt : UInt8 := 70
def compressedExt : UInt8 := 80
def atomUtf8Ext : UInt8 := 118
def smallAtomUtf8Ext : UInt8 := 119
def smallTupleExt : UInt8 := 104
def largeTupleExt : UInt8 := 105
def nilExt : UInt8 := 106
def stringExt : UInt8 := 107
def listExt : UInt8 := 108
def binaryExt : UInt8 := 109
def smallBigExt : UInt8 := 110
def largeBigExt : UInt8 := 111
def exportExt : UInt8 := 113
def mapExt : UInt8 := 116
def pidExt : UInt8 := 103
def newPidExt : UInt8 := 88
def referenceExt : UInt8 := 114
def newerReferenceExt : UInt8 := 90

end Tags

def maxEtfDepth : ℕ := 256

def nonodeNohost : List UInt8 := AtomTable.ascii "nonode@nohost"

def iovecBinaryReferenceThreshold : ℕ := 64

inductive EncodeError
  | unsupportedTerm | atomResolveFailed | tooDeep | compressionFailed
  deriving DecidableEq

/-! ## Parts -/

def u32Of (n : ℕ) : Except EncodeError ℕ := if n < 2 ^ 32 then .ok n else .error .unsupportedTerm

def u16Of (n : ℕ) : Except EncodeError ℕ := if n < 2 ^ 16 then .ok n else .error .unsupportedTerm

/-- The magnitude up to its last byte that is not zero, and one byte at least. -/
def trimmed (bytes : List UInt8) : List UInt8 :=
  bytes.take (max 1 (bytes.rdropWhile (· == 0)).length)

def encodeBigBytes (negative : Bool) (bytes : List UInt8) : Except EncodeError (List UInt8) :=
  let magnitude := trimmed bytes
  let body := (if negative then 1 else 0) :: magnitude
  if magnitude.length < 256 then
    .ok (Tags.smallBigExt :: UInt8.ofNat magnitude.length :: body)
  else do
    let length ← u32Of magnitude.length
    .ok (Tags.largeBigExt :: beBytes 4 length ++ body)

def encodeInteger (value : ℤ) : Except EncodeError (List UInt8) :=
  if 0 ≤ value ∧ value < 256 then .ok [Tags.smallIntegerExt, UInt8.ofNat value.toNat]
  else if FitsSigned 32 value then .ok (Tags.integerExt :: beBytes 4 (ofSigned 32 value))
  else encodeBigBytes (value < 0) (leBytes 8 value.natAbs)

def encodeBigint (negative : Bool) (limbs : List UInt64) : Except EncodeError (List UInt8) :=
  encodeBigBytes negative (limbs.flatMap fun limb => leBytes 8 limb.toNat)

def encodeAtomName (name : List UInt8) : Except EncodeError (List UInt8) :=
  if name.length < 256 then .ok (Tags.smallAtomUtf8Ext :: UInt8.ofNat name.length :: name)
  else do
    let length ← u16Of name.length
    .ok (Tags.atomUtf8Ext :: beBytes 2 length ++ name)

def encodeAtom (table : AtomTable) (atom : Atom) : Except EncodeError (List UInt8) :=
  match table.resolve atom with
  | none => .error .atomResolveFailed
  | some name => encodeAtomName name

def encodePid (number : UInt64) : Except EncodeError (List UInt8) := do
  let node ← encodeAtomName nonodeNohost
  let id ← u32Of number.toNat
  .ok (Tags.newPidExt :: node ++ beBytes 4 id ++ beBytes 4 0 ++ beBytes 4 0)

def encodeExternalPid (table : AtomTable) (node : Atom) (number serial : UInt64) :
    Except EncodeError (List UInt8) := do
  let node ← encodeAtom table node
  let id ← u32Of number.toNat
  let serial ← u32Of serial.toNat
  .ok (Tags.newPidExt :: node ++ beBytes 4 id ++ beBytes 4 serial ++ beBytes 4 0)

/-- Two id words, the high one first. -/
def encodeReference (id : UInt64) : Except EncodeError (List UInt8) := do
  let node ← encodeAtomName nonodeNohost
  .ok (Tags.newerReferenceExt :: beBytes 2 2 ++ node ++ beBytes 4 0 ++
    beBytes 4 (id.toNat / 2 ^ 32) ++ beBytes 4 (id.toNat % 2 ^ 32))

def encodeFloat (x : Float64) : List UInt8 := Tags.newFloatExt :: beBytes 8 x.toBits

def encodeBinary (b : BinaryRef) : Except EncodeError (List UInt8) := do
  let length ← u32Of b.asBytes.length
  .ok (Tags.binaryExt :: beBytes 4 length ++ b.asBytes)

def tupleHeader (arity : ℕ) : Except EncodeError (List UInt8) :=
  if arity < 256 then .ok [Tags.smallTupleExt, UInt8.ofNat arity]
  else do
    let arity ← u32Of arity
    .ok (Tags.largeTupleExt :: beBytes 4 arity)

def mapHeader (length : ℕ) : Except EncodeError (List UInt8) := do
  let length ← u32Of length
  .ok (Tags.mapExt :: beBytes 4 length)

def listHeader (length : ℕ) : Except EncodeError (List UInt8) := do
  let length ← u32Of length
  .ok (Tags.listExt :: beBytes 4 length)

/-- The heads of a list and what follows the last cell. -/
def collectList : Value → List Value × Value
  | .cons head tail => (head :: (collectList tail).1, (collectList tail).2)
  | v => ([], v)

def asByte : Value → Option UInt8
  | .number (.smallInt n) =>
    if 0 ≤ n.value ∧ n.value < 256 then some (UInt8.ofNat n.value.toNat) else none
  | _ => none

/-- The bytes of a proper list of bytes that is short enough for `STRING_EXT`. -/
def stringBytes (elements : List Value) (tail : Value) : Option (List UInt8) :=
  match tail with
  | .nil => if elements.length ≤ 65535 then elements.mapM asByte else none
  | _ => none

def encodeString (bytes : List UInt8) : List UInt8 :=
  Tags.stringExt :: beBytes 2 bytes.length ++ bytes

/-- The three terms of `EXPORT_EXT`: module, function index as an atom, arity. -/
def exportParts (c : Closure) (free : List Value) : Except EncodeError (List Value) :=
  if free.length ≠ 0 then .error .unsupportedTerm
  else do
    let functionIndex ← u32Of c.functionIndex.toNat
    match c.module with
    | none => .error .unsupportedTerm
    | some module => .ok [.atom module, .atom functionIndex, .number (.smallInt ⟨c.arity.toNat,
        by omega, by have := c.arity.toNat_lt; omega⟩)]

/-! ## The flat encoder -/

def encodeTermInner (table : AtomTable) : ℕ → Value → Except EncodeError (List UInt8)
  | 0, _ => .error .tooDeep
  | left + 1, v =>
    match v with
    | .number (.smallInt n) => encodeInteger n.value
    | .number (.float x) => .ok (encodeFloat x)
    | .number (.bigInt negative limbs) => encodeBigint negative limbs
    | .atom a => encodeAtom table a
    | .reference (.local id) => encodeReference id
    | .reference (.remote _ _) => .error .unsupportedTerm
    | .closure c free => do
      let parts ← exportParts c free
      let body ← parts.mapM (encodeTermInner table left)
      .ok (Tags.exportExt :: body.flatten)
    | .pid (.local number) => encodePid number
    | .pid (.remote node number serial) => encodeExternalPid table node number serial
    | .tuple elements => do
      let header ← tupleHeader elements.length
      let body ← elements.mapM (encodeTermInner table left)
      .ok (header ++ body.flatten)
    | .map entries => do
      let header ← mapHeader entries.length
      let body ← (entries.flatMap fun e => [e.1, e.2]).mapM (encodeTermInner table left)
      .ok (header ++ body.flatten)
    | .nil => .ok [Tags.nilExt]
    | .cons head tail =>
      let (elements, last) := collectList (.cons head tail)
      match stringBytes elements last with
      | some bytes => .ok (encodeString bytes)
      | none => do
        let header ← listHeader elements.length
        let body ← (elements ++ [last]).mapM (encodeTermInner table left)
        .ok (header ++ body.flatten)
    | .binary b => encodeBinary b
    | .other _ => .error .unsupportedTerm

def encodeTerm (table : AtomTable) (term : Value) : Except EncodeError (List UInt8) := do
  .ok (Tags.version :: (← encodeTermInner table (maxEtfDepth + 1) term))

/-- `deflate` is the compression of the zlib library at a level, and may fail. -/
def encodeTermWithOptions (deflate : ℕ → List UInt8 → Option (List UInt8)) (table : AtomTable)
    (term : Value) (compressionLevel : Option ℕ) : Except EncodeError (List UInt8) := do
  let uncompressed ← encodeTerm table term
  match compressionLevel with
  | none => .ok uncompressed
  | some 0 => .ok uncompressed
  | some level =>
    let payload := uncompressed.drop 1
    let uncompressedSize ← u32Of payload.length
    match deflate level payload with
    | none => .error .compressionFailed
    | some compressedPayload =>
      let compressed := Tags.version :: Tags.compressedExt :: beBytes 4 uncompressedSize ++
        compressedPayload
      if compressed.length < uncompressed.length then .ok compressed else .ok uncompressed

/-! ## The scatter-gather encoder -/

inductive IoSegment
  | owned (bytes : List UInt8)
  | reference (term : Value)

structure SegmentBuilder where
  segments : List IoSegment
  current : List UInt8

namespace SegmentBuilder

def new : SegmentBuilder := ⟨[], []⟩

def push (b : SegmentBuilder) (bytes : List UInt8) : SegmentBuilder :=
  { b with current := b.current ++ bytes }

def flush (b : SegmentBuilder) : SegmentBuilder :=
  if b.current.isEmpty then b else ⟨b.segments ++ [.owned b.current], []⟩

def pushReference (b : SegmentBuilder) (term : Value) : SegmentBuilder :=
  { b.flush with segments := b.flush.segments ++ [.reference term] }

def finish (b : SegmentBuilder) : List IoSegment := b.flush.segments

end SegmentBuilder

def encodeBinaryIovec (b : BinaryRef) (out : SegmentBuilder) :
    Except EncodeError SegmentBuilder := do
  let length ← u32Of b.asBytes.length
  if b.asBytes.length < iovecBinaryReferenceThreshold then do
    .ok (out.push (← encodeBinary b))
  else .ok ((out.push (Tags.binaryExt :: beBytes 4 length)).flush.pushReference (.binary b))

def encodeTermIovecInner (table : AtomTable) :
    ℕ → Value → SegmentBuilder → Except EncodeError SegmentBuilder
  | 0, _, _ => .error .tooDeep
  | left + 1, v, out =>
    match v with
    | .number (.smallInt n) => do .ok (out.push (← encodeInteger n.value))
    | .number (.float x) => .ok (out.push (encodeFloat x))
    | .number (.bigInt negative limbs) => do .ok (out.push (← encodeBigint negative limbs))
    | .atom a => do .ok (out.push (← encodeAtom table a))
    | .reference (.local id) => do .ok (out.push (← encodeReference id))
    | .reference (.remote _ _) => .error .unsupportedTerm
    | .closure c free => do
      let parts ← exportParts c free
      parts.foldlM (fun out part => encodeTermIovecInner table left part out)
        (out.push [Tags.exportExt])
    | .pid (.local number) => do .ok (out.push (← encodePid number))
    | .pid (.remote node number serial) => do
      .ok (out.push (← encodeExternalPid table node number serial))
    | .tuple elements => do
      let header ← tupleHeader elements.length
      elements.foldlM (fun out element => encodeTermIovecInner table left element out)
        (out.push header)
    | .map entries => do
      let header ← mapHeader entries.length
      (entries.flatMap fun e => [e.1, e.2]).foldlM
        (fun out part => encodeTermIovecInner table left part out) (out.push header)
    | .nil => .ok (out.push [Tags.nilExt])
    | .cons head tail =>
      let (elements, last) := collectList (.cons head tail)
      match stringBytes elements last with
      | some bytes => .ok (out.push (encodeString bytes))
      | none => do
        let header ← listHeader elements.length
        (elements ++ [last]).foldlM
          (fun out element => encodeTermIovecInner table left element out) (out.push header)
    | .binary b => encodeBinaryIovec b out
    | .other _ => .error .unsupportedTerm

def encodeTermIovec (table : AtomTable) (term : Value) : Except EncodeError (List IoSegment) := do
  let out ← encodeTermIovecInner table (maxEtfDepth + 1) term
    (SegmentBuilder.new.push [Tags.version])
  .ok out.finish

def IoSegment.isReference : IoSegment → Bool
  | .reference _ => true
  | .owned _ => false

/-- `term_to_iovec/2` up to the allocation of its result: segments that point at binaries are not
compressed. -/
def termToIovec (deflate : ℕ → List UInt8 → Option (List UInt8)) (table : AtomTable)
    (term : Value) (compressionLevel : Option ℕ) : Except EncodeError (List IoSegment) := do
  let segments ← encodeTermIovec table term
  if compressionLevel = none ∨ compressionLevel = some 0 then .ok segments
  else if segments.any IoSegment.isReference then .ok segments
  else do
    .ok [.owned (← encodeTermWithOptions deflate table term compressionLevel)]

end Beamr.Etf
