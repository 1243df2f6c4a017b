import Beamr.Distribution.AtomCache
import Beamr.Lib.Decoder
import Beamr.Term.Value

/-!
# Atom references of a message

`encode_atom_reference`, `encode_header` and their decoders. A message carries two bytes for each
atom, the tag and the slot, and a header that announces the atoms that were new to the sender.
The receiver applies the whole header before it reads the first reference, so a reference is read
right as long as its slot keeps its atom up to the end of the message.
-/
namespace Beamr.Distribution

open ByteOrder Term

def atomCacheRef : UInt8 := 0x52

def newAtomCacheRef : UInt8 := 0x4e

structure AtomCacheHeaderEntry where
  index : UInt8
  name : List UInt8
  deriving DecidableEq

abbrev AtomCacheHeader := List AtomCacheHeaderEntry

def AtomCacheHeader.canEncodeAnotherEntry (header : AtomCacheHeader) : Bool :=
  header.length < 255

inductive AtomCacheEncodeError
  | atomResolveFailed
  | tooManyHeaderEntries
  | atomNameTooLong
  deriving DecidableEq

inductive AtomCacheDecodeError
  | truncated
  | unsupportedHeaderTag (tag : UInt8)
  | missingCacheIndex (index : UInt8)
  | invalidUtf8
  | trailingBytes
  | unsupportedPayloadTag (tag : UInt8)
  deriving DecidableEq

/-! ## Encoding -/

/-- What the encoder of a message writes to. -/
structure Outgoing where
  cache : AtomCache
  header : AtomCacheHeader
  out : List UInt8

section Encode

variable (table : AtomTable)

/-- A failed reference leaves everything as it was. -/
def encodeAtomReference (atom : Atom) (s : Outgoing) :
    Except AtomCacheEncodeError (UInt8 × Outgoing) :=
  match s.cache.lookupByAtom atom with
  | (some index, cache) => .ok (index, { s with cache, out := s.out ++ [atomCacheRef, index] })
  | (none, _) =>
    if !s.header.canEncodeAnotherEntry then .error .tooManyHeaderEntries
    else
      match table.resolve atom with
      | none => .error .atomResolveFailed
      | some name =>
        if name.length > 65535 then .error .atomNameTooLong
        else
          let (index, cache) := s.cache.insert atom
          .ok (index, {
            cache
            header := s.header ++ [⟨index, name⟩]
            out := s.out ++ [atomCacheRef, index] })

def encodeHeaderEntry (entry : AtomCacheHeaderEntry) : Except AtomCacheEncodeError (List UInt8) :=
  if entry.name.length > 65535 then .error .atomNameTooLong
  else .ok (newAtomCacheRef :: entry.index :: (beBytes 2 entry.name.length ++ entry.name))

def encodeHeaderEntries : AtomCacheHeader → Except AtomCacheEncodeError (List UInt8)
  | [] => .ok []
  | entry :: rest => do
    let bytes ← encodeHeaderEntry entry
    let more ← encodeHeaderEntries rest
    pure (bytes ++ more)

def encodeHeader (header : AtomCacheHeader) : Except AtomCacheEncodeError (List UInt8) :=
  if header.length > 255 then .error .tooManyHeaderEntries
  else do
    let bytes ← encodeHeaderEntries header
    pure (UInt8.ofNat header.length :: bytes)

def encodeReferences : List Atom → Outgoing → Except AtomCacheEncodeError Outgoing
  | [], s => .ok s
  | atom :: rest, s => do
    let (_, s) ← encodeAtomReference table atom s
    encodeReferences rest s

structure Message where
  header : List UInt8
  payload : List UInt8

def encodeMessage (cache : AtomCache) (atoms : List Atom) :
    Except AtomCacheEncodeError (Message × AtomCache) := do
  let s ← encodeReferences table atoms ⟨cache, [], []⟩
  let header ← encodeHeader s.header
  pure (⟨header, s.out⟩, s.cache)

end Encode

/-! ## Decoding -/

/-- The receiving end: its cache and the atom table that announced names are interned in. -/
structure Receiver where
  cache : AtomCache
  table : AtomTable

def readHeaderEntry : Decoder AtomCacheDecodeError Unit AtomCacheHeaderEntry := do
  let tag ← Decoder.byte .truncated
  Decoder.require (tag == newAtomCacheRef) (.unsupportedHeaderTag tag)
  let index ← Decoder.byte .truncated
  let len ← Decoder.take .truncated 2
  let name ← Decoder.take .truncated (beNat len)
  Decoder.require (utf8Valid name) .invalidUtf8
  pure ⟨index, name⟩

def Receiver.announce (r : Receiver) (entry : AtomCacheHeaderEntry) : Receiver :=
  if h : utf8Valid entry.name = true then
    let (atom, table) := r.table.intern entry.name h
    ⟨r.cache.insertAt entry.index atom, table⟩
  else r

/-- Entries read before an error have been applied. -/
def decodeHeaderEntries : ℕ → List UInt8 → Receiver →
    Except AtomCacheDecodeError (AtomCacheHeader × List UInt8) × Receiver
  | 0, bytes, r => (.ok ([], bytes), r)
  | count + 1, bytes, r =>
    match readHeaderEntry () bytes with
    | .error e => (.error e, r)
    | .ok (entry, _, bytes) =>
      match decodeHeaderEntries count bytes (r.announce entry) with
      | (.error e, r) => (.error e, r)
      | (.ok (header, bytes), r) => (.ok (entry :: header, bytes), r)

def decodeHeader (bytes : List UInt8) (r : Receiver) :
    Except AtomCacheDecodeError AtomCacheHeader × Receiver :=
  match bytes with
  | [] => (.error .truncated, r)
  | count :: bytes =>
    match decodeHeaderEntries count.toNat bytes r with
    | (.error e, r) => (.error e, r)
    | (.ok (header, []), r) => (.ok header, r)
    | (.ok (_, _ :: _), r) => (.error .trailingBytes, r)

def decodeAtomReference (bytes : List UInt8) (cache : AtomCache) :
    Except AtomCacheDecodeError Value × AtomCache :=
  match bytes with
  | [] => (.error .truncated, cache)
  | tag :: bytes =>
    if tag != atomCacheRef then (.error (.unsupportedPayloadTag tag), cache)
    else
      match bytes with
      | [] => (.error .truncated, cache)
      | [index] =>
        match cache.lookupByIndex index with
        | (none, cache) => (.error (.missingCacheIndex index), cache)
        | (some atom, cache) => (.ok (.atom atom), cache)
      | _ :: _ :: _ => (.error .trailingBytes, cache)

/-- The references of a payload one after another, two bytes each. -/
def decodeReferences : List UInt8 → AtomCache → List (Except AtomCacheDecodeError Value) × AtomCache
  | tag :: index :: rest, cache =>
    let (value, cache) := decodeAtomReference [tag, index] cache
    let (values, cache) := decodeReferences rest cache
    (value :: values, cache)
  | [tag], cache =>
    let (value, cache) := decodeAtomReference [tag] cache
    ([value], cache)
  | [], cache => ([], cache)

/-- The header and then the payload. -/
def decodeMessage (message : Message) (r : Receiver) :
    Except AtomCacheDecodeError (List (Except AtomCacheDecodeError Value)) × Receiver :=
  match decodeHeader message.header r with
  | (.error e, r) => (.error e, r)
  | (.ok _, r) =>
    let (values, cache) := decodeReferences message.payload r.cache
    (.ok values, { r with cache })

/-! ## Runs -/

/-- Two ends of a connection. -/
structure Ends where
  table : AtomTable
  cache : AtomCache
  receiver : Receiver

/-- Fresh caches over any two tables. -/
def Ends.start (table receiverTable : AtomTable) : Ends := ⟨table, .new, ⟨.new, receiverTable⟩⟩

inductive Action
  | message (atoms : List Atom)
  | internAtSender (name : List UInt8) (valid : utf8Valid name = true)
  | internAtReceiver (name : List UInt8) (valid : utf8Valid name = true)

/-- A message that was delivered: the atoms encoded, what they decode to, and the two tables. -/
structure Delivery where
  atoms : List Atom
  decoded : Except AtomCacheDecodeError (List (Except AtomCacheDecodeError Value))
  sender : AtomTable
  receiver : AtomTable

/-- Every reference decodes to an atom of the name of the one encoded. -/
def Delivery.Resolved (d : Delivery) : Prop :=
  ∃ values, d.decoded = .ok values ∧
    List.Forall₂ (fun atom value => ∃ name received, d.sender.resolve atom = some name ∧
      value = .ok (.atom received) ∧ d.receiver.resolve received = some name) d.atoms values

/-- Messages that encode are delivered in order, and both tables may grow in between. -/
inductive Exchange : Ends → List Action → List Delivery → Ends → Prop
  | nil (e : Ends) : Exchange e [] [] e
  | message {e e' : Ends} {atoms : List Atom} {message : Message} {cache : AtomCache}
      {decoded : Except AtomCacheDecodeError (List (Except AtomCacheDecodeError Value))}
      {receiver : Receiver} {rest : List Action} {deliveries : List Delivery}
      (hencode : encodeMessage e.table e.cache atoms = .ok (message, cache))
      (hdecode : decodeMessage message e.receiver = (decoded, receiver))
      (hrest : Exchange ⟨e.table, cache, receiver⟩ rest deliveries e') :
      Exchange e (.message atoms :: rest) (⟨atoms, decoded, e.table, receiver.table⟩ :: deliveries) e'
  | internAtSender {e e' : Ends} {name : List UInt8} {valid : utf8Valid name = true}
      {rest : List Action} {deliveries : List Delivery}
      (hrest : Exchange { e with table := (e.table.intern name valid).2 } rest deliveries e') :
      Exchange e (.internAtSender name valid :: rest) deliveries e'
  | internAtReceiver {e e' : Ends} {name : List UInt8} {valid : utf8Valid name = true}
      {rest : List Action} {deliveries : List Delivery}
      (hrest : Exchange { e with receiver := { e.receiver with
        table := (e.receiver.table.intern name valid).2 } } rest deliveries e') :
      Exchange e (.internAtReceiver name valid :: rest) deliveries e'

end Beamr.Distribution
