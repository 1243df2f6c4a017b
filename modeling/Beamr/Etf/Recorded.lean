import Beamr.Etf.Decode
import Beamr.Lib.Persist

/-!
# Decoding on record

The decoder as its caller sees it: the atom table and the heap are as the call left them whatever it
returned. Beside them stand the atom names and the magnitudes of big integers that it came by. It
does what the decoder of `Etf.Decode` does; the parts that hold no terms of their own are run as
they are.
-/
namespace Beamr.Etf

open Term ByteOrder

/-- What a decode has come by: an atom's name, or the magnitude of an integer of any length. -/
inductive Item
  | atomName (name : List UInt8)
  | magnitude (bytes : List UInt8)

structure RecordState (H : Type) where
  cursor : List UInt8
  decode : DecodeState H
  items : List Item

abbrev Recorded (H : Type) := Persist (RecordState H) DecodeError

namespace Recorded

variable {H α : Type} (context : DecodeContext H) (options : DecodeOptions)

/-- A part that fails before it changes anything. -/
def step (d : Decoder DecodeError (DecodeState H) α) : Recorded H α := fun s =>
  match d s.decode s.cursor with
  | .ok (a, decode, cursor) => (.ok a, { s with cursor, decode })
  | .error e => (.error e, s)

def note (item : Item) : Recorded H Unit := fun s => (.ok (), { s with items := s.items ++ [item] })

def cursor : Recorded H (List UInt8) := fun s => (.ok s.cursor, s)

/-! ## Terms -/

def decodeAtom (name : List UInt8) : Recorded H Value := do
  if utf8Valid name then note (.atomName name) else pure ()
  step (Etf.decodeAtom options name)

/-- The magnitude stands behind the sign. -/
def decodeBigInteger (length : ℕ) : Recorded H Value := do
  let start ← cursor
  let term ← step (Etf.decodeBigInteger context length)
  note (.magnitude ((start.drop 1).take length))
  return term

section Nested

variable (decodeOne : Recorded H Value)

def decodeTuple (arity : ℕ) : Recorded H Value := do
  step (ensureHeapWords context (arity + 1))
  let elements ← Persist.many decodeOne arity
  step (alloc context (1 + elements.length) (.tuple elements))

def decodeList (length : ℕ) : Recorded H Value := do
  step (ensureHeapWords context (length * 2))
  let elements ← Persist.many decodeOne length
  let tail ← decodeOne
  step (alloc context (elements.length * 2) (listWithTail elements tail))

def decodeEntry : Recorded H (Value × Value) := do
  let key ← decodeOne
  let value ← decodeOne
  return (key, value)

def decodeMap (length : ℕ) : Recorded H Value := do
  step (ensureHeapWords context (length * 2 + 2))
  let entries ← Persist.many (decodeEntry decodeOne) length
  step (alloc context (2 + entries.length + entries.length) (.map entries))

def decodeExport : Recorded H Value := do
  let module ← decodeOne
  match ← decodeOne with
  | .atom function => do
    let arity ← decodeOne
    step (alloc context 4 (.tuple [module, .atom function, arity]))
  | _ => Persist.throw .invalidExportFunction

def decodeNode (tag : UInt8) : Recorded H Atom := do
  match ← decodeOne with
  | .atom node => return node
  | _ => Persist.throw (.unsupportedTag tag)

def decodePid (hasCreationU32 : Bool) : Recorded H Value := do
  let node ← decodeNode decodeOne Tags.newPidExt
  let id ← step readU32
  let serial ← step readU32
  let _ ← step (readBytes (if hasCreationU32 then 4 else 1))
  step (alloc context 4 (.pid (.remote node (UInt64.ofNat id) (UInt64.ofNat serial))))

def decodeNewerReference : Recorded H Value := do
  let wordCount ← step readU16
  let _ ← decodeNode decodeOne Tags.newerReferenceExt
  let _ ← step readU32
  let words ← step (Decoder.many readU32 wordCount)
  let id : UInt64 := words.foldl (fun id word => (id <<< 32) ||| UInt64.ofNat word) 0
  step (alloc context 2 (.reference (.local id)))

def decodeReference : Recorded H Value := do
  let _ ← decodeNode decodeOne Tags.referenceExt
  let id ← step readU32
  let _ ← step readU8
  step (alloc context 2 (.reference (.local (UInt64.ofNat id))))

def decodeBody (tag : UInt8) : Recorded H Value :=
  if tag = Tags.newFloatExt then do
    let bytes ← step (readBytes 8)
    step (alloc context 2 (.number (.float (f64FromBits (beNat bytes)))))
  else if tag = Tags.smallIntegerExt then do return smallInt (← step readU8)
  else if tag = Tags.integerExt then do step (decodeSmallInteger (← step readI32))
  else if tag = Tags.atomUtf8Ext then do
    let length ← step readU16
    decodeAtom options (← step (readBytes length))
  else if tag = Tags.smallAtomUtf8Ext then do
    let length ← step readU8
    decodeAtom options (← step (readBytes length.toNat))
  else if tag = Tags.smallTupleExt then do decodeTuple context decodeOne (← step readU8).toNat
  else if tag = Tags.largeTupleExt then do decodeTuple context decodeOne (← step readU32)
  else if tag = Tags.nilExt then return .nil
  else if tag = Tags.stringExt then do
    let length ← step readU16
    step (ensureHeapWords context (length * 2))
    let bytes ← step (readBytes length)
    step (alloc context (bytes.length * 2) (listWithTail (bytes.map smallInt) .nil))
  else if tag = Tags.listExt then do decodeList context decodeOne (← step readU32)
  else if tag = Tags.binaryExt then do
    let length ← step readU32
    step (ensureHeapWords context (packedWordCount length + 2))
    let bytes ← step (readBytes length)
    step (alloc context (allocBinaryWordCount bytes.length) (.binary (storedBinary bytes)))
  else if tag = Tags.smallBigExt then do decodeBigInteger context (← step readU8).toNat
  else if tag = Tags.largeBigExt then do decodeBigInteger context (← step readU32)
  else if tag = Tags.exportExt then decodeExport context decodeOne
  else if tag = Tags.mapExt then do decodeMap context decodeOne (← step readU32)
  else if tag = Tags.pidExt ∨ tag = Tags.newPidExt then
    decodePid context decodeOne (tag == Tags.newPidExt)
  else if tag = Tags.newerReferenceExt then decodeNewerReference context decodeOne
  else if tag = Tags.referenceExt then decodeReference context decodeOne
  else Persist.throw (.unsupportedTag tag)

end Nested

def decodeAfterTag : ℕ → UInt8 → Recorded H Value
  | 0, _ => Persist.throw .tooDeep
  | left + 1, tag => decodeBody context options (do decodeAfterTag left (← step readU8)) tag

def decodeOne (left : ℕ) : Recorded H Value := do
  decodeAfterTag context options left (← step readU8)

/-! ## The whole input -/

/-- The inflated bytes have a cursor of their own. -/
def onInflated (bytes : List UInt8) (m : Recorded H Value) : Recorded H Value := fun s =>
  match (do let term ← m; step expectEmpty; return term : Recorded H Value)
      { s with cursor := bytes } with
  | (result, t) => (result, { t with cursor := s.cursor })

def decodeVersioned (inflate : InflateStream) : Recorded H Value := do
  let version ← step readU8
  step (Decoder.require (version == Tags.version) (.badVersion version))
  let tag ← step readU8
  if tag = Tags.compressedExt then do
    let declaredSize ← step readU32
    step (Decoder.require (declaredSize ≤ context.maxHeapWords * 8) .sizeLimitExceeded)
    let (inflated, compressedUsed) ←
      step (Decoder.ofExcept (decompressBounded inflate (← cursor) declaredSize))
    let _ ← step (readBytes compressedUsed)
    onInflated inflated (decodeOne context options (maxEtfDepth + 1))
  else decodeAfterTag context options (maxEtfDepth + 1) tag

/-- `decode_term_with_options`, with what it leaves behind. -/
def decodeTermWithOptions (inflate : InflateStream) (s : DecodeState H) (bytes : List UInt8) :
    Except DecodeError DecodedTerm × RecordState H :=
  match decodeVersioned context options inflate ⟨bytes, s, []⟩ with
  | (.error e, t) => (.error e, t)
  | (.ok term, t) =>
    if !options.returnUsed && !t.cursor.isEmpty then (.error .trailingBytes, t)
    else (.ok ⟨term, bytes.length - t.cursor.length⟩, t)

/-! ## The same decoder -/

/-- A run without its record, and without its state when it failed. -/
def outcome : Except DecodeError α × RecordState H →
    Except DecodeError (α × DecodeState H × List UInt8)
  | (.ok a, t) => .ok (a, t.decode, t.cursor)
  | (.error e, _) => .error e

/-- Without the record the computation is the decoder. -/
def Erases (m : Recorded H α) (d : Decoder DecodeError (DecodeState H) α) : Prop :=
  ∀ s, d s.decode s.cursor = outcome (m s)

section Erases

variable {context options} {β : Type} {m : Recorded H α} {d : Decoder DecodeError (DecodeState H) α}

theorem Erases.step (d : Decoder DecodeError (DecodeState H) α) : Erases (step d) d := by
  intro s
  rw [Recorded.step]
  cases d s.decode s.cursor with
  | ok r => rfl
  | error e => rfl

theorem Erases.pure (a : α) : Erases (Pure.pure a : Recorded H α) (Pure.pure a) := fun _ => rfl

theorem Erases.throw (e : DecodeError) :
    Erases (Persist.throw e : Recorded H α) (Decoder.fail e) := fun _ => rfl

theorem Erases.bind (h : Erases m d) {f : α → Recorded H β}
    {g : α → Decoder DecodeError (DecodeState H) β} (hf : ∀ a, Erases (f a) (g a)) :
    Erases (m >>= f) (d >>= g) := by
  intro s
  rw [Decoder.bind_apply, h s, Persist.bind_apply]
  rcases hrun : m s with ⟨e | a, t⟩
  · rfl
  · exact hf a t

theorem Erases.ite {p : Prop} [Decidable p] {m' : Recorded H α}
    {d' : Decoder DecodeError (DecodeState H) α} (h : Erases m d) (h' : Erases m' d') :
    Erases (if p then m else m') (if p then d else d') := by
  split
  · exact h
  · exact h'

theorem Erases.many (h : Erases m d) (n : ℕ) : Erases (Persist.many m n) (Decoder.many d n) := by
  induction n with
  | zero => exact .pure []
  | succ n ih => exact h.bind fun a => ih.bind fun as => .pure (a :: as)

/-- What is noted first makes no difference. -/
theorem Erases.after_note (item : Item) (h : Erases m d) :
    Erases (do note item; m) d := fun s => h { s with items := s.items ++ [item] }

theorem decodeAtom_erases (name : List UInt8) :
    Erases (decodeAtom options name : Recorded H Value) (Etf.decodeAtom options name) := by
  unfold decodeAtom
  split
  · exact (Erases.step _).after_note _
  · exact Erases.step _

theorem decodeBigInteger_erases (length : ℕ) :
    Erases (decodeBigInteger context length) (Etf.decodeBigInteger context length) := by
  intro s
  rw [Erases.step (Etf.decodeBigInteger context length) s]
  unfold decodeBigInteger
  rw [Persist.bind_apply, cursor]
  dsimp only
  rw [Persist.bind_apply]
  rcases Recorded.step (Etf.decodeBigInteger context length) s with ⟨e | a, t⟩
  · rfl
  · rfl

section Nested

variable {one : Recorded H Value} {other : Decoder DecodeError (DecodeState H) Value}
  (h : Erases one other)

include h

theorem decodeTuple_erases (arity : ℕ) :
    Erases (decodeTuple context one arity) (Etf.decodeTuple context other arity) :=
  (Erases.step _).bind fun _ => (h.many arity).bind fun _ => Erases.step _

theorem decodeList_erases (length : ℕ) :
    Erases (decodeList context one length) (Etf.decodeList context other length) :=
  (Erases.step _).bind fun _ => (h.many length).bind fun _ => h.bind fun _ => Erases.step _

theorem decodeEntry_erases : Erases (decodeEntry one) (Etf.decodeEntry other) :=
  h.bind fun key => h.bind fun value => Erases.pure (key, value)

theorem decodeMap_erases (length : ℕ) :
    Erases (decodeMap context one length) (Etf.decodeMap context other length) :=
  (Erases.step _).bind fun _ => ((decodeEntry_erases h).many length).bind fun _ => Erases.step _

theorem decodeExport_erases :
    Erases (decodeExport context one) (Etf.decodeExport context other) := by
  refine h.bind fun module => h.bind fun function => ?_
  cases function with
  | atom function => exact h.bind fun arity => Erases.step _
  | _ => exact Erases.throw _

theorem decodeNode_erases (tag : UInt8) :
    Erases (decodeNode one tag) (Etf.decodeNode other tag) := by
  refine h.bind fun node => ?_
  cases node with
  | atom node => exact Erases.pure node
  | _ => exact Erases.throw _

theorem decodePid_erases (hasCreationU32 : Bool) :
    Erases (decodePid context one hasCreationU32) (Etf.decodePid context other hasCreationU32) :=
  (decodeNode_erases h _).bind fun _ => (Erases.step _).bind fun _ => (Erases.step _).bind fun _ =>
    (Erases.step _).bind fun _ => Erases.step _

theorem decodeNewerReference_erases :
    Erases (decodeNewerReference context one) (Etf.decodeNewerReference context other) :=
  (Erases.step _).bind fun _ => (decodeNode_erases h _).bind fun _ => (Erases.step _).bind fun _ =>
    (Erases.step _).bind fun _ => Erases.step _

theorem decodeReference_erases :
    Erases (decodeReference context one) (Etf.decodeReference context other) :=
  (decodeNode_erases h _).bind fun _ => (Erases.step _).bind fun _ => (Erases.step _).bind fun _ =>
    Erases.step _

/-- One case for each tag. -/
theorem decodeBody_erases (tag : UInt8) :
    Erases (decodeBody context options one tag) (Etf.decodeBody context options other tag) := by
  unfold decodeBody Etf.decodeBody
  refine .ite ((Erases.step _).bind fun _ => Erases.step _) ?_
  refine .ite ((Erases.step _).bind fun _ => Erases.pure _) ?_
  refine .ite ((Erases.step _).bind fun _ => Erases.step _) ?_
  refine .ite ((Erases.step _).bind fun _ => (Erases.step _).bind fun _ =>
    decodeAtom_erases _) ?_
  refine .ite ((Erases.step _).bind fun _ => (Erases.step _).bind fun _ =>
    decodeAtom_erases _) ?_
  refine .ite ((Erases.step _).bind fun _ => decodeTuple_erases h _) ?_
  refine .ite ((Erases.step _).bind fun _ => decodeTuple_erases h _) ?_
  refine .ite (Erases.pure _) ?_
  refine .ite ((Erases.step _).bind fun _ => (Erases.step _).bind fun _ =>
    (Erases.step _).bind fun _ => Erases.step _) ?_
  refine .ite ((Erases.step _).bind fun _ => decodeList_erases h _) ?_
  refine .ite ((Erases.step _).bind fun _ => (Erases.step _).bind fun _ =>
    (Erases.step _).bind fun _ => Erases.step _) ?_
  refine .ite ((Erases.step _).bind fun _ => decodeBigInteger_erases _) ?_
  refine .ite ((Erases.step _).bind fun _ => decodeBigInteger_erases _) ?_
  refine .ite (decodeExport_erases h) ?_
  refine .ite ((Erases.step _).bind fun _ => decodeMap_erases h _) ?_
  refine .ite (decodePid_erases h _) ?_
  refine .ite (decodeNewerReference_erases h) ?_
  exact .ite (decodeReference_erases h) (Erases.throw _)

end Nested

theorem decodeAfterTag_erases (left : ℕ) (tag : UInt8) :
    Erases (decodeAfterTag context options left tag)
      (Etf.decodeAfterTag context options left tag) := by
  induction left generalizing tag with
  | zero => exact Erases.throw _
  | succ left ih =>
    exact decodeBody_erases ((Erases.step _).bind fun tag => ih tag) tag

theorem decodeOne_erases (left : ℕ) :
    Erases (decodeOne context options left) (Etf.decodeOne context options left) :=
  (Erases.step _).bind fun tag => decodeAfterTag_erases left tag

theorem onInflated_erases (bytes : List UInt8) {one : Recorded H Value}
    {other : Decoder DecodeError (DecodeState H) Value} (h : Erases one other) :
    Erases (onInflated bytes one) (Etf.onInflated bytes other) := by
  have hwhole : Erases (do let term ← one; step expectEmpty; return term)
      (do let term ← other; expectEmpty; return term) :=
    h.bind fun term => (Erases.step _).bind fun _ => Erases.pure term
  intro s
  have hrun := hwhole { s with cursor := bytes }
  dsimp only at hrun
  unfold Etf.onInflated Recorded.onInflated
  rw [Decoder.bind_eq_of_ok (Decoder.getState_ok_iff.mpr ⟨rfl, rfl, rfl⟩), hrun]
  rcases (do let term ← one; step expectEmpty; return term : Recorded H Value)
    { s with cursor := bytes } with ⟨e | a, t⟩
  · rfl
  · rfl

theorem decodeVersioned_erases (inflate : InflateStream) :
    Erases (decodeVersioned context options inflate)
      (Etf.decodeVersioned context options inflate) := by
  refine (Erases.step _).bind fun version => (Erases.step _).bind fun _ =>
    (Erases.step _).bind fun tag => .ite ?_ (decodeAfterTag_erases _ tag)
  refine (Erases.step _).bind fun size => (Erases.step _).bind fun _ => ?_
  have hcursor : Erases (cursor : Recorded H _) Decoder.remaining := fun s => rfl
  refine hcursor.bind fun rest => (Erases.step _).bind fun inflated =>
    (Erases.step _).bind fun _ => ?_
  exact onInflated_erases _ (decodeOne_erases _)

end Erases

/-- What the recorded decoder returns, with the state of a success, is what the decoder returns. -/
theorem decodeTermWithOptions_eq (inflate : InflateStream) (s : DecodeState H)
    (bytes : List UInt8) :
    Etf.decodeTermWithOptions context options inflate s bytes =
      (decodeTermWithOptions context options inflate s bytes).1.map fun decoded =>
        (decoded, (decodeTermWithOptions context options inflate s bytes).2.decode) := by
  have herases : Erases (decodeVersioned context options inflate)
      (Etf.decodeVersioned context options inflate) := decodeVersioned_erases inflate
  have hrun := herases ⟨bytes, s, []⟩
  unfold Etf.decodeTermWithOptions decodeTermWithOptions
  dsimp only at hrun
  rw [hrun]
  rcases decodeVersioned context options inflate ⟨bytes, s, []⟩ with ⟨e | a, t⟩
  · rfl
  · dsimp only [outcome]
    split
    · rfl
    · rfl

end Recorded

end Beamr.Etf
