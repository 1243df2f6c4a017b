import Beamr.Distribution.DecodeRoom
import Beamr.Distribution.FrameScanner
import Beamr.Distribution.TermStability

/-!
# Pass-through messages

`write_dist_message` and `read_dist_message`. The frame has one length for control and payload, and
the reader finds the end of the control term by scanning it. What the encoder writes is scanned to
its end, at any depth and with any integer, so that a frame comes apart as it was put together.
-/
namespace Beamr.Distribution.TermCodec

open Term ByteOrder Decoder
open Etf (EncodeError DecodeState maxEtfDepth)

/-! ## Frames -/

def passThrough : UInt8 := 112

def maxDistFrameBytes : ℕ := 64 * 1024 * 1024

inductive FrameError
  | truncatedHeader
  | truncatedBody (expected actual : ℕ)
  | emptyBody
  | invalidPassThrough (tag : UInt8)
  | invalidControl (error : DecodeError)
  | lengthTooLarge
  deriving DecidableEq

/-- `u32_be(length) || 112 || control || payload?`, or no bytes where the length does not fit. -/
def writeDistMessage (control : List UInt8) (payload : Option (List UInt8)) : List UInt8 :=
  let payloadBytes := payload.getD []
  let bodyLen := 1 + control.length + payloadBytes.length
  if bodyLen < 2 ^ 32 then beBytes 4 bodyLen ++ passThrough :: (control ++ payloadBytes) else []

/-- The control term in front of a body, and what comes after it if anything does. -/
def splitControl (remaining : List UInt8) :
    Except FrameError (List UInt8 × Option (List UInt8)) :=
  match scanTermPrefix remaining with
  | .error e => .error (.invalidControl e)
  | .ok used => .ok (remaining.take used,
      if used = remaining.length then none else some (remaining.drop used))

/-- Control and payload of the message in front of a stream, and the rest of the stream. -/
def readDistMessage (stream : List UInt8) :
    Except FrameError ((List UInt8 × Option (List UInt8)) × List UInt8) :=
  if stream.length < 4 then .error .truncatedHeader
  else
    let length := beNat (stream.take 4)
    let stream := stream.drop 4
    if maxDistFrameBytes < length then .error .lengthTooLarge
    else if stream.length < length then .error (.truncatedBody length stream.length)
    else
      match stream.take length with
      | [] => .error .emptyBody
      | tag :: remaining =>
        if tag ≠ passThrough then .error (.invalidPassThrough tag)
        else do .ok (← splitControl remaining, stream.drop length)

/-! ## Encoded terms are scanned -/

section Parts

variable {bytes : List UInt8} {n left : ℕ} {inner : Cursor Unit}

theorem scans_skip (h : bytes.length = n) : Reads (Cursor.skipBytes n) () bytes () () :=
  (Reads.take _ () bytes h).bind_pure (Reads.pure () ())

theorem scans_readU8 (b : UInt8) : Reads Cursor.readU8 () [b] b () := Reads.byte _ () b

theorem scans_readU16 (h : n < 2 ^ 16) : Reads Cursor.readU16 () (beBytes 2 n) n () := by
  refine (Reads.take _ () _ (beBytes_length 2 n)).bind_pure ?_
  rw [beNat_beBytes_of_lt (by norm_num at h ⊢; exact h)]
  exact Reads.pure n ()

theorem scans_readU32 (h : n < 2 ^ 32) : Reads Cursor.readU32 () (beBytes 4 n) n () := by
  refine (Reads.take _ () _ (beBytes_length 4 n)).bind_pure ?_
  rw [beNat_beBytes_of_lt (by norm_num at h ⊢; exact h)]
  exact Reads.pure n ()

/-- A term is scanned after its tag. -/
theorem scans_ofTag {tag : UInt8} (h : Reads (scanBody (scanOne left) tag) () bytes () ()) :
    Reads (scanOne (left + 1)) () (tag :: bytes) () () :=
  (scans_readU8 tag).bind h

theorem scans_name (hvalid : utf8Valid bytes = true) (h : bytes.length = n) :
    Reads (scanName n) () bytes () () :=
  (Reads.take _ () bytes h).bind_pure
    ((Reads.require _ () hvalid).bind_nil (Reads.pure () ()))

/-- A name is scanned as a term and as a node. -/
theorem scans_atomName (left : ℕ) {name out : List UInt8} (hvalid : utf8Valid name = true)
    (hout : Etf.encodeAtomName name = .ok out) :
    Reads (scanOne (left + 1)) () out () () ∧ Reads scanNodeAtom () out () () := by
  unfold Etf.encodeAtomName at hout
  split_ifs at hout with hlen
  · obtain rfl := Except.ok.inj hout
    have hname : Reads (do scanName (← Cursor.readU8).toNat) ()
        (UInt8.ofNat name.length :: name) () () :=
      (scans_readU8 _).bind (scans_name hvalid (Etf.toNat_byte hlen).symm)
    exact ⟨scans_ofTag hname, (scans_readU8 Etf.Tags.smallAtomUtf8Ext).bind hname⟩
  · obtain ⟨n, hn, hout⟩ := except_bind_ok_iff.mp hout
    obtain ⟨rfl, hlt⟩ := Etf.u16Of_ok hn
    obtain rfl := Except.ok.inj hout
    have hname : Reads (do scanName (← Cursor.readU16)) ()
        (beBytes 2 name.length ++ name) () () :=
      (scans_readU16 hlt).bind (scans_name hvalid rfl)
    exact ⟨scans_ofTag hname, (scans_readU8 Etf.Tags.atomUtf8Ext).bind hname⟩

theorem scans_big (negative : Bool) (h : bytes.length = n) :
    Reads (scanBig n) () ((if negative then 1 else 0) :: bytes) () () := by
  cases negative with
  | false => exact (scans_readU8 0).bind (scans_skip h)
  | true => exact (scans_readU8 1).bind (scans_skip h)

/-- Of any size and value. -/
theorem scans_bigBytes {negative : Bool} {out : List UInt8}
    (hout : Etf.encodeBigBytes negative bytes = .ok out) :
    Reads (scanOne (left + 1)) () out () () := by
  unfold Etf.encodeBigBytes at hout
  dsimp only at hout
  by_cases hlen : (Etf.trimmed bytes).length < 256
  · rw [if_pos hlen] at hout
    obtain rfl := Except.ok.inj hout
    exact scans_ofTag ((scans_readU8 _).bind (scans_big negative (Etf.toNat_byte hlen).symm))
  · rw [if_neg hlen] at hout
    obtain ⟨n, hn, hout⟩ := except_bind_ok_iff.mp hout
    obtain ⟨rfl, hlt⟩ := Etf.u32Of_ok hn
    obtain rfl := Except.ok.inj hout
    exact scans_ofTag ((scans_readU32 hlt).bind (scans_big negative rfl))

theorem scans_integer {value : ℤ} {out : List UInt8} (hout : Etf.encodeInteger value = .ok out) :
    Reads (scanOne (left + 1)) () out () () := by
  unfold Etf.encodeInteger at hout
  split_ifs at hout
  · obtain rfl := Except.ok.inj hout
    exact scans_ofTag (scans_skip rfl)
  · obtain rfl := Except.ok.inj hout
    exact scans_ofTag (scans_skip (beBytes_length 4 _))
  · exact scans_bigBytes hout

/-- A pid is a node name and twelve bytes. -/
theorem scans_pid {node ids : List UInt8} (hnode : Reads scanNodeAtom () node () ())
    (hids : ids.length = 12) :
    Reads (scanOne (left + 1)) () (Etf.Tags.newPidExt :: (node ++ ids)) () () :=
  scans_ofTag (hnode.bind (scans_skip hids))

theorem scans_reference {node ids : List UInt8} (hnode : Reads scanNodeAtom () node () ())
    (hids : ids.length = 12) :
    Reads (scanOne (left + 1)) ()
      (Etf.Tags.newerReferenceExt :: (beBytes 2 2 ++ (node ++ ids))) () () := by
  refine scans_ofTag ((scans_readU16 (by norm_num)).bind ?_)
  exact (Reads.require _ () rfl).bind_nil (hnode.bind (scans_skip hids))

/-- Counted terms are scanned one by one. -/
theorem scans_many {vs : List Value} {table : AtomTable} {body : List (List UInt8)}
    (hbody : vs.mapM (encodeTermInner table left) = .ok body)
    (hscan : ∀ v ∈ vs, ∀ out, encodeTermInner table left v = .ok out → Reads inner () out () ()) :
    Reads (scanTerms inner vs.length) () body.flatten () () := by
  have hmany : ∃ units, Reads (many inner vs.length) () body.flatten units () := by
    induction vs generalizing body with
    | nil =>
      obtain rfl := Except.ok.inj hbody
      exact ⟨[], Reads.pure [] ()⟩
    | cons v vs ih =>
      obtain ⟨first, rest, hfirst, hrest, rfl⟩ := except_mapM_cons_ok hbody
      obtain ⟨units, hunits⟩ := ih hrest fun w hw => hscan w (List.mem_cons_of_mem v hw)
      exact ⟨() :: units, (hscan v List.mem_cons_self first hfirst).many_cons hunits⟩
  obtain ⟨units, hunits⟩ := hmany
  exact hunits.bind_pure (Reads.pure () ())

theorem scans_entries {es : List (Value × Value)} {table : AtomTable} {body : List (List UInt8)}
    (hbody : (es.flatMap fun e => [e.1, e.2]).mapM (encodeTermInner table left) = .ok body)
    (hscan : ∀ v ∈ es.flatMap fun e => [e.1, e.2], ∀ out, encodeTermInner table left v = .ok out →
      Reads inner () out () ()) :
    Reads (scanTerms (scanEntry inner) es.length) () body.flatten () () := by
  have hmany : ∃ units, Reads (many (scanEntry inner) es.length) () body.flatten units () := by
    induction es generalizing body with
    | nil =>
      obtain rfl := Except.ok.inj hbody
      exact ⟨[], Reads.pure [] ()⟩
    | cons e es ih =>
      rw [List.flatMap_cons, List.cons_append, List.cons_append, List.nil_append] at hbody hscan
      obtain ⟨first, others, hfirst, hothers, rfl⟩ := except_mapM_cons_ok hbody
      obtain ⟨second, rest, hsecond, hrest, rfl⟩ := except_mapM_cons_ok hothers
      obtain ⟨units, hunits⟩ := ih hrest fun w hw => hscan w (by simp [hw])
      have hkey := hscan e.1 (by simp) first hfirst
      have hentry : Reads (scanEntry inner) () (first ++ second) () () :=
        hkey.bind (hscan e.2 (by simp) second hsecond)
      refine ⟨() :: units, ?_⟩
      rw [List.flatten_cons, List.flatten_cons, ← List.append_assoc]
      exact hentry.many_cons hunits
  obtain ⟨units, hunits⟩ := hmany
  exact hunits.bind_pure (Reads.pure () ())

end Parts

/-- The scanner reads what the encoder writes. -/
theorem scans_encoded (table : AtomTable) (left : ℕ) (v : Value) {out : List UInt8}
    (hout : encodeTermInner table left v = .ok out) : Reads (scanOne left) () out () () := by
  induction left generalizing v out with
  | zero => cases hout
  | succ left ih =>
    have hinner : ∀ vs : List Value, ∀ w ∈ vs, ∀ out, encodeTermInner table left w = .ok out →
        Reads (scanOne left) () out () () := fun _ w _ _ h => ih w h
    have hlocal : ∀ {node}, Etf.encodeAtomName Etf.nonodeNohost = .ok node →
        Reads scanNodeAtom () node () () :=
      fun h => (scans_atomName 0 Etf.utf8Valid_nonodeNohost h).2
    have hremote : ∀ {a node}, Etf.encodeAtom table a = .ok node →
        Reads scanNodeAtom () node () () := by
      intro a node h
      obtain ⟨name, hvalid, hname⟩ := encodeAtom_ok h
      exact (scans_atomName 0 hvalid hname).2
    cases v with
    | number n =>
      cases n with
      | smallInt n => exact scans_integer hout
      | float x =>
        obtain rfl := Except.ok.inj hout
        exact scans_ofTag (scans_skip (beBytes_length 8 _))
      | bigInt negative limbs => exact scans_bigBytes hout
    | atom a =>
      obtain ⟨name, hvalid, hname⟩ := encodeAtom_ok hout
      exact (scans_atomName left hvalid hname).1
    | pid p =>
      cases p with
      | «local» number =>
        obtain ⟨node, hnode, hout⟩ := except_bind_ok_iff.mp hout
        obtain ⟨id, -, hout⟩ := except_bind_ok_iff.mp hout
        obtain rfl := Except.ok.inj hout
        simp only [List.cons_append, List.append_assoc]
        exact scans_pid (hlocal hnode) rfl
      | remote node number serial =>
        obtain ⟨node, hnode, hout⟩ := except_bind_ok_iff.mp hout
        obtain ⟨id, -, hout⟩ := except_bind_ok_iff.mp hout
        obtain ⟨serial, -, hout⟩ := except_bind_ok_iff.mp hout
        obtain rfl := Except.ok.inj hout
        simp only [List.cons_append, List.append_assoc]
        exact scans_pid (hremote hnode) rfl
    | reference r =>
      cases r with
      | «local» id =>
        obtain ⟨node, hnode, hout⟩ := except_bind_ok_iff.mp hout
        obtain rfl := Except.ok.inj hout
        simp only [List.cons_append, List.append_assoc]
        exact scans_reference (hlocal hnode) rfl
      | remote node id =>
        obtain ⟨node, hnode, hout⟩ := except_bind_ok_iff.mp hout
        obtain rfl := Except.ok.inj hout
        simp only [List.cons_append, List.append_assoc]
        exact scans_reference (hremote hnode) rfl
    | tuple elements =>
      obtain ⟨header, hheader, hout⟩ := except_bind_ok_iff.mp hout
      obtain ⟨body, hbody, hout⟩ := except_bind_ok_iff.mp hout
      obtain rfl := Except.ok.inj hout
      have hmany := scans_many hbody (hinner elements)
      unfold Etf.tupleHeader at hheader
      split_ifs at hheader with hsmall
      · obtain rfl := Except.ok.inj hheader
        rw [Etf.toNat_byte hsmall |>.symm] at hmany
        exact scans_ofTag ((scans_readU8 _).bind hmany)
      · obtain ⟨n, hn, hheader⟩ := except_bind_ok_iff.mp hheader
        obtain ⟨rfl, hlt⟩ := Etf.u32Of_ok hn
        obtain rfl := Except.ok.inj hheader
        exact scans_ofTag ((scans_readU32 hlt).bind hmany)
    | binary b =>
      obtain ⟨n, hn, hout⟩ := except_bind_ok_iff.mp hout
      obtain ⟨rfl, hlt⟩ := Etf.u32Of_ok hn
      obtain rfl := Except.ok.inj hout
      exact scans_ofTag ((scans_readU32 hlt).bind (scans_skip rfl))
    | map entries =>
      obtain ⟨header, hheader, hout⟩ := except_bind_ok_iff.mp hout
      obtain ⟨body, hbody, hout⟩ := except_bind_ok_iff.mp hout
      obtain rfl := Except.ok.inj hout
      obtain ⟨n, hn, hheader⟩ := except_bind_ok_iff.mp hheader
      obtain ⟨rfl, hlt⟩ := Etf.u32Of_ok hn
      obtain rfl := Except.ok.inj hheader
      exact scans_ofTag ((scans_readU32 hlt).bind (scans_entries hbody (hinner _)))
    | nil =>
      obtain rfl := Except.ok.inj hout
      exact scans_ofTag (Reads.pure () ())
    | cons head tail =>
      obtain ⟨header, hheader, hout⟩ := except_bind_ok_iff.mp hout
      obtain ⟨body, hbody, hout⟩ := except_bind_ok_iff.mp hout
      obtain rfl := Except.ok.inj hout
      obtain ⟨n, hn, hheader⟩ := except_bind_ok_iff.mp hheader
      obtain ⟨rfl, hlt⟩ := Etf.u32Of_ok hn
      obtain rfl := Except.ok.inj hheader
      obtain ⟨heads, last, hheads, hlast, rfl⟩ := except_mapM_concat_ok_iff.mp hbody
      rw [List.flatten_append, List.flatten_singleton]
      exact scans_ofTag ((scans_readU32 hlt).bind
        ((scans_many hheads (hinner _)).bind (ih _ hlast)))
    | closure c free => cases hout
    | other o => cases hout

/-! ## Messages come apart as they were put together -/

theorem scanTermPrefix_encoded {table : AtomTable} {term : Value} {control : List UInt8}
    (hcontrol : encodeTermResult table term = .ok control) (rest : List UInt8) :
    scanTermPrefix (control ++ rest) = .ok control.length := by
  obtain ⟨inner, hinner, hcontrol⟩ := except_bind_ok_iff.mp hcontrol
  obtain rfl := Except.ok.inj hcontrol
  have hscan := scans_encoded table (maxEtfDepth + 1) term hinner rest
  refine used_ok_iff.mpr ⟨(), (), rest, ?_, ?_⟩
  · exact hscan
  · rw [List.length_append]
    omega

/-- The bytes of terms. -/
def Encoding (table : AtomTable) : Type :=
  {bytes // ∃ term, encodeTermResult table term = .ok bytes}

/-- Terms in a row come apart in one way, also those of different atom tables. -/
theorem encoding_append_inj {table table' : AtomTable} (a : Encoding table) (b : Encoding table')
    (rest rest' : List UInt8) : a.1 ++ rest = b.1 ++ rest' ↔ a.1 = b.1 ∧ rest = rest' := by
  obtain ⟨bytes, term, hterm⟩ := a
  obtain ⟨bytes', term', hterm'⟩ := b
  refine ⟨fun h => ?_, by rintro ⟨rfl, rfl⟩; rfl⟩
  have hscan := (scanTermPrefix_encoded hterm rest).symm.trans
    (h ▸ scanTermPrefix_encoded hterm' rest')
  exact List.append_inj h (Except.ok.inj hscan)

theorem readDistMessage_write {table : AtomTable} {term : Value} {control payload : List UInt8}
    (hcontrol : encodeTermResult table term = .ok control) (hpayload : payload ≠ [])
    (hcap : 1 + control.length + payload.length ≤ maxDistFrameBytes) (rest : List UInt8) :
    readDistMessage (writeDistMessage control (some payload) ++ rest) =
      .ok ((control, some payload), rest) := by
  have hscan := scanTermPrefix_encoded hcontrol payload
  have hwide : 1 + control.length + payload.length < 2 ^ 32 := by
    unfold maxDistFrameBytes at hcap
    norm_num
    omega
  have hpos : 0 < payload.length := List.length_pos_iff.mpr hpayload
  have hsplit : splitControl (control ++ payload) = .ok (control, some payload) := by
    unfold splitControl
    rw [hscan]
    dsimp only
    rw [List.take_left, List.drop_left, List.length_append, if_neg (by omega)]
  have hwrite : writeDistMessage control (some payload) ++ rest =
      beBytes 4 (1 + control.length + payload.length) ++
        (passThrough :: (control ++ payload) ++ rest) := by
    rw [writeDistMessage]
    dsimp only [Option.getD]
    rw [if_pos hwide, List.append_assoc]
  have hbody : (passThrough :: (control ++ payload)).length =
      1 + control.length + payload.length := by
    rw [List.length_cons, List.length_append]
    omega
  have hlength : beNat (beBytes 4 (1 + control.length + payload.length)) =
      1 + control.length + payload.length := by
    norm_num at hwide
    exact beNat_beBytes_of_lt (by norm_num; exact hwide)
  rw [hwrite, readDistMessage]
  have hheader : (beBytes 4 (1 + control.length + payload.length)).length = 4 :=
    beBytes_length 4 _
  rw [List.take_left' hheader, List.drop_left' hheader, hlength, if_neg (by simp),
    if_neg (by omega), List.length_append, hbody, if_neg (by omega), List.take_left' hbody, List.drop_left' hbody]
  dsimp only
  rw [if_neg (by simp), hsplit]
  rfl

/-! ## Scanner and decoder -/

/-- Where the heap has room, and four words for each byte are room enough, the scanner finds the end
that the decoder comes to just on the agreeable bytes. Every frame that the writer makes of an
encoded term is read back. -/
theorem scanner_agrees_iff (s : DecodeState ℕ) (bytes : List UInt8) (table : AtomTable)
    (term : Value) (control payload rest : List UInt8) :
    (4 * bytes.length ≤ s.heap → decodeTermPrefix s bytes ≠ .error .heapAllocationFailed) ∧
    (decodeTermPrefix s bytes ≠ .error .heapAllocationFailed →
      ((∀ n, scanTermPrefix bytes = .ok n ↔ decodeUsed s bytes = .ok n) ↔ Agreeable bytes)) ∧
    (encodeTermResult table term = .ok control → payload ≠ [] →
      1 + control.length + payload.length ≤ maxDistFrameBytes →
      readDistMessage (writeDistMessage control (some payload) ++ rest) =
        .ok ((control, some payload), rest)) :=
  ⟨decodeTermPrefix_room, scan_agrees,
    fun hcontrol hpayload hcap => readDistMessage_write hcontrol hpayload hcap rest⟩

/-- `nil` and a payload of one byte. -/
theorem scanner_agrees_iff_nil :
    readDistMessage (writeDistMessage [131, 106] (some [7]) ++ []) =
      .ok (([131, 106], some [7]), []) :=
  (scanner_agrees_iff ⟨Etf.noAtoms, 0⟩ [] Etf.noAtoms .nil [131, 106] [7] []).2.2 rfl (by decide)
    (by decide)

/-- An integer of eight bytes, `2 ^ 64 - 1`. -/
def unsignedWord : List UInt8 := [131, 110, 8, 0, 255, 255, 255, 255, 255, 255, 255, 255]

/-- The scanner skips what the decoder refuses. -/
theorem not_scanner_agrees :
    ¬ ∀ (s : DecodeState ℕ) (bytes : List UInt8),
      decodeTermPrefix s bytes ≠ .error .heapAllocationFailed →
      ∀ n, scanTermPrefix bytes = .ok n ↔ decodeUsed s bytes = .ok n := by
  intro hall
  have hdecode : decodeUsed ⟨Etf.noAtoms, 48⟩ unsignedWord = .error .integerOutOfRange := rfl
  have hscan : scanTermPrefix unsignedWord = .ok 12 := rfl
  have hused := (hall ⟨Etf.noAtoms, 48⟩ unsignedWord
    (decodeTermPrefix_room (by decide)) 12).mp hscan
  rw [hdecode] at hused
  cases hused

end Beamr.Distribution.TermCodec
