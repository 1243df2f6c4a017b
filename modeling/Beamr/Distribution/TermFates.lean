import Beamr.Distribution.TermCodec
import Beamr.Etf.RoundTrip
import Beamr.Lib.PrefixCode
import Beamr.Term.Convert

/-!
# What becomes of encoded terms

The bytes of a term are decoded, and the decoded term is encoded. Two decisions of the decoder are
not those of the encoder: how it reads a magnitude of up to eight bytes, and how deep the node of a
pid or a reference counts. So some terms are refused, and some come back as other bytes. The fate of
a term says which, and numbers meet theirs.
-/
namespace Beamr.Distribution.TermCodec

open Term ByteOrder Decoder PrefixCode
open Etf (EncodeError DecodeState maxEtfDepth)

/-! ## What becomes of a term -/

/-- A bignum that the decoder can hold and does not turn into a shorter integer. -/
def bigFate (negative : Bool) (limbs : List UInt64) : Option Bool :=
  if 2 ^ 64 ≤ limbsNat (limbs.map UInt64.toNat) then some true
  else if FitsSigned 64 (Etf.signedValue negative limbs) then
    some (decide (¬ FitsSigned 32 (Etf.signedValue negative limbs)))
  else none

/-- What becomes of a term apart from the terms nested in it. -/
def ownFate (left : ℕ) : Value → Option Bool
  | .number (.bigInt negative limbs) => bigFate negative limbs
  | .pid _ => if left = 0 then none else some true
  | .reference _ => if left = 0 then none else some true
  | _ => some true

/-- Whether a term comes back as the same bytes, or nothing if it is refused. -/
def fate : ℕ → Value → Option Bool
  | 0, _ => none
  | left + 1, v => do
    let own ← ownFate left v
    let inner ← (Etf.nested v).mapM (fate left)
    return own && inner.all id

/-- The fate of two parts one after the other. -/
def both (first second : Option Bool) : Option Bool := do return (← first) && (← second)

@[simp] theorem both_none (second : Option Bool) : both none second = none := rfl

@[simp] theorem both_some_none (same : Bool) : both (some same) none = none := rfl

@[simp] theorem both_some (same same' : Bool) :
    both (some same) (some same') = some (same && same') := rfl

@[simp] theorem both_true (first : Option Bool) : both first (some true) = first := by
  cases first <;> simp

theorem both_assoc (first second third : Option Bool) :
    both (both first second) third = both first (both second third) := by
  cases first <;> cases second <;> cases third <;> simp [Bool.and_assoc]

/-! ## Decoders on encoded terms -/

section Comes

variable {α β : Type} {pre pre' : AtomTable → Prop} {words words' : ℕ} {foretold foretold' : Option Bool}

/-- With so many words available `d` reads the bytes, and what it reads is encoded as the same
bytes or as others, or it fails, as foretold. The atoms it finds satisfy `pre`. -/
def Comes (pre : AtomTable → Prop) (words : ℕ) (foretold : Option Bool) (d : TermDecoder α)
    (bytes : List UInt8) (result : AtomTable → α → List UInt8 → Prop) : Prop :=
  ∀ s : DecodeState ℕ, words ≤ s.heap → pre s.atoms →
    (foretold = none → ∃ e, Fails d s bytes e) ∧
    ∀ same, foretold = some same → ∃ a s' bytes', Reads d s bytes a s' ∧
      s.heap ≤ s'.heap + words ∧ s'.atoms.Extends s.atoms ∧ result s'.atoms a bytes' ∧
        Compares same bytes bytes'

/-- What holds of a table holds of every larger one. -/
def Grows (pre : AtomTable → Prop) : Prop := ∀ t u : AtomTable, u.Extends t → pre t → pre u

namespace Comes

theorem mono {d : TermDecoder α} {bytes : List UInt8} {result : AtomTable → α → List UInt8 → Prop}
    (h : Comes pre words foretold d bytes result) (hle : words ≤ words')
    (himp : ∀ t, pre' t → pre t) : Comes pre' words' foretold d bytes result := by
  intro s hs ht
  obtain ⟨hnone, hsome⟩ := h s (hle.trans hs) (himp _ ht)
  refine ⟨hnone, fun same hsame => ?_⟩
  obtain ⟨a, s', bytes', hreads, hheap, hrest⟩ := hsome same hsame
  exact ⟨a, s', bytes', hreads, by omega, hrest⟩

/-- A step that reads nothing and gives the result. -/
theorem pure {result : AtomTable → α → List UInt8 → Prop} {a : α} (ha : ∀ t, pre t → result t a []) :
    Comes pre 0 (some true) (Pure.pure a) [] result := by
  intro s _ ht
  refine ⟨by simp, fun same hsame => ⟨a, s, [], Reads.pure a s, le_rfl,
    AtomTable.Extends.refl _, ha _ ht, ?_⟩⟩
  cases hsame
  rfl

/-- One decoder after another: the second one goes on with what the first has read. -/
theorem bind {d : TermDecoder α} {f : α → TermDecoder β} {xs ys : List UInt8}
    {first : AtomTable → α → List UInt8 → Prop} {result : AtomTable → β → List UInt8 → Prop}
    (hpre : Grows pre) (h : Comes pre words foretold d xs first)
    (hf : ∀ a code, Comes (fun t => pre t ∧ first t a code) words' foretold' (f a) ys
      fun t b code' => result t b (code ++ code')) :
    Comes pre (words + words') (both foretold foretold') (d >>= f) (xs ++ ys) result := by
  intro s hs ht
  obtain ⟨hnone, hsome⟩ := h s (by omega) ht
  cases foretold with
  | none =>
    obtain ⟨e, hfails⟩ := hnone rfl
    exact ⟨fun _ => ⟨e, (hfails.bind_first f).append ys⟩, by simp⟩
  | some same =>
    obtain ⟨a, s', code, hreads, hheap, hext, hfirst, hcode⟩ := hsome same rfl
    obtain ⟨hnone', hsome'⟩ := hf a code s' (by omega) ⟨hpre _ _ hext ht, hfirst⟩
    cases foretold' with
    | none =>
      obtain ⟨e, hfails⟩ := hnone' rfl
      exact ⟨fun _ => ⟨e, Fails.bind hreads hfails⟩, by simp⟩
    | some same' =>
      refine ⟨by simp, fun both hboth => ?_⟩
      obtain ⟨b, s'', code', hreads', hheap', hext', hresult, hcode'⟩ := hsome' same' rfl
      obtain rfl : (same && same') = both := by simpa using hboth
      exact ⟨b, s'', code ++ code', hreads.bind hreads', by omega, hext'.trans hext, hresult,
        hcode.append hcode'⟩

/-- A first step that only reads. -/
theorem read {d : TermDecoder α} {f : α → TermDecoder β} {xs ys : List UInt8} {a : α}
    {result : AtomTable → β → List UInt8 → Prop} (h : ∀ s, Reads d s xs a s)
    (hf : Comes pre words foretold (f a) ys fun t b code => result t b (xs ++ code)) :
    Comes pre words foretold (d >>= f) (xs ++ ys) result := by
  intro s hs ht
  obtain ⟨hnone, hsome⟩ := hf s hs ht
  refine ⟨fun hn => ?_, fun same hsame => ?_⟩
  · obtain ⟨e, hfails⟩ := hnone hn
    exact ⟨e, Fails.bind (h s) hfails⟩
  · obtain ⟨b, s', code, hreads, hheap, hext, hresult, hcode⟩ := hsome same hsame
    have hxs : Compares true xs xs := rfl
    refine ⟨b, s', xs ++ code, (h s).bind hreads, hheap, hext, hresult, ?_⟩
    simpa using hxs.append hcode

/-- A first step that reads nothing. -/
theorem read_nil {d : TermDecoder α} {f : α → TermDecoder β} {ys : List UInt8} {a : α}
    {result : AtomTable → β → List UInt8 → Prop} (h : ∀ s, Reads d s [] a s)
    (hf : Comes pre words foretold (f a) ys result) :
    Comes pre words foretold (d >>= f) ys result :=
  read h hf

theorem imp {d : TermDecoder α} {bytes : List UInt8}
    {result result' : AtomTable → α → List UInt8 → Prop}
    (h : Comes pre words foretold d bytes result)
    (himp : ∀ t a code, result t a code → result' t a code) :
    Comes pre words foretold d bytes result' := by
  intro s hs ht
  obtain ⟨hnone, hsome⟩ := h s hs ht
  refine ⟨hnone, fun same hsame => ?_⟩
  obtain ⟨a, s', code, hreads, hheap, hext, hresult, hcode⟩ := hsome same hsame
  exact ⟨a, s', code, hreads, hheap, hext, himp _ _ _ hresult, hcode⟩

/-- A second step that keeps what it reads. -/
theorem bind_sure {d : TermDecoder α} {f : α → TermDecoder β} {xs ys : List UInt8}
    {first : AtomTable → α → List UInt8 → Prop} {result : AtomTable → β → List UInt8 → Prop}
    (hpre : Grows pre) (h : Comes pre words foretold d xs first)
    (hf : ∀ a code, Comes (fun t => pre t ∧ first t a code) words' (some true) (f a) ys
      fun t b code' => result t b (code ++ code')) :
    Comes pre (words + words') foretold (d >>= f) (xs ++ ys) result := by
  have hbind := bind hpre h hf
  rwa [both_true] at hbind

/-- A last step that reads nothing and always succeeds. -/
theorem bind_last {d : TermDecoder α} {f : α → TermDecoder β} {xs : List UInt8}
    {first : AtomTable → α → List UInt8 → Prop} {result : AtomTable → β → List UInt8 → Prop}
    (hpre : Grows pre) (h : Comes pre words foretold d xs first)
    (hf : ∀ a code, Comes (fun t => pre t ∧ first t a code) words' (some true) (f a) []
      fun t b code' => result t b (code ++ code')) :
    Comes pre (words + words') foretold (d >>= f) xs result := by
  have hbind := bind_sure hpre h hf
  rwa [List.append_nil] at hbind

theorem of_reads {d : TermDecoder α} {bytes : List UInt8}
    {result : AtomTable → α → List UInt8 → Prop} {same : Bool}
    (h : ∀ s : DecodeState ℕ, words ≤ s.heap → pre s.atoms → ∃ a s' code, Reads d s bytes a s' ∧
      s.heap ≤ s'.heap + words ∧ s'.atoms.Extends s.atoms ∧ result s'.atoms a code ∧
        Compares same bytes code) : Comes pre words (some same) d bytes result := by
  intro s hs ht
  refine ⟨by simp, fun same' hsame => ?_⟩
  cases hsame
  exact h s hs ht

theorem of_fails {d : TermDecoder α} {bytes : List UInt8}
    {result : AtomTable → α → List UInt8 → Prop} (h : ∀ s, ∃ e, Fails d s bytes e) :
    Comes pre words none d bytes result := by
  intro s _ _
  exact ⟨fun _ => h s, by simp⟩

/-- What `pre` says may be used. -/
theorem of_pre {d : TermDecoder α} {bytes : List UInt8}
    {result : AtomTable → α → List UInt8 → Prop}
    (h : ∀ t, pre t → Comes pre words foretold d bytes result) :
    Comes pre words foretold d bytes result := fun s hs ht => h s.atoms ht s hs ht

/-- There are enough bytes for so many terms. -/
theorem ensured {d : TermDecoder α} {n : ℕ} {bytes : List UInt8}
    {result : AtomTable → α → List UInt8 → Prop} (hn : n ≤ bytes.length)
    (h : Comes pre words foretold d bytes result) :
    Comes pre words foretold (do ensureDecodableSequence n; d) bytes result := by
  have hensure (s : DecodeState ℕ) (rest : List UInt8) :
      (do ensureDecodableSequence n; d) s (bytes ++ rest) = d s (bytes ++ rest) := by
    have hlength : n ≤ (bytes ++ rest).length := by
      rw [List.length_append]
      omega
    have hok : ensureDecodableSequence n s (bytes ++ rest) = .ok ((), s, bytes ++ rest) := by
      rw [ensureDecodableSequence, bind_ok_iff]
      exact ⟨bytes ++ rest, s, _, rfl, require_ok_iff.2 ⟨decide_eq_true hlength, rfl, rfl⟩⟩
    exact bind_eq_of_ok hok
  intro s hs ht
  obtain ⟨hnone, hsome⟩ := h s hs ht
  refine ⟨fun hn => ?_, fun same hsame => ?_⟩
  · obtain ⟨e, hfails⟩ := hnone hn
    exact ⟨e, fun rest => (hensure s rest).trans (hfails rest)⟩
  · obtain ⟨a, s', code, hreads, hrest⟩ := hsome same hsame
    exact ⟨a, s', code, fun rest => (hensure s rest).trans (hreads rest), hrest⟩

end Comes

theorem reads_allocated {s : DecodeState ℕ} {n : ℕ} (h : n ≤ s.heap) (term : Value) :
    Reads (alloc n term) s [] term { s with heap := s.heap - n } :=
  (Reads.getState s).bind_nil ((Reads.require _ s (decide_eq_true h)).bind_nil
    ((Reads.setState s _).bind_nil (Reads.pure term _)))

theorem comes_alloc {result : AtomTable → Value → List UInt8 → Prop} {term : Value}
    (h : ∀ t, pre t → result t term []) : Comes pre words (some true) (alloc words term) [] result :=
  Comes.of_reads fun s hs ht => ⟨term, _, [], reads_allocated hs term, by simp; omega,
    AtomTable.Extends.refl _, h _ ht, rfl⟩

end Comes

/-! ## Parts of the input -/

section Parts

variable (s : DecodeState ℕ)

theorem reads_readU8 (b : UInt8) : Reads readU8 s [b] b s := Reads.byte _ s b

theorem reads_readBytes {bytes : List UInt8} {n : ℕ} (h : bytes.length = n) :
    Reads (readBytes n) s bytes bytes s :=
  Reads.take _ s bytes h

theorem reads_readU16 {n : ℕ} (h : n < 2 ^ 16) : Reads readU16 s (beBytes 2 n) n s := by
  refine (reads_readBytes s (beBytes_length 2 n)).bind_pure ?_
  rw [beNat_beBytes_of_lt (by norm_num at h ⊢; exact h)]
  exact Reads.pure n s

theorem reads_readU32 {n : ℕ} (h : n < 2 ^ 32) : Reads readU32 s (beBytes 4 n) n s := by
  refine (reads_readBytes s (beBytes_length 4 n)).bind_pure ?_
  rw [beNat_beBytes_of_lt (by norm_num at h ⊢; exact h)]
  exact Reads.pure n s

theorem reads_readI32 {value : ℤ} (h : FitsSigned 32 value) :
    Reads readI32 s (beBytes 4 (ofSigned 32 value)) value s := by
  refine (reads_readU32 s (ofSigned_lt 32 value)).bind_pure ?_
  rw [toSigned_ofSigned (by norm_num) h]
  exact Reads.pure value s

theorem reads_sign (negative : Bool) :
    Reads decodeSign s [if negative then 1 else 0] negative s := by
  cases negative with
  | false => exact (reads_readU8 s 0).bind_pure (Reads.pure false s)
  | true => exact (reads_readU8 s 1).bind_pure (Reads.pure true s)

variable {s} {left : ℕ} {tag : UInt8} {rest : List UInt8}

theorem reads_ofTag {v : Value} {s' : DecodeState ℕ}
    (h : Reads (decodeBody (decodeOne left) tag) s rest v s') :
    Reads (decodeOne (left + 1)) s (tag :: rest) v s' :=
  (reads_readU8 s tag).bind h

theorem comes_ofTag {pre : AtomTable → Prop} {words : ℕ} {foretold : Option Bool}
    {result : AtomTable → Value → List UInt8 → Prop}
    (h : Comes pre words foretold (decodeBody (decodeOne left) tag) rest
      fun t v code => result t v (tag :: code)) :
    Comes pre words foretold (decodeOne (left + 1)) (tag :: rest) result :=
  Comes.read (fun s => reads_readU8 s tag) h

end Parts

/-! ## Magnitudes -/

section Magnitudes

/-- A magnitude without zeros at its end has the length of its value. -/
theorem length_le_of_leNat {xs ys : List UInt8} (h : leNat xs = leNat ys)
    (hx : ∀ hne : xs ≠ [], xs.getLast hne ≠ 0) : xs.length ≤ ys.length := by
  by_contra hlt
  have hne : xs ≠ [] := by
    rintro rfl
    simp at hlt
  have hlow := le_leNat_of_getLast_ne_zero xs hne (hx hne)
  have hhigh := leNat_lt ys
  have hpow : 256 ^ ys.length ≤ 256 ^ (xs.length - 1) :=
    Nat.pow_le_pow_right (by norm_num) (by omega)
  omega

theorem getLast_rdropWhile (bytes : List UInt8) (hne : bytes.rdropWhile (· == 0) ≠ []) :
    (bytes.rdropWhile (· == 0)).getLast hne ≠ 0 := by
  simpa using List.rdropWhile_last_not (· == 0) bytes hne

/-- The value decides the trimmed magnitude. -/
theorem trimmed_congr {xs ys : List UInt8} (h : leNat xs = leNat ys) (hpos : leNat xs ≠ 0) :
    Etf.trimmed xs = Etf.trimmed ys := by
  rw [Etf.trimmed_eq hpos, Etf.trimmed_eq (h ▸ hpos)]
  have hvalue : leNat (xs.rdropWhile (· == 0)) = leNat (ys.rdropWhile (· == 0)) := by
    rw [leNat_rdropWhile, leNat_rdropWhile, h]
  have hlength : (xs.rdropWhile (· == 0)).length = (ys.rdropWhile (· == 0)).length :=
    le_antisymm (length_le_of_leNat hvalue (getLast_rdropWhile xs))
      (length_le_of_leNat hvalue.symm (getLast_rdropWhile ys))
  rw [← leBytes_leNat (xs.rdropWhile (· == 0)), hlength, hvalue, leBytes_leNat]

theorem encodeBigBytes_congr {negative : Bool} {xs ys : List UInt8} (h : leNat xs = leNat ys)
    (hpos : leNat xs ≠ 0) : Etf.encodeBigBytes negative xs = Etf.encodeBigBytes negative ys := by
  rw [Etf.encodeBigBytes, Etf.encodeBigBytes, trimmed_congr h hpos]

/-- A machine word is enough exactly for magnitudes below `2 ^ 64`. -/
theorem length_trimmed_le_iff (bytes : List UInt8) :
    (Etf.trimmed bytes).length ≤ 8 ↔ leNat bytes < 2 ^ 64 := by
  by_cases hpos : leNat bytes = 0
  · have hnil : bytes.rdropWhile (· == 0) = [] := by
      rw [List.rdropWhile_eq_nil_iff]
      simpa using leNat_eq_zero_iff.1 hpos
    have hlength : (Etf.trimmed bytes).length ≤ 1 := by
      rw [Etf.trimmed, hnil]
      exact List.length_take_le 1 bytes
    exact iff_of_true (by omega) (by omega)
  have hword : (256 : ℕ) ^ 8 = 2 ^ 64 := by norm_num
  constructor
  · intro hle
    have hlt := leNat_lt (Etf.trimmed bytes)
    rw [Etf.leNat_trimmed hpos] at hlt
    have hpow : 256 ^ (Etf.trimmed bytes).length ≤ 256 ^ 8 :=
      Nat.pow_le_pow_right (by norm_num) hle
    omega
  · intro hlt
    have hmod : leNat (leBytes 8 (leNat bytes)) = leNat bytes :=
      leNat_leBytes_of_lt (by rw [hword]; exact hlt)
    rw [← trimmed_congr hmod (by rwa [hmod])]
    refine (Etf.length_trimmed_le (by rwa [hmod])).trans ?_
    rw [leBytes_length]

theorem leNat_trimmed (bytes : List UInt8) : leNat (Etf.trimmed bytes) = leNat bytes := by
  by_cases hpos : leNat bytes = 0
  · have hzero := leNat_eq_zero_iff.1 hpos
    rw [hpos, leNat_eq_zero_iff]
    exact fun byte hbyte => hzero byte (List.mem_of_mem_take hbyte)
  · exact Etf.leNat_trimmed hpos

theorem limbsNat_limbsOf (bytes : List UInt8) :
    limbsNat ((Etf.limbsOf bytes).map UInt64.toNat) = leNat bytes := by
  have hmap : (Etf.limbsOf bytes).map UInt64.toNat = (chunks8 bytes).map leNat := by
    rw [Etf.limbsOf, List.map_map]
    refine List.map_congr_left fun chunk hchunk => ?_
    exact UInt64.toNat_ofNat_of_lt' (chunks8_lt bytes _ (List.mem_map_of_mem hchunk))
  rw [hmap, limbsNat_chunks8]

end Magnitudes

/-! ## Integers -/

section Integers

variable {left : ℕ} {s : DecodeState ℕ}

/-- Behind its length, in either width, a magnitude is read as such. -/
theorem decodeOne_bigBytes {negative : Bool} {bytes out : List UInt8}
    (hout : Etf.encodeBigBytes negative bytes = .ok out) : ∃ head,
      out = head ++ (if negative then 1 else 0) :: Etf.trimmed bytes ∧
      ((Etf.trimmed bytes).length ≤ 8 → ∃ more, head = Etf.Tags.smallBigExt :: more) ∧
      ∀ (left : ℕ) (s : DecodeState ℕ) (rest : List UInt8),
        decodeOne (left + 1) s (head ++ rest) =
          decodeBigInteger (Etf.trimmed bytes).length s rest := by
  unfold Etf.encodeBigBytes at hout
  dsimp only at hout
  by_cases hlen : (Etf.trimmed bytes).length < 256
  · rw [if_pos hlen] at hout
    obtain rfl := Except.ok.inj hout
    refine ⟨[Etf.Tags.smallBigExt, UInt8.ofNat (Etf.trimmed bytes).length], rfl,
      fun _ => ⟨_, rfl⟩, fun left s rest => ?_⟩
    have hlength := Etf.toNat_byte hlen
    exact congrArg (fun length => decodeBigInteger length s rest) hlength
  · rw [if_neg hlen] at hout
    obtain ⟨n, hn, hout⟩ := except_bind_ok_iff.mp hout
    obtain ⟨rfl, hlt⟩ := Etf.u32Of_ok hn
    obtain rfl := Except.ok.inj hout
    refine ⟨Etf.Tags.largeBigExt :: beBytes 4 (Etf.trimmed bytes).length, rfl,
      fun hle => absurd hle (by omega), fun left s rest => ?_⟩
    change (do decodeBigInteger (← readU32)) s (beBytes 4 (Etf.trimmed bytes).length ++ rest) = _
    exact bind_eq_of_ok (reads_readU32 s hlt rest)

theorem reads_bigBytes {negative : Bool} {bytes out : List UInt8} {v : Value} {s' : DecodeState ℕ}
    (hout : Etf.encodeBigBytes negative bytes = .ok out)
    (h : Reads (decodeBigInteger (Etf.trimmed bytes).length) s
      ((if negative then 1 else 0) :: Etf.trimmed bytes) v s') :
    Reads (decodeOne (left + 1)) s out v s' := by
  obtain ⟨head, rfl, -, heq⟩ := decodeOne_bigBytes hout
  intro rest
  rw [List.append_assoc, heq]
  exact h rest

theorem fails_bigBytes {negative : Bool} {bytes out : List UInt8} {e : DecodeError}
    (hout : Etf.encodeBigBytes negative bytes = .ok out)
    (h : Fails (decodeBigInteger (Etf.trimmed bytes).length) s
      ((if negative then 1 else 0) :: Etf.trimmed bytes) e) :
    Fails (decodeOne (left + 1)) s out e := by
  obtain ⟨head, rfl, -, heq⟩ := decodeOne_bigBytes hout
  intro rest
  rw [List.append_assoc, heq]
  exact h rest

/-- The integer of a sign and a magnitude. -/
def signed (negative : Bool) (magnitude : List UInt8) : ℤ :=
  if negative then -leNat magnitude else leNat magnitude

/-- Up to eight bytes are read by their value. -/
theorem decodeBigInteger_word {negative : Bool} {magnitude : List UInt8}
    (hlen : magnitude.length ≤ 8) (s : DecodeState ℕ) (rest : List UInt8) :
    decodeBigInteger magnitude.length s ((if negative then 1 else 0) :: magnitude ++ rest) =
      decodeWord (signed negative magnitude) s rest := by
  have hsign : decodeSign s ((if negative then 1 else 0) :: magnitude ++ rest) =
      .ok (negative, s, magnitude ++ rest) := reads_sign s negative (magnitude ++ rest)
  rw [decodeBigInteger, bind_eq_of_ok hsign, bind_eq_of_ok (reads_readBytes s rfl rest),
    if_pos hlen]
  rfl

section Word

variable {negative : Bool} {magnitude : List UInt8} (hlen : magnitude.length ≤ 8)

include hlen

theorem reads_word_small (hfits : FitsSigned 64 (signed negative magnitude)) {n : SmallInt}
    (hsmall : Etf.trySmallInt (signed negative magnitude) = some n) :
    Reads (decodeBigInteger magnitude.length) s ((if negative then 1 else 0) :: magnitude)
      (.number (.smallInt n)) s := by
  intro rest
  rw [decodeBigInteger_word hlen, decodeWord, if_pos hfits, hsmall]
  rfl

theorem reads_word_big (hfits : FitsSigned 64 (signed negative magnitude))
    (hbig : Etf.trySmallInt (signed negative magnitude) = none) (hheap : 4 ≤ s.heap) :
    Reads (decodeBigInteger magnitude.length) s ((if negative then 1 else 0) :: magnitude)
      (.number (.bigInt (signed negative magnitude < 0)
        [UInt64.ofNat (signed negative magnitude).natAbs])) { s with heap := s.heap - 4 } := by
  intro rest
  rw [decodeBigInteger_word hlen, decodeWord, if_pos hfits, hbig]
  exact reads_allocated hheap _ rest

theorem fails_word (hfits : ¬ FitsSigned 64 (signed negative magnitude)) :
    Fails (decodeBigInteger magnitude.length) s ((if negative then 1 else 0) :: magnitude)
      .integerOutOfRange := by
  intro rest
  rw [decodeBigInteger_word hlen, decodeWord, if_neg hfits]
  rfl

end Word

theorem reads_limbs {negative : Bool} {magnitude : List UInt8} (hlen : ¬ magnitude.length ≤ 8)
    (hheap : 3 + (Etf.limbsOf magnitude).length ≤ s.heap) :
    Reads (decodeBigInteger magnitude.length) s ((if negative then 1 else 0) :: magnitude)
      (.number (.bigInt negative (Etf.limbsOf magnitude)))
      { s with heap := s.heap - (3 + (Etf.limbsOf magnitude).length) } := by
  refine (reads_sign s negative).bind ((reads_readBytes s rfl).bind_pure ?_)
  rw [if_neg hlen]
  exact reads_allocated hheap _

/-- An integer is read back, whatever its width. -/
theorem reads_integer {n : SmallInt} {bytes : List UInt8}
    (hbytes : Etf.encodeInteger n.value = .ok bytes) :
    Reads (decodeOne (left + 1)) s bytes (.number (.smallInt n)) s := by
  have hmin := n.min_le
  have hmax := n.lt_max
  unfold Etf.encodeInteger at hbytes
  split_ifs at hbytes with hbyte hword
  · obtain rfl := Except.ok.inj hbytes
    have hvalue : ((UInt8.ofNat n.value.toNat).toNat : ℤ) = n.value := by
      rw [Etf.toNat_byte (by omega)]
      omega
    have hsmall : Etf.smallInt (UInt8.ofNat n.value.toNat) = .number (.smallInt n) := by
      simp only [Etf.smallInt, hvalue]
    refine reads_ofTag ((reads_readU8 s _).bind_pure ?_)
    rw [hsmall]
    exact Reads.pure _ s
  · obtain rfl := Except.ok.inj hbytes
    refine reads_ofTag ((reads_readI32 s hword).bind_pure ?_)
    rw [decodeSmallInteger, Etf.trySmallInt_value]
    exact Reads.pure _ s
  · have hmag : leNat (leBytes 8 n.value.natAbs) = n.value.natAbs :=
      leNat_leBytes_of_lt (by norm_num; omega)
    have hsigned : signed (n.value < 0) (Etf.trimmed (leBytes 8 n.value.natAbs)) = n.value := by
      rw [signed, leNat_trimmed, hmag]
      split_ifs with hneg
      · have := of_decide_eq_true hneg
        omega
      · have := of_decide_eq_false (Bool.eq_false_iff.mpr hneg)
        omega
    have hlen := (length_trimmed_le_iff (leBytes 8 n.value.natAbs)).2 (by rw [hmag]; omega)
    refine reads_bigBytes hbytes (reads_word_small hlen ?_ ?_)
    · rw [hsigned]
      exact ⟨by norm_num; omega, by norm_num; omega⟩
    · rw [hsigned, Etf.trySmallInt_value]

/-- The tag of a small integer is not that of a big one. -/
theorem encodeInteger_word {value : ℤ} (h : FitsSigned 32 value) (rest : List UInt8) :
    ∃ bytes, Etf.encodeInteger value = .ok bytes ∧
      Diverge (Etf.Tags.smallBigExt :: rest) bytes := by
  unfold Etf.encodeInteger
  split_ifs
  · exact ⟨_, rfl, Diverge.of_head (by decide) _ _⟩
  · exact ⟨_, rfl, Diverge.of_head (by decide) _ _⟩

end Integers

/-! ## Terms -/

def isList : Value → Bool
  | .cons _ _ => true
  | _ => false

/-- The term is encoded as `code` by every larger table, and is a list just when `v` is one. -/
def Reencodes (left : ℕ) (v : Value) (t : AtomTable) (a : Value) (code : List UInt8) : Prop :=
  isList a = isList v ∧ ∀ u : AtomTable, u.Extends t → encodeTermInner u left a = .ok code

theorem Reencodes.grows {left : ℕ} {v a : Value} {code : List UInt8} :
    Grows fun t => Reencodes left v t a code :=
  fun _ _ hu h => ⟨h.1, fun u hext => h.2 u (hext.trans hu)⟩

/-- What becomes of a term is foretold, whatever it is encoded with. -/
def Foretold (left : ℕ) (v : Value) : Prop :=
  ∀ (table : AtomTable) (bytes : List UInt8), encodeTermInner table left v = .ok bytes →
    ∃ words, Comes (fun _ => True) words (fate left v) (decodeOne left) bytes (Reencodes left v)

section Numbers

variable {left : ℕ}

theorem fate_leaf {v : Value} (h : Etf.nested v = []) : fate (left + 1) v = ownFate left v := by
  rw [fate, h]
  cases hown : ownFate left v <;> simp

/-- A term that is read back as it is, without a look at atoms. -/
theorem foretold_of_reads (words : ℕ) {v : Value} (v' : Value) (hown : fate (left + 1) v = some true)
    (hlist : isList v' = isList v)
    (h : ∀ (table : AtomTable) (bytes : List UInt8), encodeTermInner table (left + 1) v = .ok bytes →
      (∀ u, encodeTermInner u (left + 1) v' = .ok bytes) ∧
      ∀ s : DecodeState ℕ, words ≤ s.heap →
        Reads (decodeOne (left + 1)) s bytes v' { s with heap := s.heap - words }) :
    Foretold (left + 1) v := by
  intro table bytes hbytes
  obtain ⟨hencode, hreads⟩ := h table bytes hbytes
  refine ⟨words, ?_⟩
  rw [hown]
  exact Comes.of_reads fun s hs _ => ⟨v', _, bytes, hreads s hs, by simp; omega,
    AtomTable.Extends.refl _, ⟨hlist, fun u _ => hencode u⟩, rfl⟩

theorem foretold_smallInt (n : SmallInt) : Foretold (left + 1) (.number (.smallInt n)) :=
  foretold_of_reads 0 (.number (.smallInt n)) (fate_leaf rfl) rfl fun _ _ hbytes =>
    ⟨fun _ => hbytes, fun _ _ => reads_integer hbytes⟩

theorem foretold_float (x : Float64) : Foretold (left + 1) (.number (.float x)) := by
  refine foretold_of_reads 2 (.number (.float x)) (fate_leaf rfl) rfl fun _ bytes hbytes =>
    ⟨fun _ => hbytes, fun s hs => ?_⟩
  obtain rfl := Except.ok.inj hbytes
  have hbits : beNat (beBytes 8 x.toBits) = x.toBits := by
    refine beNat_beBytes_of_lt ?_
    have := x.lt
    rw [Float64.toBits]
    norm_num
    split_ifs <;> omega
  refine reads_ofTag ((reads_readBytes s (beBytes_length 8 _)).bind_pure ?_)
  rw [hbits, Etf.f64FromBits_toBits]
  exact reads_allocated hs _

variable {negative : Bool} {limbs : List UInt64}

theorem signed_trimmed : signed negative (Etf.trimmed (Etf.limbBytes limbs)) =
    Etf.signedValue negative limbs := by
  rw [signed, Etf.signedValue, leNat_trimmed, Etf.leNat_limbBytes]

/-- A value that is not zero has its sign and its magnitude. -/
theorem signedValue_lt_zero (h : Etf.signedValue negative limbs ≠ 0) :
    decide (Etf.signedValue negative limbs < 0) = negative ∧
      (Etf.signedValue negative limbs).natAbs = limbsNat (limbs.map UInt64.toNat) := by
  unfold Etf.signedValue at h ⊢
  cases negative with
  | false => simp
  | true =>
    simp only [if_true] at h ⊢
    simp only [decide_eq_true_eq, Int.natAbs_neg, Int.natAbs_natCast, and_true]
    omega

theorem length_trimmed_word (hword : limbsNat (limbs.map UInt64.toNat) < 2 ^ 64) :
    (Etf.trimmed (Etf.limbBytes limbs)).length ≤ 8 := by
  rwa [length_trimmed_le_iff, Etf.leNat_limbBytes]

section BigInt

variable {pre : AtomTable → Prop} {out : List UInt8}
  (hout : Etf.encodeBigBytes negative (Etf.limbBytes limbs) = .ok out)

include hout

theorem comes_limbs (hword : 2 ^ 64 ≤ limbsNat (limbs.map UInt64.toNat)) :
    Comes pre (3 + (Etf.limbsOf (Etf.trimmed (Etf.limbBytes limbs))).length) (some true)
      (decodeOne (left + 1)) out (Reencodes (left + 1) (.number (.bigInt negative limbs))) := by
  have hvalue := Etf.leNat_limbBytes limbs
  have hlen : ¬ (Etf.trimmed (Etf.limbBytes limbs)).length ≤ 8 := by
    rw [length_trimmed_le_iff, hvalue]
    omega
  have hsame : leNat (Etf.limbBytes (Etf.limbsOf (Etf.trimmed (Etf.limbBytes limbs)))) =
      leNat (Etf.limbBytes limbs) := by
    rw [Etf.leNat_limbBytes, limbsNat_limbsOf, leNat_trimmed]
  have hcode : Etf.encodeBigBytes negative
      (Etf.limbBytes (Etf.limbsOf (Etf.trimmed (Etf.limbBytes limbs)))) = .ok out := by
    rw [encodeBigBytes_congr hsame (by rw [hsame, hvalue]; omega)]
    exact hout
  refine Comes.of_reads fun s hs _ => ?_
  exact ⟨_, _, out, reads_bigBytes hout (reads_limbs hlen hs), (Nat.sub_add_cancel hs).ge,
    AtomTable.Extends.refl _, ⟨rfl, fun _ _ => hcode⟩, rfl⟩

variable (hword : limbsNat (limbs.map UInt64.toNat) < 2 ^ 64)

include hword

/-- An integer of 32 bits comes back under a tag of its own. -/
theorem comes_short (hshort : FitsSigned 32 (Etf.signedValue negative limbs)) :
    Comes pre 0 (some false) (decodeOne (left + 1)) out
      (Reencodes (left + 1) (.number (.bigInt negative limbs))) := by
  have hlen := length_trimmed_word hword
  have hlow := hshort.1
  have hhigh := hshort.2
  norm_num at hlow hhigh
  have hfits : FitsSigned 64 (signed negative (Etf.trimmed (Etf.limbBytes limbs))) := by
    rw [signed_trimmed]
    exact ⟨by norm_num; omega, by norm_num; omega⟩
  have hsmall : Etf.trySmallInt (signed negative (Etf.trimmed (Etf.limbBytes limbs))) =
      some (.ofRange (Etf.signedValue negative limbs) ⟨by omega, by omega⟩) := by
    rw [signed_trimmed]
    exact dif_pos _
  obtain ⟨head, hhead, htag, -⟩ := decodeOne_bigBytes hout
  obtain ⟨more, rfl⟩ := htag hlen
  obtain ⟨bytes, hbytes, hdiverge⟩ := encodeInteger_word hshort
    (more ++ (if negative then 1 else 0) :: Etf.trimmed (Etf.limbBytes limbs))
  refine Comes.of_reads fun s _ _ => ?_
  exact ⟨_, s, bytes, reads_bigBytes hout (reads_word_small hlen hfits hsmall), le_rfl,
    AtomTable.Extends.refl _, ⟨rfl, fun _ _ => hbytes⟩, hhead ▸ hdiverge⟩

/-- Sign and magnitude of a value that is not zero make the same bytes again. -/
theorem encodeBigBytes_signedValue (hne : Etf.signedValue negative limbs ≠ 0) :
    Etf.encodeBigBytes (Etf.signedValue negative limbs < 0)
      (leBytes 8 (Etf.signedValue negative limbs).natAbs) = .ok out := by
  obtain ⟨hsign, habs⟩ := signedValue_lt_zero hne
  have hmag : leNat (leBytes 8 (Etf.signedValue negative limbs).natAbs) =
      leNat (Etf.limbBytes limbs) := by
    rw [habs, Etf.leNat_limbBytes]
    exact leNat_leBytes_of_lt (by norm_num at hword ⊢; exact hword)
  have hpos : leNat (leBytes 8 (Etf.signedValue negative limbs).natAbs) ≠ 0 := by
    rw [hmag, Etf.leNat_limbBytes, ← habs]
    exact Int.natAbs_ne_zero.2 hne
  rw [hsign, encodeBigBytes_congr hmag hpos]
  exact hout

theorem comes_word (hfits : FitsSigned 64 (Etf.signedValue negative limbs))
    (hshort : ¬ FitsSigned 32 (Etf.signedValue negative limbs)) :
    Comes pre 4 (some true) (decodeOne (left + 1)) out
      (Reencodes (left + 1) (.number (.bigInt negative limbs))) := by
  have hlen := length_trimmed_word hword
  have hne : Etf.signedValue negative limbs ≠ 0 := by
    intro hzero
    exact hshort (by rw [hzero]; exact ⟨by norm_num, by norm_num⟩)
  have hcode := encodeBigBytes_signedValue hout hword hne
  have habs := (signedValue_lt_zero hne).2
  rw [← signed_trimmed] at hfits
  cases hsmall : Etf.trySmallInt (signed negative (Etf.trimmed (Etf.limbBytes limbs))) with
  | some n =>
    have hn : n.value = Etf.signedValue negative limbs := by
      rw [← signed_trimmed]
      unfold Etf.trySmallInt at hsmall
      split_ifs at hsmall
      rw [← Option.some.inj hsmall]
      rfl
    have hlong : ¬ (0 ≤ n.value ∧ n.value < 256) := by
      rintro ⟨hlow, hhigh⟩
      exact hshort (hn ▸ ⟨by norm_num; omega, by norm_num; omega⟩)
    have hagain : Etf.encodeInteger n.value = .ok out := by
      rw [Etf.encodeInteger, if_neg hlong, hn, if_neg hshort]
      exact hcode
    refine Comes.of_reads fun s _ _ => ?_
    exact ⟨_, s, out, reads_bigBytes hout (reads_word_small hlen hfits hsmall),
      Nat.le_add_right _ _, AtomTable.Extends.refl _, ⟨rfl, fun _ _ => hagain⟩, rfl⟩
  | none =>
    have hlimb : (UInt64.ofNat (Etf.signedValue negative limbs).natAbs).toNat =
        (Etf.signedValue negative limbs).natAbs :=
      UInt64.toNat_ofNat_of_lt' (habs ▸ hword)
    have hbytes : Etf.limbBytes [UInt64.ofNat (Etf.signedValue negative limbs).natAbs] =
        leBytes 8 (Etf.signedValue negative limbs).natAbs := by
      rw [Etf.limbBytes, List.flatMap_cons, List.flatMap_nil, List.append_nil, hlimb]
    rw [← hbytes, ← signed_trimmed] at hcode
    refine Comes.of_reads fun s hs _ => ?_
    exact ⟨_, _, out, reads_bigBytes hout (reads_word_big hlen hfits hsmall hs),
      (Nat.sub_add_cancel hs).ge, AtomTable.Extends.refl _, ⟨rfl, fun _ _ => hcode⟩, rfl⟩

end BigInt

theorem foretold_bigInt : Foretold (left + 1) (.number (.bigInt negative limbs)) := by
  intro table out hout
  replace hout : Etf.encodeBigBytes negative (Etf.limbBytes limbs) = .ok out := hout
  rw [fate_leaf rfl, ownFate, bigFate]
  by_cases hlong : 2 ^ 64 ≤ limbsNat (limbs.map UInt64.toNat)
  · rw [if_pos hlong]
    exact ⟨_, comes_limbs hout hlong⟩
  · rw [if_neg hlong]
    have hword := not_le.1 hlong
    by_cases hfits : FitsSigned 64 (Etf.signedValue negative limbs)
    · rw [if_pos hfits]
      by_cases hshort : FitsSigned 32 (Etf.signedValue negative limbs)
      · rw [decide_eq_false (not_not.2 hshort)]
        exact ⟨0, comes_short hout hword hshort⟩
      · rw [decide_eq_true hshort]
        exact ⟨4, comes_word hout hword hfits hshort⟩
    · rw [if_neg hfits]
      rw [← signed_trimmed] at hfits
      have hlen := length_trimmed_word hword
      exact ⟨0, Comes.of_fails fun s => ⟨_, fails_bigBytes hout (fails_word hlen hfits)⟩⟩

end Numbers

end Beamr.Distribution.TermCodec
