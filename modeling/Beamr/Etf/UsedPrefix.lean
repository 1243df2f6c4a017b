import Beamr.Etf.Decode
import Beamr.Lib.UsedPrefix

/-!
# The bytes a decoded term used

The decoder reads the term at the front of its input and reports how many bytes it took. Those
bytes settle the result: cut there or continued in any way the input gives the same term, and cut
shorter it gives none.
-/
namespace Beamr.Etf

open Term ByteOrder Decoder

variable {H : Type} (context : DecodeContext H) (options : DecodeOptions)

/-! ## Parts -/

theorem readU8_prefixBound : PrefixBound (readU8 : Decoder DecodeError (DecodeState H) _) :=
  PrefixBound.byte _

theorem readBytes_prefixBound (n : ℕ) :
    PrefixBound (readBytes n : Decoder DecodeError (DecodeState H) _) :=
  PrefixBound.take _ n

theorem readU16_prefixBound : PrefixBound (readU16 : Decoder DecodeError (DecodeState H) _) :=
  (readBytes_prefixBound 2).bind fun _ => PrefixBound.pure _

theorem readU32_prefixBound : PrefixBound (readU32 : Decoder DecodeError (DecodeState H) _) :=
  (readBytes_prefixBound 4).bind fun _ => PrefixBound.pure _

theorem readI32_prefixBound : PrefixBound (readI32 : Decoder DecodeError (DecodeState H) _) :=
  readU32_prefixBound.bind fun _ => PrefixBound.pure _

theorem ensureHeapWords_prefixBound (words : ℕ) : PrefixBound (ensureHeapWords context words) :=
  PrefixBound.require _ _

theorem alloc_prefixBound (words : ℕ) (term : Value) : PrefixBound (alloc context words term) := by
  refine PrefixBound.getState.bind fun s => ?_
  refine (PrefixBound.ofOption _ _).bind fun heap => ?_
  exact (PrefixBound.setState _).bind fun _ => PrefixBound.pure _

theorem decodeSmallInteger_prefixBound (value : ℤ) :
    PrefixBound (decodeSmallInteger value : Decoder DecodeError (DecodeState H) _) :=
  (PrefixBound.ofOption _ _).bind fun _ => PrefixBound.pure _

theorem decodeAtom_prefixBound (name : List UInt8) :
    PrefixBound (decodeAtom options name : Decoder DecodeError (DecodeState H) _) := by
  unfold decodeAtom
  split
  · refine PrefixBound.getState.bind fun s => .ite ?_ ?_
    · exact (PrefixBound.ofOption _ _).bind fun _ => PrefixBound.pure _
    · exact (PrefixBound.setState _).bind fun _ => PrefixBound.pure _
  · exact PrefixBound.fail _

theorem decodeSign_prefixBound :
    PrefixBound (decodeSign : Decoder DecodeError (DecodeState H) _) := by
  refine readU8_prefixBound.bind fun sign => ?_
  split
  · exact PrefixBound.pure _
  · exact PrefixBound.pure _
  · exact PrefixBound.fail _

theorem allocBigint_prefixBound (negative : Bool) (limbs : List UInt64) :
    PrefixBound (allocBigint context negative limbs) :=
  alloc_prefixBound context _ _

theorem decodeBigInteger_prefixBound (length : ℕ) :
    PrefixBound (decodeBigInteger context length) := by
  refine decodeSign_prefixBound.bind fun negative => ?_
  refine (readBytes_prefixBound length).bind fun bytes => .ite (.ite ?_ (.ite ?_ ?_)) ?_
  · dsimp only
    split
    · exact PrefixBound.pure _
    · exact allocBigint_prefixBound context _ _
  · exact allocBigint_prefixBound context _ _
  · exact allocBigint_prefixBound context _ _
  · exact (ensureHeapWords_prefixBound context _).bind fun _ => allocBigint_prefixBound context _ _

/-! ## Terms -/

section Nested

variable {decodeOne : Decoder DecodeError (DecodeState H) Value} (h : PrefixBound decodeOne)

include h

theorem decodeTuple_prefixBound (arity : ℕ) :
    PrefixBound (decodeTuple context decodeOne arity) := by
  refine (ensureHeapWords_prefixBound context _).bind fun _ => ?_
  exact (h.many arity).bind fun _ => alloc_prefixBound context _ _

theorem decodeList_prefixBound (length : ℕ) :
    PrefixBound (decodeList context decodeOne length) := by
  refine (ensureHeapWords_prefixBound context _).bind fun _ => ?_
  refine (h.many length).bind fun elements => ?_
  exact h.bind fun tail => alloc_prefixBound context _ _

theorem decodeEntry_prefixBound : PrefixBound (decodeEntry decodeOne) :=
  h.bind fun _ => h.bind fun _ => PrefixBound.pure _

theorem decodeMap_prefixBound (length : ℕ) : PrefixBound (decodeMap context decodeOne length) := by
  refine (ensureHeapWords_prefixBound context _).bind fun _ => ?_
  exact ((decodeEntry_prefixBound h).many length).bind fun _ => alloc_prefixBound context _ _

theorem decodeExport_prefixBound : PrefixBound (decodeExport context decodeOne) := by
  refine h.bind fun module => h.bind fun function => ?_
  split
  · exact h.bind fun arity => alloc_prefixBound context _ _
  · exact PrefixBound.fail _

theorem decodeNode_prefixBound (tag : UInt8) : PrefixBound (decodeNode decodeOne tag) := by
  refine h.bind fun node => ?_
  split
  · exact PrefixBound.pure _
  · exact PrefixBound.fail _

theorem decodePid_prefixBound (hasCreationU32 : Bool) :
    PrefixBound (decodePid context decodeOne hasCreationU32) := by
  refine (decodeNode_prefixBound h _).bind fun node => ?_
  refine readU32_prefixBound.bind fun id => readU32_prefixBound.bind fun serial => ?_
  exact (readBytes_prefixBound _).bind fun _ => alloc_prefixBound context _ _

theorem decodeNewerReference_prefixBound :
    PrefixBound (decodeNewerReference context decodeOne) := by
  refine readU16_prefixBound.bind fun wordCount => ?_
  refine (decodeNode_prefixBound h _).bind fun _ => readU32_prefixBound.bind fun _ => ?_
  exact (readU32_prefixBound.many wordCount).bind fun words => alloc_prefixBound context _ _

theorem decodeReference_prefixBound : PrefixBound (decodeReference context decodeOne) := by
  refine (decodeNode_prefixBound h _).bind fun _ => readU32_prefixBound.bind fun id => ?_
  exact readU8_prefixBound.bind fun _ => alloc_prefixBound context _ _

/-- One case for each tag. -/
theorem decodeBody_prefixBound (tag : UInt8) :
    PrefixBound (decodeBody context options decodeOne tag) := by
  unfold decodeBody
  refine .ite ((readBytes_prefixBound 8).bind fun _ => alloc_prefixBound context _ _) ?_
  refine .ite (readU8_prefixBound.bind fun _ => PrefixBound.pure _) ?_
  refine .ite (readI32_prefixBound.bind fun _ => decodeSmallInteger_prefixBound _) ?_
  refine .ite (readU16_prefixBound.bind fun _ =>
    (readBytes_prefixBound _).bind fun _ => decodeAtom_prefixBound options _) ?_
  refine .ite (readU8_prefixBound.bind fun _ =>
    (readBytes_prefixBound _).bind fun _ => decodeAtom_prefixBound options _) ?_
  refine .ite (readU8_prefixBound.bind fun _ => decodeTuple_prefixBound context h _) ?_
  refine .ite (readU32_prefixBound.bind fun _ => decodeTuple_prefixBound context h _) ?_
  refine .ite (PrefixBound.pure _) ?_
  refine .ite (readU16_prefixBound.bind fun _ => (ensureHeapWords_prefixBound context _).bind
    fun _ => (readBytes_prefixBound _).bind fun _ => alloc_prefixBound context _ _) ?_
  refine .ite (readU32_prefixBound.bind fun _ => decodeList_prefixBound context h _) ?_
  refine .ite (readU32_prefixBound.bind fun _ => (ensureHeapWords_prefixBound context _).bind
    fun _ => (readBytes_prefixBound _).bind fun _ => alloc_prefixBound context _ _) ?_
  refine .ite (readU8_prefixBound.bind fun _ => decodeBigInteger_prefixBound context _) ?_
  refine .ite (readU32_prefixBound.bind fun _ => decodeBigInteger_prefixBound context _) ?_
  refine .ite (decodeExport_prefixBound context h) ?_
  refine .ite (readU32_prefixBound.bind fun _ => decodeMap_prefixBound context h _) ?_
  refine .ite (decodePid_prefixBound context h _) ?_
  refine .ite (decodeNewerReference_prefixBound context h) ?_
  exact .ite (decodeReference_prefixBound context h) (PrefixBound.fail _)

end Nested

theorem decodeAfterTag_prefixBound (left : ℕ) (tag : UInt8) :
    PrefixBound (decodeAfterTag context options left tag) := by
  induction left generalizing tag with
  | zero => exact PrefixBound.fail _
  | succ left ih =>
    exact decodeBody_prefixBound context options (readU8_prefixBound.bind fun tag => ih tag) tag

/-! ## The whole input -/

/-- A stream that ends before the limit is read to its own end: what follows it, or that nothing
does, makes no difference. -/
def SelfDelimiting (inflate : InflateStream) : Prop :=
  ∀ bytes limit out used, inflate bytes limit = some (out, used) → out.length < limit →
    ∀ more, inflate (bytes.take used ++ more) limit = some (out, used)

theorem onInflated_prefixBound (bytes : List UInt8)
    (d : Decoder DecodeError (DecodeState H) Value) : PrefixBound (onInflated bytes d) := by
  refine PrefixBound.getState.bind fun s => (PrefixBound.ofExcept _).bind fun result => ?_
  exact (PrefixBound.setState _).bind fun _ => PrefixBound.pure _

theorem decompressBounded_ok {inflate : InflateStream} {bytes out : List UInt8}
    {declaredSize used : ℕ} :
    decompressBounded inflate bytes declaredSize = .ok (out, used) ↔
      inflate bytes (declaredSize + 1) = some (out, used) ∧ out.length = declaredSize := by
  unfold decompressBounded
  split
  · simp_all
  · rename_i out' used' hinflate
    split_ifs with hlength
    · simp only [hinflate, Except.ok.injEq, Prod.mk.injEq, Option.some.injEq]
      constructor
      · rintro ⟨rfl, rfl⟩
        exact ⟨⟨rfl, rfl⟩, hlength⟩
      · rintro ⟨⟨rfl, rfl⟩, -⟩
        exact ⟨rfl, rfl⟩
    · simp only [hinflate, Option.some.injEq, Prod.mk.injEq, false_iff]
      rintro ⟨⟨rfl, rfl⟩, h⟩
      exact hlength h

/-- The compressed payload uses what the stream used, the decoder on the inflated bytes uses none
of the input. -/
theorem decodeCompressed_prefixBound {inflate : InflateStream} (hinflate : SelfDelimiting inflate)
    (declaredSize : ℕ) (d : Decoder DecodeError (DecodeState H) Value) :
    PrefixBound (do
      let (inflated, compressedUsed) ←
        ofExcept (decompressBounded inflate (← remaining) declaredSize)
      let _ ← readBytes compressedUsed
      onInflated inflated d) := by
  intro s c a s' c' h
  simp only [bind_ok_iff, remaining_ok_iff, ofExcept_ok_iff] at h
  obtain ⟨_, _, _, ⟨rfl, rfl, rfl⟩, ⟨inflated, used⟩, _, _, ⟨hstream, rfl, rfl⟩, skipped, _, c₁,
    hskip, hrun⟩ := h
  obtain ⟨hlen, rfl, rfl⟩ := take_ok_iff.mp hskip
  obtain ⟨more, rfl, hmore⟩ := onInflated_prefixBound inflated d _ _ _ _ _ hrun
  obtain ⟨hout, hsize⟩ := decompressBounded_ok.mp hstream
  refine ⟨skipped ++ more, by simp, fun rest => ?_⟩
  have hagain := hinflate _ _ _ _ hout (by omega) (more ++ rest)
  rw [List.take_left' hlen] at hagain
  rw [List.append_assoc]
  refine bind_eq_of_ok (remaining_ok_iff.mpr ⟨rfl, rfl, rfl⟩) |>.trans ?_
  refine (bind_eq_of_ok (ofExcept_ok_iff.mpr
    ⟨decompressBounded_ok.mpr ⟨hagain, hsize⟩, rfl, rfl⟩)).trans ?_
  refine (bind_eq_of_ok (take_ok_iff.mpr ⟨hlen, rfl, rfl⟩)).trans ?_
  exact hmore rest

theorem decodeVersioned_prefixBound {inflate : InflateStream} (hinflate : SelfDelimiting inflate) :
    PrefixBound (decodeVersioned context options inflate) := by
  refine readU8_prefixBound.bind fun version => (PrefixBound.require _ _).bind fun _ => ?_
  refine readU8_prefixBound.bind fun tag => .ite ?_ (decodeAfterTag_prefixBound context options _ _)
  refine readU32_prefixBound.bind fun size => (PrefixBound.require _ _).bind fun _ => ?_
  exact decodeCompressed_prefixBound hinflate size _

/-- A decoding that may leave bytes, in terms of the decoder. -/
theorem decodeTermWithOptions_ok_iff {inflate : InflateStream} (hused : options.returnUsed = true)
    {s s' : DecodeState H} {bytes : List UInt8} {decoded : DecodedTerm} :
    decodeTermWithOptions context options inflate s bytes = .ok (decoded, s') ↔
      ∃ rest, decodeVersioned context options inflate s bytes = .ok (decoded.term, s', rest) ∧
        decoded.used = bytes.length - rest.length := by
  obtain ⟨term, used⟩ := decoded
  unfold decodeTermWithOptions
  cases hrun : decodeVersioned context options inflate s bytes with
  | error e => simp
  | ok result =>
    simp only [hused, Bool.not_true, Bool.false_and, Bool.false_eq_true, if_false,
      Except.ok.injEq, Prod.mk.injEq, DecodedTerm.mk.injEq]
    constructor
    · rintro ⟨⟨rfl, rfl⟩, rfl⟩
      exact ⟨result.2.2, rfl, rfl⟩
    · rintro ⟨rest, rfl, rfl⟩
      exact ⟨⟨rfl, rfl⟩, rfl⟩

theorem decodeTermWithOptions_run {inflate : InflateStream} {s : DecodeState H}
    {bytes : List UInt8} {result : DecodedTerm × DecodeState H}
    (h : decodeTermWithOptions context options inflate s bytes = .ok result) :
    ∃ rest, decodeVersioned context options inflate s bytes =
      .ok (result.1.term, result.2, rest) := by
  unfold decodeTermWithOptions at h
  cases hrun : decodeVersioned context options inflate s bytes with
  | error e => simp [hrun] at h
  | ok run =>
    simp only [hrun] at h
    split_ifs at h
    cases h
    exact ⟨run.2.2, rfl⟩

/-- The used bytes settle the result: alone and in front of anything they give the term and their
number, and no shorter front of them decodes. -/
theorem decode_usedPrefix {inflate : InflateStream} (hinflate : SelfDelimiting inflate)
    (hused : options.returnUsed = true) {s s' : DecodeState H} {bytes : List UInt8}
    {decoded : DecodedTerm}
    (h : decodeTermWithOptions context options inflate s bytes = .ok (decoded, s')) :
    decoded.used ≤ bytes.length ∧
      decodeTermWithOptions context options inflate s (bytes.take decoded.used) =
        .ok (decoded, s') ∧
      (∀ more, decodeTermWithOptions context options inflate s
        (bytes.take decoded.used ++ more) = .ok (decoded, s')) ∧
      (∀ more, decodeTermWithOptions context options inflate s (bytes ++ more) =
        .ok (decoded, s')) ∧
      ∀ k < decoded.used, ∀ result,
        decodeTermWithOptions context options inflate s (bytes.take k) ≠ .ok result := by
  obtain ⟨rest, hrun, hcount⟩ := (decodeTermWithOptions_ok_iff context options hused).mp h
  have hbound := decodeVersioned_prefixBound context options hinflate
  obtain ⟨hrest, hreads⟩ := hbound.reads_take hrun
  rw [← hcount] at hreads
  have hlen : (bytes.take decoded.used).length = decoded.used := by
    rw [List.length_take]
    omega
  have hany : ∀ more, decodeTermWithOptions context options inflate s
      (bytes.take decoded.used ++ more) = .ok (decoded, s') := by
    intro more
    refine (decodeTermWithOptions_ok_iff context options hused).mpr ⟨more, hreads more, ?_⟩
    rw [List.length_append, hlen]
    omega
  refine ⟨by omega, ?_, hany, fun more => ?_, fun k hk result hcut => ?_⟩
  · simpa using hany []
  · have hmore := hany (bytes.drop decoded.used ++ more)
    rwa [← List.append_assoc, List.take_append_drop] at hmore
  · obtain ⟨left, hleft⟩ := decodeTermWithOptions_run context options hcut
    exact hbound.not_ok_take hrun (by omega) _ _ _ hleft

/-- Inflating where one stream stands for one payload and nothing else is a stream. -/
def inflateOne (payload stream : List UInt8) : InflateStream := fun bytes limit =>
  if bytes.take stream.length = stream then some (payload.take limit, stream.length) else none

theorem inflateOne_append (payload stream more : List UInt8) (limit : ℕ) :
    inflateOne payload stream (stream ++ more) limit =
      some (payload.take limit, stream.length) := by
  rw [inflateOne, List.take_left, if_pos rfl]

theorem inflateOne_selfDelimiting (payload stream : List UInt8) :
    SelfDelimiting (inflateOne payload stream) := by
  intro bytes limit out used h hout more
  have hstream : bytes.take stream.length = stream := by
    by_contra hne
    rw [inflateOne, if_neg hne] at h
    cases h
  rw [inflateOne, if_pos hstream] at h
  obtain ⟨rfl, rfl⟩ := Prod.mk.inj (Option.some.inj h)
  rw [hstream]
  exact inflateOne_append payload stream more limit

/-- The integer 5 as a stored zlib stream: header, final block with both lengths, checksum. -/
def storedFive : List UInt8 := [120, 1, 1, 2, 0, 253, 255, 97, 5, 0, 201, 0, 103]

/-- A compressed 5 with a byte behind it. -/
theorem decode_usedPrefix_five :
    decodeTermWithOptions (H := Unit) ⟨1, fun heap _ => some heap⟩ ⟨false, true⟩
        (inflateOne [97, 5] storedFive) ⟨.withCommonAtoms, ()⟩
        ([131, 80, 0, 0, 0, 2] ++ storedFive) =
      .ok (⟨smallInt 5, 19⟩, ⟨.withCommonAtoms, ()⟩) := by
  have hprefix := @decode_usedPrefix Unit ⟨1, fun heap _ => some heap⟩ ⟨false, true⟩ _
    (inflateOne_selfDelimiting [97, 5] storedFive) rfl ⟨.withCommonAtoms, ()⟩ ⟨.withCommonAtoms, ()⟩
    ([131, 80, 0, 0, 0, 2] ++ storedFive ++ [9]) ⟨smallInt 5, 19⟩ rfl
  exact hprefix.2.1

end Beamr.Etf
