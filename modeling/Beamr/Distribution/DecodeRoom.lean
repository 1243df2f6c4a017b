import Beamr.Distribution.TermCodec
import Beamr.Etf.RoundTrip

/-!
# Room for a term

How many heap words a decoded term takes. Each byte of the wire pays for four words, of which every
term leaves two for what holds it, so that four words for each byte are room enough.
-/
namespace Beamr.Distribution.TermCodec

open Term ByteOrder Decoder
open Etf (DecodeState)

/-- With `before` words more than four for each byte, the decoder does not run out of heap, and
leaves `after` words more than four for each byte that it has not read. -/
def Affords {α : Type} (before after : ℕ) (d : TermDecoder α) : Prop :=
  ∀ s c, 4 * c.length + before ≤ s.heap → d s c ≠ .error .heapAllocationFailed ∧
    ∀ a s' c', d s c = .ok (a, s', c') → 4 * c'.length + after ≤ s'.heap

namespace Affords

variable {α β : Type} {before middle after : ℕ} {d : TermDecoder α} {f : α → TermDecoder β}

theorem mono (h : Affords middle after d) {less : ℕ} (hbefore : middle ≤ before)
    (hafter : less ≤ after) : Affords before less d := by
  intro s c hs
  obtain ⟨hfull, hleft⟩ := h s c (by omega)
  refine ⟨hfull, fun a s' c' ha => ?_⟩
  have hroom := hleft a s' c' ha
  omega

theorem pure (a : α) : Affords before before (Pure.pure a) := by
  refine fun s c hs => ⟨nofun, fun b s' c' hb => ?_⟩
  obtain ⟨-, rfl, rfl⟩ := pure_ok_iff.mp hb
  exact hs

theorem fail {e : DecodeError} (he : e ≠ .heapAllocationFailed) :
    Affords before after (Decoder.fail e : TermDecoder α) :=
  fun _ _ _ => ⟨fun h => he (Except.error.inj h), fun _ _ _ h => absurd h not_fail_ok⟩

theorem bind (h : Affords before middle d) (hf : ∀ a, Affords middle after (f a)) :
    Affords before after (d >>= f) := by
  intro s c hs
  obtain ⟨hfull, hleft⟩ := h s c hs
  constructor
  · rw [bind_apply]
    cases hd : d s c with
    | error e =>
      rw [hd] at hfull
      exact fun h => hfull (congrArg Except.error (Except.error.inj h))
    | ok r =>
      obtain ⟨a, s₁, c₁⟩ := r
      exact (hf a s₁ c₁ (hleft a s₁ c₁ hd)).1
  · intro b s' c' hb
    obtain ⟨a, s₁, c₁, hd, hb⟩ := bind_ok_iff.mp hb
    exact (hf a s₁ c₁ (hleft a s₁ c₁ hd)).2 b s' c' hb

theorem ite {cond : Prop} [Decidable cond] {d' : TermDecoder α} (hthen : Affords before after d)
    (helse : Affords before after d') : Affords before after (if cond then d else d') := by
  split_ifs
  · exact hthen
  · exact helse

/-- Bytes that were read pay for four words each. -/
theorem bytes {n : ℕ} {f : List UInt8 → TermDecoder β}
    (hf : ∀ bytes, bytes.length = n → Affords (before + 4 * n) after (f bytes)) :
    Affords before after (readBytes n >>= f) := by
  intro s c hs
  by_cases hn : n ≤ c.length
  · have hread : readBytes n s c = .ok (c.take n, s, c.drop n) := if_pos hn
    have htake : (c.take n).length = n := by
      rw [List.length_take]
      omega
    have hdrop : (c.drop n).length = c.length - n := List.length_drop
    rw [bind_eq_of_ok hread]
    exact hf _ htake s (c.drop n) (by omega)
  · have hread : readBytes n s c = .error .truncated := if_neg hn
    rw [bind_apply, hread]
    exact ⟨by simp, fun _ _ _ h => by cases h⟩

theorem readU8 : Affords before (before + 4) readU8 := by
  intro s c hs
  cases c with
  | nil => exact ⟨by rintro ⟨⟩, fun _ _ _ h => by cases h⟩
  | cons b c =>
    refine ⟨by rintro ⟨⟩, fun a s' c' h => ?_⟩
    obtain ⟨rfl, hc⟩ := byte_ok_iff.mp h
    obtain ⟨-, rfl⟩ := List.cons.inj hc
    rw [List.length_cons] at hs
    omega

theorem readU16 : Affords before (before + 8) readU16 :=
  bytes fun bytes _ => pure (beNat bytes)

theorem readU32 : Affords before (before + 16) readU32 :=
  bytes fun bytes _ => pure (beNat bytes)

theorem require {p : Bool} {e : DecodeError} (he : e ≠ .heapAllocationFailed) :
    Affords before before (Decoder.require p e) := by
  cases p with
  | true => exact pure ()
  | false => exact fail he

theorem ensure (n : ℕ) : Affords before before (ensureDecodableSequence n) := by
  intro s c hs
  have hrest : Affords before before (Decoder.require (n ≤ c.length) .truncated) :=
    require (by simp)
  exact hrest s c hs

theorem alloc (words : ℕ) (term : Value) : Affords (words + after) after (alloc words term) := by
  intro s c hs
  have hwords : words ≤ s.heap := by omega
  have hrun : TermCodec.alloc words term s c =
      .ok (term, { s with heap := s.heap - words }, c) := by
    have hstate : (getState : TermDecoder _) s c = .ok (s, s, c) := rfl
    rw [TermCodec.alloc, bind_eq_of_ok hstate, decide_eq_true hwords]
    rfl
  rw [hrun]
  refine ⟨by simp, fun a s' c' h => ?_⟩
  obtain ⟨-, rfl, rfl⟩ : a = term ∧ s' = { s with heap := s.heap - words } ∧ c' = c := by
    simpa [eq_comm] using h
  dsimp only
  omega

theorem allocList (elements : List Value) (tail : Value) :
    Affords (2 * elements.length + after) after (allocList elements tail) := by
  induction elements generalizing after with
  | nil => exact (pure tail).mono (by simp) le_rfl
  | cons element rest ih =>
    have hrest : Affords (2 * (element :: rest).length + after) (2 + after)
        (TermCodec.allocList rest tail) := by
      refine mono ih ?_ le_rfl
      rw [List.length_cons]
      omega
    exact bind hrest fun tail => alloc 2 _

theorem decodeAtom (name : List UInt8) : Affords before before (decodeAtom name) := by
  unfold TermCodec.decodeAtom
  split_ifs with h
  · intro s c hs
    refine ⟨by rintro ⟨⟩, fun a s' c' ha => ?_⟩
    simp only [bind_ok_iff, getState_ok_iff, setState_ok_iff, pure_ok_iff] at ha
    obtain ⟨_, _, _, ⟨rfl, rfl, rfl⟩, _, _, _, ⟨rfl, rfl⟩, -, rfl, rfl⟩ := ha
    exact hs
  · exact fail (by simp)

/-- Each round of a loop leaves some words. -/
theorem many {each : ℕ} (h : ∀ before, Affords before (before + each) d) (n : ℕ)
    {f : List α → TermDecoder β}
    (hf : ∀ as, as.length = n → Affords (before + each * n) after (f as)) :
    Affords before after (Decoder.many d n >>= f) := by
  have hmany : ∀ n before, Affords before (before + each * n) (Decoder.many d n) := by
    intro n
    induction n with
    | zero => exact fun before => pure []
    | succ n ih =>
      intro before
      refine bind (h before) fun a => bind (ih (before + each)) fun as => ?_
      refine (pure (a :: as)).mono (le_refl _) ?_
      rw [Nat.mul_succ]
      omega
  intro s c hs
  obtain ⟨hfull, hleft⟩ := hmany n before s c hs
  have hlength : ∀ as s₁ c₁, Decoder.many d n s c = .ok (as, s₁, c₁) → as.length = n :=
    fun as s₁ c₁ hm => (many_ok (P := fun _ _ _ _ _ => True) (fun _ _ => trivial)
      (fun _ _ _ _ _ _ _ _ _ _ => trivial) n hm).1
  constructor
  · rw [bind_apply]
    cases hm : Decoder.many d n s c with
    | error e =>
      rw [hm] at hfull
      exact fun h => hfull (congrArg Except.error (Except.error.inj h))
    | ok r =>
      obtain ⟨as, s₁, c₁⟩ := r
      exact (hf as (hlength as s₁ c₁ hm) s₁ c₁ (hleft as s₁ c₁ hm)).1
  · intro b s' c' hb
    obtain ⟨as, s₁, c₁, hm, hb⟩ := bind_ok_iff.mp hb
    exact (hf as (hlength as s₁ c₁ hm) s₁ c₁ (hleft as s₁ c₁ hm)).2 b s' c' hb

end Affords

/-! ## Terms -/

section Nested

variable {before : ℕ} {inner : TermDecoder Value}

theorem allocBinaryWordCount_le (n : ℕ) : Etf.allocBinaryWordCount n ≤ n + 3 := by
  unfold Etf.allocBinaryWordCount Etf.packedWordCount Etf.procBinWords
  split_ifs
  · omega
  · omega

theorem limbsOf_length_le (bytes : List UInt8) : (Etf.limbsOf bytes).length ≤ bytes.length := by
  rw [Etf.limbsOf, List.length_map, Etf.length_chunks8]
  omega

theorem affords_bigInteger (n : ℕ) :
    Affords (before + 4) (before + 2) (decodeBigInteger n) := by
  have hsign : Affords (before + 4) (before + 8) decodeSign := by
    refine .bind .readU8 fun sign => ?_
    split
    · exact .pure _
    · exact .pure _
    · exact .fail (by simp)
  have hbig : ∀ (negative : Bool) (limbs : List UInt64), limbs.length ≤ n + 1 →
      Affords (before + 8 + 4 * n) (before + 2) (allocBigint negative limbs) :=
    fun negative limbs hlimbs => (Affords.alloc _ _).mono (by omega) le_rfl
  have hlimbs := limbsOf_length_le
  refine .bind hsign fun negative => .bytes fun bytes hlen => .ite (.ite ?_ (.fail (by simp))) ?_
  · cases Etf.trySmallInt (if negative then -leNat bytes else leNat bytes) with
    | some small => exact (Affords.pure _).mono (le_refl _) (by omega)
    | none => exact hbig _ _ (by simp)
  · exact hbig _ _ ((hlimbs bytes).trans (by omega))

variable (h : ∀ before, Affords before (before + 2) inner)

include h

theorem affords_nodeAtom : Affords before (before + 2) (decodeNodeAtom inner) := by
  refine .bind (h before) fun v => ?_
  cases v with
  | atom a => exact .pure _
  | _ => exact .fail (by simp)

theorem affords_tuple (n : ℕ) :
    Affords (before + 8) (before + 2) (decodeTuple inner n) := by
  refine .bind (.ensure n) fun _ => .many h n fun elements hlen => ?_
  exact (Affords.alloc _ _).mono (by omega) le_rfl

theorem affords_list (n : ℕ) :
    Affords (before + 20) (before + 2) (decodeList inner n) := by
  refine .bind (.ensure _) fun _ => .many h n fun elements hlen => .bind (h _) fun tail => ?_
  exact (Affords.allocList elements tail).mono (by omega) le_rfl

theorem affords_map (n : ℕ) :
    Affords (before + 20) (before + 2) (decodeMap inner n) := by
  have hentry : ∀ before, Affords before (before + 4) (decodeEntry inner) := fun before =>
    .bind (h before) fun key => .bind (h _) fun value => .pure (key, value)
  refine .bind (.ensure _) fun _ => .many hentry n fun entries hlen => ?_
  exact (Affords.alloc _ _).mono (by omega) le_rfl

theorem affords_pid : Affords (before + 4) (before + 2) (decodeNewPid inner) := by
  refine .bind (affords_nodeAtom h) fun node => .bind .readU32 fun id => .bind .readU32
    fun serial => .bind .readU32 fun _ => ?_
  exact (Affords.alloc _ _).mono (by omega) le_rfl

theorem affords_reference : Affords (before + 4) (before + 2) (decodeNewerReference inner) := by
  refine .bind .readU16 fun n => .bind (.require (by simp)) fun _ =>
    .bind (affords_nodeAtom h) fun node => .bind .readU32 fun _ =>
    .many (fun _ => .readU32) n fun words _ => ?_
  exact (Affords.alloc _ _).mono (by omega) le_rfl

theorem affords_body (tag : UInt8) :
    Affords (before + 4) (before + 2) (decodeBody inner tag) := by
  have hdone : ∀ (words : ℕ) (value : Value), 2 ≤ words →
      Affords (before + words) (before + 2) (pure value) :=
    fun words value hwords => (Affords.pure value).mono (le_refl _) (by omega)
  have hfloat : Affords (before + 4) (before + 2) (do
      let bytes ← readBytes 8
      alloc 2 (.number (.float (Etf.f64FromBits (beNat bytes))))) :=
    .bytes fun bytes _ => (Affords.alloc _ _).mono (by omega) le_rfl
  have hinteger : Affords (before + 4) (before + 2) (do decodeSmallInteger (← readI32)) := by
    refine .bind (.bind .readU32 fun n => .pure _) fun value => ?_
    rw [decodeSmallInteger]
    cases Etf.trySmallInt value with
    | none => exact .fail (by simp)
    | some n => exact (Affords.pure _).mono (le_refl _) (by omega)
  have hstring : Affords (before + 4) (before + 2) (do
      let length ← readU16
      let bytes ← readBytes length
      allocList (bytes.map Etf.smallInt) .nil) := by
    refine .bind .readU16 fun n => .bytes fun bytes hlen => ?_
    refine (Affords.allocList _ _).mono ?_ le_rfl
    rw [List.length_map]
    omega
  have hbinary : Affords (before + 4) (before + 2) (do
      let length ← readU32
      let bytes ← readBytes length
      alloc (Etf.allocBinaryWordCount bytes.length) (.binary (Etf.storedBinary bytes))) := by
    refine .bind .readU32 fun n => .bytes fun bytes hlen => ?_
    have hwords := allocBinaryWordCount_le bytes.length
    exact (Affords.alloc _ _).mono (by omega) le_rfl
  rw [decodeBody]
  refine .ite hfloat <| .ite (.bind .readU8 fun b => hdone 8 _ (by omega)) <| .ite hinteger <|
    .ite (.bind .readU16 fun n => .bytes fun name _ => ?_) <|
    .ite (.bind .readU8 fun n => .bytes fun name _ => ?_) <|
    .ite (.bind .readU8 fun n => affords_tuple h _) <|
    .ite (.bind .readU32 fun n => (affords_tuple h n).mono (by omega) le_rfl) <|
    .ite (hdone 4 _ (by omega)) <| .ite hstring <|
    .ite (.bind .readU32 fun n => affords_list h n) <| .ite hbinary <|
    .ite (.bind .readU8 fun n => (affords_bigInteger _).mono (by omega) le_rfl) <|
    .ite (.bind .readU32 fun n => (affords_bigInteger n).mono (by omega) le_rfl) <|
    .ite (.bind .readU32 fun n => affords_map h n) <|
    .ite (affords_pid h) <| .ite (affords_reference h) (.fail (by simp))
  · exact (Affords.decodeAtom name).mono (le_refl _) (by omega)
  · exact (Affords.decodeAtom name).mono (le_refl _) (by omega)

end Nested

theorem affords_one (left before : ℕ) : Affords before (before + 2) (decodeOne left) := by
  induction left generalizing before with
  | zero => exact .fail (by simp)
  | succ left ih => exact .bind .readU8 fun tag => affords_body ih tag

/-- Four words for each byte are enough. -/
theorem decodeTermPrefix_room {s : DecodeState ℕ} {bytes : List UInt8}
    (h : 4 * bytes.length ≤ s.heap) :
    decodeTermPrefix s bytes ≠ .error .heapAllocationFailed := by
  have hnext : Affords 0 0 (do
      let version ← readU8
      require (version == Etf.Tags.version) (.badVersion version)
      decodeOne (Etf.maxEtfDepth + 1)) :=
    .bind .readU8 fun version => .bind (.require (by simp)) fun _ =>
      (affords_one _ _).mono (le_refl _) (Nat.zero_le _)
  have hroom : Affords 0 0 (do
      require (!bytes.isEmpty) .emptyInput
      let version ← readU8
      require (version == Etf.Tags.version) (.badVersion version)
      decodeOne (Etf.maxEtfDepth + 1)) := .bind (.require (by simp)) fun _ => hnext
  exact (hroom s bytes h).1

end Beamr.Distribution.TermCodec
