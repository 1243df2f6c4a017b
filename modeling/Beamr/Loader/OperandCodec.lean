import Beamr.Loader.LiteralCodec

/-!
# Operands read back

The operands the reader can produce, and the round trip on exactly those: writing
such an operand and reading it against the enlarged literal table gives it back
and adds no constant-pool entry.
-/
namespace Beamr.Loader

open ByteOrder Decoder

section Readers

variable {σ : Type}

theorem reads_taggedValue (s : σ) {bytes : List UInt8} {v : ℕ × CompactValue}
    (h : ∀ rest, taggedValue (bytes ++ rest) = .ok (v, rest)) :
    Reads (readTaggedValue : Decoder LoadError σ _) s bytes v s := Reads.lift s h

theorem unsignedU32_of_lt {v : ℕ} (h : v < 2 ^ 32) (context : String) :
    unsignedU32 v context = .ok v := by
  unfold unsignedU32
  rw [if_pos ⟨by omega, by exact_mod_cast h⟩, Int.toNat_natCast]

theorem unsignedU64_of_lt {v : ℕ} (h : v < 2 ^ 63) (context : String) :
    unsignedU64 v context = .ok v := by
  unfold unsignedU64
  rw [if_pos ⟨by omega, by norm_num at h ⊢; omega⟩, Int.toNat_natCast]

theorem unsignedU32_ok {value : ℤ} {context : String} {v : ℕ}
    (h : unsignedU32 value context = .ok v) : v < 2 ^ 32 := by
  unfold unsignedU32 at h
  split_ifs at h with hr
  obtain rfl := Except.ok.inj h
  omega

theorem unsignedOf_zero {narrow : ℤ → String → Except LoadError ℕ} {value : ℤ} :
    unsignedOf narrow (0, .small value) = narrow value "unsigned compact operand" := rfl

theorem reads_readUnsigned (s : σ) {v : ℕ} (h : v < 2 ^ 32) :
    Reads (readUnsigned : Decoder LoadError σ ℕ) s (pushUnsigned 0 v) v s := by
  have h63 : v < 2 ^ 63 := h.trans (by norm_num)
  have ht := reads_taggedValue s (taggedValue_pushUnsigned (t := 0) (by norm_num) (by norm_num)
    h63)
  exact ht.bind_pure (Reads.ofExcept s (by rw [unsignedOf_zero, unsignedU32_of_lt h]))

theorem reads_readUnsignedU64 (s : σ) {v : ℕ} (h : v < 2 ^ 63) :
    Reads (readUnsignedU64 : Decoder LoadError σ ℕ) s (pushUnsigned 0 v) v s := by
  have ht := reads_taggedValue s (taggedValue_pushUnsigned (t := 0) (by norm_num) (by norm_num)
    h)
  exact ht.bind_pure (Reads.ofExcept s (by rw [unsignedOf_zero, unsignedU64_of_lt h]))

/-! ## What the raw readers return -/

theorem smallSigned_fits (bytes : List UInt8) (signed : Bool) (h : bytes.length ≤ 8) :
    FitsSigned 64 (smallSigned bytes signed) := by
  have hlt := beNat_lt (List.replicate (8 - bytes.length) (signFill bytes signed) ++ bytes)
  rw [List.length_append, List.length_replicate, Nat.sub_add_cancel h] at hlt
  exact fitsSigned_toSigned (by norm_num) (by norm_num at hlt ⊢; exact hlt)

/-- A value the reader calls small is an `i64`. -/
def CompactValue.IsWord : CompactValue → Prop
  | .small value => FitsSigned 64 value
  | .big _ => True

theorem readPayload_ok {tag n : ℕ} {c c' : List UInt8} {v : CompactValue}
    (h : readPayload tag n c = .ok (v, c')) : v.IsWord ∧ c'.length ≤ c.length := by
  unfold readPayload at h
  by_cases hn : n ≤ c.length
  · rw [if_pos hn] at h
    obtain ⟨rfl, rfl⟩ := Prod.mk.inj (Except.ok.inj h)
    refine ⟨?_, by simp⟩
    by_cases h8 : n ≤ 8
    · rw [if_pos h8]
      exact smallSigned_fits _ _ (by simp; omega)
    · rw [if_neg h8]
      trivial
  · rw [if_neg hn] at h
    cases h

theorem taggedValue_ok {c c' : List UInt8} {v : ℕ × CompactValue}
    (h : taggedValue c = .ok (v, c')) : v.2.IsWord ∧ c'.length < c.length := by
  induction c generalizing v c' with
  | nil => simp [taggedValue] at h
  | cons first rest ih =>
    have h4 : (first >>> 4).toNat < 256 := UInt8.toNat_lt _
    have h5 : (first >>> 5).toNat < 8 := by
      rw [UInt8.toNat_shiftRight]
      have := first.toNat_lt
      simp [Nat.shiftRight_eq_div_pow]
      omega
    unfold taggedValue at h
    dsimp only at h
    split_ifs at h with h1 h2 h3
    · obtain ⟨rfl, rfl⟩ := Prod.mk.inj (Except.ok.inj h)
      exact ⟨by simp only [CompactValue.IsWord, FitsSigned]; constructor <;> omega, by simp⟩
    · cases rest with
      | nil => simp at h
      | cons low rest =>
        have hl := low.toNat_lt
        obtain ⟨rfl, rfl⟩ := Prod.mk.inj (Except.ok.inj h)
        refine ⟨?_, by simp⟩
        simp only [CompactValue.IsWord, FitsSigned]
        push_cast
        constructor <;> omega
    · obtain ⟨⟨value, r'⟩, hp, hr⟩ := except_bind_ok_iff.mp h
      obtain ⟨rfl, rfl⟩ := Prod.mk.inj (Except.ok.inj hr)
      obtain ⟨hw, hl⟩ := readPayload_ok hp
      exact ⟨hw, by simp; omega⟩
    · obtain ⟨⟨extra, r'⟩, ht, h⟩ := except_bind_ok_iff.mp h
      obtain ⟨n, -, h⟩ := except_bind_ok_iff.mp h
      obtain ⟨⟨value, q⟩, hp, hr⟩ := except_bind_ok_iff.mp h
      obtain ⟨rfl, rfl⟩ := Prod.mk.inj (Except.ok.inj hr)
      obtain ⟨hw, hl⟩ := readPayload_ok hp
      have hrec := (ih ht).2
      exact ⟨hw, by simp only [List.length_cons]; dsimp only at hl hrec; omega⟩

theorem unsignedOf_small {narrow : ℤ → String → Except LoadError ℕ} {v : ℕ × CompactValue} {n : ℕ}
    (h : unsignedOf narrow v = .ok n) :
    ∃ value, v = (0, .small value) ∧ narrow value "unsigned compact operand" = .ok n := by
  obtain ⟨tag, value | payload⟩ := v
  · simp only [unsignedOf, taggedInteger, bind, Except.bind] at h
    split_ifs at h with ht
    obtain rfl : tag = 0 := by omega
    exact ⟨value, rfl, h⟩
  · simp [unsignedOf, taggedInteger, bind, Except.bind] at h

theorem readTaggedValue_ok {s s' : σ} {v : ℕ × CompactValue} {c c' : List UInt8}
    (h : (readTaggedValue : Decoder LoadError σ _) s c = .ok (v, s', c')) :
    s = s' ∧ v.2.IsWord ∧ c'.length < c.length := by
  obtain ⟨hv, rfl⟩ := lift_ok_iff.mp h
  exact ⟨rfl, taggedValue_ok hv⟩

theorem readUnsigned_ok {s s' : σ} {n : ℕ} {c c' : List UInt8}
    (h : (readUnsigned : Decoder LoadError σ ℕ) s c = .ok (n, s', c')) :
    s = s' ∧ n < 2 ^ 32 ∧ c'.length < c.length := by
  simp only [readUnsigned, bind_ok_iff, ofExcept_ok_iff] at h
  obtain ⟨v, s₁, c₁, hv, hu, rfl, rfl⟩ := h
  obtain ⟨rfl, -, hlt⟩ := readTaggedValue_ok hv
  obtain ⟨value, -, hn⟩ := unsignedOf_small hu
  exact ⟨rfl, unsignedU32_ok hn, hlt⟩

/-- A value in the signed 64-bit range that passes the unsigned check is below `2^63`. -/
theorem unsignedU64_ok {value : ℤ} {context : String} {v : ℕ} (hw : FitsSigned 64 value)
    (h : unsignedU64 value context = .ok v) : v < 2 ^ 63 := by
  unfold unsignedU64 at h
  split_ifs at h with hr
  obtain rfl := Except.ok.inj h
  have := hw.2
  norm_num at this ⊢
  omega

theorem readUnsignedU64_ok {s s' : σ} {n : ℕ} {c c' : List UInt8}
    (h : (readUnsignedU64 : Decoder LoadError σ ℕ) s c = .ok (n, s', c')) :
    s = s' ∧ n < 2 ^ 63 ∧ c'.length < c.length := by
  simp only [readUnsignedU64, bind_ok_iff, ofExcept_ok_iff] at h
  obtain ⟨v, s₁, c₁, hv, hu, rfl, rfl⟩ := h
  obtain ⟨rfl, hw, hlt⟩ := readTaggedValue_ok hv
  obtain ⟨value, rfl, hn⟩ := unsignedOf_small hu
  exact ⟨rfl, unsignedU64_ok hw hn, hlt⟩

end Readers

/-! ## Operands of a decoded module -/

/-- Allocation entries the reader produces. -/
def Allocation.Decoded (entry : Allocation) : Prop :=
  (allocationPair entry).1 < 2 ^ 63 ∧ (allocationPair entry).2 < 2 ^ 63 ∧
    allocationOf (allocationPair entry).1 (allocationPair entry).2 = entry

/-- Operands the reader produces for a module with these atoms and `n` literals. -/
inductive Operand.Decoded (atoms : List Atom) (n : ℕ) : Operand → Prop
  | integer {value : ℤ} : IsSmallInt value → Decoded atoms n (.integer value)
  | unsigned {value : ℕ} : value < 2 ^ 63 → Decoded atoms n (.unsigned value)
  | noAtom : Decoded atoms n (.atom none)
  | someAtom {atom : Atom} : atom ∈ atoms → Decoded atoms n (.atom (some atom))
  | x {value : ℕ} : value < 2 ^ 32 → Decoded atoms n (.x value)
  | y {value : ℕ} : value < 2 ^ 32 → Decoded atoms n (.y value)
  | label {value : ℕ} : value < 2 ^ 32 → Decoded atoms n (.label value)
  | character {value : ℕ} : value < 2 ^ 63 → Decoded atoms n (.character value)
  | literal {index : ℕ} : index < n → Decoded atoms n (.literal index)
  | floatRegister {value : ℕ} : value < 2 ^ 32 → Decoded atoms n (.floatRegister value)
  | list {operands : List Operand} : operands.length < 2 ^ 32 →
      (∀ o ∈ operands, Decoded atoms n o) → Decoded atoms n (.list operands)
  | allocation {entries : List Allocation} : entries.length < 2 ^ 32 →
      (∀ e ∈ entries, e.Decoded) → Decoded atoms n (.allocation entries)
  | typedRegister {register : Operand} {typeIndex : ℕ} : Decoded atoms n register →
      typeIndex < 2 ^ 63 → Decoded atoms n (.typedRegister register typeIndex)

theorem Operand.Decoded.mono {atoms : List Atom} {n m : ℕ} (hnm : n ≤ m) {o : Operand}
    (h : o.Decoded atoms n) : o.Decoded atoms m := by
  induction h with
  | integer hv => exact .integer hv
  | unsigned hv => exact .unsigned hv
  | noAtom => exact .noAtom
  | someAtom ha => exact .someAtom ha
  | x hv => exact .x hv
  | y hv => exact .y hv
  | label hv => exact .label hv
  | character hv => exact .character hv
  | literal hi => exact .literal (hi.trans_le hnm)
  | floatRegister hv => exact .floatRegister hv
  | list hl _ ih => exact .list hl ih
  | allocation hl he => exact .allocation hl he
  | typedRegister _ ht ih => exact .typedRegister ih ht

theorem IsSmallInt.fits {value : ℤ} (h : IsSmallInt value) : FitsSigned 64 value := by
  unfold IsSmallInt smallIntMin smallIntMax at h
  unfold FitsSigned
  norm_num at *
  omega

section Writer

variable {atoms : List Atom} {literals : List Literal} {e : AtomEncoder}

theorem indexOf_ok {atom : Atom} {index : ℕ} (h : e.indexOf atom = .ok index) :
    1 ≤ index ∧ index ≤ e.atoms.length ∧ e.atoms[index - 1]? = some atom := by
  unfold AtomEncoder.indexOf at h
  split at h
  · next position hp =>
    obtain rfl := Except.ok.inj h
    obtain ⟨hlt, hval, -⟩ := List.idxOf?_eq_some_iff.mp hp
    exact ⟨by omega, by omega, List.getElem?_eq_some_iff.mpr ⟨hlt, hval⟩⟩
  · cases h

theorem reads_allocation (s : CompactState) {entry : Allocation} (h : entry.Decoded) :
    Reads readAllocation s (encodeAllocation entry) entry s := by
  obtain ⟨ht, hv, heq⟩ := h
  have htag := reads_readUnsignedU64 s ht
  have hval := reads_readUnsignedU64 s hv
  exact htag.bind (hval.bind_pure (by rw [heq]; exact Reads.pure entry s))

theorem reads_allocations (s : CompactState) {entries : List Allocation}
    (h : ∀ entry ∈ entries, entry.Decoded) :
    Reads (many readAllocation entries.length) s (entries.flatMap encodeAllocation) entries s := by
  have hid : ∀ (xs : List Allocation), xs.foldl (fun s _ => s) s = s := by
    intro xs
    induction xs with
    | nil => rfl
    | cons x xs ih => exact ih
  have hm := Reads.many (d := readAllocation) encodeAllocation (fun s _ => s) entries s (by
    intro pre a post hsplit
    rw [hid]
    exact reads_allocation s (h a (by rw [hsplit]; simp)))
  rwa [hid] at hm

theorem reads_operands {d : CompactM Operand} (s : CompactState) :
    ∀ {operands : List Operand} {bytes : List UInt8}, encodeOperands e operands = .ok bytes →
      (∀ o ∈ operands, ∀ bs, bs.length ≤ bytes.length → encodeOperand e o = .ok bs →
        Reads d s bs o s) →
      Reads (many d operands.length) s bytes operands s
  | [], bytes, h, _ => by
    rw [encodeOperands] at h
    obtain rfl := Except.ok.inj h
    exact Reads.pure [] s
  | o :: os, bytes, h, hd => by
    rw [encodeOperands] at h
    obtain ⟨bs, hbs, h⟩ := except_bind_ok_iff.mp h
    obtain ⟨rest, hrest, h⟩ := except_bind_ok_iff.mp h
    obtain rfl := Except.ok.inj h
    have ho := hd o (by simp) bs (by simp) hbs
    have hos := reads_operands s hrest (by
      intro o' ho' bs' hlen hbs'
      exact hd o' (by simp [ho']) bs' (by simp; omega) hbs')
    exact ho.bind (hos.bind_pure (Reads.pure _ _))

theorem pushUnsigned_pos (tag value : ℕ) : 1 ≤ (pushUnsigned tag value).length := by
  unfold pushUnsigned pushShort pushWide
  split_ifs <;> simp

theorem pushSigned_pos (tag : ℕ) (value : ℤ) : 1 ≤ (pushSigned tag value).length := by
  unfold pushSigned pushShort pushExtended pushWide
  split_ifs <;> simp

/-- An operand is its tagged value followed by what the tag asks for. -/
theorem reads_operandFuel_of {fuel : ℕ} (hfuel : 1 ≤ fuel) {s s' : CompactState}
    {head tail : List UInt8} {v : ℕ × CompactValue} {o : Operand}
    (ht : ∀ rest, taggedValue (head ++ rest) = .ok (v, rest))
    (ho : Reads (operandOf atoms literals (readOperandFuel atoms literals (fuel - 1)) v) s tail o
      s') :
    Reads (readOperandFuel atoms literals fuel) s (head ++ tail) o s' := by
  obtain ⟨f, rfl⟩ : ∃ f, fuel = f + 1 := ⟨fuel - 1, by omega⟩
  exact (reads_taggedValue s ht).bind ho

/-- The form of the previous rule for operands without further parts. -/
theorem reads_operandFuel_simple {fuel : ℕ} (hfuel : 1 ≤ fuel) {s s' : CompactState}
    {bytes : List UInt8} {v : ℕ × CompactValue} {o : Operand}
    (ht : ∀ rest, taggedValue (bytes ++ rest) = .ok (v, rest))
    (ho : Reads (operandOf atoms literals (readOperandFuel atoms literals (fuel - 1)) v) s [] o s') :
    Reads (readOperandFuel atoms literals fuel) s bytes o s' := by
  simpa using reads_operandFuel_of hfuel ht ho

/-- Writing a decoded operand and reading it back gives the operand and leaves the constant
pool alone. -/
theorem reads_operandFuel (he : e.atoms = atoms) (hatoms : atoms.length < 2 ^ 63)
    (hlits : literals.length < 2 ^ 63) {o : Operand} (ho : o.Decoded atoms literals.length) :
    ∀ {bytes : List UInt8} {fuel : ℕ} (s : CompactState), encodeOperand e o = .ok bytes →
      bytes.length ≤ fuel → Reads (readOperandFuel atoms literals fuel) s bytes o s := by
  induction ho with
  | @integer value hv =>
    intro bytes fuel s h hf
    obtain rfl := Except.ok.inj ((encodeOperand.eq_def ..).symm.trans h)
    have hpos := pushSigned_pos 1 value
    refine reads_operandFuel_simple (by omega) (taggedValue_pushSigned hv.fits) ?_
    rw [operandOf, integerOperand, if_pos hv]
    exact Reads.pure _ _
  | @unsigned value hv =>
    intro bytes fuel s h hf
    obtain rfl := Except.ok.inj ((encodeOperand.eq_def ..).symm.trans h)
    have hpos := pushUnsigned_pos 0 value
    refine reads_operandFuel_simple (by omega)
      (taggedValue_pushUnsigned (by norm_num) (by norm_num) hv) ?_
    exact (Reads.ofExcept s (unsignedU64_of_lt hv _)).bind_nil (Reads.pure _ _)
  | noAtom =>
    intro bytes fuel s h hf
    obtain rfl := Except.ok.inj ((encodeOperand.eq_def ..).symm.trans h)
    have hpos := pushUnsigned_pos 2 0
    refine reads_operandFuel_simple (by omega)
      (taggedValue_pushUnsigned (by norm_num) (by norm_num) (by norm_num)) ?_
    exact Reads.pure _ _
  | @someAtom atom ha =>
    intro bytes fuel s h hf
    rw [encodeOperand] at h
    obtain ⟨index, hi, h⟩ := except_bind_ok_iff.mp h
    obtain rfl := Except.ok.inj h
    obtain ⟨h1, hle, hget⟩ := indexOf_ok hi
    rw [he] at hle hget
    have hpos := pushUnsigned_pos 2 index
    refine reads_operandFuel_simple (by omega)
      (taggedValue_pushUnsigned (by norm_num) (by norm_num) (by omega)) ?_
    rw [operandOf, atomOperand, if_neg (by omega), if_neg (by omega)]
    exact (Reads.ofOption _ s (by simpa using hget)).bind_nil (Reads.pure _ _)
  | @x value hv =>
    intro bytes fuel s h hf
    obtain rfl := Except.ok.inj ((encodeOperand.eq_def ..).symm.trans h)
    have hpos := pushUnsigned_pos 3 value
    refine reads_operandFuel_simple (by omega)
      (taggedValue_pushUnsigned (by norm_num) (by norm_num) (hv.trans (by norm_num))) ?_
    exact (Reads.ofExcept s (unsignedU32_of_lt hv _)).bind_nil (Reads.pure _ _)
  | @y value hv =>
    intro bytes fuel s h hf
    obtain rfl := Except.ok.inj ((encodeOperand.eq_def ..).symm.trans h)
    have hpos := pushUnsigned_pos 4 value
    refine reads_operandFuel_simple (by omega)
      (taggedValue_pushUnsigned (by norm_num) (by norm_num) (hv.trans (by norm_num))) ?_
    exact (Reads.ofExcept s (unsignedU32_of_lt hv _)).bind_nil (Reads.pure _ _)
  | @label value hv =>
    intro bytes fuel s h hf
    obtain rfl := Except.ok.inj ((encodeOperand.eq_def ..).symm.trans h)
    have hpos := pushUnsigned_pos 5 value
    refine reads_operandFuel_simple (by omega)
      (taggedValue_pushUnsigned (by norm_num) (by norm_num) (hv.trans (by norm_num))) ?_
    exact (Reads.ofExcept s (unsignedU32_of_lt hv _)).bind_nil (Reads.pure _ _)
  | @character value hv =>
    intro bytes fuel s h hf
    obtain rfl := Except.ok.inj ((encodeOperand.eq_def ..).symm.trans h)
    have hpos := pushUnsigned_pos 6 value
    refine reads_operandFuel_simple (by omega)
      (taggedValue_pushUnsigned (by norm_num) (by norm_num) hv) ?_
    exact (Reads.ofExcept s (unsignedU64_of_lt hv _)).bind_nil (Reads.pure _ _)
  | @literal index hi =>
    intro bytes fuel s h hf
    obtain rfl := Except.ok.inj ((encodeOperand.eq_def ..).symm.trans h)
    have hpos := pushUnsigned_pos 7 4
    refine reads_operandFuel_of (by simp at hf; omega)
      (taggedValue_pushUnsigned (by norm_num) (by norm_num) (by norm_num)) ?_
    refine (reads_readUnsignedU64 s (hi.trans hlits)).bind_pure ?_
    rw [if_neg (by omega)]
    exact Reads.pure _ _
  | @floatRegister value hv =>
    intro bytes fuel s h hf
    obtain rfl := Except.ok.inj ((encodeOperand.eq_def ..).symm.trans h)
    have hpos := pushUnsigned_pos 7 2
    refine reads_operandFuel_of (by simp at hf; omega)
      (taggedValue_pushUnsigned (by norm_num) (by norm_num) (by norm_num)) ?_
    exact (reads_readUnsigned s hv).bind_pure (Reads.pure _ _)
  | @list operands hl _ ih =>
    intro bytes fuel s h hf
    rw [encodeOperand] at h
    obtain ⟨inner, hinner, h⟩ := except_bind_ok_iff.mp h
    obtain rfl := Except.ok.inj h
    have hpos := pushUnsigned_pos 7 1
    simp only [List.length_append] at hf
    rw [List.append_assoc]
    refine reads_operandFuel_of (by omega)
      (taggedValue_pushUnsigned (by norm_num) (by norm_num) (by norm_num)) ?_
    have hnested := reads_operands (d := readOperandFuel atoms literals (fuel - 1)) s hinner (by
      intro o ho bs hbs henc
      exact ih o ho s henc (by omega))
    exact (reads_readUnsigned s hl).bind (hnested.bind_pure (Reads.pure _ _))
  | @allocation entries hl hentries =>
    intro bytes fuel s h hf
    obtain rfl := Except.ok.inj ((encodeOperand.eq_def ..).symm.trans h)
    have hpos := pushUnsigned_pos 7 3
    simp only [List.length_append] at hf
    rw [List.append_assoc]
    refine reads_operandFuel_of (by omega)
      (taggedValue_pushUnsigned (by norm_num) (by norm_num) (by norm_num)) ?_
    exact (reads_readUnsigned s hl).bind
      ((reads_allocations s hentries).bind_pure (Reads.pure _ _))
  | @typedRegister register typeIndex _ ht ih =>
    intro bytes fuel s h hf
    rw [encodeOperand] at h
    split_ifs at h with hpresent
    obtain ⟨inner, hinner, h⟩ := except_bind_ok_iff.mp h
    obtain rfl := Except.ok.inj h
    have hpos := pushUnsigned_pos 7 5
    simp only [List.length_append] at hf
    rw [List.append_assoc]
    refine reads_operandFuel_of (by omega)
      (taggedValue_pushUnsigned (by norm_num) (by norm_num) (by norm_num)) ?_
    exact (ih s hinner (by omega)).bind
      ((reads_readUnsignedU64 s ht).bind_pure (Reads.pure _ _))

/-- The unread bytes are enough fuel for an operand among them. -/
theorem reads_operand_of_fuel {s s' : CompactState} {bytes : List UInt8} {o : Operand}
    (h : ∀ fuel, bytes.length ≤ fuel → Reads (readOperandFuel atoms literals fuel) s bytes o s') :
    Reads (readOperand atoms literals) s bytes o s' := by
  intro rest
  have hlen : bytes.length ≤ (bytes ++ rest).length := by simp
  exact h _ hlen rest

theorem reads_operand (he : e.atoms = atoms) (hatoms : atoms.length < 2 ^ 63)
    (hlits : literals.length < 2 ^ 63) {o : Operand} (ho : o.Decoded atoms literals.length)
    {bytes : List UInt8} (s : CompactState) (h : encodeOperand e o = .ok bytes) :
    Reads (readOperand atoms literals) s bytes o s :=
  reads_operand_of_fuel fun _ hlen => reads_operandFuel he hatoms hlits ho s h hlen

end Writer

/-! ## What the operand reader returns -/

/-- The reader only appends constant-pool entries, each of a form the literal table can hold. -/
def CompactState.Grows (s s' : CompactState) : Prop :=
  ∃ new, s'.extraLiterals = s.extraLiterals ++ new ∧
    ∀ l ∈ new, ∀ table, l.Decoded table maxEtfDepth

theorem CompactState.Grows.refl (s : CompactState) : s.Grows s := ⟨[], by simp, by simp⟩

theorem CompactState.Grows.trans {s s₁ s₂ : CompactState} (h : s.Grows s₁) (h' : s₁.Grows s₂) :
    s.Grows s₂ := by
  obtain ⟨n, hn, hd⟩ := h
  obtain ⟨m, hm, hd'⟩ := h'
  refine ⟨n ++ m, by rw [hm, hn, List.append_assoc], ?_⟩
  intro l hl
  rcases List.mem_append.mp hl with hl | hl
  · exact hd l hl
  · exact hd' l hl

theorem CompactState.Grows.length_le {s s' : CompactState} (h : s.Grows s') :
    s.extraLiterals.length ≤ s'.extraLiterals.length := by
  obtain ⟨n, hn, -⟩ := h
  rw [hn, List.length_append]
  omega

section Reader

variable (atoms : List Atom) (literals : List Literal)

/-- Every successful run appends to the pool and returns an operand that refers into it. -/
def SoundOperand (d : CompactM Operand) : Prop :=
  ∀ s c o s' c', d s c = .ok (o, s', c') →
    s.Grows s' ∧ o.Decoded atoms (literals.length + s'.extraLiterals.length)

variable {atoms literals}

theorem SoundOperand.fail (e : LoadError) : SoundOperand atoms literals (fail e) :=
  fun _ _ _ _ _ h => absurd h not_fail_ok

theorem SoundOperand.pure {o : Operand} (h : ∀ n, o.Decoded atoms n) :
    SoundOperand atoms literals (pure o) := by
  intro s c o' s' c' hr
  obtain ⟨rfl, rfl, rfl⟩ := pure_ok_iff.mp hr
  exact ⟨.refl s, h _⟩

theorem SoundOperand.read {α : Type} {r : CompactM α} {f : α → CompactM Operand} {Q : α → Prop}
    (hr : ∀ s c a s' c', r s c = .ok (a, s', c') → s = s' ∧ Q a)
    (hf : ∀ a, Q a → SoundOperand atoms literals (f a)) :
    SoundOperand atoms literals (r >>= f) := by
  intro s c o s' c' h
  obtain ⟨a, s₁, c₁, ha, h⟩ := bind_ok_iff.mp h
  obtain ⟨rfl, hq⟩ := hr _ _ _ _ _ ha
  exact hf a hq _ _ _ _ _ h

theorem pushExtraLiteral_sound {l : Literal} (hl : ∀ table, l.Decoded table maxEtfDepth) :
    SoundOperand atoms literals (pushExtraLiteral literals l) := by
  intro s c o s' c' h
  simp only [pushExtraLiteral, bind_ok_iff, getState_ok_iff, setState_ok_iff, pure_ok_iff] at h
  obtain ⟨_, _, _, ⟨rfl, rfl, rfl⟩, _, _, _, ⟨rfl, rfl⟩, rfl, rfl, rfl⟩ := h
  refine ⟨⟨[l], rfl, by simpa using hl⟩, .literal ?_⟩
  simp only [List.length_append, List.length_cons, List.length_nil]
  omega

theorem integerOperand_sound {value : ℤ} (hv : FitsSigned 64 value) :
    SoundOperand atoms literals (integerOperand literals value) := by
  unfold integerOperand
  split_ifs with hs
  · exact .pure fun n => .integer hs
  · exact pushExtraLiteral_sound fun table => .integer hv

theorem bigIntegerOperand_sound (payload : List UInt8) :
    SoundOperand atoms literals (bigIntegerOperand literals payload) := by
  intro s c o s' c' h
  simp only [bigIntegerOperand, bind_ok_iff, getState_ok_iff, setState_ok_iff, ofExcept_ok_iff] at h
  obtain ⟨_, _, _, ⟨rfl, rfl, rfl⟩, b₁, _, _, ⟨-, rfl, rfl⟩, b₂, _, _, ⟨-, rfl, rfl⟩, _, _, _,
    ⟨rfl, rfl⟩, h⟩ := h
  -- charging the budget leaves the pool alone
  have hsame : s.Grows { s with budget := b₂ } := ⟨[], by simp, by simp⟩
  cases hsmall : (Term.fromTwosComplementBe payload).toSmallI64 with
  | some small =>
    rw [hsmall] at h
    obtain ⟨hg, hd⟩ := integerOperand_sound (Term.BigIntValue.toSmallI64_fits hsmall) _ _ _ _ _ h
    exact ⟨hsame.trans hg, hd⟩
  | none =>
    rw [hsmall] at h
    have hwide := Term.fromTwosComplementBe_wide payload hsmall
    obtain ⟨hg, hd⟩ := pushExtraLiteral_sound (fun table => .bigInteger (signByte_le _) (by
      intro h8
      rw [bigMagnitude_signByte]
      exact hwide h8)) _ _ _ _ _ h
    exact ⟨hsame.trans hg, hd⟩

theorem atomOperand_sound (value : ℤ) :
    SoundOperand atoms literals (atomOperand atoms value) := by
  unfold atomOperand
  split_ifs
  · exact .pure fun n => .noAtom
  · exact .fail _
  · refine .read (Q := fun a => a ∈ atoms) ?_ fun a ha => .pure fun n => .someAtom ha
    intro s c a s' c' h
    obtain ⟨hget, rfl, -⟩ := ofOption_ok_iff.mp h
    exact ⟨rfl, List.mem_of_getElem? hget⟩

theorem many_operands_sound {d : CompactM Operand} (hd : SoundOperand atoms literals d) {n : ℕ}
    {os : List Operand} {s s' : CompactState} {c c' : List UInt8}
    (h : many d n s c = .ok (os, s', c')) :
    os.length = n ∧ s.Grows s' ∧
      ∀ o ∈ os, o.Decoded atoms (literals.length + s'.extraLiterals.length) := by
  refine many_ok (P := fun os s _ s' _ => s.Grows s' ∧
    ∀ o ∈ os, o.Decoded atoms (literals.length + s'.extraLiterals.length)) ?_ ?_ n h
  · intro s c
    exact ⟨.refl s, by simp⟩
  · rintro o os s c s₁ c₁ s' c' ho ⟨hg, hall⟩
    obtain ⟨hg1, hdec⟩ := hd _ _ _ _ _ ho
    refine ⟨hg1.trans hg, ?_⟩
    intro x hx
    rcases List.mem_cons.mp hx with rfl | hx
    · exact hdec.mono (by have := hg.length_le; omega)
    · exact hall x hx

theorem readAllocation_ok {s s' : CompactState} {entry : Allocation} {c c' : List UInt8}
    (h : readAllocation s c = .ok (entry, s', c')) : s = s' ∧ entry.Decoded := by
  simp only [readAllocation, bind_ok_iff, pure_ok_iff] at h
  obtain ⟨tag, s₁, c₁, ht, value, s₂, c₂, hv, rfl, rfl, rfl⟩ := h
  obtain ⟨rfl, htag, -⟩ := readUnsignedU64_ok ht
  obtain ⟨rfl, hval, -⟩ := readUnsignedU64_ok hv
  have hpair : allocationPair (allocationOf tag value) = (tag, value) := by
    unfold allocationOf
    split <;> rfl
  exact ⟨rfl, by rw [Allocation.Decoded, hpair]; exact ⟨htag, hval, rfl⟩⟩

theorem readExtended_sound {nested : CompactM Operand} (hn : SoundOperand atoms literals nested)
    (subtag : ℤ) : SoundOperand atoms literals (readExtended literals nested subtag) := by
  have hu : ∀ (s : CompactState) c n s' c', (readUnsigned : CompactM ℕ) s c = .ok (n, s', c') →
      s = s' ∧ n < 2 ^ 32 := fun _ _ _ _ _ h => ⟨(readUnsigned_ok h).1, (readUnsigned_ok h).2.1⟩
  have hu64 : ∀ (s : CompactState) c n s' c', (readUnsignedU64 : CompactM ℕ) s c = .ok (n, s', c') →
      s = s' ∧ n < 2 ^ 63 :=
    fun _ _ _ _ _ h => ⟨(readUnsignedU64_ok h).1, (readUnsignedU64_ok h).2.1⟩
  unfold readExtended
  split_ifs
  · refine .read hu fun len hlen => ?_
    intro s c o s' c' h
    simp only [bind_ok_iff, pure_ok_iff] at h
    obtain ⟨os, s₁, c₁, hos, rfl, rfl, rfl⟩ := h
    obtain ⟨hlen', hg, hall⟩ := many_operands_sound hn hos
    exact ⟨hg, .list (by omega) hall⟩
  · exact .read hu fun v hv => .pure fun n => .floatRegister hv
  · refine .read hu fun len hlen => ?_
    intro s c o s' c' h
    simp only [bind_ok_iff, pure_ok_iff] at h
    obtain ⟨es, s₁, c₁, hes, rfl, rfl, rfl⟩ := h
    obtain ⟨hlen', rfl, hall⟩ := many_ok (P := fun es s _ s' _ => s = s' ∧
      ∀ e ∈ es, e.Decoded) (fun s c => ⟨rfl, by simp⟩) (by
        rintro e es s c s₁ c₁ s' c' he ⟨rfl, hall⟩
        obtain ⟨rfl, hdec⟩ := readAllocation_ok he
        exact ⟨rfl, by simpa using ⟨hdec, hall⟩⟩) len hes
    exact ⟨.refl _, .allocation (by omega) hall⟩
  · refine .read hu64 fun index _ => ?_
    split_ifs with hi
    · exact .fail _
    · intro s c o s' c' h
      obtain ⟨rfl, rfl, rfl⟩ := pure_ok_iff.mp h
      exact ⟨.refl s, .literal (by omega)⟩
  · intro s c o s' c' h
    simp only [bind_ok_iff, pure_ok_iff] at h
    obtain ⟨r, s₁, c₁, hr, t, s₂, c₂, ht, rfl, rfl, rfl⟩ := h
    obtain ⟨hg, hdec⟩ := hn _ _ _ _ _ hr
    obtain ⟨rfl, hlt⟩ := hu64 _ _ _ _ _ ht
    exact ⟨hg, .typedRegister hdec hlt⟩
  · exact .fail _

theorem ofExcept_read {α : Type} {r : Except LoadError α} {Q : α → Prop}
    (h : ∀ a, r = .ok a → Q a) (s : CompactState) (c : List UInt8) (a : α) (s' : CompactState)
    (c' : List UInt8) (hr : (ofExcept r : CompactM α) s c = .ok (a, s', c')) : s = s' ∧ Q a := by
  obtain ⟨ha, rfl, -⟩ := ofExcept_ok_iff.mp hr
  exact ⟨rfl, h a ha⟩

theorem operandOf_sound {nested : CompactM Operand} (hn : SoundOperand atoms literals nested)
    {v : ℕ × CompactValue} (hw : v.2.IsWord) :
    SoundOperand atoms literals (operandOf atoms literals nested v) := by
  unfold operandOf
  split
  · exact bigIntegerOperand_sound _
  · exact .fail _
  · exact .read (ofExcept_read fun _ h => unsignedU64_ok hw h) fun _ h => .pure fun _ => .unsigned h
  · exact integerOperand_sound hw
  · exact atomOperand_sound _
  · exact .read (ofExcept_read fun _ h => unsignedU32_ok h) fun _ h => .pure fun _ => .x h
  · exact .read (ofExcept_read fun _ h => unsignedU32_ok h) fun _ h => .pure fun _ => .y h
  · exact .read (ofExcept_read fun _ h => unsignedU32_ok h) fun _ h => .pure fun _ => .label h
  · exact .read (ofExcept_read fun _ h => unsignedU64_ok hw h) fun _ h =>
      .pure fun _ => .character h
  · exact readExtended_sound hn _
  · exact .fail _

theorem readOperandFuel_sound (fuel : ℕ) :
    SoundOperand atoms literals (readOperandFuel atoms literals fuel) := by
  induction fuel with
  | zero => exact .fail _
  | succ fuel ih =>
    refine .read (Q := fun v => v.2.IsWord) ?_ fun v hw => operandOf_sound ih hw
    intro s c v s' c' h
    obtain ⟨rfl, hw, -⟩ := readTaggedValue_ok h
    exact ⟨rfl, hw⟩

theorem readOperand_sound : SoundOperand atoms literals (readOperand atoms literals) := by
  intro s c o s' c' h
  obtain ⟨_, _, _, hrem, h⟩ := bind_ok_iff.mp h
  obtain ⟨rfl, rfl, rfl⟩ := remaining_ok_iff.mp hrem
  exact readOperandFuel_sound _ _ _ _ _ _ h

end Reader

end Beamr.Loader
