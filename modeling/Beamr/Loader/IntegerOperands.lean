import Beamr.Loader.OperandCodec
import Beamr.Term.Convert

/-!
# Integer operands

The forms a compact integer can take in the code stream, what they denote, and the operand
the reader makes of each: an immediate in the small range, and otherwise a reference to a
constant-pool entry that it appends after the module's own literals.
-/
namespace Beamr.Loader

open ByteOrder Decoder Term

/-! ## Forms -/

/-- The bytes an unsigned count is read from, and nothing after them. -/
def CountForm (bytes : List UInt8) (count : ℕ) : Prop :=
  ∀ rest, ∃ v, taggedValue (bytes ++ rest) = .ok (v, rest) ∧ unsignedOf unsignedU32 v = .ok count

/-- The bytes of an integer operand (tag 1), the width of its payload in bytes and the integer it
denotes. The two short forms carry four and eleven bits in the header itself. -/
inductive IntegerForm : List UInt8 → ℕ → ℤ → Prop
  | nibble {first : UInt8} : first &&& 0x07 = 1 → first &&& 0x08 = 0 →
      IntegerForm [first] 0 ((first >>> 4).toNat : ℤ)
  | eleven {first low : UInt8} : first &&& 0x07 = 1 → first &&& 0x08 ≠ 0 → first &&& 0x10 = 0 →
      IntegerForm [first, low] 0 (((first >>> 5).toNat * 256 + low.toNat : ℕ) : ℤ)
  | short {first : UInt8} {payload : List UInt8} : first &&& 0x07 = 1 → first &&& 0x08 ≠ 0 →
      first &&& 0x10 ≠ 0 → (first >>> 5).toNat < 7 → payload.length = (first >>> 5).toNat + 2 →
      IntegerForm (first :: payload) payload.length (twosComplementBe payload)
  | long {first : UInt8} {lengthBytes payload : List UInt8} {extra : ℕ} : first &&& 0x07 = 1 →
      first &&& 0x08 ≠ 0 → first &&& 0x10 ≠ 0 → ¬ (first >>> 5).toNat < 7 →
      CountForm lengthBytes extra → payload.length = extra + 9 →
      IntegerForm (first :: (lengthBytes ++ payload)) payload.length (twosComplementBe payload)

/-- The entry of an integer outside the small range: a word, or sign and minimal magnitude. -/
inductive Literal.IsInteger : Literal → ℤ → Prop
  | integer {value : ℤ} : FitsSigned 64 value → IsInteger (.integer value) value
  | bigInteger {value : ℤ} {magnitude : List UInt8} : ¬ FitsSigned 64 value →
      leNat magnitude = value.natAbs → (∀ h : magnitude ≠ [], magnitude.getLast h ≠ 0) →
      IsInteger (.bigInteger (signByte (decide (value < 0)) :: magnitude)) value

/-- The operand of an integer and what reading it appended: nothing for an immediate, one entry
after the literals and the extras so far for any other integer. -/
inductive IntegerOperand (literals : List Literal) (s s' : CompactState) (value : ℤ) :
    Operand → Prop
  | inline : IsSmallInt value → s'.extraLiterals = s.extraLiterals →
      IntegerOperand literals s s' value (.integer value)
  | pooled {literal : Literal} : ¬ IsSmallInt value → literal.IsInteger value →
      s'.extraLiterals = s.extraLiterals ++ [literal] →
      IntegerOperand literals s s' value (.literal (literals.length + s.extraLiterals.length))

variable {atoms : List Atom} {literals : List Literal} {s s' : CompactState}

/-- However much is appended later, the index leads to the entry in the finished table. -/
theorem IntegerOperand.lookup {value : ℤ} {index : ℕ}
    (h : IntegerOperand literals s s' value (.literal index)) {later : CompactState}
    (hlater : s'.Grows later) :
    ∃ literal : Literal, literal.IsInteger value ∧
      (literals ++ later.extraLiterals)[index]? = some literal := by
  cases h with
  | @pooled literal _ hinteger happend =>
    obtain ⟨new, hnew, -⟩ := hlater
    refine ⟨literal, hinteger, ?_⟩
    rw [hnew, happend, List.getElem?_append_right (Nat.le_add_right _ _), Nat.add_sub_cancel_left,
      List.append_assoc, List.getElem?_append_right le_rfl, Nat.sub_self]
    rfl

/-! ## Reading -/

theorem integerOperand_spec {value : ℤ} (hv : FitsSigned 64 value) (s : CompactState)
    (c : List UInt8) : ∃ o s', integerOperand literals value s c = .ok (o, s', c) ∧
      IntegerOperand literals s s' value o ∧ s'.budget = s.budget := by
  unfold integerOperand
  by_cases hsmall : IsSmallInt value
  · rw [if_pos hsmall]
    exact ⟨_, s, rfl, .inline hsmall rfl, rfl⟩
  · rw [if_neg hsmall]
    exact ⟨_, { s with extraLiterals := s.extraLiterals ++ [.integer value] }, rfl,
      .pooled hsmall (.integer hv) rfl, rfl⟩

/-- What a payload wider than a word charges. -/
def chargeWide (budget : DecodeBudget) (width : ℕ) : Except LoadError DecodeBudget := do
  (← budget.chargeNode).chargeBytes width

/-- A wide payload is converted exactly; one that denotes a word is read as that word. -/
theorem bigIntegerOperand_spec (payload : List UInt8) {budget : DecodeBudget} (s : CompactState)
    (hbudget : chargeWide s.budget payload.length = .ok budget) (c : List UInt8) :
    ∃ o s', bigIntegerOperand literals payload s c = .ok (o, s', c) ∧
      IntegerOperand literals s s' (twosComplementBe payload) o ∧ s'.budget = budget := by
  obtain ⟨hcanonical, hvalue⟩ := fromTwosComplementBe_spec payload
  obtain ⟨b, hnode, hbytes⟩ := except_bind_ok_iff.mp hbudget
  have hrun : bigIntegerOperand literals payload s c =
      (fromTwosComplementBe payload).toSmallI64.elim
        (pushExtraLiteral literals (.bigInteger
          (signByte (toSignMagnitudeLe (fromTwosComplementBe payload)).1 ::
            (toSignMagnitudeLe (fromTwosComplementBe payload)).2)))
        (integerOperand literals) { s with budget := budget } c := by
    unfold bigIntegerOperand
    rw [bind_eq_of_ok (show getState s c = .ok (s, s, c) from rfl), hnode,
      bind_eq_of_ok (show Decoder.ofExcept (.ok b) s c = .ok (b, s, c) from rfl), hbytes,
      bind_eq_of_ok (show Decoder.ofExcept (.ok budget) s c = .ok (budget, s, c) from rfl),
      bind_eq_of_ok (show setState { s with budget := budget } s c =
        .ok ((), { s with budget := budget }, c) from rfl)]
    dsimp only
    cases (fromTwosComplementBe payload).toSmallI64 <;> rfl
  rw [hrun]
  cases hword : (fromTwosComplementBe payload).toSmallI64 with
  | some small =>
    obtain ⟨hsmall, hlow, hhigh⟩ := (BigIntValue.toSmallI64_iff hcanonical small).mp hword
    have hfits : FitsSigned 64 small := by
      unfold FitsSigned
      norm_num
      omega
    obtain ⟨o, s', hread, ho, hb⟩ :=
      @integerOperand_spec literals small hfits { s with budget := budget } c
    refine ⟨o, s', hread, ?_, hb⟩
    rw [← hvalue, hsmall]
    cases ho with
    | inline h hs => exact .inline h hs
    | pooled h hl hs => exact .pooled h hl hs
  | none =>
    have hwide : ¬ FitsSigned 64 (twosComplementBe payload) := by
      intro hfits
      unfold FitsSigned at hfits
      norm_num at hfits
      have hsome := (BigIntValue.toSmallI64_iff hcanonical _).mpr ⟨hvalue, by norm_num; omega⟩
      rw [hword] at hsome
      cases hsome
    obtain ⟨hmagnitude, hsign, hlast, -⟩ := toSignMagnitudeLe_spec hcanonical
    rw [hvalue] at hmagnitude hsign
    refine ⟨_, _, rfl, ?_, rfl⟩
    refine .pooled (fun h => hwide h.fits) ?_ rfl
    rw [hsign]
    exact .bigInteger hwide hmagnitude hlast

/-- A tagged value under the integer tag, with the width of its payload and its integer. -/
inductive CompactValue.Denotes : CompactValue → ℕ → ℤ → Prop
  | small {value : ℤ} {width : ℕ} : width ≤ 8 → FitsSigned 64 value →
      Denotes (.small value) width value
  | big {payload : List UInt8} : 8 < payload.length →
      Denotes (.big payload) payload.length (twosComplementBe payload)

theorem fitsWord_natCast {n : ℕ} (h : n < 2 ^ 63) : FitsSigned 64 (n : ℤ) := by
  constructor
  · exact Int.le_trans (by norm_num) (Int.natCast_nonneg n)
  · exact_mod_cast h

theorem readPayload_denotes {payload : List UInt8} (hne : payload ≠ []) :
    ∃ v : CompactValue, (∀ rest, readPayload 1 payload.length (payload ++ rest) = .ok (v, rest)) ∧
      v.Denotes payload.length (twosComplementBe payload) := by
  rcases Nat.lt_or_ge 8 payload.length with hwide | hword
  · refine ⟨.big payload, ?_, .big hwide⟩
    intro rest
    rw [readPayload, if_pos (by simp), List.take_left, List.drop_left]
    simp only [if_neg (Nat.not_le.mpr hwide)]
  · refine ⟨.small (smallSigned payload true), fun rest => readPayload_append rfl hword rest, ?_⟩
    rw [twosComplementBe, ← smallSigned_signed hne hword]
    exact .small hword (smallSigned_fits payload true hword)

/-- Every form is read as the integer it denotes, whatever follows it. -/
theorem taggedValue_integerForm {bytes : List UInt8} {width : ℕ} {value : ℤ}
    (h : IntegerForm bytes width value) : ∃ v : CompactValue,
      (∀ rest, taggedValue (bytes ++ rest) = .ok ((1, v), rest)) ∧ v.Denotes width value := by
  cases h with
  | @nibble first htag h8 =>
    refine ⟨.small ((first >>> 4).toNat : ℤ), ?_, .small (Nat.zero_le 8) ?_⟩
    · intro rest
      simp only [List.cons_append, List.nil_append, taggedValue, htag, h8, if_true]
      rfl
    · exact fitsWord_natCast ((first >>> 4).toNat_lt.trans (by norm_num))
  | @eleven first low htag h8 h10 =>
    refine ⟨.small (((first >>> 5).toNat * 256 + low.toNat : ℕ) : ℤ), ?_,
      .small (Nat.zero_le 8) ?_⟩
    · intro rest
      simp only [List.cons_append, List.nil_append, taggedValue, htag, if_neg h8, h10, if_true]
      rfl
    · have := (first >>> 5).toNat_lt
      have := low.toNat_lt
      exact fitsWord_natCast (by omega)
  | @short first payload htag h8 h10 hshort hlength =>
    have hne : payload ≠ [] := by
      rintro rfl
      simp at hlength
    obtain ⟨v, hread, hdenotes⟩ := readPayload_denotes hne
    refine ⟨v, ?_, hdenotes⟩
    intro rest
    rw [hlength] at hread
    simp only [List.cons_append, taggedValue, htag, if_neg h8, if_neg h10, if_pos hshort]
    rw [show (1 : UInt8).toNat = 1 from rfl, hread rest]
    rfl
  | @long first lengthBytes payload extra htag h8 h10 hlong hcount hlength =>
    have hne : payload ≠ [] := by
      rintro rfl
      simp at hlength
    obtain ⟨v, hread, hdenotes⟩ := readPayload_denotes hne
    refine ⟨v, ?_, hdenotes⟩
    intro rest
    obtain ⟨w, hw, hextra⟩ := hcount (payload ++ rest)
    rw [hlength] at hread
    simp only [List.cons_append, List.append_assoc, taggedValue, htag, if_neg h8, if_neg h10,
      if_neg hlong, hw]
    rw [show (1 : UInt8).toNat = 1 from rfl]
    simp only [bind, Except.bind, hextra, hread rest]

/-- A payload is a prefix of the bytes, read the same whatever follows it. -/
theorem readPayload_prefix {tag n : ℕ} {c c' : List UInt8} {v : CompactValue}
    (h : readPayload tag n c = .ok (v, c')) : ∃ payload, c = payload ++ c' ∧ payload.length = n ∧
      ∀ rest, readPayload tag n (payload ++ rest) = .ok (v, rest) := by
  unfold readPayload at h
  split at h
  · next hle =>
    obtain ⟨rfl, rfl⟩ := Prod.mk.inj (Except.ok.inj h)
    have hlength : (c.take n).length = n := List.length_take_of_le hle
    refine ⟨c.take n, (List.take_append_drop n c).symm, hlength, ?_⟩
    intro rest
    rw [readPayload, if_pos (by simp [hlength]), List.take_left' hlength, List.drop_left' hlength]
  · cases h

/-- So is a tagged value. -/
theorem taggedValue_prefix {c c' : List UInt8} {v : ℕ × CompactValue}
    (h : taggedValue c = .ok (v, c')) :
    ∃ bytes, c = bytes ++ c' ∧ ∀ rest, taggedValue (bytes ++ rest) = .ok (v, rest) := by
  induction c generalizing v c' with
  | nil => simp [taggedValue] at h
  | cons first rest ih =>
    unfold taggedValue at h
    dsimp only at h
    split_ifs at h with h8 h10 hshort
    · obtain ⟨rfl, rfl⟩ := Prod.mk.inj (Except.ok.inj h)
      refine ⟨[first], rfl, fun rest' => ?_⟩
      simp only [List.cons_append, List.nil_append, taggedValue, if_pos h8]
    · cases rest with
      | nil => cases h
      | cons low rest =>
        obtain ⟨rfl, rfl⟩ := Prod.mk.inj (Except.ok.inj h)
        refine ⟨[first, low], rfl, fun rest' => ?_⟩
        simp only [List.cons_append, List.nil_append, taggedValue, if_neg h8, if_pos h10]
    · obtain ⟨⟨value, q⟩, hpayload, hr⟩ := except_bind_ok_iff.mp h
      obtain ⟨rfl, rfl⟩ := Prod.mk.inj (Except.ok.inj hr)
      obtain ⟨payload, hsplit, -, hread⟩ := readPayload_prefix hpayload
      refine ⟨first :: payload, by rw [hsplit]; rfl, fun rest' => ?_⟩
      simp only [List.cons_append, taggedValue, if_neg h8, if_neg h10, if_pos hshort, hread rest']
      rfl
    · obtain ⟨⟨extra, r⟩, htag, h⟩ := except_bind_ok_iff.mp h
      obtain ⟨n, hn, h⟩ := except_bind_ok_iff.mp h
      obtain ⟨⟨value, q⟩, hpayload, hr⟩ := except_bind_ok_iff.mp h
      obtain ⟨rfl, rfl⟩ := Prod.mk.inj (Except.ok.inj hr)
      obtain ⟨lengthBytes, hcount, hlength⟩ := ih htag
      obtain ⟨payload, hsplit, -, hread⟩ := readPayload_prefix hpayload
      dsimp only at hsplit hn
      refine ⟨first :: (lengthBytes ++ payload), ?_, fun rest' => ?_⟩
      · rw [hcount, hsplit, List.cons_append, List.append_assoc]
      · simp only [List.cons_append, List.append_assoc, taggedValue, if_neg h8, if_neg h10,
          if_neg hshort, hlength (payload ++ rest'), bind, Except.bind, hn, hread rest']

/-- Everything read under the integer tag is one of the forms. -/
theorem integerForm_of_taggedValue {c c' : List UInt8} {v : CompactValue}
    (h : taggedValue c = .ok ((1, v), c')) :
    ∃ bytes width value, c = bytes ++ c' ∧ IntegerForm bytes width value := by
  cases c with
  | nil => simp [taggedValue] at h
  | cons first rest =>
    have htagOf : ∀ {tag : ℕ} {w : CompactValue}, (((first &&& 0x07).toNat, w) : ℕ × CompactValue) =
        (tag, v) → tag = 1 → first &&& 0x07 = 1 := by
      intro tag w heq htag
      apply UInt8.toNat_inj.mp
      rw [(Prod.mk.inj heq).1, htag]
      rfl
    unfold taggedValue at h
    dsimp only at h
    split_ifs at h with h8 h10 hshort
    · obtain ⟨heq, rfl⟩ := Prod.mk.inj (Except.ok.inj h)
      exact ⟨[first], 0, _, rfl, .nibble (htagOf heq rfl) h8⟩
    · cases rest with
      | nil => cases h
      | cons low rest =>
        obtain ⟨heq, rfl⟩ := Prod.mk.inj (Except.ok.inj h)
        exact ⟨[first, low], 0, _, rfl, .eleven (htagOf heq rfl) h8 h10⟩
    · obtain ⟨⟨value, q⟩, hpayload, hr⟩ := except_bind_ok_iff.mp h
      obtain ⟨heq, rfl⟩ := Prod.mk.inj (Except.ok.inj hr)
      obtain ⟨payload, hsplit, hlength, -⟩ := readPayload_prefix hpayload
      exact ⟨first :: payload, _, _, by rw [hsplit]; rfl,
        .short (htagOf heq rfl) h8 h10 hshort hlength⟩
    · obtain ⟨⟨extra, r⟩, htag, h⟩ := except_bind_ok_iff.mp h
      obtain ⟨n, hn, h⟩ := except_bind_ok_iff.mp h
      obtain ⟨⟨value, q⟩, hpayload, hr⟩ := except_bind_ok_iff.mp h
      obtain ⟨heq, rfl⟩ := Prod.mk.inj (Except.ok.inj hr)
      obtain ⟨lengthBytes, hcount, hread⟩ := taggedValue_prefix htag
      obtain ⟨payload, hsplit, hlength, -⟩ := readPayload_prefix hpayload
      dsimp only at hsplit
      refine ⟨first :: (lengthBytes ++ payload), _, _, ?_,
        .long (htagOf heq rfl) h8 h10 hshort (fun rest' => ⟨extra, hread rest', hn⟩) hlength⟩
      rw [hcount, hsplit, List.cons_append, List.append_assoc]

/-! ## Operands -/

/-- What a wide payload was charged, when it was read at all. -/
theorem chargeWide_of_bigIntegerOperand {payload : List UInt8} {s s' : CompactState}
    {c c' : List UInt8} {o : Operand}
    (h : bigIntegerOperand literals payload s c = .ok (o, s', c')) :
    ∃ budget, chargeWide s.budget payload.length = .ok budget := by
  unfold bigIntegerOperand at h
  obtain ⟨t, _, _, ht, h⟩ := bind_ok_iff.mp h
  obtain ⟨rfl, rfl, rfl⟩ := getState_ok_iff.mp ht
  obtain ⟨b, _, _, hb, h⟩ := bind_ok_iff.mp h
  obtain ⟨hnode, rfl, rfl⟩ := ofExcept_ok_iff.mp hb
  obtain ⟨b', _, _, hb', h⟩ := bind_ok_iff.mp h
  obtain ⟨hbytes, -, -⟩ := ofExcept_ok_iff.mp hb'
  exact ⟨b', except_bind_ok_iff.mpr ⟨b, hnode, hbytes⟩⟩

/-- The budget an integer operand needs: one node and its bytes when it is wider than a word. -/
def Affords (budget : DecodeBudget) (width : ℕ) : Prop :=
  8 < width → ∃ budget', chargeWide budget width = .ok budget'

/-- A value under the integer tag becomes the operand of its integer. -/
theorem operandOf_integer {nested : CompactM Operand} {v : CompactValue} {width : ℕ} {value : ℤ}
    (hv : v.Denotes width value) (hbudget : Affords s.budget width) (c : List UInt8) :
    ∃ o s', operandOf atoms literals nested (1, v) s c = .ok (o, s', c) ∧
      IntegerOperand literals s s' value o := by
  cases hv with
  | small hwidth hfits =>
    obtain ⟨o, s', hread, ho, -⟩ := @integerOperand_spec literals _ hfits s c
    exact ⟨o, s', hread, ho⟩
  | @big payload hwide =>
    obtain ⟨budget, hcharge⟩ := hbudget hwide
    obtain ⟨o, s', hread, ho, -⟩ :=
      @bigIntegerOperand_spec literals payload _ s hcharge c
    exact ⟨o, s', hread, ho⟩

/-- Reading a form gives the operand of its integer and leaves the bytes after it. -/
theorem reads_integerForm {bytes : List UInt8} {width : ℕ} {value : ℤ}
    (h : IntegerForm bytes width value) (hbudget : Affords s.budget width) (rest : List UInt8) :
    ∃ o s', readOperand atoms literals s (bytes ++ rest) = .ok (o, s', rest) ∧
      IntegerOperand literals s s' value o := by
  obtain ⟨v, htag, hv⟩ := taggedValue_integerForm h
  have hfuel : ∃ fuel, (bytes ++ rest).length = fuel + 1 := by
    cases h <;> exact ⟨_, rfl⟩
  obtain ⟨fuel, hfuel⟩ := hfuel
  obtain ⟨o, s', hread, ho⟩ := @operandOf_integer atoms literals s
    (readOperandFuel atoms literals fuel) _ _ _ hv hbudget rest
  refine ⟨o, s', ?_, ho⟩
  have hvalue : (readTaggedValue : CompactM _) s (bytes ++ rest) = .ok ((1, v), s, rest) :=
    reads_taggedValue s htag rest
  rw [readOperand, bind_eq_of_ok (show remaining s (bytes ++ rest) = .ok (bytes ++ rest, s, _)
    from rfl), hfuel, readOperandFuel, bind_eq_of_ok hvalue]
  exact hread

theorem taggedValue_tag {first : UInt8} {c c' : List UInt8} {v : ℕ × CompactValue}
    (h : taggedValue (first :: c) = .ok (v, c')) : v.1 = (first &&& 0x07).toNat := by
  unfold taggedValue at h
  dsimp only at h
  split_ifs at h with h8 h10 hshort
  · obtain ⟨rfl, rfl⟩ := Prod.mk.inj (Except.ok.inj h)
    rfl
  · cases c with
    | nil => cases h
    | cons low c =>
      obtain ⟨rfl, rfl⟩ := Prod.mk.inj (Except.ok.inj h)
      rfl
  · obtain ⟨⟨value, q⟩, -, hr⟩ := except_bind_ok_iff.mp h
    obtain ⟨rfl, rfl⟩ := Prod.mk.inj (Except.ok.inj hr)
    rfl
  · obtain ⟨⟨extra, r⟩, -, h⟩ := except_bind_ok_iff.mp h
    obtain ⟨n, -, h⟩ := except_bind_ok_iff.mp h
    obtain ⟨⟨value, q⟩, -, hr⟩ := except_bind_ok_iff.mp h
    obtain ⟨rfl, rfl⟩ := Prod.mk.inj (Except.ok.inj hr)
    rfl

/-- An operand read under the integer tag was one of the forms, and is the operand of its
integer. -/
theorem integerForm_of_read {first : UInt8} {c c' : List UInt8} {o : Operand}
    (htag : first &&& 0x07 = 1) (h : readOperand atoms literals s (first :: c) = .ok (o, s', c')) :
    ∃ bytes width value, first :: c = bytes ++ c' ∧ IntegerForm bytes width value ∧
      IntegerOperand literals s s' value o := by
  have hrun := h
  rw [readOperand, bind_eq_of_ok (show remaining s (first :: c) = .ok (first :: c, s, _) from rfl),
    List.length_cons, readOperandFuel] at h
  obtain ⟨⟨tag, v⟩, s₁, c₁, hlift, h⟩ := bind_ok_iff.mp h
  obtain ⟨hvalue, rfl⟩ := lift_ok_iff.mp hlift
  obtain rfl : tag = 1 := by
    have := taggedValue_tag hvalue
    rwa [htag] at this
  obtain ⟨bytes, width, value, hsplit, hform⟩ := integerForm_of_taggedValue hvalue
  obtain ⟨w, hread, hw⟩ := taggedValue_integerForm hform
  obtain rfl : v = w := by
    have hboth := hread c₁
    rw [← hsplit, hvalue] at hboth
    exact (Prod.mk.inj (Prod.mk.inj (Except.ok.inj hboth)).1).2
  have hbudget : Affords s.budget width := by
    intro hwide
    cases hw with
    | small hwidth _ => omega
    | big _ => exact chargeWide_of_bigIntegerOperand h
  obtain ⟨o', s'', hread, ho⟩ := @reads_integerForm atoms literals _ _ _ _ hform hbudget c₁
  rw [← hsplit, hrun] at hread
  obtain ⟨rfl, hrest⟩ := Prod.mk.inj (Except.ok.inj hread)
  obtain ⟨rfl, rfl⟩ := Prod.mk.inj hrest
  exact ⟨bytes, width, value, hsplit, hform, ho⟩

/-- Integer operands denote their payload. Every operand read under the integer tag was one of the
integer forms, consumed exactly, and is the operand of the integer that form denotes: immediate
exactly in the small range, otherwise the index after the module's literals and the extras so far,
where the finished table has the entry of that integer. Every form is read so when the budget
affords it, and bytes of every width and sign convert to the canonical form of their two's
complement. -/
theorem integer_operands_exact (atoms : List Atom) (literals : List Literal) :
    (∀ s s' first c c' o, first &&& 0x07 = 1 →
      readOperand atoms literals s (first :: c) = .ok (o, s', c') →
      ∃ bytes width value, first :: c = bytes ++ c' ∧ IntegerForm bytes width value ∧
        IntegerOperand literals s s' value o) ∧
    (∀ s bytes width value rest, IntegerForm bytes width value → Affords s.budget width →
      ∃ o s', readOperand atoms literals s (bytes ++ rest) = .ok (o, s', rest) ∧
        IntegerOperand literals s s' value o) ∧
    (∀ s s' value o, IntegerOperand literals s s' value o →
      (o = .integer value ↔ IsSmallInt value) ∧
      ∀ index later, o = .literal index → s'.Grows later →
        index = literals.length + s.extraLiterals.length ∧
        ∃ literal : Literal, literal.IsInteger value ∧
          (literals ++ later.extraLiterals)[index]? = some literal) ∧
    ∀ payload, (fromTwosComplementBe payload).IsCanonicalForm (twosComplementBe payload) := by
  refine ⟨fun s s' first c c' o => integerForm_of_read,
    fun s bytes width value rest h hbudget => reads_integerForm h hbudget rest, ?_, ?_⟩
  · intro s s' value o ho
    constructor
    · cases ho with
      | inline hsmall _ => exact iff_of_true rfl hsmall
      | pooled hnot _ _ => exact iff_of_false (by simp) hnot
    · rintro index later rfl hlater
      refine ⟨?_, ho.lookup hlater⟩
      cases ho
      rfl
  · intro payload
    obtain ⟨hcanonical, hvalue⟩ := fromTwosComplementBe_spec payload
    exact .of_canonical ⟨hvalue, hcanonical⟩

end Beamr.Loader
