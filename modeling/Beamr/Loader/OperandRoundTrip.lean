import Beamr.Loader.OperandCodec

/-!
# Which operands survive their encoding

The writer accepts more operands than the reader can return. Reading back what was written
gives the operand exactly when it is one of those the reader produces for the same atoms and
literals.
-/
namespace Beamr.Loader

open ByteOrder Decoder

variable {atoms : List Atom} {literals : List Literal} {e : AtomEncoder}

/-- The reader returns the operand and leaves what follows its bytes, whatever that is. -/
def OperandReadsBack (atoms : List Atom) (literals : List Literal) (bytes : List UInt8)
    (o : Operand) : Prop :=
  ∀ s rest, ∃ s', readOperand atoms literals s (bytes ++ rest) = .ok (o, s', rest)

/-- Past its tagged value an operand is read by its tag. -/
theorem readOperandFuel_tagged {fuel : ℕ} {s : CompactState} {head c : List UInt8}
    {v : ℕ × CompactValue} (h : ∀ rest, taggedValue (head ++ rest) = .ok (v, rest)) :
    readOperandFuel atoms literals (fuel + 1) s (head ++ c) =
      operandOf atoms literals (readOperandFuel atoms literals fuel) v s c :=
  bind_eq_of_ok (reads_taggedValue s h c)

/-- A literal operand is returned only for an index of the literal table. -/
theorem literal_lt_of_read {nested : CompactM Operand} {s s' : CompactState} {c c' : List UInt8}
    {index : ℕ} (h : readExtended literals nested 4 s c = .ok (.literal index, s', c')) :
    index < literals.length := by
  rw [readExtended, if_neg (by norm_num), if_neg (by norm_num), if_neg (by norm_num),
    if_pos (.inr rfl)] at h
  obtain ⟨read, s₁, c₁, -, h⟩ := bind_ok_iff.mp h
  split at h
  · exact (not_fail_ok h).elim
  · next hlt =>
    obtain ⟨heq, -, -⟩ := pure_ok_iff.mp h
    obtain rfl := Operand.literal.inj heq
    exact Nat.not_le.mp hlt

/-- Elements read back one after the other are each what the reader produces. -/
theorem decoded_of_many {d : CompactM Operand} {s s' : CompactState} {rest c' : List UInt8}
    {operands : List Operand} {bytes : List UInt8}
    (h : encodeOperands e operands = .ok bytes)
    (hd : ∀ o ∈ operands, ∀ bs rest s' c', bs.length ≤ bytes.length → encodeOperand e o = .ok bs →
      d s (bs ++ rest) = .ok (o, s', c') →
      o.Decoded atoms literals.length ∧ s' = s ∧ c' = rest)
    (hread : many d operands.length s (bytes ++ rest) = .ok (operands, s', c')) :
    ∀ o ∈ operands, o.Decoded atoms literals.length := by
  induction operands generalizing bytes with
  | nil => simp
  | cons o os ih =>
    rw [encodeOperands] at h
    obtain ⟨bs, hbs, h⟩ := except_bind_ok_iff.mp h
    obtain ⟨tail, htail, h⟩ := except_bind_ok_iff.mp h
    obtain rfl := Except.ok.inj h
    rw [List.length_cons, many] at hread
    obtain ⟨a, s₁, c₁, ha, hread⟩ := bind_ok_iff.mp hread
    obtain ⟨as, s₂, c₂, has, hread⟩ := bind_ok_iff.mp hread
    obtain ⟨hcons, rfl, rfl⟩ := pure_ok_iff.mp hread
    obtain ⟨rfl, rfl⟩ := List.cons.inj hcons
    rw [List.append_assoc] at ha
    obtain ⟨hdecoded, rfl, rfl⟩ := hd a (by simp) bs _ _ _ (by simp) hbs ha
    refine List.forall_mem_cons.mpr ⟨hdecoded, ?_⟩
    refine ih htail ?_ has
    intro o' ho' bs' rest' s'' c'' hlen
    exact hd o' (by simp [ho']) bs' rest' s'' c'' (by simp; omega)

/-- An operand the reader returned for its own encoding is one it produces for these literals;
extras can only stand for references the encoding did not contain. -/
theorem decoded_of_readOperandFuel (he : e.atoms = atoms) (hatoms : atoms.length < 2 ^ 63)
    (hlits : literals.length < 2 ^ 63) {n : ℕ} {o : Operand} (ho : o.Decoded atoms n) :
    ∀ {bytes : List UInt8} {fuel : ℕ} (s s' : CompactState) (rest c' : List UInt8),
      encodeOperand e o = .ok bytes → bytes.length ≤ fuel →
      readOperandFuel atoms literals fuel s (bytes ++ rest) = .ok (o, s', c') →
      o.Decoded atoms literals.length := by
  induction ho with
  | integer hv => exact fun _ _ _ _ _ _ _ => .integer hv
  | unsigned hv => exact fun _ _ _ _ _ _ _ => .unsigned hv
  | noAtom => exact fun _ _ _ _ _ _ _ => .noAtom
  | someAtom ha => exact fun _ _ _ _ _ _ _ => .someAtom ha
  | x hv => exact fun _ _ _ _ _ _ _ => .x hv
  | y hv => exact fun _ _ _ _ _ _ _ => .y hv
  | label hv => exact fun _ _ _ _ _ _ _ => .label hv
  | character hv => exact fun _ _ _ _ _ _ _ => .character hv
  | floatRegister hv => exact fun _ _ _ _ _ _ _ => .floatRegister hv
  | allocation hl hentries => exact fun _ _ _ _ _ _ _ => .allocation hl hentries
  | @literal index hi =>
    intro bytes fuel s s' rest c' h hf hread
    obtain rfl := Except.ok.inj ((encodeOperand.eq_def ..).symm.trans h)
    have hpos := pushUnsigned_pos 7 4
    simp only [List.length_append] at hf
    obtain ⟨fuel, rfl⟩ : ∃ f, fuel = f + 1 := ⟨fuel - 1, by omega⟩
    rw [List.append_assoc, readOperandFuel_tagged
      (taggedValue_pushUnsigned (by norm_num) (by norm_num) (by norm_num))] at hread
    exact .literal (literal_lt_of_read hread)
  | @list operands hl _ ih =>
    intro bytes fuel s s' rest c' h hf hread
    rw [encodeOperand] at h
    obtain ⟨inner, hinner, h⟩ := except_bind_ok_iff.mp h
    obtain rfl := Except.ok.inj h
    have hpos := pushUnsigned_pos 7 1
    simp only [List.length_append] at hf
    obtain ⟨fuel, rfl⟩ : ∃ f, fuel = f + 1 := ⟨fuel - 1, by omega⟩
    rw [List.append_assoc, List.append_assoc, readOperandFuel_tagged
      (taggedValue_pushUnsigned (by norm_num) (by norm_num) (by norm_num)), operandOf,
      readExtended, if_pos (by norm_num), bind_eq_of_ok (reads_readUnsigned s hl _)] at hread
    obtain ⟨read, s₁, c₁, hmany, hread⟩ := bind_ok_iff.mp hread
    obtain ⟨heq, -, -⟩ := pure_ok_iff.mp hread
    obtain rfl := Operand.list.inj heq
    refine .list hl (decoded_of_many hinner ?_ hmany)
    intro o ho bs rest' s'' c'' hlen hbs hread
    have hdecoded := ih o ho s s'' rest' c'' hbs (by omega) hread
    have hfuel : bs.length ≤ fuel := by omega
    have hagain := reads_operandFuel he hatoms hlits hdecoded s hbs hfuel rest'
    rw [hread] at hagain
    obtain ⟨-, hrest⟩ := Prod.mk.inj (Except.ok.inj hagain)
    obtain ⟨rfl, rfl⟩ := Prod.mk.inj hrest
    exact ⟨hdecoded, rfl, rfl⟩
  | @typedRegister register typeIndex _ ht ih =>
    intro bytes fuel s s' rest c' h hf hread
    rw [encodeOperand] at h
    split_ifs at h with hpresent
    obtain ⟨inner, hinner, h⟩ := except_bind_ok_iff.mp h
    obtain rfl := Except.ok.inj h
    have hpos := pushUnsigned_pos 7 5
    simp only [List.length_append] at hf
    obtain ⟨fuel, rfl⟩ : ∃ f, fuel = f + 1 := ⟨fuel - 1, by omega⟩
    rw [List.append_assoc, List.append_assoc, readOperandFuel_tagged
      (taggedValue_pushUnsigned (by norm_num) (by norm_num) (by norm_num)), operandOf,
      readExtended, if_neg (by norm_num), if_neg (by norm_num), if_neg (by norm_num),
      if_neg (by norm_num), if_pos (by norm_num)] at hread
    obtain ⟨read, s₁, c₁, hregister, hread⟩ := bind_ok_iff.mp hread
    obtain ⟨index, s₂, c₂, -, hread⟩ := bind_ok_iff.mp hread
    obtain ⟨heq, -, -⟩ := pure_ok_iff.mp hread
    obtain ⟨rfl, rfl⟩ := Operand.typedRegister.inj heq
    exact .typedRegister (ih s s₁ _ c₁ hinner (by omega) hregister) ht

/-- An operand that was written reads back as itself, with exactly the bytes after it left, if and
only if it is one the reader produces: integers in the small range, other numbers below `2^63`,
literal indices of the table, counts below `2^32`, allocation tags that name their kind. -/
theorem operand_reads_back_iff (he : e.atoms = atoms) (hatoms : atoms.length < 2 ^ 32)
    (hlits : literals.length < 2 ^ 63) {o : Operand} {bytes : List UInt8}
    (h : encodeOperand e o = .ok bytes) :
    OperandReadsBack atoms literals bytes o ↔ o.Decoded atoms literals.length := by
  have hatoms' : atoms.length < 2 ^ 63 := hatoms.trans (by norm_num)
  constructor
  · intro hback
    obtain ⟨s', hread⟩ := hback .initial []
    obtain ⟨-, hdecoded⟩ := readOperand_sound _ _ _ _ _ hread
    rw [readOperand, bind_eq_of_ok (show remaining CompactState.initial (bytes ++ []) =
      .ok (bytes ++ [], CompactState.initial, _) from rfl)] at hread
    exact decoded_of_readOperandFuel he hatoms' hlits hdecoded _ _ _ _ h (by simp) hread
  · intro hdecoded s rest
    exact ⟨s, reads_operand he hatoms' hlits hdecoded s h rest⟩

/-- A list of a negative integer, a wide register and an atom reads back. -/
theorem operand_reads_back_list :
    ∃ bytes, encodeOperand ⟨[7], .withCommonAtoms, false⟩
        (.list [.integer (-40000), .x 70000, .atom (some 7)]) = .ok bytes ∧
      OperandReadsBack [7] [] bytes (.list [.integer (-40000), .x 70000, .atom (some 7)]) := by
  refine ⟨_, rfl, ?_⟩
  refine (operand_reads_back_iff (e := ⟨[7], .withCommonAtoms, false⟩) rfl (by decide) (by decide)
    rfl).mpr (.list (by decide) ?_)
  intro o ho
  rcases List.mem_cons.mp ho with rfl | ho
  · exact .integer (by decide)
  rcases List.mem_cons.mp ho with rfl | ho
  · exact .x (by decide)
  obtain rfl := List.mem_singleton.mp ho
  exact .someAtom (by decide)

/-- An unsigned operand of `2^63` is written, and not read back. -/
theorem not_operand_reads_back : ¬ ∀ (e : AtomEncoder) (literals : List Literal) (o : Operand)
    (bytes : List UInt8), encodeOperand e o = .ok bytes →
      OperandReadsBack e.atoms literals bytes o := by
  intro hclaim
  have hencode : encodeOperand ⟨[], .withCommonAtoms, false⟩ (.unsigned (2 ^ 63)) =
      .ok (pushUnsigned 0 (2 ^ 63)) := encodeOperand.eq_def ..
  obtain ⟨s', hread⟩ := hclaim _ [] _ _ hencode .initial []
  obtain ⟨-, hdecoded⟩ := readOperand_sound _ _ _ _ _ hread
  cases hdecoded with
  | unsigned hlt => exact absurd hlt (by norm_num)

end Beamr.Loader
