import Beamr.Loader.Opcodes

/-!
# The code chunk

Twenty header bytes and the instruction stream. The reader stops at the end of the
chunk or at opcode 3 and checks the labels and opcodes it saw against the header;
the writer derives the header from the instructions.
-/
namespace Beamr.Loader

open ByteOrder Decoder

/-! ## Reader -/

/-- The instruction loop. Every round consumes a byte, so the length of the stream bounds it
(`decodeInstructions_enough`). -/
def decodeInstructionsFuel (atoms : List Atom) (literals : List Literal) :
    ℕ → CompactM (List Instruction)
  | 0 => pure []
  | fuel + 1 => do
    let unread ← remaining
    if unread.isEmpty then pure []
    else do
      let opcode ← byte truncatedCompact
      if opcode.toNat = 3 then pure []
      else do
        let instruction ← decodeInstruction atoms literals opcode.toNat
        let instructions ← decodeInstructionsFuel atoms literals fuel
        pure (instruction :: instructions)

/-- The instructions of a stream and the literals its wide integers became. -/
def decodeInstructions (codeBytes : List UInt8) (atoms : List Atom) (literals : List Literal) :
    Except LoadError (List Instruction × List Literal) := do
  let (instructions, s, _) ←
    decodeInstructionsFuel atoms literals codeBytes.length .initial codeBytes
  .ok (instructions, s.extraLiterals)

def readU32At (bytes : List UInt8) (offset : ℕ) : ℕ := beNat ((bytes.drop offset).take 4)

/-- The first label above the count, if any. -/
def labelAbove (instructions : List Instruction) (labelCount : ℕ) : Option ℕ :=
  instructions.findSome? fun
    | .label label => if label > labelCount then some label else none
    | _ => none

/-- The largest header-checked opcode. -/
def maxHeaderOpcode (instructions : List Instruction) : Option ℕ :=
  (instructions.filterMap Instruction.headerOpcode).max?

def checkHeader (instructions : List Instruction) (opcodeMax labelCount : ℕ) :
    Except LoadError Unit :=
  match labelAbove instructions labelCount with
  | some label =>
    .error (.decodeError s!"label {label} exceeds Code label_count {labelCount}")
  | none =>
    match maxHeaderOpcode instructions with
    | some maxSeen =>
      if maxSeen > opcodeMax then
        .error (.decodeError s!"decoded opcode {maxSeen} exceeds Code opcode_max {opcodeMax}")
      else .ok ()
    | none => .ok ()

def decodeCodeChunk (bytes : List UInt8) (atoms : List Atom) (literals : List Literal) :
    Except LoadError (List Instruction × List Literal) :=
  if bytes.length < 20 then .error (.decodeError "Code chunk header is truncated")
  else if readU32At bytes 0 ≠ 16 then
    .error (.decodeError s!"unsupported Code sub_size {readU32At bytes 0}")
  else if readU32At bytes 4 ≠ 0 then
    .error (.decodeError s!"unsupported BEAM instruction set {readU32At bytes 4}")
  else do
    let (instructions, extraLiterals) ← decodeInstructions (bytes.drop 20) atoms literals
    checkHeader instructions (readU32At bytes 8) (readU32At bytes 12)
    .ok (instructions, extraLiterals)

/-! ## Writer -/

/-- Attach the instruction's position to its encoding error. -/
def mapError {α : Type} (f : EncodeError → EncodeError) : Except EncodeError α → Except EncodeError α
  | .ok a => .ok a
  | .error e => .error (f e)

/-- The instruction stream, from the instruction at position `index` on. -/
def encodeInstructions (e : AtomEncoder) : ℕ → List Instruction → Except EncodeError (List UInt8)
  | _, [] => .ok []
  | index, instruction :: instructions => do
    let _ ← instructionOpcode instruction
    let bytes ← mapError (EncodeError.atInstruction index) (encodeInstruction e instruction)
    let rest ← encodeInstructions e (index + 1) instructions
    .ok (bytes ++ rest)

def opcodeOf (instruction : Instruction) : ℕ :=
  match instructionOpcode instruction with
  | .ok opcode => opcode
  | .error _ => 0

def labelOf : Instruction → ℕ
  | .label label => label
  | _ => 0

/-- `opcode_max` and `label_count` of the header: running maxima from zero. -/
def maxOf (f : Instruction → ℕ) (instructions : List Instruction) : ℕ :=
  instructions.foldl (fun acc i => max acc (f i)) 0

def isFuncInfo : Instruction → Bool
  | .funcInfo _ _ _ => true
  | _ => false

def encodeCodeChunk (e : AtomEncoder) (instructions : List Instruction) :
    Except EncodeError (List UInt8) := do
  let body ← encodeInstructions e 0 instructions
  .ok (u32Bytes 16 ++ u32Bytes 0 ++ u32Bytes (maxOf opcodeOf instructions) ++
    u32Bytes (maxOf labelOf instructions) ++ u32Bytes (instructions.countP isFuncInfo) ++ body)

/-! ## What the reader returns -/

section Codec

variable {atoms : List Atom} {literals : List Literal} {e : AtomEncoder}

theorem decodeInstructionsFuel_sound (fuel : ℕ) {s s' : CompactState} {is : List Instruction}
    {c c' : List UInt8}
    (h : decodeInstructionsFuel atoms literals fuel s c = .ok (is, s', c')) :
    s.Grows s' ∧ ∀ i ∈ is, i.Decoded atoms (literals.length + s'.extraLiterals.length) := by
  induction fuel generalizing s c is with
  | zero =>
    obtain ⟨rfl, rfl, rfl⟩ := pure_ok_iff.mp h
    exact ⟨.refl s, by simp⟩
  | succ fuel ih =>
    rw [decodeInstructionsFuel] at h
    obtain ⟨unread, _, _, hrem, h⟩ := bind_ok_iff.mp h
    obtain ⟨rfl, rfl, rfl⟩ := remaining_ok_iff.mp hrem
    split_ifs at h with hempty
    · obtain ⟨rfl, rfl, rfl⟩ := pure_ok_iff.mp h
      exact ⟨.refl s, by simp⟩
    · obtain ⟨opcode, _, c₁, hop, h⟩ := bind_ok_iff.mp h
      obtain ⟨rfl, -⟩ := byte_ok_iff.mp hop
      split_ifs at h with h3
      · obtain ⟨rfl, rfl, rfl⟩ := pure_ok_iff.mp h
        exact ⟨.refl s, by simp⟩
      · simp only [bind_ok_iff, pure_ok_iff] at h
        obtain ⟨i, s₁, c₂, hi, js, s₂, c₃, hjs, rfl, rfl, rfl⟩ := h
        obtain ⟨hg, hd⟩ := decodeInstruction_sound opcode.toNat_lt h3 hi
        obtain ⟨hg', hall⟩ := ih hjs
        refine ⟨hg.trans hg', ?_⟩
        intro x hx
        rcases List.mem_cons.mp hx with rfl | hx
        · exact hd.mono (by have := hg'.length_le; omega)
        · exact hall x hx

theorem decodeCodeChunk_sound {bytes : List UInt8} {is : List Instruction} {extra : List Literal}
    (h : decodeCodeChunk bytes atoms literals = .ok (is, extra)) :
    (∀ l ∈ extra, ∀ table, l.Decoded table maxEtfDepth) ∧
      ∀ i ∈ is, i.Decoded atoms (literals ++ extra).length := by
  unfold decodeCodeChunk at h
  split_ifs at h
  obtain ⟨⟨is', extra'⟩, hdec, h⟩ := except_bind_ok_iff.mp h
  obtain ⟨_, -, h⟩ := except_bind_ok_iff.mp h
  obtain ⟨rfl, rfl⟩ := Prod.mk.inj (Except.ok.inj h)
  obtain ⟨⟨is'', s', c'⟩, hrun, hdec⟩ := except_bind_ok_iff.mp hdec
  obtain ⟨rfl, rfl⟩ := Prod.mk.inj (Except.ok.inj hdec)
  obtain ⟨⟨new, hnew, hl⟩, hall⟩ := decodeInstructionsFuel_sound _ hrun
  rw [CompactState.initial, List.nil_append] at hnew
  rw [hnew] at hall ⊢
  exact ⟨hl, by simpa using hall⟩

/-! ## Reading back an encoded chunk -/

theorem mapError_ok {α : Type} {f : EncodeError → EncodeError} {r : Except EncodeError α} {a : α}
    (h : mapError f r = .ok a) : r = .ok a := by
  cases r with
  | ok b => exact h
  | error e => cases h

/-- One round of the instruction loop. -/
theorem readsAll_instructions_cons {fuel opcode : ℕ} {s s₁ s₂ : CompactState}
    {tail rest : List UInt8} {i : Instruction} {is : List Instruction} (hop : opcode < 256)
    (h3 : opcode ≠ 3) (hread : Reads (decodeInstruction atoms literals opcode) s tail i s₁)
    (hrec : ReadsAll (decodeInstructionsFuel atoms literals fuel) s₁ rest is s₂) :
    ReadsAll (decodeInstructionsFuel atoms literals (fuel + 1)) s
      (UInt8.ofNat opcode :: (tail ++ rest)) (i :: is) s₂ := by
  have hbyte : (UInt8.ofNat opcode).toNat = opcode := toNat_ofNat_of_lt hop
  have hbody : ReadsAll (decodeInstruction atoms literals (UInt8.ofNat opcode).toNat >>= fun i =>
      decodeInstructionsFuel atoms literals fuel >>= fun is => pure (i :: is)) s (tail ++ rest)
      (i :: is) s₂ := by
    rw [hbyte]
    refine hread.bindAll ?_
    unfold ReadsAll at hrec ⊢
    rw [bind_eq_of_ok hrec]
    rfl
  unfold ReadsAll at hbody ⊢
  simp only [decodeInstructionsFuel]
  rw [bind_eq_of_ok (a := UInt8.ofNat opcode :: (tail ++ rest)) rfl]
  simp only [List.isEmpty_cons, Bool.false_eq_true, if_false]
  have hone : byte truncatedCompact s (UInt8.ofNat opcode :: (tail ++ rest)) =
      .ok (UInt8.ofNat opcode, s, tail ++ rest) := rfl
  rw [bind_eq_of_ok hone, if_neg (by rw [hbyte]; exact h3)]
  exact hbody

theorem readsAll_instructions (he : e.atoms = atoms) (hatoms : atoms.length < 2 ^ 63)
    (hlits : literals.length < 2 ^ 63) (s : CompactState) :
    ∀ {is : List Instruction} {index f : ℕ} {bytes : List UInt8},
      (∀ i ∈ is, i.Decoded atoms literals.length) → encodeInstructions e index is = .ok bytes →
      bytes.length ≤ f → ReadsAll (decodeInstructionsFuel atoms literals f) s bytes is s
  | [], _, fuel, bytes, _, h, _ => by
    obtain rfl := Except.ok.inj h
    cases fuel <;> rfl
  | i :: is, index, fuel, bytes, hd, h, hfuel => by
    rw [encodeInstructions] at h
    obtain ⟨_, -, h⟩ := except_bind_ok_iff.mp h
    obtain ⟨first, hfirst, h⟩ := except_bind_ok_iff.mp h
    obtain ⟨rest, hrest, h⟩ := except_bind_ok_iff.mp h
    obtain rfl := Except.ok.inj h
    obtain ⟨opcode, tail, rfl, hop, h3, hread⟩ :=
      reads_instruction he hatoms hlits s (hd i (by simp)) (mapError_ok hfirst)
    simp only [List.cons_append, List.length_cons, List.length_append] at hfuel
    obtain ⟨g, rfl⟩ : ∃ g, fuel = g + 1 := ⟨fuel - 1, by omega⟩
    have hrec := readsAll_instructions he hatoms hlits s (f := g)
      (fun x hx => hd x (by simp [hx])) hrest (by omega)
    exact readsAll_instructions_cons hop h3 hread hrec

theorem le_foldl_max (f : Instruction → ℕ) (is : List Instruction) (acc : ℕ) :
    acc ≤ is.foldl (fun acc i => max acc (f i)) acc := by
  induction is generalizing acc with
  | nil => exact le_rfl
  | cons i is ih => exact (le_max_left _ _).trans (ih _)

theorem le_maxOf (f : Instruction → ℕ) {is : List Instruction} {i : Instruction} (h : i ∈ is) :
    f i ≤ maxOf f is := by
  unfold maxOf
  generalize 0 = acc
  induction is generalizing acc with
  | nil => simp at h
  | cons j is ih =>
    rcases List.mem_cons.mp h with rfl | h
    · exact (le_max_right _ _).trans (le_foldl_max f is _)
    · exact ih h _

theorem maxOf_lt (f : Instruction → ℕ) {is : List Instruction} {bound : ℕ} (hpos : 0 < bound)
    (h : ∀ i ∈ is, f i < bound) : maxOf f is < bound := by
  unfold maxOf
  generalize hacc : 0 = acc
  have hlt : acc < bound := by omega
  clear hacc
  induction is generalizing acc with
  | nil => exact hlt
  | cons j is ih =>
    exact ih (fun i hi => h i (by simp [hi])) _ (max_lt hlt (h j (by simp)))

/-- The header a stream is written with passes the reader's checks. -/
theorem checkHeader_maxOf {is : List Instruction} :
    checkHeader is (maxOf opcodeOf is) (maxOf labelOf is) = .ok () := by
  have hlabel : labelAbove is (maxOf labelOf is) = none := by
    rw [labelAbove, List.findSome?_eq_none_iff]
    intro i hi
    have hle := le_maxOf labelOf hi
    cases i with
    | label label => exact if_neg (by simpa [labelOf] using hle)
    | _ => rfl
  rw [checkHeader, hlabel]
  cases hmax : maxHeaderOpcode is with
  | none => rfl
  | some k =>
    have hmem := List.max?_mem hmax
    obtain ⟨i, hi, hk⟩ := List.mem_filterMap.mp hmem
    have hle := le_maxOf opcodeOf hi
    have hop : opcodeOf i = k := by rw [opcodeOf, headerOpcode_eq hk]
    exact if_neg (by omega)

theorem opcodeOf_lt {n : ℕ} {i : Instruction} (h : i.Decoded atoms n) : opcodeOf i < 2 ^ 32 := by
  obtain ⟨opcode, _, hop, -, hopc, -⟩ := h.operands
  rw [opcodeOf, hopc]
  dsimp only
  omega

theorem labelOf_lt {n : ℕ} {i : Instruction} (h : i.Decoded atoms n) : labelOf i < 2 ^ 32 := by
  obtain ⟨opcode, operands, hop, h3, har, has, hd⟩ := h
  cases i with
  | label label =>
    obtain ⟨-, hops | ⟨o, l, -, rfl, hl, hi⟩⟩ := assemble_ok has har
    · obtain rfl := Except.ok.inj hops
      obtain rfl : opcode = 1 := by
        have := (assemble_ok has har).1
        exact (Except.ok.inj this).symm
      obtain ⟨o, ho, has⟩ := except_bind_ok_iff.mp has
      obtain ⟨l, hl, has⟩ := except_bind_ok_iff.mp has
      obtain ⟨a, ha, rfl⟩ := one_ok ho
      obtain rfl := Instruction.label.inj (Except.ok.inj has)
      exact expectU32_decoded (hd o (by rw [ha]; simp)) hl
    · obtain rfl := Instruction.label.inj hi
      exact expectU32_decoded (hd o (by simp)) hl
  | _ => simp [labelOf]

theorem readU32At_append {x y : List UInt8} {v k : ℕ} (hx : x.length = k)
    (hv : v < 2 ^ 32) : readU32At (x ++ (u32Bytes v ++ y)) k = v := by
  subst hx
  rw [readU32At, List.drop_left, List.take_left' (u32Bytes_length v), u32Bytes,
    beNat_beBytes_of_lt (by norm_num at hv ⊢; exact hv)]

/-- A module's instructions are read back from their chunk, with no new literal. -/
theorem decodeCodeChunk_encode (he : e.atoms = atoms) (hatoms : atoms.length < 2 ^ 63)
    (hlits : literals.length < 2 ^ 63) {is : List Instruction} {bytes : List UInt8}
    (hd : ∀ i ∈ is, i.Decoded atoms literals.length) (h : encodeCodeChunk e is = .ok bytes) :
    decodeCodeChunk bytes atoms literals = .ok (is, []) := by
  obtain ⟨body, hbody, h⟩ := except_bind_ok_iff.mp h
  obtain rfl := Except.ok.inj h
  have hop := maxOf_lt opcodeOf (by norm_num) fun i hi => opcodeOf_lt (hd i hi)
  have hlab := maxOf_lt labelOf (by norm_num) fun i hi => labelOf_lt (hd i hi)
  set header := u32Bytes 16 ++ u32Bytes 0 ++ u32Bytes (maxOf opcodeOf is) ++
    u32Bytes (maxOf labelOf is) ++ u32Bytes (is.countP isFuncInfo) with hheader
  have hlen : header.length = 20 := by simp [hheader]
  have h0 : readU32At (header ++ body) 0 = 16 := by
    simp only [hheader, List.append_assoc]
    exact readU32At_append (x := []) rfl (by norm_num)
  have h4 : readU32At (header ++ body) 4 = 0 := by
    simp only [hheader, List.append_assoc]
    exact readU32At_append (by simp) (by norm_num)
  have h8 : readU32At (header ++ body) 8 = maxOf opcodeOf is := by
    have := readU32At_append (x := u32Bytes 16 ++ u32Bytes 0) (y := u32Bytes (maxOf labelOf is) ++
      u32Bytes (is.countP isFuncInfo) ++ body) (k := 8) (by simp) hop
    simpa only [hheader, List.append_assoc] using this
  have h12 : readU32At (header ++ body) 12 = maxOf labelOf is := by
    have := readU32At_append (x := u32Bytes 16 ++ u32Bytes 0 ++ u32Bytes (maxOf opcodeOf is))
      (y := u32Bytes (is.countP isFuncInfo) ++ body) (k := 12) (by simp) hlab
    simpa only [hheader, List.append_assoc] using this
  have hrun := readsAll_instructions he hatoms hlits .initial hd hbody le_rfl
  have hdec : decodeInstructions body atoms literals = .ok (is, []) :=
    except_bind_ok_iff.mpr ⟨_, hrun, rfl⟩
  unfold decodeCodeChunk
  rw [if_neg (by simp [hlen]), h0, h4, h8, h12, if_neg (by simp), if_neg (by simp),
    List.drop_left' hlen, hdec]
  exact except_bind_ok_iff.mpr ⟨(is, []), rfl,
    except_bind_ok_iff.mpr ⟨(), checkHeader_maxOf, rfl⟩⟩

end Codec

end Beamr.Loader
