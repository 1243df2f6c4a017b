import Beamr.Lib.Decoder
import Beamr.Atom

/-!
# Loader data model, byte cursor and decode budget

The decoded form of a `.beam` module and the bounds-checked reads every chunk
decoder is built from. The cursor is the list of bytes not yet read. The node,
byte and atom allowances of one module load are threaded through the decoders as
side state together with the atom table; the nesting allowance is the recursion
argument of the term decoder.
-/
namespace Beamr.Loader

open ByteOrder Decoder

/-- Errors of the loading path. -/
inductive LoadError where
  | invalidFormat
  | missingChunk (name : String)
  | decodeError (message : String)
  deriving DecidableEq, Repr

/-- Errors of the encoding path. -/
inductive EncodeError where
  | atomNotInTable
  | valueOutOfRange
  | malformedBigInteger
  | unsupportedInstruction
  | typedRegisterWithoutTypeChunk (instructionIndex : Option ℕ) (typeIndex : ℕ)
  deriving DecidableEq, Repr

/-- Attach an instruction position to an error that carries one. -/
def EncodeError.atInstruction (index : ℕ) : EncodeError → EncodeError
  | .typedRegisterWithoutTypeChunk _ typeIndex =>
      .typedRegisterWithoutTypeChunk (some index) typeIndex
  | other => other

structure ImportEntry where
  module : Atom
  function : Atom
  arity : ℕ
  deriving DecidableEq, Repr

structure ExportEntry where
  function : Atom
  arity : ℕ
  label : ℕ
  deriving DecidableEq, Repr

structure LambdaEntry where
  function : Atom
  arity : ℕ
  label : ℕ
  numFree : ℕ
  uniqueId : ℕ
  deriving DecidableEq, Repr

structure LineInfo where
  file : ℕ
  line : ℕ
  deriving DecidableEq, Repr

/-- A literal of the constant table. A float is its IEEE bit pattern. -/
inductive Literal where
  | integer (value : ℤ)
  | float (bits : ℕ)
  | bigInteger (bytes : List UInt8)
  | atom (atom : Atom)
  | binary (bytes : List UInt8)
  | tuple (elements : List Literal)
  | nil
  | list (elements : List Literal) (tail : Literal)
  | map (pairs : List (Literal × Literal))
  | string (bytes : List UInt8)
  | exportFun (module function : Atom) (arity : ℕ)

inductive Allocation where
  | words (value : ℕ)
  | floats (value : ℕ)
  | funs (value : ℕ)
  | unknown (tag value : ℕ)
  deriving DecidableEq, Repr

/-- A decoded compact operand. -/
inductive Operand where
  | integer (value : ℤ)
  | unsigned (value : ℕ)
  | atom (atom : Option Atom)
  | x (value : ℕ)
  | y (value : ℕ)
  | label (value : ℕ)
  | character (value : ℕ)
  | literal (index : ℕ)
  | list (operands : List Operand)
  | floatRegister (value : ℕ)
  | allocation (entries : List Allocation)
  | typedRegister (register : Operand) (typeIndex : ℕ)

/-! ## Decode budget -/

/-- Recursion limit of the literal decoder. -/
def maxEtfDepth : ℕ := 256

/-- Ceiling on any count read from untrusted bytes. -/
def maxTableEntries : ℕ := 16777216

def maxAtomsPerModule : ℕ := 65536

def defaultDecodeNodeBudget : ℕ := 1000000

def defaultDecodeByteBudget : ℕ := 64 * 1024 * 1024

/-- Allowances left for one module load. -/
structure DecodeBudget where
  nodesRemaining : ℕ
  bytesRemaining : ℕ
  atomsRemaining : ℕ
  deriving DecidableEq, Repr

def DecodeBudget.default : DecodeBudget :=
  ⟨defaultDecodeNodeBudget, defaultDecodeByteBudget, maxAtomsPerModule⟩

/-- Side state of the chunk decoders. -/
structure DecodeState where
  atomTable : AtomTable
  budget : DecodeBudget

/-- Chunk decoders. -/
abbrev LoadM := Decoder LoadError DecodeState

def DecodeBudget.chargeNode (b : DecodeBudget) : Except LoadError DecodeBudget :=
  if b.nodesRemaining = 0 then .error (.decodeError "decode node budget exhausted")
  else .ok { b with nodesRemaining := b.nodesRemaining - 1 }

def DecodeBudget.chargeBytes (b : DecodeBudget) (n : ℕ) : Except LoadError DecodeBudget :=
  if n > b.bytesRemaining then .error (.decodeError "decode byte budget exhausted")
  else .ok { b with bytesRemaining := b.bytesRemaining - n }

def DecodeBudget.chargeAtom (b : DecodeBudget) : Except LoadError DecodeBudget :=
  if b.atomsRemaining = 0 then .error (.decodeError "decode atom budget exhausted")
  else .ok { b with atomsRemaining := b.atomsRemaining - 1 }

/-- Replace the budget by a charged one. -/
def chargeWith (f : DecodeBudget → Except LoadError DecodeBudget) : LoadM Unit := do
  let s ← getState
  let b ← ofExcept (f s.budget)
  setState { s with budget := b }

def chargeNode : LoadM Unit := chargeWith DecodeBudget.chargeNode

def chargeBytes (n : ℕ) : LoadM Unit := chargeWith (DecodeBudget.chargeBytes · n)

def chargeAtom : LoadM Unit := chargeWith DecodeBudget.chargeAtom

theorem chargeWith_ok_iff {f : DecodeBudget → Except LoadError DecodeBudget} {s s' : DecodeState}
    {u : Unit} {c c' : List UInt8} :
    chargeWith f s c = .ok (u, s', c') ↔
      ∃ b, f s.budget = .ok b ∧ s' = { s with budget := b } ∧ c = c' := by
  simp only [chargeWith, bind_ok_iff, getState_ok_iff, ofExcept_ok_iff, setState_ok_iff]
  constructor
  · rintro ⟨_, _, _, ⟨rfl, rfl, rfl⟩, b, _, _, ⟨hb, rfl, rfl⟩, rfl, rfl⟩
    exact ⟨b, hb, rfl, rfl⟩
  · rintro ⟨b, hb, rfl, rfl⟩
    exact ⟨s, s, c, ⟨rfl, rfl, rfl⟩, b, s, c, ⟨hb, rfl, rfl⟩, rfl, rfl⟩

/-- State after charging `nodes` nodes and `bytes` bytes. -/
def DecodeState.charge (s : DecodeState) (nodes bytes : ℕ) : DecodeState :=
  { s with
    budget.nodesRemaining := s.budget.nodesRemaining - nodes
    budget.bytesRemaining := s.budget.bytesRemaining - bytes }

/-- The budget covers `nodes` nodes and `bytes` bytes. -/
def DecodeState.Covers (s : DecodeState) (nodes bytes : ℕ) : Prop :=
  nodes ≤ s.budget.nodesRemaining ∧ bytes ≤ s.budget.bytesRemaining

@[simp] theorem DecodeState.charge_zero (s : DecodeState) : s.charge 0 0 = s := rfl

theorem DecodeState.charge_charge (s : DecodeState) (n m b d : ℕ) :
    (s.charge n b).charge m d = s.charge (n + m) (b + d) := by
  simp [DecodeState.charge, Nat.sub_sub]

@[simp] theorem DecodeState.charge_atomTable (s : DecodeState) (n b : ℕ) :
    (s.charge n b).atomTable = s.atomTable := rfl

theorem DecodeState.covers_charge {s : DecodeState} {n m b d : ℕ} (h : s.Covers (n + m) (b + d)) :
    (s.charge n b).Covers m d := by
  unfold Covers charge at *
  dsimp only
  omega

theorem DecodeState.Covers.mono {s : DecodeState} {n m b d : ℕ} (h : s.Covers m d) (hn : n ≤ m)
    (hb : b ≤ d) : s.Covers n b := ⟨hn.trans h.1, hb.trans h.2⟩

theorem DecodeState.Covers.left {s : DecodeState} {n m b d : ℕ} (h : s.Covers (n + m) (b + d)) :
    s.Covers n b := h.mono (by omega) (by omega)

theorem reads_chargeNode {s : DecodeState} {b : ℕ} (h : s.Covers 1 b) :
    Reads chargeNode s [] () (s.charge 1 0) := by
  intro rest
  have hne : s.budget.nodesRemaining ≠ 0 := by have := h.1; omega
  exact chargeWith_ok_iff.mpr ⟨_, if_neg hne, rfl, rfl⟩

theorem reads_chargeBytes {s : DecodeState} {k n : ℕ} (h : s.Covers k n) :
    Reads (chargeBytes n) s [] () (s.charge 0 n) := by
  intro rest
  have hle : ¬ n > s.budget.bytesRemaining := by have := h.2; omega
  exact chargeWith_ok_iff.mpr ⟨_, if_neg hle, rfl, rfl⟩

/-- What a successful run spent: `s` covered the charges and `s'` has them removed, up to
atoms interned on the way. -/
def Spent (s s' : DecodeState) (nodes bytes : ℕ) : Prop :=
  s'.budget.nodesRemaining + nodes = s.budget.nodesRemaining ∧
  s'.budget.bytesRemaining + bytes = s.budget.bytesRemaining ∧
  s'.atomTable.Extends s.atomTable

theorem Spent.refl (s : DecodeState) : Spent s s 0 0 := ⟨rfl, rfl, .refl _⟩

theorem Spent.trans {s s₁ s₂ : DecodeState} {n m b d : ℕ} (h : Spent s s₁ n b)
    (h' : Spent s₁ s₂ m d) : Spent s s₂ (n + m) (b + d) := by
  obtain ⟨h1, h2, h3⟩ := h
  obtain ⟨h1', h2', h3'⟩ := h'
  exact ⟨by omega, by omega, h3'.trans h3⟩

theorem Spent.covers {s s' : DecodeState} {n b : ℕ} (h : Spent s s' n b) : s.Covers n b :=
  ⟨by have := h.1; omega, by have := h.2.1; omega⟩

theorem chargeNode_ok {s s' : DecodeState} {u : Unit} {c c' : List UInt8}
    (h : chargeNode s c = .ok (u, s', c')) : c = c' ∧ Spent s s' 1 0 := by
  obtain ⟨b, hb, rfl, rfl⟩ := chargeWith_ok_iff.mp h
  unfold DecodeBudget.chargeNode at hb
  split_ifs at hb with hz
  obtain rfl := Except.ok.inj hb
  exact ⟨rfl, by dsimp only; omega, rfl, .refl _⟩

theorem chargeBytes_ok {s s' : DecodeState} {n : ℕ} {u : Unit} {c c' : List UInt8}
    (h : chargeBytes n s c = .ok (u, s', c')) : c = c' ∧ Spent s s' 0 n := by
  obtain ⟨b, hb, rfl, rfl⟩ := chargeWith_ok_iff.mp h
  unfold DecodeBudget.chargeBytes at hb
  split_ifs at hb with hz
  obtain rfl := Except.ok.inj hb
  exact ⟨rfl, rfl, by dsimp only; omega, .refl _⟩

/-! ## Bounded cursor -/

section Cursor

variable {σ : Type}

def truncated : LoadError := .decodeError "truncated chunk data"

def readU8 : Decoder LoadError σ UInt8 := byte truncated

def readBytes (len : ℕ) : Decoder LoadError σ (List UInt8) := take truncated len

def readU16 : Decoder LoadError σ ℕ := do return beNat (← readBytes 2)

def readU32 : Decoder LoadError σ ℕ := do return beNat (← readBytes 4)

def readI32 : Decoder LoadError σ ℤ := do return toSigned 32 (beNat (← readBytes 4))

/-- Reject a count that cannot fit the unread bytes before anything is allocated for it. -/
def ensureCount (count minElemBytes : ℕ) (label : String) : Decoder LoadError σ Unit := do
  require (count ≤ maxTableEntries) (.decodeError s!"{label} exceeds limit")
  let c ← remaining
  require (count * minElemBytes ≤ c.length)
    (.decodeError s!"{label} impossible for payload size")

def expectEmpty (name : String) : Decoder LoadError σ Unit := do
  let c ← remaining
  require c.isEmpty (.decodeError s!"trailing {name} chunk data")

def u32Bytes (v : ℕ) : List UInt8 := beBytes 4 v

def u16Bytes (v : ℕ) : List UInt8 := beBytes 2 v

@[simp] theorem u32Bytes_length (v : ℕ) : (u32Bytes v).length = 4 := beBytes_length 4 v

@[simp] theorem u16Bytes_length (v : ℕ) : (u16Bytes v).length = 2 := beBytes_length 2 v

theorem reads_readU32 (s : σ) {v : ℕ} (h : v < 2 ^ 32) :
    Reads (readU32 : Decoder LoadError σ ℕ) s (u32Bytes v) v s := by
  have hv : beNat (u32Bytes v) = v := beNat_beBytes_of_lt (by norm_num at h ⊢; exact h)
  have ht : Reads (readBytes 4 : Decoder LoadError σ _) s (u32Bytes v) (u32Bytes v) s :=
    Reads.take truncated s _ (by simp)
  have hp := Reads.pure (ε := LoadError) (beNat (u32Bytes v)) s
  rw [hv] at hp
  exact ht.bind_pure (by rw [hv]; exact hp)

theorem reads_readU16 (s : σ) {v : ℕ} (h : v < 2 ^ 16) :
    Reads (readU16 : Decoder LoadError σ ℕ) s (u16Bytes v) v s := by
  have hv : beNat (u16Bytes v) = v := beNat_beBytes_of_lt (by norm_num at h ⊢; exact h)
  have ht : Reads (readBytes 2 : Decoder LoadError σ _) s (u16Bytes v) (u16Bytes v) s :=
    Reads.take truncated s _ (by simp)
  exact ht.bind_pure (by rw [hv]; exact Reads.pure v s)

theorem reads_readI32 (s : σ) {i : ℤ} (h : FitsSigned 32 i) :
    Reads (readI32 : Decoder LoadError σ ℤ) s (u32Bytes (ofSigned 32 i)) i s := by
  have hlt := ofSigned_lt 32 i
  have hv : toSigned 32 (beNat (u32Bytes (ofSigned 32 i))) = i := by
    rw [u32Bytes, beNat_beBytes_of_lt (by norm_num at hlt ⊢; exact hlt),
      toSigned_ofSigned (by norm_num) h]
  have ht : Reads (readBytes 4 : Decoder LoadError σ _) s (u32Bytes (ofSigned 32 i))
      (u32Bytes (ofSigned 32 i)) s := Reads.take truncated s _ (by simp)
  exact ht.bind_pure (by rw [hv]; exact Reads.pure i s)

/-- A count check in front of a read that is long enough for it. -/
theorem Reads.ensureCount_bind {α : Type} {f : Unit → Decoder LoadError σ α} {s s' : σ}
    {bytes : List UInt8} {a : α} {count k : ℕ} {label : String} (hmax : count ≤ maxTableEntries)
    (hlen : count * k ≤ bytes.length) (h : Reads (f ()) s bytes a s') :
    Reads (ensureCount count k label >>= f) s bytes a s' := by
  intro rest
  have he : (ensureCount count k label : Decoder LoadError σ Unit) s (bytes ++ rest) =
      .ok ((), s, bytes ++ rest) := by
    have hl : count * k ≤ (bytes ++ rest).length := by simp; omega
    simp [ensureCount, bind_ok_iff, hmax] at hl ⊢
    exact hl
  rw [bind_eq_of_ok he]
  exact h rest

theorem ReadsAll.ensureCount_bind {α : Type} {f : Unit → Decoder LoadError σ α} {s s' : σ}
    {bytes : List UInt8} {a : α} {count k : ℕ} {label : String} (hmax : count ≤ maxTableEntries)
    (hlen : count * k ≤ bytes.length) (h : ReadsAll (f ()) s bytes a s') :
    ReadsAll (ensureCount count k label >>= f) s bytes a s' := by
  have he : (ensureCount count k label : Decoder LoadError σ Unit) s bytes =
      .ok ((), s, bytes) := by
    simp [ensureCount, bind_ok_iff, hmax, hlen]
  unfold ReadsAll
  rw [bind_eq_of_ok he]
  exact h

/-- The end of a table whose bytes are used up. -/
theorem ReadsAll.expectEmpty_pure {α : Type} (name : String) (s : σ) (a : α) :
    ReadsAll (expectEmpty name >>= fun _ => (pure a : Decoder LoadError σ α)) s [] a s := rfl

theorem readU32_ok {s s' : σ} {v : ℕ} {c c' : List UInt8}
    (h : (readU32 : Decoder LoadError σ ℕ) s c = .ok (v, s', c')) :
    s = s' ∧ v < 2 ^ 32 ∧ c.length = 4 + c'.length := by
  simp only [readU32, readBytes, bind_ok_iff, take_ok_iff, pure_ok_iff] at h
  obtain ⟨a, s₁, c₁, ⟨hl, rfl, rfl⟩, rfl, rfl, rfl⟩ := h
  have hlt := beNat_lt a
  rw [hl] at hlt
  exact ⟨rfl, by norm_num at hlt ⊢; exact hlt, by simp [hl]⟩

theorem readU16_ok {s s' : σ} {v : ℕ} {c c' : List UInt8}
    (h : (readU16 : Decoder LoadError σ ℕ) s c = .ok (v, s', c')) :
    s = s' ∧ v < 2 ^ 16 ∧ c.length = 2 + c'.length := by
  simp only [readU16, readBytes, bind_ok_iff, take_ok_iff, pure_ok_iff] at h
  obtain ⟨a, s₁, c₁, ⟨hl, rfl, rfl⟩, rfl, rfl, rfl⟩ := h
  have hlt := beNat_lt a
  rw [hl] at hlt
  exact ⟨rfl, by norm_num at hlt ⊢; exact hlt, by simp [hl]⟩

theorem readI32_ok {s s' : σ} {i : ℤ} {c c' : List UInt8}
    (h : (readI32 : Decoder LoadError σ ℤ) s c = .ok (i, s', c')) :
    s = s' ∧ FitsSigned 32 i := by
  simp only [readI32, readBytes, bind_ok_iff, take_ok_iff, pure_ok_iff] at h
  obtain ⟨a, s₁, c₁, ⟨hl, rfl, rfl⟩, rfl, rfl, rfl⟩ := h
  have hlt := beNat_lt a
  rw [hl] at hlt
  exact ⟨rfl, fitsSigned_toSigned (by norm_num) (by norm_num at hlt ⊢; exact hlt)⟩

theorem ensureCount_ok {s s' : σ} {count k : ℕ} {label : String} {u : Unit} {c c' : List UInt8}
    (h : (ensureCount count k label : Decoder LoadError σ Unit) s c = .ok (u, s', c')) :
    s = s' ∧ c = c' ∧ count ≤ maxTableEntries ∧ count * k ≤ c.length := by
  simp only [ensureCount, bind_ok_iff, require_ok_iff, remaining_ok_iff, decide_eq_true_eq] at h
  obtain ⟨_, s₁, c₁, ⟨h1, rfl, rfl⟩, _, s₂, c₂, ⟨rfl, rfl, rfl⟩, h2, rfl, rfl⟩ := h
  exact ⟨rfl, rfl, h1, h2⟩

theorem expectEmpty_ok {s s' : σ} {name : String} {u : Unit} {c c' : List UInt8}
    (h : (expectEmpty name : Decoder LoadError σ Unit) s c = .ok (u, s', c')) :
    s = s' ∧ c = [] ∧ c' = [] := by
  simp only [expectEmpty, bind_ok_iff, require_ok_iff, remaining_ok_iff] at h
  obtain ⟨a, s₁, c₁, ⟨rfl, rfl, rfl⟩, h2, rfl, rfl⟩ := h
  exact ⟨rfl, by simpa using h2, by simpa using h2⟩

end Cursor

end Beamr.Loader
