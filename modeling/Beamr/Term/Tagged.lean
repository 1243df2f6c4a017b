import Beamr.Term.Compare
import Mathlib.Data.BitVec

/-!
# Tagged words

A term as the machine word it is: three tag bits below the payload. Small integers,
atoms, local pids and nil are complete in the word; every other word points to the
heap, and what the accessors read there is given by a memory.
-/
namespace Beamr.Term

abbrev Word := BitVec 64

theorem SmallInt.eq_of_value {i j : SmallInt} (h : i.value = j.value) : i = j := by
  cases i; cases j; cases h; rfl

inductive Tag
  | smallInt | atom | pid | nil | boxed | list
  deriving DecidableEq

namespace Word

/-- The empty list. -/
def nil : Word := 3#64

def tagBits (w : Word) : ℕ := (w &&& 7#64).toNat

/-- A word with the tag bits of nil that is not nil counts as boxed. -/
def tag (w : Word) : Tag :=
  match w.tagBits with
  | 0 => .smallInt
  | 1 => .atom
  | 2 => .pid
  | 3 => if w = nil then .nil else .boxed
  | 5 => .list
  | _ => .boxed

def isSmallInt (w : Word) : Bool := w.tag == .smallInt

/-- A word that points to the heap. -/
def isPointer (w : Word) : Bool := w.tag == .boxed || w.tag == .list

/-- Signed payload. -/
def payload (w : Word) : ℤ := (w.sshiftRight 3).toInt

/-- Unsigned payload. -/
def index (w : Word) : ℕ := (w >>> 3).toNat

def ofSmallInt (n : SmallInt) : Word := BitVec.ofInt 64 n.value <<< 3

def ofAtom (a : Atom) : Word := BitVec.ofNat 64 a <<< 3 ||| 1#64

theorem tagBits_eq (w : Word) : w.tagBits = w.toNat % 8 := by
  rw [tagBits, BitVec.toNat_and]
  exact Nat.and_two_pow_sub_one_eq_mod w.toNat 3

theorem index_eq (w : Word) : w.index = w.toNat / 8 := by
  rw [index, BitVec.toNat_ushiftRight, Nat.shiftRight_eq_div_pow]

theorem index_lt (w : Word) : w.index < 2 ^ 64 := (w >>> 3).isLt

theorem payload_eq (w : Word) : w.payload = w.toInt / 8 := by
  rw [payload, BitVec.toInt_sshiftRight, Int.shiftRight_eq_div_pow]
  rfl

theorem payload_bounds (w : Word) : -(2 ^ 60) ≤ w.payload ∧ w.payload < 2 ^ 60 := by
  have hlow := w.le_toInt
  have hhigh := w.toInt_lt
  rw [payload_eq]
  omega

/-- Tag and payload are all there is to a word. -/
theorem eq_of_index {v w : Word} (htag : v.tagBits = w.tagBits) (hindex : v.index = w.index) :
    v = w := by
  rw [tagBits_eq, tagBits_eq] at htag
  rw [index_eq, index_eq] at hindex
  exact BitVec.eq_of_toNat_eq (by omega)

theorem eq_of_payload {v w : Word} (htag : v.tagBits = w.tagBits) (h : v.payload = w.payload) :
    v = w := by
  rw [tagBits_eq, tagBits_eq] at htag
  rw [payload_eq, payload_eq, BitVec.toInt_eq_toNat_bmod, BitVec.toInt_eq_toNat_bmod] at h
  have hv := v.isLt
  have hw := w.isLt
  refine BitVec.eq_of_toNat_eq ?_
  rw [Int.bmod_def, Int.bmod_def] at h
  split at h <;> split at h <;> omega

theorem isSmallInt_iff (w : Word) : w.isSmallInt = true ↔ w.tagBits = 0 := by
  rw [isSmallInt, tag]
  split <;> simp_all
  split <;> simp_all

/-- The integer a word with the tag of small integers holds. -/
def asSmallInt (w : Word) : SmallInt := ⟨w.payload, w.payload_bounds.1, w.payload_bounds.2⟩

theorem toInt_ofSmallInt (n : SmallInt) : (ofSmallInt n).toInt = 8 * n.value := by
  have h1 := n.min_le
  have h2 := n.lt_max
  rw [ofSmallInt, BitVec.toInt_shiftLeft, BitVec.toNat_ofInt, Nat.shiftLeft_eq, Int.bmod_def]
  push_cast
  rw [Int.toNat_of_nonneg (Int.emod_nonneg _ (by norm_num))]
  split <;> omega

theorem tagBits_ofSmallInt (n : SmallInt) : (ofSmallInt n).tagBits = 0 := by
  rw [tagBits_eq, ofSmallInt, BitVec.toNat_shiftLeft, Nat.shiftLeft_eq]
  omega

theorem isSmallInt_ofSmallInt (n : SmallInt) : (ofSmallInt n).isSmallInt = true :=
  (isSmallInt_iff _).mpr (tagBits_ofSmallInt n)

theorem payload_ofSmallInt (n : SmallInt) : (ofSmallInt n).payload = n.value := by
  rw [payload_eq, toInt_ofSmallInt]
  omega

end Word

/-! ## Reading terms -/

/-- Terms that need no heap object. -/
def Value.Complete : Value → Prop
  | .number (.smallInt _) | .atom _ | .nil | .pid (.local _) => True
  | _ => False

/-- What the accessors read through pointer words. An object none of them accepts is known by its
word only. -/
structure Memory where
  object : Word → Value
  boxed : ∀ w, ¬ (object w).Complete
  other : ∀ w raw, object w = .other raw → raw = UInt64.ofBitVec w

/-- The term a word stands for. -/
def Memory.read (m : Memory) (w : Word) : Value :=
  match w.tag with
  | .smallInt => .number (.smallInt w.asSmallInt)
  | .atom => .atom w.index
  | .pid => .pid (.local (UInt64.ofNat w.index))
  | .nil => .nil
  | .boxed | .list => m.object w

theorem Memory.read_smallInt (m : Memory) {w : Word} (h : w.isSmallInt = true) :
    m.read w = .number (.smallInt w.asSmallInt) := by
  rw [Word.isSmallInt, beq_iff_eq] at h
  rw [read, h]

theorem Memory.complete_read (m : Memory) (w : Word) :
    (m.read w).Complete ↔ w.isPointer = false := by
  rw [read, Word.isPointer]
  cases w.tag with
  | boxed => simp [m.boxed]
  | list => simp [m.boxed]
  | _ => simp [Value.Complete]

theorem Word.tagBits_of_tag {w : Word} : (w.tag = .smallInt → w.tagBits = 0) ∧
    (w.tag = .atom → w.tagBits = 1) ∧ (w.tag = .pid → w.tagBits = 2) ∧ (w.tag = .nil → w = nil) := by
  rw [tag]
  split
  · simp_all
  · simp_all
  · simp_all
  · split <;> simp_all
  · simp
  · simp

/-- A term that needs no heap object has one word. -/
theorem Memory.eq_of_read (m : Memory) {v w : Word} (hv : (m.read v).Complete)
    (h : m.read v = m.read w) : v = w := by
  have hp := (m.complete_read v).mp hv
  have hq := (m.complete_read w).mp (h ▸ hv)
  rw [Word.isPointer, Bool.or_eq_false_iff, beq_eq_false_iff_ne, beq_eq_false_iff_ne] at hp hq
  obtain ⟨hv0, hv1, hv2, hv3⟩ := v.tagBits_of_tag
  obtain ⟨hw0, hw1, hw2, hw3⟩ := w.tagBits_of_tag
  rw [read, read] at h
  cases hvt : v.tag with
  | smallInt =>
    cases hwt : w.tag with
    | smallInt =>
      simp only [hvt, hwt, Value.number.injEq, Number.smallInt.injEq] at h
      exact Word.eq_of_payload ((hv0 hvt).trans (hw0 hwt).symm) (congrArg SmallInt.value h)
    | boxed => exact absurd hwt hq.1
    | list => exact absurd hwt hq.2
    | _ => simp [hvt, hwt] at h
  | atom =>
    cases hwt : w.tag with
    | atom =>
      simp only [hvt, hwt, Value.atom.injEq] at h
      exact Word.eq_of_index ((hv1 hvt).trans (hw1 hwt).symm) h
    | boxed => exact absurd hwt hq.1
    | list => exact absurd hwt hq.2
    | _ => simp [hvt, hwt] at h
  | pid =>
    cases hwt : w.tag with
    | pid =>
      simp only [hvt, hwt, Value.pid.injEq, PidRef.local.injEq] at h
      have hindex : v.index % 2 ^ 64 = w.index % 2 ^ 64 := congrArg UInt64.toNat h
      rw [Nat.mod_eq_of_lt v.index_lt, Nat.mod_eq_of_lt w.index_lt] at hindex
      exact Word.eq_of_index ((hv2 hvt).trans (hw2 hwt).symm) hindex
    | boxed => exact absurd hwt hq.1
    | list => exact absurd hwt hq.2
    | _ => simp [hvt, hwt] at h
  | nil =>
    cases hwt : w.tag with
    | nil =>
      exact (hv3 hvt).trans (hw3 hwt).symm
    | boxed => exact absurd hwt hq.1
    | list => exact absurd hwt hq.2
    | _ => simp [hvt, hwt] at h
  | boxed => exact absurd hvt hp.1
  | list => exact absurd hvt hp.2

end Beamr.Term
