import Mathlib.Data.Nat.Basic
import Mathlib.Tactic.Common

/-!
# Term words

A term is one machine word: three tag bits below the payload. The payload of a boxed or a
list term is the address of its first heap word. Addresses here count words, so the word of
a pointer is eight times its address plus the tag.
-/
namespace Beamr

structure Term where
  raw : ℕ
  deriving DecidableEq, Repr

namespace Term

def boxedTag : ℕ := 4

def listTag : ℕ := 5

def nil : Term := ⟨3⟩

def isBoxed (t : Term) : Bool := t.raw % 8 == boxedTag

def isList (t : Term) : Bool := t.raw % 8 == listTag

def boxedPtr (address : ℕ) : Term := ⟨8 * address + boxedTag⟩

def listPtr (address : ℕ) : Term := ⟨8 * address + listTag⟩

/-- The heap address of a boxed or list term. -/
def heapPtr (t : Term) : Option ℕ :=
  if t.isBoxed || t.isList then some (t.raw / 8) else none

theorem heapPtr_boxedPtr (a : ℕ) : (boxedPtr a).heapPtr = some a := by
  have hmod : (8 * a + 4) % 8 = 4 := by omega
  have hdiv : (8 * a + 4) / 8 = a := by omega
  simp [heapPtr, boxedPtr, isBoxed, boxedTag, hmod, hdiv]

theorem heapPtr_listPtr (a : ℕ) : (listPtr a).heapPtr = some a := by
  have hmod : (8 * a + 5) % 8 = 5 := by omega
  have hdiv : (8 * a + 5) / 8 = a := by omega
  simp [heapPtr, listPtr, isList, isBoxed, boxedTag, listTag, hmod, hdiv]

theorem isList_listPtr (a : ℕ) : (listPtr a).isList = true := by
  have hmod : (8 * a + 5) % 8 = 5 := by omega
  simp [isList, listPtr, listTag, hmod]

theorem isList_boxedPtr (a : ℕ) : (boxedPtr a).isList = false := by
  have hmod : (8 * a + 4) % 8 = 4 := by omega
  simp [isList, boxedPtr, boxedTag, listTag, hmod]

end Term

/-! ## Boxed headers -/

inductive BoxedTag
  | tuple | float | bigInt | closure | map | reference | binary | binaryBuilder | matchContext
  | procBin | subBinary | fdResource | externalPid | externalReference
  deriving DecidableEq, Repr

namespace BoxedTag

def bits : BoxedTag → ℕ
  | tuple => 0x10
  | float => 0x11
  | bigInt => 0x12
  | closure => 0x13
  | map => 0x14
  | reference => 0x15
  | binary => 0x16
  | binaryBuilder => 0x17
  | matchContext => 0x18
  | procBin => 0x19
  | subBinary => 0x1A
  | fdResource => 0x1B
  | externalPid => 0x1C
  | externalReference => 0x1D

def all : List BoxedTag :=
  [tuple, float, bigInt, closure, map, reference, binary, binaryBuilder, matchContext, procBin,
    subBinary, fdResource, externalPid, externalReference]

def fromBits (bits : ℕ) : Option BoxedTag := all.find? fun tag => bits == tag.bits

end BoxedTag

namespace BoxedHeader

/-- Tag in the low byte, payload words above it. -/
def new (tag : BoxedTag) (size : ℕ) : ℕ := size * 256 + tag.bits

def tag (header : ℕ) : Option BoxedTag := BoxedTag.fromBits (header % 256)

def size (header : ℕ) : ℕ := header / 256

end BoxedHeader

end Beamr
