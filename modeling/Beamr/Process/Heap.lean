import Beamr.Term.Word
import Mathlib.Tactic.NormNum

/-!
# Process heaps

Bump regions in one flat word memory. The nursery and the old generation are separate
regions; growing the nursery and compacting the heap take fresh regions from the system
allocator. Sizes are word counts.
-/
namespace Beamr

def defaultHeapSize : ℕ := 233

/-- `HeapFull`: the request and what was available. -/
structure HeapFull where
  requested : ℕ
  available : ℕ
  deriving DecidableEq, Repr

/-- Whether the release walk inspects an allocation. -/
inductive AllocKind
  | notRefcounted
  | maybeRefcounted
  deriving DecidableEq, Repr

structure Allocation where
  offset : ℕ
  words : ℕ
  kind : AllocKind
  deriving DecidableEq, Repr

/-- Contents of every word of the address space. -/
abbrev Memory := ℕ → ℕ

def Memory.write (mem : Memory) (address value : ℕ) : Memory :=
  fun a => if a = address then value else mem a

/-- `copy_words_from_ptr` followed by `write_words`; the words are read before any is written. -/
def Memory.copyWords (mem : Memory) (src dst words : ℕ) : Memory :=
  fun a => if dst ≤ a ∧ a < dst + words then mem (src + (a - dst)) else mem a

def Memory.zero (mem : Memory) (start words : ℕ) : Memory :=
  fun a => if start ≤ a ∧ a < start + words then 0 else mem a

/-- One bump region: where its words lie and how far they are in use. -/
structure HeapRegion where
  base : ℕ
  capacity : ℕ
  used : ℕ
  highWaterMark : ℕ
  allocations : List Allocation
  deriving DecidableEq, Repr

namespace HeapRegion

def new (base capacity : ℕ) : HeapRegion := ⟨base, capacity, 0, 0, []⟩

def available (r : HeapRegion) : ℕ := r.capacity - r.used

def allocWithKind (r : HeapRegion) (words : ℕ) (kind : AllocKind) :
    Except HeapFull (ℕ × HeapRegion) :=
  if r.used + words > r.capacity then .error ⟨words, r.available⟩
  else .ok (r.base + r.used, { r with
    used := r.used + words
    highWaterMark := max r.highWaterMark (r.used + words)
    allocations := r.allocations ++ [⟨r.used, words, kind⟩] })

def alloc (r : HeapRegion) (words : ℕ) : Except HeapFull (ℕ × HeapRegion) :=
  r.allocWithKind words .notRefcounted

def markLastAllocationMaybeRefcounted (r : HeapRegion) : HeapRegion :=
  match r.allocations.getLast? with
  | none => r
  | some last => { r with
      allocations := r.allocations.dropLast ++ [{ last with kind := .maybeRefcounted }] }

/-- Addresses of the region, in use or not. -/
def contains (r : HeapRegion) (address : ℕ) : Bool :=
  r.base ≤ address && address < r.base + r.capacity

/-- Addresses below the bump pointer. -/
def allocated (r : HeapRegion) (address : ℕ) : Bool :=
  r.base ≤ address && address < r.base + r.used

def reset (r : HeapRegion) : HeapRegion := { r with allocations := [], used := 0 }

/-- The regions share no address. -/
def Apart (r s : HeapRegion) : Prop :=
  r.base + r.capacity ≤ s.base ∨ s.base + s.capacity ≤ r.base

theorem contains_iff {r : HeapRegion} {a : ℕ} :
    r.contains a = true ↔ r.base ≤ a ∧ a < r.base + r.capacity := by simp [contains]

theorem allocated_iff {r : HeapRegion} {a : ℕ} :
    r.allocated a = true ↔ r.base ≤ a ∧ a < r.base + r.used := by simp [allocated]

theorem allocWithKind_ok {r r' : HeapRegion} {words a : ℕ} {kind : AllocKind}
    (h : r.allocWithKind words kind = .ok (a, r')) :
    r.used + words ≤ r.capacity ∧ a = r.base + r.used ∧ r'.base = r.base ∧
      r'.capacity = r.capacity ∧ r'.used = r.used + words ∧
      r'.allocations = r.allocations ++ [⟨r.used, words, kind⟩] := by
  unfold allocWithKind at h
  split_ifs at h with hfull
  obtain ⟨rfl, rfl⟩ := Prod.mk.inj (Except.ok.inj h)
  exact ⟨by omega, rfl, rfl, rfl, rfl, rfl⟩

end HeapRegion

/-! ## The two generations -/

structure Heap where
  mem : Memory
  young : HeapRegion
  old : HeapRegion
  initialCapacity : ℕ
  previousCapacity : ℕ
  maxCapacity : ℕ

/-- The system allocator: where a new region is placed, given the storage in use. -/
structure SystemAllocator where
  place : List HeapRegion → ℕ → ℕ
  apart : ∀ (live : List HeapRegion) (capacity : ℕ), ∀ r ∈ live,
    r.Apart (.new (place live capacity) capacity)

/-- Behind everything that is in use. -/
def SystemAllocator.behind : SystemAllocator where
  place live _ := live.foldr (fun r acc => max (r.base + r.capacity) acc) 0
  apart := by
    intro live capacity r hr
    left
    change _ ≤ live.foldr (fun r acc => max (r.base + r.capacity) acc) 0
    induction live with
    | nil => cases hr
    | cons s live ih =>
      rcases List.mem_cons.mp hr with rfl | hr
      · exact le_max_left _ _
      · exact (ih hr).trans (le_max_right _ _)

namespace Heap

def available (h : Heap) : ℕ := h.young.available

def totalUsed (h : Heap) : ℕ := h.young.used + h.old.used

def totalCapacity (h : Heap) : ℕ := h.young.capacity + h.old.capacity

def contains (h : Heap) (address : ℕ) : Bool := h.young.contains address || h.old.contains address

/-- Words that belong to an allocation of either generation. -/
def allocated (h : Heap) (address : ℕ) : Bool :=
  h.young.allocated address || h.old.allocated address

def resetYoung (h : Heap) : Heap :=
  { h with mem := h.mem.zero h.young.base h.young.used, young := h.young.reset }

def nextCapacity (h : Heap) : ℕ :=
  max (h.young.capacity + h.previousCapacity) (h.young.capacity + 1)

/-- A new, zeroed nursery; `external` is storage outside the heap that is in use. -/
def growYoungTo (sys : SystemAllocator) (external : List HeapRegion) (h : Heap) (next : ℕ) : Heap :=
  let base := sys.place (h.young :: h.old :: external) next
  { h with
    previousCapacity := h.young.capacity
    mem := h.mem.zero base next
    young := .new base next }

def growToNextCapacityWithMax (sys : SystemAllocator) (external : List HeapRegion) (h : Heap) :
    Except HeapFull Heap :=
  if h.nextCapacity > h.maxCapacity then .error ⟨h.nextCapacity, h.available⟩
  else .ok (h.growYoungTo sys external h.nextCapacity)

end Heap

/-- The capacity sequence from 233 on, up to the first that suffices, with its predecessor. -/
def fibonacciFrom (needed : ℕ) : ℕ → ℕ → ℕ → ℕ × ℕ
  | 0, previous, current => (previous, current)
  | fuel + 1, previous, current =>
    if current < needed then fibonacciFrom needed fuel current (previous + current)
    else (previous, current)

/-- Every round adds at least one word, so `needed` rounds suffice. -/
def fibonacciCapacityFor (needed : ℕ) : ℕ := (fibonacciFrom needed needed 144 defaultHeapSize).2

namespace Heap

/-- Capacity of the compacted old generation; the shrink threshold is a quarter. -/
def compactedOldCapacityAfterMajor (h : Heap) (liveWords : ℕ) : ℕ :=
  let minimum := max liveWords h.initialCapacity
  let target := fibonacciCapacityFor minimum
  if 4 * liveWords < h.old.capacity ∧ h.old.capacity > h.initialCapacity then
    max (min target h.old.capacity) minimum
  else max h.old.capacity minimum

theorem le_compactedOldCapacity (h : Heap) (liveWords : ℕ) :
    liveWords ≤ h.compactedOldCapacityAfterMajor liveWords := by
  unfold compactedOldCapacityAfterMajor
  have hmin : liveWords ≤ max liveWords h.initialCapacity := le_max_left _ _
  dsimp only
  split_ifs <;> exact hmin.trans (le_max_right _ _)

end Heap

end Beamr
