import Beamr.Process.Roots

/-!
# The copying collector

Both collections copy reachable source objects into a destination region, remember where each
object went by its address and rewrite the fields of the copies in the order they were made.
They differ in what they copy from and where to. A collection that runs out of room keeps
what it has copied so far, so every step returns the state it leaves next to its result.
-/
namespace Beamr.Gc

open Beamr.Process

inductive GcError
  | heapFull (full : HeapFull)
  | invalidObjectHeader (header : ℕ)
  deriving DecidableEq, Repr

structure GcStats where
  copiedObjects : ℕ
  copiedWords : ℕ
  youngBefore : ℕ
  oldBefore : ℕ
  youngAfter : ℕ
  oldAfter : ℕ
  deriving DecidableEq, Repr

/-- Words of the object a term points to. -/
def objectSize (mem : Memory) (t : Term) : Except GcError (Option ℕ) :=
  if t.isList then .ok (some 2)
  else if !t.isBoxed then .ok none
  else match t.heapPtr with
    | none => .ok none
    | some ptr =>
      match BoxedHeader.tag (mem ptr) with
      | none => .error (.invalidObjectHeader (mem ptr))
      | some _ => .ok (some (1 + BoxedHeader.size (mem ptr)))

def termFromPtrLike (original : Term) (ptr : ℕ) : Term :=
  if original.isList then .listPtr ptr else .boxedPtr ptr

/-- Positions of the term words of a boxed object. -/
def fieldOffsets (mem : Memory) (ptr : ℕ) : BoxedTag → List ℕ
  | .tuple => (List.range (BoxedHeader.size (mem ptr))).map (1 + ·)
  | .closure => (List.range (mem (ptr + 4))).map (7 + ·)
  | .map => (List.range (2 * mem (ptr + 1))).map (2 + ·)
  | .matchContext => [3]
  | .subBinary => [1]
  | .procBin | .fdResource => []
  | .float | .bigInt | .reference | .externalPid | .externalReference | .binary
  | .binaryBuilder => []

/-- State of one collection: memory, destination, forwarding addresses and the copies whose
fields are still to be rewritten. -/
structure Copying where
  mem : Memory
  region : HeapRegion
  forwarding : ℕ → Option Term
  queue : List Term
  copiedObjects : ℕ
  copiedWords : ℕ

/-- How a collection allocates the copy of a term's object. -/
abbrev Allocate := HeapRegion → Term → ℕ → Except HeapFull (ℕ × HeapRegion)

/-- Enter the copy of the object at `src` with `words` words. The reference count a copied
`ProcBin` or `FdResource` takes leaves the copied words as they are. -/
def Copying.addCopy (s : Copying) (t : Term) (src words dst : ℕ) (region : HeapRegion) : Copying where
  mem := s.mem.copyWords src dst words
  region := region
  forwarding a := if a = src then some (termFromPtrLike t dst) else s.forwarding a
  queue := s.queue ++ [termFromPtrLike t dst]
  copiedObjects := s.copiedObjects + 1
  copiedWords := s.copiedWords + words

section Copy

variable (source : ℕ → Bool) (allocate : Allocate)

/-- The forwarded term of `t`, with a copy made on the first visit. -/
def copyTerm (t : Term) (s : Copying) : Except GcError Term × Copying :=
  match t.heapPtr with
  | none => (.ok t, s)
  | some src =>
    if source src = false then (.ok t, s)
    else match s.forwarding src with
      | some forwarded => (.ok forwarded, s)
      | none =>
        match objectSize s.mem t with
        | .error e => (.error e, s)
        | .ok none => (.ok t, s)
        | .ok (some words) =>
          match allocate s.region t words with
          | .error full => (.error (.heapFull full), s)
          | .ok (dst, region) =>
            (.ok (termFromPtrLike t dst), s.addCopy t src words dst region)

def rewriteWord (ptr offset : ℕ) (s : Copying) : Except GcError Unit × Copying :=
  let field : Term := ⟨s.mem (ptr + offset)⟩
  match copyTerm source allocate field s with
  | (.error e, s) => (.error e, s)
  | (.ok rewritten, s) =>
    if rewritten.raw ≠ field.raw then
      (.ok (), { s with mem := s.mem.write (ptr + offset) rewritten.raw })
    else (.ok (), s)

def rewriteWords (ptr : ℕ) : List ℕ → Copying → Except GcError Unit × Copying
  | [], s => (.ok (), s)
  | offset :: offsets, s =>
    match rewriteWord source allocate ptr offset s with
    | (.error e, s) => (.error e, s)
    | (.ok (), s) => rewriteWords ptr offsets s

def rewriteCopiedObject (t : Term) (s : Copying) : Except GcError Unit × Copying :=
  match t.heapPtr with
  | none => (.ok (), s)
  | some ptr =>
    if t.isList then rewriteWords source allocate ptr [0, 1] s
    else match BoxedHeader.tag (s.mem ptr) with
      | none => (.error (.invalidObjectHeader (s.mem ptr)), s)
      | some tag => rewriteWords source allocate ptr (fieldOffsets s.mem ptr tag) s

/-- Copy the roots, in order. -/
def copyRoots : List Term → Copying → Except GcError (List Term) × Copying
  | [], s => (.ok [], s)
  | root :: roots, s =>
    match copyTerm source allocate root s with
    | (.error e, s) => (.error e, s)
    | (.ok root', s) =>
      match copyRoots roots s with
      | (.error e, s) => (.error e, s)
      | (.ok roots', s) => (.ok (root' :: roots'), s)

/-- The scan loop. -/
def scanFuel : ℕ → Copying → Except GcError Unit × Copying
  | 0, s => (.ok (), s)
  | fuel + 1, s =>
    match s.queue with
    | [] => (.ok (), s)
    | t :: queue =>
      match rewriteCopiedObject source allocate t { s with queue := queue } with
      | (.error e, s) => (.error e, s)
      | (.ok (), s) => scanFuel fuel s

/-- Every round takes one copy off the queue, and every copy it adds uses up a word of the
destination (`scan_queue`). -/
def scan (s : Copying) : Except GcError Unit × Copying :=
  scanFuel source allocate (s.queue.length + s.region.available) s

end Copy

/-! ## Release of reference-counted resources -/

section Release

variable (arcBytes : ℕ → ℕ) (isForwarded : ℕ → Bool)

/-- One allocation of the release walk. `arcBytes` gives the length of the bytes behind the
reference a `ProcBin` holds. -/
def releaseAllocation (region : HeapRegion) (acc : Memory × ℕ) (allocation : Allocation) :
    Memory × ℕ :=
  let (mem, bytes) := acc
  if allocation.kind = .notRefcounted then (mem, bytes)
  else
    let ptr := region.base + allocation.offset
    if 1 + BoxedHeader.size (mem ptr) ≤ allocation.words then
      match BoxedHeader.tag (mem ptr) with
      | some .procBin =>
        (mem.write (ptr + 2) 0,
          if isForwarded ptr then bytes else bytes + arcBytes (mem (ptr + 2)))
      | some .fdResource => (mem.write (ptr + 1) 0, bytes)
      | _ => (mem, bytes)
    else (mem, bytes)

def releaseRegion (region : HeapRegion) (acc : Memory × ℕ) : Memory × ℕ :=
  region.allocations.foldl (releaseAllocation arcBytes isForwarded region) acc

/-- Release what the nursery holds. -/
def releaseRefcountedResourcesInYoung (p : Process) : Process :=
  let (mem, unreachable) := releaseRegion arcBytes isForwarded p.heap.young (p.heap.mem, 0)
  { p with heap := { p.heap with mem := mem } }.decreaseVirtualBinaryHeap unreachable

/-- Release what both source generations hold. -/
def releaseAllRefcountedResourcesInCompactedSources (p : Process) : Process :=
  let (mem, unreachable) := releaseRegion arcBytes isForwarded p.heap.old
    (releaseRegion arcBytes isForwarded p.heap.young (p.heap.mem, 0))
  { p with heap := { p.heap with mem := mem } }.decreaseVirtualBinaryHeap unreachable

end Release

/-! ## Minor collection -/

def copyingFrom (mem : Memory) (region : HeapRegion) : Copying :=
  ⟨mem, region, fun _ => none, [], 0, 0⟩

/-- A promoted object: a plain allocation, marked for the release walk when it has a header. -/
def allocateOld : Allocate := fun region t words =>
  if region.available < words then .error ⟨words, region.available⟩
  else match region.alloc words with
    | .error full => .error full
    | .ok (dst, region) =>
      .ok (dst, if t.isBoxed then region.markLastAllocationMaybeRefcounted else region)

def withOld (p : Process) (s : Copying) : Process :=
  { p with heap := { p.heap with mem := s.mem, old := s.region } }

def finishStats (before after : Process) (s : Copying) : GcStats where
  copiedObjects := s.copiedObjects
  copiedWords := s.copiedWords
  youngBefore := before.heap.young.used
  oldBefore := before.heap.old.used
  youngAfter := after.heap.young.used
  oldAfter := after.heap.old.used

section Minor

variable (arcBytes : ℕ → ℕ)

/-- The last steps of a minor collection. -/
def finishMinor (p : Process) (liveX : ℕ) (s : Copying) : Process :=
  let p := releaseRefcountedResourcesInYoung arcBytes (fun a => (s.forwarding a).isSome) (withOld p s)
  let p := { p with heap := p.heap.resetYoung }
  (p.clearDeadXRegs liveX).noteGcCompletion

def collectMinorWithLive (p : Process) (liveX : ℕ) : Except GcError GcStats × Process :=
  let before := p.noteGcAttempt
  let (roots, p) := before.rootsWithLiveX liveX
  let young := p.heap.young.contains
  match copyRoots young allocateOld roots (copyingFrom p.heap.mem p.heap.old) with
  | (.error e, s) => (.error e, withOld p s)
  | (.ok roots, s) =>
    let p := (withOld p s).replaceRootsWithLiveX liveX roots
    match scan young allocateOld s with
    | (.error e, s) => (.error e, withOld p s)
    | (.ok (), s) =>
      let p := finishMinor arcBytes p liveX s
      (.ok (finishStats before p s), p)

def collectMinor (p : Process) : Except GcError GcStats × Process :=
  collectMinorWithLive arcBytes p 256

end Minor

/-! ## Major collection -/

def allocateFresh : Allocate := fun region t words =>
  if t.isBoxed then region.allocWithKind words .maybeRefcounted else region.alloc words

def withMemory (p : Process) (mem : Memory) : Process :=
  { p with heap := { p.heap with mem := mem } }

section Major

variable (sys : SystemAllocator) (external : List HeapRegion) (arcBytes : ℕ → ℕ)

/-- The region a major collection compacts into. -/
def freshOldRegion (h : Heap) : HeapRegion :=
  let capacity := max (h.compactedOldCapacityAfterMajor h.totalUsed) h.initialCapacity
  .new (sys.place (h.young :: h.old :: external) capacity) capacity

/-- The last steps of a major collection. -/
def finishMajor (p : Process) (s : Copying) : Process :=
  let p := releaseAllRefcountedResourcesInCompactedSources arcBytes
    (fun a => (s.forwarding a).isSome) (withMemory p s.mem)
  let p := { p with heap := { p.heap with old := s.region }.resetYoung }
  p.noteGcCompletion

def collectMajor (p : Process) : Except GcError GcStats × Process :=
  let before := p.noteGcAttempt
  let source := before.heap.contains
  let fresh := freshOldRegion sys external before.heap
  let mem := before.heap.mem.zero fresh.base fresh.capacity
  let (roots, p) := before.roots
  match copyRoots source allocateFresh roots (copyingFrom mem fresh) with
  | (.error e, s) => (.error e, withMemory p s.mem)
  | (.ok roots, s) =>
    let p := (withMemory p s.mem).replaceRoots roots
    match scan source allocateFresh s with
    | (.error e, s) => (.error e, withMemory p s.mem)
    | (.ok (), s) =>
      let p := finishMajor arcBytes p s
      (.ok (finishStats before p s), p)

/-! ## Ensuring space -/

def wordBytes : ℕ := 8

def virtualBinaryPressureExceedsHeap (p : Process) : Bool :=
  p.heap.totalUsed * wordBytes + p.virtualBinaryHeap ≥ p.heap.totalCapacity * wordBytes

/-- The growth loop. Every round adds a word of capacity, so `words` rounds suffice. -/
def growFuel (words : ℕ) : ℕ → Process → Except GcError Unit × Process
  | 0, p => (.ok (), p)
  | fuel + 1, p =>
    if p.heap.available < words then
      match p.heap.growToNextCapacityWithMax sys external with
      | .error full => (.error (.heapFull full), p)
      | .ok heap => growFuel words fuel { p with heap := heap }
    else (.ok (), p)

def ensureSpace (p : Process) (words liveX : ℕ) : Except GcError Unit × Process :=
  if p.heap.available ≥ words ∧ virtualBinaryPressureExceedsHeap p = false then (.ok (), p)
  else match collectMinorWithLive arcBytes p liveX with
    | (.ok _, p) => growFuel sys external words words p
    | (.error (.heapFull _), p) =>
      match collectMajor sys external arcBytes p with
      | (.error e, p) => (.error e, p)
      | (.ok _, p) => growFuel sys external words words p
    | (.error e, p) => (.error e, p)

end Major

end Beamr.Gc
