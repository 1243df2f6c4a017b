import Beamr.Process.Roots

/-!
# Cloning a process

A clone copies both regions to fresh storage and rebases the pointers into them: first the
terms in the allocations, which the first word of each allocation tells apart from data, then
the root fields.
-/
namespace Beamr

/-- A range of words of the original and where the clone has them. -/
structure RebaseMapping where
  original : ℕ
  cloned : ℕ
  len : ℕ
  deriving DecidableEq, Repr

def RebaseMapping.covers (m : RebaseMapping) (ptr : ℕ) : Bool :=
  m.original ≤ ptr && ptr < m.original + m.len

section Rebase

variable (mappings : List RebaseMapping)

/-- The pointer to the same word of the clone; nothing for data and for foreign pointers. -/
def rebaseTerm (t : Term) : Option Term :=
  match t.heapPtr with
  | none => none
  | some ptr =>
    match mappings.find? (·.covers ptr) with
    | none => none
    | some m =>
      let rebased := m.cloned + (ptr - m.original)
      some (if t.isBoxed then .boxedPtr rebased else .listPtr rebased)

def rebaseTermWord (word : ℕ) : ℕ :=
  match rebaseTerm mappings ⟨word⟩ with
  | none => word
  | some rebased => rebased.raw

/-- Positions in a block of at most `count` payload words behind the first `skip`. -/
def payloadOffsets (words skip count : ℕ) : List ℕ :=
  (((List.range words).drop 1).drop skip).take count

/-- A payload word, zero where the block ends before it. -/
def payloadWord (mem : Memory) (ptr words i : ℕ) : ℕ :=
  if 1 + i < words then mem (ptr + (1 + i)) else 0

/-- The positions of a block that are rebased. A block whose first word is no header is taken
for a cons cell. -/
def blockOffsets (mem : Memory) (ptr words : ℕ) : List ℕ :=
  if words = 0 then []
  else match BoxedHeader.tag (mem ptr) with
    | some .tuple => payloadOffsets words 0 (BoxedHeader.size (mem ptr))
    | some .map => payloadOffsets words 1 (2 * payloadWord mem ptr words 0)
    | some .closure => payloadOffsets words 6 (payloadWord mem ptr words 3)
    | some .matchContext => payloadOffsets words 2 1
    | some .subBinary => payloadOffsets words 0 1
    | some .float | some .bigInt | some .reference | some .binary | some .binaryBuilder
    | some .procBin | some .fdResource | some .externalPid | some .externalReference => []
    | none => if 2 ≤ words then [0, 1] else []

def rebaseWordAt (mem : Memory) (address : ℕ) : Memory :=
  mem.write address (rebaseTermWord mappings (mem address))

def rebaseHeapBlockTerms (mem : Memory) (ptr words : ℕ) : Memory :=
  (blockOffsets mem ptr words).foldl (fun mem i => rebaseWordAt mappings mem (ptr + i)) mem

def rebaseRegionEmbeddedTerms (region : HeapRegion) (mem : Memory) : Memory :=
  region.allocations.foldl (fun mem x =>
    if x.offset + x.words ≤ region.capacity then
      rebaseHeapBlockTerms mappings mem (region.base + x.offset) x.words
    else mem) mem

end Rebase

namespace Heap

def rebaseMappings (original cloned : Heap) : List RebaseMapping :=
  [⟨original.young.base, cloned.young.base, original.young.capacity⟩,
    ⟨original.old.base, cloned.old.base, original.old.capacity⟩]

/-- Both regions in fresh storage, word for word. -/
def clone (sys : SystemAllocator) (external : List HeapRegion) (h : Heap) : Heap :=
  let young := { h.young with base := sys.place (h.young :: h.old :: external) h.young.capacity }
  let old := { h.old with
    base := sys.place (young :: h.young :: h.old :: external) h.old.capacity }
  { h with
    mem := (h.mem.copyWords h.young.base young.base h.young.capacity).copyWords h.old.base
      old.base h.old.capacity
    young := young
    old := old }

def rebaseSnapshotTerms (h original : Heap) : Heap :=
  let mappings := original.rebaseMappings h
  let mem := rebaseRegionEmbeddedTerms mappings h.young h.mem
  { h with mem := rebaseRegionEmbeddedTerms mappings h.old mem }

def rebaseTermFrom (h : Heap) (t : Term) (original : Heap) : Term :=
  (rebaseTerm (original.rebaseMappings h) t).getD t

end Heap

/-- Messages that have not been drained stay with the original. -/
def Mailbox.clone (m : Mailbox) : Mailbox := { m with arrival := [] }

namespace Process

def rebaseRootsFrom (p original : Process) : Process :=
  let rebase t := p.heap.rebaseTermFrom t original.heap
  { p with
    xRegs := p.xRegs.map rebase
    xRegs_length := by rw [List.length_map]; exact p.xRegs_length
    frames := p.frames.map fun frame => frame.map rebase
    mailbox := { p.mailbox with scanList := p.mailbox.scanList.map rebase }
    rawLocations := p.rawLocations.map rebase
    currentException := p.currentException.map fun e =>
      ⟨rebase e.cls, rebase e.reason, rebase e.stacktrace⟩
    dictionary := p.dictionary.map fun entry => (rebase entry.1, rebase entry.2)
    groupLeader := rebase p.groupLeader }

def clone (sys : SystemAllocator) (external : List HeapRegion) (p : Process) : Process :=
  let heap := (p.heap.clone sys external).rebaseSnapshotTerms p.heap
  { p with heap := heap, mailbox := p.mailbox.clone }.rebaseRootsFrom p

end Process

end Beamr
