import Beamr.Gc.RootSet
import Beamr.Process.Clone

/-!
# Cloned heaps

What the rebase walk does to the words of a clone, and when the clone is a copy: its pointers
refer to its own regions, its terms denote what the original's do and its data is unchanged.
That is so exactly when the walk takes for terms the words that are terms, as far as they
look like pointers into the heap, and the root fields it leaves out hold none.
-/
namespace Beamr.Gc

open Beamr ObjectGraph

/-! ## Positions the walk visits -/

/-- Positions at which the first word of a block, read as a header, has terms. -/
def declaredOffsets (mem : Memory) (ptr words : ℕ) : List ℕ :=
  match BoxedHeader.tag (mem ptr) with
  | some tag => (fieldOffsets mem ptr tag).filter (· < words)
  | none => if words < 2 then [] else [0, 1]

/-- The address belongs to a block whose first word has a term there. -/
def Declared (h : Heap) (a : ℕ) : Prop :=
  ∃ r ∈ [h.young, h.old], ∃ x ∈ r.allocations,
    ∃ i ∈ declaredOffsets h.mem (r.base + x.offset) x.words, a = r.base + x.offset + i

theorem mem_payloadOffsets {words skip count i : ℕ} :
    i ∈ payloadOffsets words skip count ↔ 1 + skip ≤ i ∧ i < 1 + skip + count ∧ i < words := by
  unfold payloadOffsets
  rw [List.drop_drop, List.mem_iff_getElem?]
  constructor
  · intro ⟨k, hk⟩
    rw [List.getElem?_take] at hk
    split_ifs at hk with hlt
    rw [List.getElem?_drop] at hk
    obtain ⟨hlen, rfl⟩ := List.getElem?_eq_some_iff.mp hk
    rw [List.length_range] at hlen
    rw [List.getElem_range]
    omega
  · intro ⟨hle, hlt, hwords⟩
    refine ⟨i - (1 + skip), ?_⟩
    rw [List.getElem?_take_of_lt (by omega), List.getElem?_drop, List.getElem?_range (by omega)]
    congr 1
    omega

theorem payloadOffsets_nodup (words skip count : ℕ) : (payloadOffsets words skip count).Nodup :=
  (List.nodup_range.sublist (List.drop_sublist _ _)).sublist (List.drop_sublist _ _) |>.sublist
    (List.take_sublist _ _)

theorem blockOffsets_nodup (mem : Memory) (ptr words : ℕ) : (blockOffsets mem ptr words).Nodup := by
  unfold blockOffsets
  by_cases hw : words = 0
  · rw [if_pos hw]
    exact List.nodup_nil
  · rw [if_neg hw]
    cases BoxedHeader.tag (mem ptr) with
    | none =>
      dsimp only
      split_ifs <;> simp
    | some tag => cases tag <;> first | exact payloadOffsets_nodup _ _ _ | exact List.nodup_nil

theorem mem_map_range_add {k n i : ℕ} :
    i ∈ (List.range n).map (k + ·) ↔ k ≤ i ∧ i < k + n := by
  rw [← List.range'_eq_map_range, List.mem_range'_1]

theorem mem_blockOffsets {mem : Memory} {ptr words i : ℕ} :
    i ∈ blockOffsets mem ptr words ↔ i ∈ declaredOffsets mem ptr words := by
  unfold blockOffsets declaredOffsets payloadWord
  by_cases hw : words = 0
  · subst hw
    rw [if_pos rfl]
    cases BoxedHeader.tag (mem ptr) with
    | none => simp
    | some tag => simp
  · rw [if_neg hw]
    cases BoxedHeader.tag (mem ptr) with
    | none =>
      dsimp only
      by_cases h2 : 2 ≤ words
      · rw [if_pos h2, if_neg (Nat.not_lt.mpr h2)]
      · rw [if_neg h2, if_pos (Nat.lt_of_not_le h2)]
    | some tag =>
      cases tag with
      | tuple =>
        simp only [fieldOffsets, List.mem_filter, mem_map_range_add, mem_payloadOffsets,
          decide_eq_true_eq]
        omega
      | closure =>
        simp only [fieldOffsets, List.mem_filter, mem_map_range_add, mem_payloadOffsets,
          decide_eq_true_eq, Nat.reduceAdd]
        split_ifs <;> omega
      | map =>
        simp only [fieldOffsets, List.mem_filter, mem_map_range_add, mem_payloadOffsets,
          decide_eq_true_eq, Nat.reduceAdd]
        split_ifs <;> omega
      | matchContext =>
        simp only [fieldOffsets, List.mem_filter, List.mem_singleton, mem_payloadOffsets,
          decide_eq_true_eq]
        omega
      | subBinary =>
        simp only [fieldOffsets, List.mem_filter, List.mem_singleton, mem_payloadOffsets,
          decide_eq_true_eq]
        omega
      | _ => simp [fieldOffsets]

theorem lt_of_mem_blockOffsets {mem : Memory} {ptr words i : ℕ}
    (h : i ∈ blockOffsets mem ptr words) : i < words := by
  rw [mem_blockOffsets] at h
  unfold declaredOffsets at h
  split at h
  · simpa using (List.mem_filter.mp h).2
  · split_ifs at h with h2
    · cases h
    · simp at h
      omega

theorem blockOffsets_congr {mem mem' : Memory} {ptr ptr' words : ℕ}
    (h : ∀ i < words, mem' (ptr' + i) = mem (ptr + i)) :
    blockOffsets mem' ptr' words = blockOffsets mem ptr words := by
  have hpayload : ∀ i, payloadWord mem' ptr' words i = payloadWord mem ptr words i := by
    intro i
    unfold payloadWord
    split_ifs with hi
    · exact h _ hi
    · rfl
  unfold blockOffsets
  by_cases hw : words = 0
  · rw [if_pos hw, if_pos hw]
  · have h0 : mem' ptr' = mem ptr := h 0 (Nat.pos_of_ne_zero hw)
    rw [if_neg hw, if_neg hw, h0, hpayload, hpayload]

/-! ## The walk -/

section Walk

variable {mappings : List RebaseMapping} {mem : Memory}

theorem rebaseWordAt_self (a : ℕ) :
    rebaseWordAt mappings mem a a = rebaseTermWord mappings (mem a) := if_pos rfl

theorem rebaseWordAt_ne {a b : ℕ} (h : b ≠ a) : rebaseWordAt mappings mem a b = mem b := if_neg h

theorem foldl_rebase_same {ptr a : ℕ} {offsets : List ℕ} (h : ∀ i ∈ offsets, a ≠ ptr + i) :
    offsets.foldl (fun mem i => rebaseWordAt mappings mem (ptr + i)) mem a = mem a := by
  induction offsets generalizing mem with
  | nil => rfl
  | cons i offsets ih =>
    rw [List.foldl_cons, ih fun j hj => h j (List.mem_cons_of_mem i hj)]
    exact rebaseWordAt_ne (h i List.mem_cons_self)

theorem foldl_rebase_rebased {ptr i : ℕ} {offsets : List ℕ} (hnodup : offsets.Nodup)
    (h : i ∈ offsets) :
    offsets.foldl (fun mem i => rebaseWordAt mappings mem (ptr + i)) mem (ptr + i) =
      rebaseTermWord mappings (mem (ptr + i)) := by
  induction offsets generalizing mem with
  | nil => cases h
  | cons j offsets ih =>
    obtain ⟨hj, hnodup⟩ := List.nodup_cons.mp hnodup
    rw [List.foldl_cons]
    rcases List.mem_cons.mp h with rfl | hrest
    · rw [foldl_rebase_same, rebaseWordAt_self]
      intro k hk heq
      obtain rfl := Nat.add_left_cancel heq
      exact hj hk
    · have hne : ptr + i ≠ ptr + j := by
        intro heq
        obtain rfl := Nat.add_left_cancel heq
        exact hj hrest
      rw [ih hnodup hrest, rebaseWordAt_ne hne]

/-- Outside the block, and at its data, nothing changes. -/
theorem rebaseBlock_same {ptr words a : ℕ} (h : ∀ i ∈ blockOffsets mem ptr words, a ≠ ptr + i) :
    rebaseHeapBlockTerms mappings mem ptr words a = mem a := foldl_rebase_same h

theorem rebaseBlock_rebased {ptr words i : ℕ} (h : i ∈ blockOffsets mem ptr words) :
    rebaseHeapBlockTerms mappings mem ptr words (ptr + i) =
      rebaseTermWord mappings (mem (ptr + i)) :=
  foldl_rebase_rebased (blockOffsets_nodup mem ptr words) h

/-- Some allocation has a term at the address. -/
def Walked (mem : Memory) (r : HeapRegion) (a : ℕ) : Prop :=
  ∃ x ∈ r.allocations, ∃ i ∈ blockOffsets mem (r.base + x.offset) x.words,
    a = r.base + x.offset + i

section Allocations

variable {r : HeapRegion} {xs : List Allocation} {a : ℕ}

/-- One step of the walk over the allocations of a region. -/
def walkAllocation (mappings : List RebaseMapping) (r : HeapRegion) (mem : Memory)
    (x : Allocation) : Memory :=
  if x.offset + x.words ≤ r.capacity then
    rebaseHeapBlockTerms mappings mem (r.base + x.offset) x.words
  else mem

theorem rebaseRegion_eq : rebaseRegionEmbeddedTerms mappings r mem =
    r.allocations.foldl (walkAllocation mappings r) mem := rfl

theorem walkAllocation_frame {x : Allocation}
    (h : ∀ i < x.words, a ≠ r.base + x.offset + i) : walkAllocation mappings r mem x a = mem a := by
  unfold walkAllocation
  split_ifs
  · exact rebaseBlock_same fun i hi => h i (lt_of_mem_blockOffsets hi)
  · rfl

theorem foldl_walk_frame (h : ∀ x ∈ xs, ∀ i < x.words, a ≠ r.base + x.offset + i) :
    xs.foldl (walkAllocation mappings r) mem a = mem a := by
  induction xs generalizing mem with
  | nil => rfl
  | cons x xs ih =>
    rw [List.foldl_cons, ih fun y hy => h y (List.mem_cons_of_mem x hy)]
    exact walkAllocation_frame (h x List.mem_cons_self)

/-- Blocks do not overlap, so the walk treats every block as it was. -/
theorem foldl_walk_block (hfits : ∀ x ∈ xs, x.offset + x.words ≤ r.capacity)
    (hord : xs.Pairwise fun x y => x.offset + x.words ≤ y.offset) {x : Allocation} (hx : x ∈ xs)
    {i : ℕ} (hi : i < x.words) :
    xs.foldl (walkAllocation mappings r) mem (r.base + x.offset + i) =
      rebaseHeapBlockTerms mappings mem (r.base + x.offset) x.words (r.base + x.offset + i) := by
  induction xs generalizing mem with
  | nil => cases hx
  | cons y xs ih =>
    obtain ⟨hy, hord⟩ := List.pairwise_cons.mp hord
    rw [List.foldl_cons]
    rcases List.mem_cons.mp hx with rfl | hx
    · rw [foldl_walk_frame, walkAllocation, if_pos (hfits x List.mem_cons_self)]
      intro z hz j hj heq
      have hle := hy z hz
      omega
    · have hbefore : ∀ j < x.words, walkAllocation mappings r mem y (r.base + x.offset + j) =
          mem (r.base + x.offset + j) := by
        intro j hj
        refine walkAllocation_frame fun k hk heq => ?_
        have hle := hy x hx
        omega
      rw [ih (fun z hz => hfits z (List.mem_cons_of_mem y hz)) hord hx]
      have hoff : blockOffsets (walkAllocation mappings r mem y) (r.base + x.offset) x.words =
          blockOffsets mem (r.base + x.offset) x.words := blockOffsets_congr hbefore
      by_cases hmem : i ∈ blockOffsets mem (r.base + x.offset) x.words
      · rw [rebaseBlock_rebased hmem, rebaseBlock_rebased (hoff ▸ hmem), hbefore i hi]
      · have hne : ∀ j ∈ blockOffsets mem (r.base + x.offset) x.words,
            r.base + x.offset + i ≠ r.base + x.offset + j := by
          intro j hj heq
          obtain rfl := Nat.add_left_cancel heq
          exact hmem hj
        rw [rebaseBlock_same hne, rebaseBlock_same (hoff ▸ hne), hbefore i hi]

theorem rebaseRegion_walked (hfits : ∀ x ∈ r.allocations, x.offset + x.words ≤ r.capacity)
    (hord : r.allocations.Pairwise fun x y => x.offset + x.words ≤ y.offset)
    (h : Walked mem r a) :
    rebaseRegionEmbeddedTerms mappings r mem a = rebaseTermWord mappings (mem a) := by
  obtain ⟨x, hx, i, hi, rfl⟩ := h
  rw [rebaseRegion_eq, foldl_walk_block hfits hord hx (lt_of_mem_blockOffsets hi),
    rebaseBlock_rebased hi]

theorem rebaseRegion_same (hfits : ∀ x ∈ r.allocations, x.offset + x.words ≤ r.capacity)
    (hord : r.allocations.Pairwise fun x y => x.offset + x.words ≤ y.offset)
    (h : ¬ Walked mem r a) : rebaseRegionEmbeddedTerms mappings r mem a = mem a := by
  rw [rebaseRegion_eq]
  by_cases hin : ∃ x ∈ r.allocations, ∃ i < x.words, a = r.base + x.offset + i
  · obtain ⟨x, hx, i, hi, rfl⟩ := hin
    rw [foldl_walk_block hfits hord hx hi]
    exact rebaseBlock_same fun j hj heq => h ⟨x, hx, j, hj, heq⟩
  · exact foldl_walk_frame fun x hx i hi heq => hin ⟨x, hx, i, hi, heq⟩

theorem Walked.contains (hfits : ∀ x ∈ r.allocations, x.offset + x.words ≤ r.capacity)
    (h : Walked mem r a) : r.contains a = true := by
  obtain ⟨x, hx, i, hi, rfl⟩ := h
  have hfit := hfits x hx
  have hlt := lt_of_mem_blockOffsets hi
  exact HeapRegion.contains_iff.mpr ⟨by omega, by omega⟩

/-- The walk reads a copy of a region as it reads the region. -/
theorem walked_copy (r r' : HeapRegion) {mem' : Memory} (hallocs : r'.allocations = r.allocations)
    (hfits : ∀ x ∈ r.allocations, x.offset + x.words ≤ r.capacity)
    (hmem : ∀ k < r.capacity, mem' (r'.base + k) = mem (r.base + k)) (k : ℕ) :
    Walked mem' r' (r'.base + k) ↔ Walked mem r (r.base + k) := by
  unfold Walked
  rw [hallocs]
  refine exists_congr fun x => and_congr_right fun hx => ?_
  have hfit := hfits x hx
  have hblock : blockOffsets mem' (r'.base + x.offset) x.words =
      blockOffsets mem (r.base + x.offset) x.words := by
    refine blockOffsets_congr fun i hi => ?_
    rw [Nat.add_assoc, Nat.add_assoc]
    exact hmem _ (by omega)
  rw [hblock]
  refine exists_congr fun i => and_congr_right fun _ => ?_
  constructor <;> intro heq <;> omega

end Allocations

end Walk

/-! ## The words of a clone -/

theorem copyWords_inside {mem : Memory} {src dst words k : ℕ} (hk : k < words) :
    mem.copyWords src dst words (dst + k) = mem (src + k) := by
  unfold Memory.copyWords
  rw [if_pos ⟨by omega, by omega⟩, Nat.add_sub_cancel_left]

theorem copyWords_outside {mem : Memory} {src dst words a : ℕ}
    (h : ¬ (dst ≤ a ∧ a < dst + words)) : mem.copyWords src dst words a = mem a := if_neg h

/-- Where the clone `c` of a heap has a word. -/
def cloneAddress (h c : Heap) (a : ℕ) : ℕ :=
  if h.young.contains a then c.young.base + (a - h.young.base)
  else c.old.base + (a - h.old.base)

section Clone

variable {sys : SystemAllocator} {external : List HeapRegion} {h : Heap} {objs : Set Obj} {a : ℕ}

/-- The heap of a clone, rebased. -/
def clonedHeap (sys : SystemAllocator) (external : List HeapRegion) (h : Heap) : Heap :=
  (h.clone sys external).rebaseSnapshotTerms h

theorem cloned_mem_eq : (clonedHeap sys external h).mem =
    rebaseRegionEmbeddedTerms (h.rebaseMappings (clonedHeap sys external h))
      (clonedHeap sys external h).old
      (rebaseRegionEmbeddedTerms (h.rebaseMappings (clonedHeap sys external h))
        (clonedHeap sys external h).young (h.clone sys external).mem) := rfl

theorem cloned_young_apart {r : HeapRegion} (hr : r ∈ h.young :: h.old :: external) :
    r.Apart (clonedHeap sys external h).young := sys.apart _ _ r hr

theorem cloned_old_apart {r : HeapRegion}
    (hr : r ∈ (clonedHeap sys external h).young :: h.young :: h.old :: external) :
    r.Apart (clonedHeap sys external h).old := sys.apart _ _ r hr

theorem contains_cloned_false {r : HeapRegion} (hr : r ∈ h.young :: h.old :: external)
    (ha : r.contains a = true) : (clonedHeap sys external h).contains a = false := by
  have hyoung : (clonedHeap sys external h).young.contains a = false :=
    not_contains_of_apart (cloned_young_apart hr) ha
  have hold : (clonedHeap sys external h).old.contains a = false :=
    not_contains_of_apart (cloned_old_apart (List.mem_cons_of_mem _ hr)) ha
  simp only [Heap.contains, hyoung, hold, Bool.or_self]

variable (sys external) in
/-- The regions of the clone are none of the original's. -/
theorem cloned_disjoint (ha : h.contains a = true) :
    (clonedHeap sys external h).contains a = false := by
  rcases Heap.contains_iff.mp ha with ha | ha
  · exact contains_cloned_false List.mem_cons_self ha
  · exact contains_cloned_false (List.mem_cons_of_mem _ List.mem_cons_self) ha

theorem cloneAddress_young {c : Heap} (ha : h.young.contains a = true) :
    cloneAddress h c a = c.young.base + (a - h.young.base) := if_pos ha

theorem cloneAddress_old {c : Heap} (ha : h.young.contains a = false) :
    cloneAddress h c a = c.old.base + (a - h.old.base) :=
  if_neg (by rw [ha]; exact Bool.false_ne_true)

theorem cloned_contains (ha : h.contains a = true) :
    (clonedHeap sys external h).contains
      (cloneAddress h (clonedHeap sys external h) a) = true := by
  rw [Heap.contains_iff]
  by_cases hy : h.young.contains a = true
  · left
    rw [cloneAddress_young hy, HeapRegion.contains_iff]
    have hbound := HeapRegion.contains_iff.mp hy
    have hcap : (clonedHeap sys external h).young.capacity = h.young.capacity := rfl
    omega
  · right
    have hold := (Heap.contains_iff.mp ha).resolve_left hy
    rw [cloneAddress_old (Bool.eq_false_iff.mpr hy), HeapRegion.contains_iff]
    have hbound := HeapRegion.contains_iff.mp hold
    have hcap : (clonedHeap sys external h).old.capacity = h.old.capacity := rfl
    omega

/-- The copies before the rebase. -/
theorem clone_mem_young {k : ℕ} (hk : k < h.young.capacity) :
    (h.clone sys external).mem ((clonedHeap sys external h).young.base + k) =
      h.mem (h.young.base + k) := by
  have hap : (clonedHeap sys external h).young.Apart (clonedHeap sys external h).old :=
    cloned_old_apart List.mem_cons_self
  have hcap : (clonedHeap sys external h).young.capacity = h.young.capacity := rfl
  have hcap' : (clonedHeap sys external h).old.capacity = h.old.capacity := rfl
  refine (copyWords_outside ?_).trans (copyWords_inside hk)
  change ¬ ((clonedHeap sys external h).old.base ≤ _ ∧
    _ < (clonedHeap sys external h).old.base + h.old.capacity)
  unfold HeapRegion.Apart at hap
  omega

theorem clone_mem_old {k : ℕ} (hk : k < h.old.capacity) :
    (h.clone sys external).mem ((clonedHeap sys external h).old.base + k) =
      h.mem (h.old.base + k) := by
  have hap : h.old.Apart (clonedHeap sys external h).young :=
    cloned_young_apart (List.mem_cons_of_mem _ List.mem_cons_self)
  have hcap : (clonedHeap sys external h).young.capacity = h.young.capacity := rfl
  refine (copyWords_inside hk).trans (copyWords_outside ?_)
  change ¬ ((clonedHeap sys external h).young.base ≤ _ ∧
    _ < (clonedHeap sys external h).young.base + h.young.capacity)
  unfold HeapRegion.Apart at hap
  omega

theorem Tracked.fits_capacity {mem : Memory} {r : HeapRegion} (ht : Tracked mem r)
    (hle : r.used ≤ r.capacity) : ∀ x ∈ r.allocations, x.offset + x.words ≤ r.capacity :=
  fun x hx => (ht.fits x hx).trans hle

/-- The mappings of the rebase. -/
abbrev cloneMappings (sys : SystemAllocator) (external : List HeapRegion) (h : Heap) :
    List RebaseMapping := h.rebaseMappings (clonedHeap sys external h)

theorem declared_iff : Declared h a ↔ Walked h.mem h.young a ∨ Walked h.mem h.old a := by
  simp only [Declared, Walked, mem_blockOffsets, List.mem_cons, List.not_mem_nil, or_false,
    exists_eq_or_imp, exists_eq_left]

variable (hI : Intact external h objs)
include hI

theorem declared_young (ha : h.young.contains a = true) :
    Declared h a ↔ Walked h.mem h.young a := by
  rw [declared_iff]
  refine or_iff_left fun hw => ?_
  have hold := hw.contains (hI.old_tracked.fits_capacity hI.old_le)
  rw [not_contains_of_apart hI.apart ha] at hold
  cases hold

theorem declared_old (ha : h.young.contains a = false) : Declared h a ↔ Walked h.mem h.old a := by
  rw [declared_iff]
  refine or_iff_right fun hw => ?_
  rw [hw.contains (hI.young_tracked.fits_capacity hI.young_le)] at ha
  cases ha

/-- A region walk leaves the words of the other region alone. -/
theorem old_walk_frame {mem : Memory} {k : ℕ} (hk : k < h.young.capacity) :
    rebaseRegionEmbeddedTerms (cloneMappings sys external h) (clonedHeap sys external h).old mem
      ((clonedHeap sys external h).young.base + k) =
        mem ((clonedHeap sys external h).young.base + k) := by
  have hfits := hI.old_tracked.fits_capacity hI.old_le
  refine rebaseRegion_same (r := (clonedHeap sys external h).old) hfits hI.old_tracked.ordered
    fun hw => ?_
  have hin : (clonedHeap sys external h).young.contains
      ((clonedHeap sys external h).young.base + k) = true :=
    HeapRegion.contains_iff.mpr ⟨Nat.le_add_right _ _, Nat.add_lt_add_left hk _⟩
  have hout : (clonedHeap sys external h).old.contains
      ((clonedHeap sys external h).young.base + k) = false :=
    not_contains_of_apart (cloned_old_apart List.mem_cons_self) hin
  rw [hw.contains (r := (clonedHeap sys external h).old) hfits] at hout
  cases hout

theorem young_walk_frame {mem : Memory} {k : ℕ} (hk : k < h.old.capacity) :
    rebaseRegionEmbeddedTerms (cloneMappings sys external h) (clonedHeap sys external h).young mem
      ((clonedHeap sys external h).old.base + k) =
        mem ((clonedHeap sys external h).old.base + k) := by
  have hfits := hI.young_tracked.fits_capacity hI.young_le
  refine rebaseRegion_same (r := (clonedHeap sys external h).young) hfits
    hI.young_tracked.ordered fun hw => ?_
  have hin : (clonedHeap sys external h).old.contains
      ((clonedHeap sys external h).old.base + k) = true :=
    HeapRegion.contains_iff.mpr ⟨Nat.le_add_right _ _, Nat.add_lt_add_left hk _⟩
  have hout : (clonedHeap sys external h).young.contains
      ((clonedHeap sys external h).old.base + k) = false :=
    not_contains_of_apart (HeapRegion.Apart.symm (cloned_old_apart List.mem_cons_self)) hin
  rw [hw.contains (r := (clonedHeap sys external h).young) hfits] at hout
  cases hout

theorem clone_word_young {k : ℕ} (hk : k < h.young.capacity) :
    (Walked h.mem h.young (h.young.base + k) → (clonedHeap sys external h).mem
      ((clonedHeap sys external h).young.base + k) =
        rebaseTermWord (cloneMappings sys external h) (h.mem (h.young.base + k))) ∧
    (¬ Walked h.mem h.young (h.young.base + k) → (clonedHeap sys external h).mem
      ((clonedHeap sys external h).young.base + k) = h.mem (h.young.base + k)) := by
  have hfits := hI.young_tracked.fits_capacity hI.young_le
  have hmem : ∀ k < h.young.capacity, (h.clone sys external).mem
      ((clonedHeap sys external h).young.base + k) = h.mem (h.young.base + k) :=
    fun k hk => clone_mem_young hk
  have hcopy : Walked (h.clone sys external).mem (clonedHeap sys external h).young
      ((clonedHeap sys external h).young.base + k) ↔ Walked h.mem h.young (h.young.base + k) :=
    walked_copy h.young (clonedHeap sys external h).young rfl hfits hmem k
  rw [cloned_mem_eq, old_walk_frame hI hk, ← hmem k hk, ← hcopy]
  exact ⟨rebaseRegion_walked hfits hI.young_tracked.ordered,
    rebaseRegion_same hfits hI.young_tracked.ordered⟩

theorem clone_word_old {k : ℕ} (hk : k < h.old.capacity) :
    (Walked h.mem h.old (h.old.base + k) → (clonedHeap sys external h).mem
      ((clonedHeap sys external h).old.base + k) =
        rebaseTermWord (cloneMappings sys external h) (h.mem (h.old.base + k))) ∧
    (¬ Walked h.mem h.old (h.old.base + k) → (clonedHeap sys external h).mem
      ((clonedHeap sys external h).old.base + k) = h.mem (h.old.base + k)) := by
  have hfits := hI.old_tracked.fits_capacity hI.old_le
  have hmem : ∀ k < h.old.capacity,
      rebaseRegionEmbeddedTerms (cloneMappings sys external h) (clonedHeap sys external h).young
        (h.clone sys external).mem ((clonedHeap sys external h).old.base + k) =
          h.mem (h.old.base + k) := fun k hk =>
    (young_walk_frame hI hk).trans (clone_mem_old hk)
  have hcopy : Walked (rebaseRegionEmbeddedTerms (cloneMappings sys external h)
      (clonedHeap sys external h).young (h.clone sys external).mem) (clonedHeap sys external h).old
      ((clonedHeap sys external h).old.base + k) ↔ Walked h.mem h.old (h.old.base + k) :=
    walked_copy h.old (clonedHeap sys external h).old rfl hfits hmem k
  rw [cloned_mem_eq, ← hmem k hk, ← hcopy]
  exact ⟨rebaseRegion_walked hfits hI.old_tracked.ordered,
    rebaseRegion_same hfits hI.old_tracked.ordered⟩

variable (sys) in
/-- What the clone has for a word of the original. -/
theorem clone_word (ha : h.contains a = true) :
    (Declared h a → (clonedHeap sys external h).mem
      (cloneAddress h (clonedHeap sys external h) a) =
        rebaseTermWord (cloneMappings sys external h) (h.mem a)) ∧
    (¬ Declared h a → (clonedHeap sys external h).mem
      (cloneAddress h (clonedHeap sys external h) a) = h.mem a) := by
  by_cases hy : h.young.contains a = true
  · obtain ⟨k, hk, rfl⟩ : ∃ k < h.young.capacity, a = h.young.base + k := by
      have hbound := HeapRegion.contains_iff.mp hy
      exact ⟨a - h.young.base, by omega, by omega⟩
    rw [declared_young hI hy, cloneAddress_young hy, Nat.add_sub_cancel_left]
    exact clone_word_young hI hk
  · have hold := (Heap.contains_iff.mp ha).resolve_left hy
    have hyoung := Bool.eq_false_iff.mpr hy
    obtain ⟨k, hk, rfl⟩ : ∃ k < h.old.capacity, a = h.old.base + k := by
      have hbound := HeapRegion.contains_iff.mp hold
      exact ⟨a - h.old.base, by omega, by omega⟩
    rw [declared_old hI hyoung, cloneAddress_old hyoung, Nat.add_sub_cancel_left]
    exact clone_word_old hI hk

end Clone

end Beamr.Gc
