import Beamr.Gc.Reachable

/-!
# Intact heaps

The heap of a process between two collections: two regions apart from each other and from the
storage outside, objects that are well formed, and allocation records that keep the release
walk inside the allocations it visits. Both collections start from an intact heap.
-/
namespace Beamr.Gc

open Beamr ObjectGraph

/-! ## The release walk -/

/-- First position behind the word that a release clears. -/
def releaseEnd (header : ℕ) : ℕ :=
  match BoxedHeader.tag header with
  | some .procBin => 3
  | some .fdResource => 2
  | _ => 0

/-- Allocation records lie one behind the other below the bump pointer, and what a release
clears belongs to the allocation. -/
structure Tracked (mem : Memory) (r : HeapRegion) : Prop where
  fits : ∀ x ∈ r.allocations, x.offset + x.words ≤ r.used
  ordered : r.allocations.Pairwise fun x y => x.offset + x.words ≤ y.offset
  cleared : ∀ x ∈ r.allocations, x.kind = .maybeRefcounted →
    releaseEnd (mem (r.base + x.offset)) ≤ x.words ∧ 0 < x.words

section Release

variable {arcBytes : ℕ → ℕ} {isForwarded : ℕ → Bool} {r : HeapRegion} {mem : Memory}

theorem releaseAllocation_frame {bytes : ℕ} {x : Allocation}
    (hx : x.kind = .maybeRefcounted → releaseEnd (mem (r.base + x.offset)) ≤ x.words) {a : ℕ}
    (ha : ¬ (r.base + x.offset ≤ a ∧ a < r.base + x.offset + x.words)) :
    (releaseAllocation arcBytes isForwarded r (mem, bytes) x).1 a = mem a := by
  unfold releaseAllocation
  by_cases hkind : x.kind = .notRefcounted
  · simp only [hkind, if_true]
  · have hend := hx (by cases hk : x.kind <;> simp_all)
    unfold releaseEnd at hend
    simp only [hkind, if_false]
    by_cases hsize : 1 + BoxedHeader.size (mem (r.base + x.offset)) ≤ x.words
    · rw [if_pos hsize]
      split
      · next htag =>
        rw [htag] at hend
        exact if_neg (by rintro rfl; simp only at hend; omega)
      · next htag =>
        rw [htag] at hend
        exact if_neg (by rintro rfl; simp only at hend; omega)
      · rfl
    · rw [if_neg hsize]

theorem foldl_releaseAllocation_frame {xs : List Allocation} {bytes : ℕ}
    (hord : xs.Pairwise fun x y => x.offset + x.words ≤ y.offset)
    (hclr : ∀ x ∈ xs, x.kind = .maybeRefcounted →
      releaseEnd (mem (r.base + x.offset)) ≤ x.words ∧ 0 < x.words) {a : ℕ}
    (ha : ∀ x ∈ xs, ¬ (r.base + x.offset ≤ a ∧ a < r.base + x.offset + x.words)) :
    (xs.foldl (releaseAllocation arcBytes isForwarded r) (mem, bytes)).1 a = mem a := by
  induction xs generalizing mem bytes with
  | nil => rfl
  | cons x xs ih =>
    have hstep : ∀ {a}, ¬ (r.base + x.offset ≤ a ∧ a < r.base + x.offset + x.words) →
        (releaseAllocation arcBytes isForwarded r (mem, bytes) x).1 a = mem a :=
      releaseAllocation_frame fun hk => (hclr x (by simp) hk).1
    obtain ⟨hfirst, hrest⟩ := List.pairwise_cons.mp hord
    rw [List.foldl_cons, ← Prod.mk.eta (p := releaseAllocation arcBytes isForwarded r (mem, bytes) x),
      ih hrest, hstep (ha x (by simp))]
    · intro y hy hk
      -- the headers of the later records are not touched
      have hle := hfirst y hy
      rw [hstep (by omega)]
      exact hclr y (by simp [hy]) hk
    · exact fun y hy => ha y (by simp [hy])

/-- A release walk writes only below the bump pointer. -/
theorem releaseRegion_frame (h : Tracked mem r) {bytes a : ℕ} (ha : r.allocated a = false) :
    (releaseRegion arcBytes isForwarded r (mem, bytes)).1 a = mem a := by
  refine foldl_releaseAllocation_frame h.ordered h.cleared fun x hx hin => ?_
  have hfit := h.fits x hx
  have hall : r.allocated a = true := HeapRegion.allocated_iff.mpr ⟨by omega, by omega⟩
  rw [ha] at hall
  cases hall

theorem Tracked.congr {mem' : Memory} (h : Tracked mem r)
    (heq : ∀ a, r.allocated a = true → mem' a = mem a) : Tracked mem' r where
  fits := h.fits
  ordered := h.ordered
  cleared := by
    intro x hx hk
    have hfit := h.fits x hx
    have hpos := (h.cleared x hx hk).2
    rw [heq _ (HeapRegion.allocated_iff.mpr ⟨by omega, by omega⟩)]
    exact h.cleared x hx hk

theorem Tracked.empty (base capacity : ℕ) : Tracked mem (.new base capacity) :=
  ⟨by simp [HeapRegion.new], List.Pairwise.nil, by simp [HeapRegion.new]⟩

theorem Tracked.reset (r : HeapRegion) : Tracked mem r.reset :=
  ⟨by simp [HeapRegion.reset], List.Pairwise.nil, by simp [HeapRegion.reset]⟩

end Release

/-- The destination stays tracked while objects are copied into it. -/
theorem Arena.Inv.tracked {A : Arena} {s : Copying} {cur : Term} {todo : List ℕ} (hA : A.Ready)
    (hs : A.Inv s cur todo) (h : Tracked A.mem A.region) : Tracked s.mem s.region := by
  obtain ⟨new, heq, hord, hnew⟩ := hs.allocs
  have hge := hs.used_ge
  constructor
  · intro x hx
    rw [heq] at hx
    rcases List.mem_append.mp hx with hx | hx
    · exact (h.fits x hx).trans hge
    · exact (hnew x hx).2.1
  · rw [heq, List.pairwise_append]
    refine ⟨h.ordered, hord, fun x hx y hy => ?_⟩
    exact (h.fits x hx).trans (hnew y hy).1
  · intro x hx hk
    rw [heq] at hx
    rcases List.mem_append.mp hx with hx | hx
    · have hfit := h.fits x hx
      have hclr := h.cleared x hx hk
      rw [hs.base, hs.frame _ (by unfold Arena.start; omega)]
      exact hclr
    · obtain ⟨-, -, hobj⟩ := hnew x hx
      obtain ⟨o, ho, hf, hkind, hwords⟩ := hobj hk
      have hpos := o.words_pos A.mem
      obtain ⟨tag, htag, hend⟩ := hA.wf.laidOut o ho hkind
      have hzero : 0 ∉ o.offsets A.mem := by
        simp only [Obj.offsets, hkind, htag]
        exact zero_notMem_fieldOffsets
      have hhead : s.mem (A.region.base + x.offset) = A.mem o.addr := hs.data o ho _ hf 0 hpos hzero
      rw [hs.base, hhead, hwords]
      refine ⟨le_trans ?_ hend, hpos⟩
      unfold releaseEnd
      rw [htag]
      cases tag <;> simp [fieldsEnd]

/-! ## Changes next to the objects -/

section Congr

variable {inHeap inHeap' live live' : ℕ → Bool} {outside : ℕ → Prop} {objs : Set Obj}
  {mem mem' : Memory}

/-- Objects whose words are left alone stay well formed. -/
theorem WellFormed.congr (h : WellFormed inHeap outside objs mem live)
    (hmem : ∀ o ∈ objs, ∀ i < o.words mem, mem' (o.addr + i) = mem (o.addr + i))
    (hlive : ∀ o ∈ objs, ∀ i < o.words mem, live' (o.addr + i) = true)
    (hin : ∀ o ∈ objs, inHeap' o.addr = true) (hout : ∀ a, outside a → inHeap' a = false) :
    WellFormed inHeap' outside objs mem' live' := by
  have hshape : ∀ o ∈ objs, o.words mem' = o.words mem ∧ o.offsets mem' = o.offsets mem ∧
      o.LaidOut mem' := fun o ho =>
    Obj.shape_eq (h.laidOut o ho) fun i hi _ => hmem o ho i hi
  constructor
  · intro o ho i hi
    rw [(hshape o ho).1] at hi
    exact hlive o ho i hi
  · exact fun o ho => (hshape o ho).2.2
  · intro o ho o' ho' hne
    rw [(hshape o ho).1, (hshape o' ho').1]
    exact h.apart o ho o' ho' hne
  · intro o ho i hi
    rw [(hshape o ho).2.1] at hi
    have heq : o.field mem' i = o.field mem i :=
      congrArg Term.mk (hmem o ho i (Obj.offset_lt (h.laidOut o ho) hi))
    rw [heq]
    intro a ha
    rcases h.fields o ho i hi a ha with ⟨-, ho'⟩ | ⟨-, houta⟩
    · exact .inl ⟨hin _ ho', ho'⟩
    · exact .inr ⟨hout a houta, houta⟩

theorem Valid.congr {t : Term} (h : Valid inHeap outside objs t)
    (hin : ∀ o ∈ objs, inHeap' o.addr = true) (hout : ∀ a, outside a → inHeap' a = false) :
    Valid inHeap' outside objs t := by
  intro a ha
  rcases h a ha with ⟨-, ho⟩ | ⟨-, houta⟩
  · exact .inl ⟨hin _ ho, ho⟩
  · exact .inr ⟨hout a houta, houta⟩

/-- Valid terms denote the same when the words of the objects are left alone. -/
theorem WellFormed.sameStructure (h : WellFormed inHeap outside objs mem live)
    (hmem : ∀ o ∈ objs, ∀ i < o.words mem, mem' (o.addr + i) = mem (o.addr + i))
    (hlive : ∀ o ∈ objs, live' o.addr = true)
    (hout : ∀ a, inHeap a = false → outside a → live a = false ∧ live' a = false) {t : Term}
    (ht : Valid inHeap outside objs t) : SameStructure (graph mem live) (graph mem' live') t t := by
  have hbis : Bisimulation (graph mem live) (graph mem' live')
      fun t t' => Valid inHeap outside objs t ∧ t = t' := by
    constructor
    · intro v w hvw hnode
      obtain ⟨hv, rfl⟩ := hvw
      cases hptr : v.heapPtr with
      | none => exact ⟨graph_node_of_data hptr, rfl⟩
      | some a =>
        rcases hv a hptr with ⟨-, ho⟩ | ⟨hin, houta⟩
        · rw [graph_node_of_live hptr (h.live_addr ho)] at hnode
          cases hnode
        · exact ⟨graph_node_of_dead hptr (hout a hin houta).2, rfl⟩
    · intro v w label fields hvw hnode
      obtain ⟨hv, rfl⟩ := hvw
      cases hptr : v.heapPtr with
      | none =>
        rw [graph_node_of_data hptr] at hnode
        cases hnode
      | some a =>
        rcases hv a hptr with ⟨-, ho⟩ | ⟨hin, houta⟩
        · rw [graph_node_of_live hptr (h.live_addr ho)] at hnode
          obtain ⟨rfl, rfl⟩ := Prod.mk.inj (Option.some.inj hnode)
          set o : Obj := ⟨a, kindOf v⟩ with hodef
          have hlaid := h.laidOut o ho
          have hsame : ∀ i < o.words mem, i ∉ o.offsets mem → mem' (o.addr + i) = mem (o.addr + i) :=
            fun i hi _ => hmem o ho i hi
          have hfields : o.fields mem' = o.fields mem := by
            unfold Obj.fields
            rw [(Obj.shape_eq hlaid hsame).2.1]
            exact List.map_congr_left fun i hi =>
              congrArg Term.mk (hmem o ho i (Obj.offset_lt hlaid hi))
          refine ⟨o.fields mem, ?_, ?_⟩
          · rw [graph_node_of_live hptr (hlive o ho), ← hodef, hfields,
              Obj.label_eq hlaid hsame]
          · rw [List.forall₂_same]
            intro u hu
            obtain ⟨i, hi, rfl⟩ := List.mem_map.mp hu
            exact ⟨h.fields o ho i hi, rfl⟩
        · rw [graph_node_of_dead hptr (hout a hin houta).1] at hnode
          cases hnode
  exact hbis.sameStructure ⟨ht, rfl⟩

end Congr

/-! ## Both generations -/

/-- Addresses of storage outside the heap. -/
def Stored (external : List HeapRegion) (a : ℕ) : Prop := ∃ r ∈ external, r.contains a = true

/-- A heap between two collections, with the objects `objs`. -/
structure Intact (external : List HeapRegion) (h : Heap) (objs : Set Obj) : Prop where
  young_le : h.young.used ≤ h.young.capacity
  old_le : h.old.used ≤ h.old.capacity
  apart : h.young.Apart h.old
  external_apart : ∀ r ∈ external, r.Apart h.young ∧ r.Apart h.old
  young_tracked : Tracked h.mem h.young
  old_tracked : Tracked h.mem h.old
  whole : ∀ o ∈ objs, (∀ i < o.words h.mem, h.young.allocated (o.addr + i) = true) ∨
    ∀ i < o.words h.mem, h.old.allocated (o.addr + i) = true
  wf : WellFormed h.contains (Stored external) objs h.mem h.allocated

section

variable {r r' : HeapRegion} {a : ℕ}

theorem contains_of_allocated (h : r.used ≤ r.capacity) (ha : r.allocated a = true) :
    r.contains a = true := by
  rw [HeapRegion.allocated_iff] at ha
  exact HeapRegion.contains_iff.mpr ⟨ha.1, by omega⟩

theorem not_contains_of_apart (h : r.Apart r') (ha : r.contains a = true) :
    r'.contains a = false := by
  by_contra hb
  rw [Bool.not_eq_false, HeapRegion.contains_iff] at hb
  rw [HeapRegion.contains_iff] at ha
  rcases h with h | h <;> omega

theorem not_allocated_of_not_contains (h : r.used ≤ r.capacity) (ha : r.contains a = false) :
    r.allocated a = false := by
  by_contra hb
  rw [Bool.not_eq_false] at hb
  rw [contains_of_allocated h hb] at ha
  cases ha

theorem not_allocated_of_empty (h : r.used = 0) : r.allocated a = false := by
  by_contra hall
  rw [Bool.not_eq_false, HeapRegion.allocated_iff] at hall
  omega

theorem HeapRegion.Apart.symm (h : r.Apart r') : r'.Apart r := Or.symm h

end

variable {external : List HeapRegion} {h : Heap} {objs : Set Obj}

theorem Heap.allocated_iff {a : ℕ} :
    h.allocated a = true ↔ h.young.allocated a = true ∨ h.old.allocated a = true := by
  simp [Heap.allocated]

theorem Heap.contains_iff {a : ℕ} :
    h.contains a = true ↔ h.young.contains a = true ∨ h.old.contains a = true := by
  simp [Heap.contains]

theorem Intact.contains_of_allocated (hI : Intact external h objs) {a : ℕ}
    (ha : h.allocated a = true) : h.contains a = true := by
  rw [Heap.allocated_iff] at ha
  rw [Heap.contains_iff]
  exact ha.imp (Gc.contains_of_allocated hI.young_le) (Gc.contains_of_allocated hI.old_le)

/-- Storage outside is in neither region. -/
theorem Intact.stored (hI : Intact external h objs) {a : ℕ} (ha : Stored external a) :
    h.contains a = false := by
  obtain ⟨r, hr, ha⟩ := ha
  have hap := hI.external_apart r hr
  simp only [Heap.contains, not_contains_of_apart hap.1 ha, not_contains_of_apart hap.2 ha,
    Bool.or_self]

theorem Intact.word_contains (hI : Intact external h objs) {o : Obj} (ho : o ∈ objs) {i : ℕ}
    (hi : i < o.words h.mem) : h.contains (o.addr + i) = true :=
  hI.contains_of_allocated (hI.wf.extent o ho i hi)

/-- An object that starts in the nursery lies there with all its words. -/
theorem Intact.young_word (hI : Intact external h objs) {o : Obj} (ho : o ∈ objs)
    (hy : h.young.contains o.addr = true) {i : ℕ} (hi : i < o.words h.mem) :
    h.young.contains (o.addr + i) = true := by
  rcases hI.whole o ho with hall | hall
  · exact Gc.contains_of_allocated hI.young_le (hall i hi)
  · have hold := Gc.contains_of_allocated hI.old_le (hall 0 (o.words_pos _))
    rw [Nat.add_zero, not_contains_of_apart hI.apart hy] at hold
    cases hold

/-- An object that does not start in the nursery lies in the old region. -/
theorem Intact.old_word (hI : Intact external h objs) {o : Obj} (ho : o ∈ objs)
    (hy : h.young.contains o.addr = false) {i : ℕ} (hi : i < o.words h.mem) :
    h.old.allocated (o.addr + i) = true := by
  rcases hI.whole o ho with hall | hall
  · have hyoung := Gc.contains_of_allocated hI.young_le (hall 0 (o.words_pos _))
    rw [Nat.add_zero, hy] at hyoung
    cases hyoung
  · exact hall i hi

/-! ## The two collections as arenas -/

/-- A minor collection copies the nursery into the old region. -/
def minorArena (external : List HeapRegion) (h : Heap) (objs : Set Obj) : Arena where
  mem := h.mem
  live := h.allocated
  inHeap := h.contains
  outside := Stored external
  objs := objs
  source := h.young.contains
  region := h.old

/-- A major collection copies both regions into a fresh one. -/
def majorArena (sys : SystemAllocator) (external : List HeapRegion) (h : Heap) (objs : Set Obj) :
    Arena where
  mem := h.mem.zero (freshOldRegion sys external h).base (freshOldRegion sys external h).capacity
  live := h.allocated
  inHeap := h.contains
  outside := Stored external
  objs := objs
  source := h.contains
  region := freshOldRegion sys external h

theorem Intact.minor_ready (hI : Intact external h objs) : (minorArena external h objs).Ready where
  wf := hI.wf
  live_inHeap := fun a ha => hI.contains_of_allocated ha
  source_inHeap := fun a ha => Heap.contains_iff.mpr (.inl ha)
  used_le := hI.old_le
  source_apart := fun a ha => not_contains_of_apart hI.apart.symm ha
  objs_apart := by
    intro o ho i hi hin
    have hall := hI.wf.extent o ho i hi
    have hyw := hI.young_le
    have hap := hI.apart
    rw [Heap.allocated_iff] at hall
    simp only [HeapRegion.allocated_iff] at hall
    unfold Arena.start minorArena at hin
    unfold HeapRegion.Apart at hap
    dsimp only at hin
    omega
  outside_apart := by
    intro a hin hout hnew
    obtain ⟨r, hr, ha⟩ := hout
    have hap := (hI.external_apart r hr).2
    rw [HeapRegion.contains_iff] at ha
    unfold Arena.start minorArena at hnew
    unfold HeapRegion.Apart at hap
    dsimp only at hnew
    omega

section Fresh

variable (sys : SystemAllocator)

theorem fresh_apart {r : HeapRegion} (hr : r ∈ h.young :: h.old :: external) :
    r.Apart (freshOldRegion sys external h) :=
  sys.apart (h.young :: h.old :: external) _ r hr

/-- The fresh region shares no address with the heap. -/
theorem fresh_not_contains {a : ℕ} (ha : (freshOldRegion sys external h).contains a = true) :
    h.contains a = false := by
  have hyoung : h.young ∈ h.young :: h.old :: external := by simp
  have hold : h.old ∈ h.young :: h.old :: external := by simp
  have hy := not_contains_of_apart (fresh_apart sys hyoung).symm ha
  have ho := not_contains_of_apart (fresh_apart sys hold).symm ha
  simp only [Heap.contains, hy, ho, Bool.or_self]

theorem zero_of_not_contains {mem : Memory} {r : HeapRegion} {a : ℕ} (ha : r.contains a = false) :
    mem.zero r.base r.capacity a = mem a := by
  unfold Memory.zero
  rw [if_neg]
  intro hin
  rw [HeapRegion.contains_iff.mpr hin] at ha
  cases ha

theorem Intact.zero_fresh (hI : Intact external h objs) {o : Obj} (ho : o ∈ objs) {i : ℕ}
    (hi : i < o.words h.mem) :
    (majorArena sys external h objs).mem (o.addr + i) = h.mem (o.addr + i) := by
  refine zero_of_not_contains ?_
  by_contra hc
  have hnot := fresh_not_contains sys (by simpa using hc)
  rw [hI.word_contains ho hi] at hnot
  cases hnot

theorem Intact.major_ready (hI : Intact external h objs) :
    (majorArena sys external h objs).Ready where
  wf := hI.wf.congr (fun o ho i hi => hI.zero_fresh sys ho hi) hI.wf.extent
    (fun o ho => hI.contains_of_allocated (hI.wf.live_addr ho)) (fun _ ha => hI.stored ha)
  live_inHeap := fun a ha => hI.contains_of_allocated ha
  source_inHeap := fun _ ha => ha
  used_le := Nat.zero_le _
  source_apart := fun _ ha => fresh_not_contains sys ha
  objs_apart := by
    intro o ho i hi hin
    have hshape := Obj.shape_eq (b := o.addr) (hI.wf.laidOut o ho)
      fun i hi _ => hI.zero_fresh sys ho hi
    have hc := hI.word_contains ho (hshape.1 ▸ hi)
    have hstart : (freshOldRegion sys external h).base ≤ o.addr + i :=
      le_trans (Nat.le_add_right _ _) hin.1
    rw [fresh_not_contains sys (HeapRegion.contains_iff.mpr ⟨hstart, hin.2⟩)] at hc
    cases hc
  outside_apart := by
    intro a hin hout hnew
    obtain ⟨r, hr, ha⟩ := hout
    have hap := fresh_apart (h := h) sys (show r ∈ h.young :: h.old :: external by simp [hr])
    have hnot := not_contains_of_apart hap ha
    have hstart : (freshOldRegion sys external h).base ≤ a := le_trans (Nat.le_add_right _ _) hnew.1
    rw [HeapRegion.contains_iff.mpr ⟨hstart, hnew.2⟩] at hnot
    cases hnot

end Fresh

end Beamr.Gc
