import Beamr.Gc.CloneGraph
import Beamr.Gc.EnsureSpace

/-!
# Cloned processes

A clone is a copy when every pointer in it refers to its own regions, every term denotes what
the term of the original denotes and every data word is the same. Which words of an object are
terms is known from its header, or from its being a cons cell; the rebase goes by the first
word of an allocation alone. A clone is a copy exactly when the two agree on the pointers into
the heap and the root fields that are not rebased hold none.
-/
namespace Beamr.Gc

open Beamr ObjectGraph

/-! ## What a copy is -/

/-- Root fields that a clone rebases. -/
def visitedSlots (p : Process) : List Term :=
  p.xRegs ++ p.frames.flatten ++ p.mailbox.scanList ++ p.rawLocations ++
    (p.currentException.toList.flatMap fun e => [e.cls, e.reason, e.stacktrace]) ++
    p.dictionary.flatMap pairTerms ++ [p.groupLeader]

/-- Root fields that a clone takes over as they are. -/
def leftOut (p : Process) : List Term :=
  p.nativeRoots ++ p.nativeContinuations.flatMap NativeContinuation.forEachTerm ++
    (p.mailbox.recvMarker.map Prod.fst).toList

def slots (p : Process) : List Term := visitedSlots p ++ leftOut p

/-- A pointer of the clone refers to the clone's regions, or is the original's pointer to
storage outside its heap. -/
def Own (p q : Process) (t t' : Term) : Prop :=
  ∀ a, t'.heapPtr = some a → q.heap.contains a = true ∨ (p.heap.contains a = false ∧ t' = t)

/-- `q` is a copy of `p`, whose heap has the objects `objs`. -/
structure Copied (external : List HeapRegion) (objs : Set Obj) (p q : Process) : Prop where
  roots : List.Forall₂ (Own p q) (slots p) (slots q)
  structures : List.Forall₂ (fun t t' => Valid p.heap.contains (Stored external) objs t →
    SameStructure (heapGraph p) (heapGraph q) t t') (slots p) (slots q)
  pointers : ∀ o ∈ objs, ∀ i ∈ o.offsets p.heap.mem, Own p q (o.field p.heap.mem i)
    ⟨q.heap.mem (cloneAddress p.heap q.heap (o.addr + i))⟩
  data : ∀ o ∈ objs, ∀ i < o.words p.heap.mem, i ∉ o.offsets p.heap.mem →
    q.heap.mem (cloneAddress p.heap q.heap (o.addr + i)) = p.heap.mem (o.addr + i)

/-- The first words of the allocations declare every pointer into the heap and no data word
that looks like one; the root fields left out point elsewhere. -/
structure Rebasable (objs : Set Obj) (p : Process) : Prop where
  pointers : ∀ o ∈ objs, ∀ i ∈ o.offsets p.heap.mem,
    Declared p.heap (o.addr + i) ∨ Avoids p.heap.contains (o.field p.heap.mem i)
  data : ∀ o ∈ objs, ∀ i < o.words p.heap.mem, i ∉ o.offsets p.heap.mem →
    Declared p.heap (o.addr + i) → Avoids p.heap.contains (o.field p.heap.mem i)
  leftOut : ∀ t ∈ leftOut p, Avoids p.heap.contains t

/-! ## What the header declares -/

/-- A cons cell whose head is no header. -/
theorem declaredOffsets_cons {mem : Memory} {ptr : ℕ} (h : BoxedHeader.tag (mem ptr) = none) :
    declaredOffsets mem ptr 2 = [0, 1] := by simp only [declaredOffsets, h, lt_irrefl, if_false]

/-! ## Rebased terms -/

section Terms

variable {sys : SystemAllocator} {external : List HeapRegion} {h : Heap} {objs : Set Obj}
  {t : Term} {a : ℕ}

/-- The rebase of one term for the clone of `h`. -/
def rebased (sys : SystemAllocator) (external : List HeapRegion) (h : Heap) (t : Term) : Term :=
  (clonedHeap sys external h).rebaseTermFrom t h

theorem isBoxed_eq_not_isList (ht : t.heapPtr = some a) :
    (if t.isBoxed = true then ObjKind.boxed else .cons) = kindOf t := by
  unfold Term.heapPtr at ht
  split_ifs at ht with hptr
  unfold kindOf
  cases hb : t.isBoxed with
  | true =>
    have hl : t.isList = false := by
      simp only [Term.isBoxed, Term.isList, Term.boxedTag, Term.listTag, beq_iff_eq,
        beq_eq_false_iff_ne] at hb ⊢
      omega
    rw [hl]
    rfl
  | false =>
    rw [hb, Bool.false_or] at hptr
    rw [hptr]
    rfl

theorem rebaseTerm_of_find {mappings : List RebaseMapping} {m : RebaseMapping}
    (ht : t.heapPtr = some a) (hm : mappings.find? (·.covers a) = some m) :
    rebaseTerm mappings t = some (Obj.mk (m.cloned + (a - m.original)) (kindOf t)).term := by
  simp only [rebaseTerm, ht, hm, ← isBoxed_eq_not_isList ht]
  cases t.isBoxed <;> rfl

variable (sys external) in
theorem rebased_inside (ht : t.heapPtr = some a) (ha : h.contains a = true) :
    rebased sys external h t =
      (Obj.mk (cloneAddress h (clonedHeap sys external h) a) (kindOf t)).term := by
  by_cases hy : h.young.contains a = true
  · have hfind : (cloneMappings sys external h).find? (·.covers a) =
        some ⟨h.young.base, (clonedHeap sys external h).young.base, h.young.capacity⟩ :=
      List.find?_cons_of_pos hy
    rw [rebased, Heap.rebaseTermFrom, rebaseTerm_of_find ht hfind, cloneAddress_young hy]
    rfl
  · have hold := (Heap.contains_iff.mp ha).resolve_left hy
    have hfind : (cloneMappings sys external h).find? (·.covers a) =
        some ⟨h.old.base, (clonedHeap sys external h).old.base, h.old.capacity⟩ := by
      rw [cloneMappings, Heap.rebaseMappings, List.find?_cons_of_neg (by exact hy)]
      exact List.find?_cons_of_pos hold
    rw [rebased, Heap.rebaseTermFrom, rebaseTerm_of_find ht hfind,
      cloneAddress_old (Bool.eq_false_iff.mpr hy)]
    rfl

theorem rebaseTerm_avoids {mappings : List RebaseMapping}
    (ht : ∀ a, t.heapPtr = some a → ∀ m ∈ mappings, m.covers a = false) :
    rebaseTerm mappings t = none := by
  unfold rebaseTerm
  cases hptr : t.heapPtr with
  | none => rfl
  | some a =>
    have hfind : mappings.find? (·.covers a) = none :=
      List.find?_eq_none.mpr fun m hm => Bool.eq_false_iff.mp (ht a hptr m hm)
    simp only [hfind]

theorem rebased_avoids (ht : Avoids h.contains t) : rebased sys external h t = t := by
  have hnone : rebaseTerm (cloneMappings sys external h) t = none := by
    refine rebaseTerm_avoids fun a ha m hm => ?_
    have hout := Bool.or_eq_false_iff.mp (ht a ha)
    rcases List.mem_cons.mp hm with rfl | hm
    · exact hout.1
    · obtain rfl := List.mem_singleton.mp hm
      exact hout.2
  rw [rebased, Heap.rebaseTermFrom, hnone]
  rfl

/-- A word is rebased as the term it is. -/
theorem rebaseTermWord_eq (w : ℕ) :
    rebaseTermWord (cloneMappings sys external h) w = (rebased sys external h ⟨w⟩).raw := by
  unfold rebaseTermWord rebased Heap.rebaseTermFrom
  cases rebaseTerm (cloneMappings sys external h) ⟨w⟩ <;> rfl

variable (sys external) in
/-- Only pointers into the heap are changed. -/
theorem rebased_eq_self_iff : rebased sys external h t = t ↔ Avoids h.contains t := by
  refine ⟨fun heq a ha => ?_, rebased_avoids⟩
  by_contra hin
  rw [Bool.not_eq_false] at hin
  rw [rebased_inside sys external ha hin] at heq
  have hptr := congrArg Term.heapPtr heq
  rw [Obj.heapPtr_term, ha] at hptr
  have hout := cloned_disjoint sys external hin
  rw [← Option.some.inj hptr, cloned_contains hin] at hout
  cases hout

end Terms

/-! ## Root fields -/

section Slots

variable {sys : SystemAllocator} {external : List HeapRegion} {p : Process} {t : Term}

theorem visitedSlots_clone : visitedSlots (p.clone sys external) =
    (visitedSlots p).map (rebased sys external p.heap) := by
  have hdictionary : ∀ entries : List (Term × Term),
      (entries.map fun e =>
        (rebased sys external p.heap e.1, rebased sys external p.heap e.2)).flatMap pairTerms =
          (entries.flatMap pairTerms).map (rebased sys external p.heap) := by
    intro entries
    rw [List.flatMap_map, List.map_flatMap]
    rfl
  have hexception : ∀ e : Option Exception,
      ((e.map fun e => Exception.mk (rebased sys external p.heap e.cls)
        (rebased sys external p.heap e.reason)
        (rebased sys external p.heap e.stacktrace)).toList.flatMap
          fun e => [e.cls, e.reason, e.stacktrace]) =
        (e.toList.flatMap fun e => [e.cls, e.reason, e.stacktrace]).map
          (rebased sys external p.heap) := by
    intro e
    cases e <;> rfl
  have hframes : ∀ frames : List (List Term),
      (frames.map fun frame => frame.map (rebased sys external p.heap)).flatten =
        frames.flatten.map (rebased sys external p.heap) := fun frames => List.map_flatten.symm
  simp only [visitedSlots, List.map_append, ← hdictionary, ← hexception, ← hframes]
  rfl

theorem leftOut_clone : leftOut (p.clone sys external) = leftOut p := rfl

/-- Slot by slot, for a relation that the rebase establishes. -/
theorem forall₂_slots {R : Term → Term → Prop}
    (h : ∀ t, R t (rebased sys external p.heap t)) :
    List.Forall₂ R (slots p) (slots (p.clone sys external)) ↔ ∀ t ∈ leftOut p, R t t := by
  unfold slots
  rw [visitedSlots_clone, leftOut_clone, forall₂_append_iff (by rw [List.length_map]),
    List.forall₂_same]
  refine and_iff_right ?_
  rw [List.forall₂_map_right_iff, List.forall₂_same]
  exact fun t _ => h t

theorem own_rebased (p : Process) (t : Term) :
    Own p (p.clone sys external) t (rebased sys external p.heap t) := by
  intro b hb
  by_cases hav : Avoids p.heap.contains t
  · rw [rebased_avoids hav] at hb ⊢
    exact .inr ⟨hav b hb, rfl⟩
  · unfold Avoids at hav
    push Not at hav
    obtain ⟨a, ha, hne⟩ := hav
    have hin := Bool.eq_true_of_not_eq_false hne
    rw [rebased_inside sys external ha hin, Obj.heapPtr_term] at hb
    obtain rfl := Option.some.inj hb
    exact .inl (cloned_contains hin)

/-- A term taken over as it is keeps its pointer to the original. -/
theorem own_self_iff : Own p (p.clone sys external) t t ↔ Avoids p.heap.contains t := by
  constructor
  · intro hown a ha
    rcases hown a ha with hq | ⟨hout, -⟩
    · by_contra hin
      rw [Bool.not_eq_false] at hin
      have hdisjoint := cloned_disjoint sys external hin
      have hq' : (clonedHeap sys external p.heap).contains a = true := hq
      rw [hq'] at hdisjoint
      cases hdisjoint
    · exact hout
  · exact fun hav a ha => .inr ⟨hav a ha, rfl⟩

end Slots

/-! ## Words of objects -/

section Objects

variable {sys : SystemAllocator} {external : List HeapRegion} {p : Process} {objs : Set Obj}
  {o : Obj} {i : ℕ}

theorem own_pointer_iff (hI : Intact external p.heap objs) (ho : o ∈ objs)
    (hi : i < o.words p.heap.mem) :
    Own p (p.clone sys external) (o.field p.heap.mem i)
      ⟨(p.clone sys external).heap.mem
        (cloneAddress p.heap (p.clone sys external).heap (o.addr + i))⟩ ↔
      Declared p.heap (o.addr + i) ∨ Avoids p.heap.contains (o.field p.heap.mem i) := by
  have hword := clone_word sys hI (hI.word_contains ho hi)
  by_cases hd : Declared p.heap (o.addr + i)
  · have heq : Term.mk ((p.clone sys external).heap.mem
        (cloneAddress p.heap (p.clone sys external).heap (o.addr + i))) =
          rebased sys external p.heap (o.field p.heap.mem i) :=
      congrArg Term.mk ((hword.1 hd).trans (rebaseTermWord_eq _))
    rw [heq]
    exact iff_of_true (own_rebased p _) (.inl hd)
  · have heq : Term.mk ((p.clone sys external).heap.mem
        (cloneAddress p.heap (p.clone sys external).heap (o.addr + i))) =
          o.field p.heap.mem i := congrArg Term.mk (hword.2 hd)
    rw [heq, own_self_iff]
    exact (or_iff_right hd).symm

theorem data_word_iff (hI : Intact external p.heap objs) (ho : o ∈ objs)
    (hi : i < o.words p.heap.mem) :
    (p.clone sys external).heap.mem
      (cloneAddress p.heap (p.clone sys external).heap (o.addr + i)) = p.heap.mem (o.addr + i) ↔
      (Declared p.heap (o.addr + i) → Avoids p.heap.contains (o.field p.heap.mem i)) := by
  have hword := clone_word sys hI (hI.word_contains ho hi)
  by_cases hd : Declared p.heap (o.addr + i)
  · have heq : (p.clone sys external).heap.mem
        (cloneAddress p.heap (p.clone sys external).heap (o.addr + i)) =
          (rebased sys external p.heap (o.field p.heap.mem i)).raw :=
      (hword.1 hd).trans (rebaseTermWord_eq _)
    rw [heq, imp_iff_right hd, ← rebased_eq_self_iff sys external]
    exact ⟨fun h => congrArg Term.mk h, fun h => congrArg Term.raw h⟩
  · exact iff_of_true (hword.2 hd) fun h => absurd h hd

/-- An object is cloned in one piece. -/
theorem cloneAddress_add {c : Heap} (hI : Intact external p.heap objs) (ho : o ∈ objs)
    (hi : i < o.words p.heap.mem) :
    cloneAddress p.heap c (o.addr + i) = cloneAddress p.heap c o.addr + i := by
  by_cases hy : p.heap.young.contains o.addr = true
  · rw [cloneAddress_young hy, cloneAddress_young (hI.young_word ho hy hi)]
    have hbound := HeapRegion.contains_iff.mp hy
    omega
  · have hyoung := Bool.eq_false_iff.mpr hy
    have hold := hI.old_word ho hyoung hi
    have hout := not_contains_of_apart hI.apart.symm (contains_of_allocated hI.old_le hold)
    rw [cloneAddress_old hyoung, cloneAddress_old hout]
    have hbound := HeapRegion.allocated_iff.mp (hI.old_word ho hyoung (o.words_pos _))
    omega

theorem cloned_allocated (hI : Intact external p.heap objs) (ho : o ∈ objs) :
    (p.clone sys external).heap.allocated
      (cloneAddress p.heap (p.clone sys external).heap o.addr) = true := by
  rw [Heap.allocated_iff]
  by_cases hy : p.heap.young.contains o.addr = true
  · left
    rcases hI.whole o ho with hall | hall
    · have hbound := HeapRegion.allocated_iff.mp (hall 0 (o.words_pos _))
      have hused : (p.clone sys external).heap.young.used = p.heap.young.used := rfl
      rw [cloneAddress_young hy, HeapRegion.allocated_iff]
      omega
    · have hold := contains_of_allocated hI.old_le (hall 0 (o.words_pos _))
      rw [Nat.add_zero, not_contains_of_apart hI.apart hy] at hold
      cases hold
  · right
    have hyoung := Bool.eq_false_iff.mpr hy
    have hbound := HeapRegion.allocated_iff.mp (hI.old_word ho hyoung (o.words_pos _))
    have hused : (p.clone sys external).heap.old.used = p.heap.old.used := rfl
    rw [cloneAddress_old hyoung, HeapRegion.allocated_iff]
    omega

theorem cloned_stored (hI : Intact external p.heap objs) {a : ℕ} (ha : Stored external a) :
    (p.clone sys external).heap.allocated a = false := by
  obtain ⟨r, hr, ha⟩ := ha
  have hout : (clonedHeap sys external p.heap).contains a = false :=
    contains_cloned_false (List.mem_cons_of_mem _ (List.mem_cons_of_mem _ hr)) ha
  have hparts := Bool.or_eq_false_iff.mp hout
  have hyoung := not_allocated_of_not_contains (r := (clonedHeap sys external p.heap).young)
    hI.young_le hparts.1
  have hold := not_allocated_of_not_contains (r := (clonedHeap sys external p.heap).old)
    hI.old_le hparts.2
  exact Bool.or_eq_false_iff.mpr ⟨hyoung, hold⟩

variable (hI : Intact external p.heap objs) (hR : Rebasable objs p)
include hI hR

theorem Rebasable.field (ho : o ∈ objs) (hi : i ∈ o.offsets p.heap.mem) :
    (Obj.mk (cloneAddress p.heap (p.clone sys external).heap o.addr) o.kind).field
      (p.clone sys external).heap.mem i = rebased sys external p.heap (o.field p.heap.mem i) := by
  have hlt := Obj.offset_lt (hI.wf.laidOut o ho) hi
  have hword := clone_word sys hI (hI.word_contains ho hlt)
  have haddr : cloneAddress p.heap (p.clone sys external).heap o.addr + i =
      cloneAddress p.heap (clonedHeap sys external p.heap) (o.addr + i) :=
    (cloneAddress_add hI ho hlt).symm
  unfold Obj.field
  rw [haddr]
  by_cases hd : Declared p.heap (o.addr + i)
  · exact congrArg Term.mk ((hword.1 hd).trans (rebaseTermWord_eq _))
  · have hav := (hR.pointers o ho i hi).resolve_left hd
    exact (congrArg Term.mk (hword.2 hd)).trans (rebased_avoids hav).symm

variable (sys) in
theorem Rebasable.label (ho : o ∈ objs) :
    (Obj.mk (cloneAddress p.heap (p.clone sys external).heap o.addr) o.kind).label
      (p.clone sys external).heap.mem = o.label p.heap.mem ∧
    (Obj.mk (cloneAddress p.heap (p.clone sys external).heap o.addr) o.kind).fields
      (p.clone sys external).heap.mem =
        (o.fields p.heap.mem).map (rebased sys external p.heap) := by
  have hlaid := hI.wf.laidOut o ho
  have hdata : ∀ i < o.words p.heap.mem, i ∉ o.offsets p.heap.mem →
      (p.clone sys external).heap.mem
        (cloneAddress p.heap (p.clone sys external).heap o.addr + i) =
          p.heap.mem (o.addr + i) := by
    intro i hi hdata
    rw [← cloneAddress_add hI ho hi]
    exact (data_word_iff hI ho hi).mpr (hR.data o ho i hi hdata)
  refine ⟨Obj.label_eq hlaid hdata, ?_⟩
  unfold Obj.fields
  rw [(Obj.shape_eq hlaid hdata).2.1, List.map_map]
  exact List.map_congr_left fun i hi => hR.field hI ho hi

variable (sys) in
/-- The rebase carries the objects of the original to objects of the clone. -/
theorem Rebasable.carries : Carries (heapGraph p) (heapGraph (p.clone sys external))
    (rebased sys external p.heap) { t | Valid p.heap.contains (Stored external) objs t } where
  leaf := by
    intro t ht hnode
    have hav : Avoids p.heap.contains t := by
      intro a ha
      rcases ht a ha with ⟨-, ho⟩ | ⟨hout, -⟩
      · rw [heapGraph, graph_node_of_live ha (hI.wf.live_addr ho)] at hnode
        cases hnode
      · exact hout
    rw [rebased_avoids hav]
    refine ⟨?_, rfl⟩
    cases hptr : t.heapPtr with
    | none => exact graph_node_of_data hptr
    | some a =>
      rcases ht a hptr with ⟨hin, -⟩ | ⟨-, hstored⟩
      · rw [hav a hptr] at hin
        cases hin
      · exact graph_node_of_dead hptr (cloned_stored hI hstored)
  node := by
    intro t label fields ht hnode
    cases hptr : t.heapPtr with
    | none =>
      rw [heapGraph, graph_node_of_data hptr] at hnode
      cases hnode
    | some a =>
      rcases ht a hptr with ⟨hin, ho⟩ | ⟨hout, hstored⟩
      · rw [heapGraph, graph_node_of_live hptr (hI.wf.live_addr ho)] at hnode
        obtain ⟨rfl, rfl⟩ := Prod.mk.inj (Option.some.inj hnode)
        obtain ⟨hlabel, hfields⟩ := hR.label sys hI ho
        have hterm := rebased_inside sys external hptr hin
        have hptr' : (rebased sys external p.heap t).heapPtr =
            some (cloneAddress p.heap (p.clone sys external).heap a) := by
          rw [hterm]
          exact Obj.heapPtr_term _
        have hkind : kindOf (rebased sys external p.heap t) = kindOf t := by
          rw [hterm]
          exact Obj.kindOf_term _
        refine ⟨?_, fun u hu => ?_⟩
        · rw [heapGraph, graph_node_of_live hptr' (cloned_allocated hI ho), hkind, hlabel, hfields]
        · obtain ⟨i, hi, rfl⟩ := List.mem_map.mp hu
          exact hI.wf.fields _ ho i hi
      · have hdead : p.heap.allocated a = false := by
          by_contra hlive
          rw [hI.contains_of_allocated (Bool.not_eq_false _ ▸ hlive)] at hout
          cases hout
        rw [heapGraph, graph_node_of_dead hptr hdead] at hnode
        cases hnode

end Objects

/-- A young cell with the word `head` and an old cell behind it. -/
def twoCells (head : ℕ) : Memory := fun a =>
  if a = 16 then head
  else if a = 17 then (Term.listPtr 32).raw
  else if a = 32 ∨ a = 33 then Term.nil.raw
  else 0

def cellObjs : Set Obj := { o | o.kind = .cons ∧ (o.addr = 16 ∨ o.addr = 32) }

def cellProcess (head : ℕ) : Process :=
  smallProcess (smallHeap (twoCells head) 6) firstX (.listPtr 16)

theorem cellObjs_shape {mem : Memory} {o : Obj} (ho : o ∈ cellObjs) :
    o.words mem = 2 ∧ o.offsets mem = [0, 1] ∧ o.LaidOut mem := by
  refine ⟨?_, ?_, fun hk => ?_⟩
  · simp only [Obj.words, ho.1]
  · simp only [Obj.offsets, ho.1]
  · rw [ho.1] at hk
    cases hk

/-- Head and tail of the two cells. -/
theorem cellObjs_field {head : ℕ} {o : Obj} (ho : o ∈ cellObjs) {i : ℕ} (hi : i ∈ [0, 1]) :
    o.field (twoCells head) i = ⟨head⟩ ∨ o.field (twoCells head) i = .nil ∨
      o.field (twoCells head) i = .listPtr 32 ∧ o.addr + i = 17 := by
  obtain ⟨addr, kind⟩ := o
  rcases ho.2 with ha | ha <;> obtain rfl : addr = _ := ha
  · rcases List.mem_pair.mp hi with rfl | rfl
    · exact .inl rfl
    · exact .inr (.inr ⟨rfl, rfl⟩)
  · rcases List.mem_pair.mp hi with rfl | rfl
    · exact .inr (.inl rfl)
    · exact .inr (.inl rfl)

theorem cell_intact {head : ℕ} (hdata : Term.heapPtr ⟨head⟩ = none) :
    Intact [] (cellProcess head).heap cellObjs := by
  have htrack : ∀ base room, Tracked (twoCells head) (smallRegion base room) := by
    intro base room
    exact ⟨by simp [smallRegion], by simp [smallRegion], by simp [smallRegion]⟩
  have hle : ∀ base room, (smallRegion base room).used ≤ (smallRegion base room).capacity := by
    intro base room
    simp [smallRegion]
  have hwhole : ∀ o ∈ cellObjs, (∀ i < 2, (smallRegion 16 6).allocated (o.addr + i) = true) ∨
      ∀ i < 2, (smallRegion 32 6).allocated (o.addr + i) = true := by
    intro o ho
    rcases ho.2 with ha | ha
    · refine .inl fun i hi => HeapRegion.allocated_iff.mpr ?_
      simp only [smallRegion, ha]
      omega
    · refine .inr fun i hi => HeapRegion.allocated_iff.mpr ?_
      simp only [smallRegion, ha]
      omega
  have hap : (smallRegion 16 6).Apart (smallRegion 32 6) := .inl (by simp [smallRegion])
  refine ⟨hle 16 6, hle 32 6, hap, by simp, htrack 16 6, htrack 32 6, ?_, ?_⟩
  · intro o ho
    rw [(cellObjs_shape ho).1]
    exact hwhole o ho
  · constructor
    · intro o ho i hi
      rw [(cellObjs_shape ho).1] at hi
      rw [Heap.allocated_iff]
      exact (hwhole o ho).imp (fun h => h i hi) (fun h => h i hi)
    · exact fun o ho => (cellObjs_shape ho).2.2
    · intro o ho o' ho' hne
      rw [(cellObjs_shape ho).1, (cellObjs_shape ho').1]
      have haddr : o.addr ≠ o'.addr := by
        intro h
        exact hne (Obj.term_injective (by simp only [Obj.term, ho.1, ho'.1, h]))
      rcases ho.2 with h | h <;> rcases ho'.2 with h' | h' <;> omega
    · intro o ho i hi a ha
      rw [(cellObjs_shape ho).2.1] at hi
      change (o.field (twoCells head) i).heapPtr = some a at ha
      rcases cellObjs_field ho hi with hf | hf | ⟨hf, -⟩
      · rw [hf, hdata] at ha
        cases ha
      · rw [hf] at ha
        cases ha
      · rw [hf, Term.heapPtr_listPtr] at ha
        obtain rfl := Option.some.inj ha
        left
        change (smallHeap (twoCells head) 6).contains 32 = true ∧
          Obj.mk 32 (kindOf (o.field (twoCells head) i)) ∈ cellObjs
        rw [hf]
        exact ⟨Heap.contains_iff.mpr (.inr (smallRegion_contains 32 6)), by decide, by decide⟩

end Beamr.Gc
