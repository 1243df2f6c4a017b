import Beamr.Gc.Collect
import Beamr.Lib.ObjectGraph

/-!
# Heap objects

Objects of a heap, the graph they form and what makes a heap well formed. An object is known
by its address and by whether it is a cons cell or has a header; its size and the positions
of its terms are read from memory.
-/
namespace Beamr.Gc

open Beamr

inductive ObjKind
  | cons
  | boxed
  deriving DecidableEq, Repr

/-- The kind of object a pointer term claims to point to. -/
def kindOf (t : Term) : ObjKind := if t.isList then .cons else .boxed

structure Obj where
  addr : ℕ
  kind : ObjKind
  deriving DecidableEq, Repr

namespace Obj

/-- The pointer to an object. -/
def term (o : Obj) : Term :=
  match o.kind with
  | .cons => .listPtr o.addr
  | .boxed => .boxedPtr o.addr

def words (mem : Memory) (o : Obj) : ℕ :=
  match o.kind with
  | .cons => 2
  | .boxed => 1 + BoxedHeader.size (mem o.addr)

/-- Positions of the terms of an object. -/
def offsets (mem : Memory) (o : Obj) : List ℕ :=
  match o.kind with
  | .cons => [0, 1]
  | .boxed =>
    match BoxedHeader.tag (mem o.addr) with
    | none => []
    | some tag => fieldOffsets mem o.addr tag

def field (mem : Memory) (o : Obj) (offset : ℕ) : Term := ⟨mem (o.addr + offset)⟩

end Obj

/-- First position behind the words that hold terms, count them or hold a reference count. -/
def fieldsEnd (mem : Memory) (ptr : ℕ) : BoxedTag → ℕ
  | .tuple => 1 + BoxedHeader.size (mem ptr)
  | .closure => 7 + mem (ptr + 4)
  | .map => 2 + 2 * mem (ptr + 1)
  | .matchContext => 4
  | .subBinary | .fdResource => 2
  | .procBin => 3
  | _ => 1

/-- A known header whose fields lie inside the object. -/
def Obj.LaidOut (mem : Memory) (o : Obj) : Prop :=
  o.kind = .boxed → ∃ tag, BoxedHeader.tag (mem o.addr) = some tag ∧
    fieldsEnd mem o.addr tag ≤ o.words mem

/-- Everything about an object that is no term. -/
structure Label where
  kind : ObjKind
  data : List ℕ
  deriving DecidableEq, Repr

def Obj.label (mem : Memory) (o : Obj) : Label where
  kind := o.kind
  data := (List.range (o.words mem)).map fun i =>
    if i ∈ o.offsets mem then 0 else mem (o.addr + i)

def Obj.fields (mem : Memory) (o : Obj) : List Term := (o.offsets mem).map (o.field mem)

/-- The graph of the objects at live addresses. -/
def graph (mem : Memory) (live : ℕ → Bool) : ObjectGraph Term Label where
  node t :=
    match t.heapPtr with
    | none => none
    | some a =>
      if live a then some ((Obj.mk a (kindOf t)).label mem, (Obj.mk a (kindOf t)).fields mem)
      else none

/-! ## Pointers -/

theorem Obj.heapPtr_term (o : Obj) : o.term.heapPtr = some o.addr := by
  obtain ⟨a, kind⟩ := o
  cases kind with
  | cons => exact Term.heapPtr_listPtr a
  | boxed => exact Term.heapPtr_boxedPtr a

theorem Obj.kindOf_term (o : Obj) : kindOf o.term = o.kind := by
  obtain ⟨a, kind⟩ := o
  cases kind with
  | cons => simp [kindOf, term, Term.isList_listPtr]
  | boxed => simp [kindOf, term, Term.isList_boxedPtr]

theorem termFromPtrLike_eq (t : Term) (a : ℕ) : termFromPtrLike t a = (Obj.mk a (kindOf t)).term := by
  unfold termFromPtrLike kindOf Obj.term
  cases t.isList <;> rfl

/-- A pointer is determined by its address and kind. -/
theorem term_of_heapPtr {t : Term} {a : ℕ} (h : t.heapPtr = some a) :
    t = (Obj.mk a (kindOf t)).term := by
  unfold Term.heapPtr at h
  split_ifs at h with hptr
  obtain rfl := Option.some.inj h
  obtain ⟨raw⟩ := t
  simp only [Bool.or_eq_true, Term.isBoxed, Term.isList, beq_iff_eq, Term.boxedTag,
    Term.listTag] at hptr
  rcases hptr with hb | hl
  · have hk : kindOf ⟨raw⟩ = .boxed := by simp [kindOf, Term.isList, hb, Term.listTag]
    simp only [hk, Obj.term, Term.boxedPtr, Term.boxedTag, Term.mk.injEq]
    omega
  · have hk : kindOf ⟨raw⟩ = .cons := by simp [kindOf, Term.isList, hl, Term.listTag]
    simp only [hk, Obj.term, Term.listPtr, Term.listTag, Term.mk.injEq]
    omega

theorem Obj.term_injective {o o' : Obj} (h : o.term = o'.term) : o = o' := by
  have ha := congrArg Term.heapPtr h
  have hk := congrArg kindOf h
  rw [heapPtr_term, heapPtr_term] at ha
  rw [kindOf_term, kindOf_term] at hk
  obtain ⟨a, k⟩ := o
  obtain ⟨a', k'⟩ := o'
  obtain rfl := Option.some.inj ha
  obtain rfl := hk
  rfl

theorem Obj.words_pos (mem : Memory) (o : Obj) : 0 < o.words mem := by
  unfold words
  cases o.kind with
  | cons => norm_num
  | boxed => dsimp only; omega

theorem objectSize_eq {mem : Memory} {t : Term} {a : ℕ} (h : t.heapPtr = some a)
    (hlaid : (Obj.mk a (kindOf t)).LaidOut mem) :
    objectSize mem t = .ok (some ((Obj.mk a (kindOf t)).words mem)) := by
  unfold objectSize
  by_cases hl : t.isList
  · simp [hl, kindOf, Obj.words]
  · have hk : kindOf t = .boxed := by simp [kindOf, hl]
    have hb : t.isBoxed = true := by
      unfold Term.heapPtr at h
      split_ifs at h with hptr
      simpa [hl] using hptr
    obtain ⟨tag, htag, -⟩ := hlaid hk
    simp only at htag
    simp [hl, hb, h, htag, hk, Obj.words]

/-! ## Shapes -/

theorem lt_fieldsEnd {mem : Memory} {ptr i : ℕ} {tag : BoxedTag}
    (h : i ∈ fieldOffsets mem ptr tag) : i < fieldsEnd mem ptr tag := by
  cases tag <;> simp [fieldOffsets, fieldsEnd] at h ⊢ <;> omega

theorem zero_notMem_fieldOffsets {mem : Memory} {ptr : ℕ} {tag : BoxedTag} :
    0 ∉ fieldOffsets mem ptr tag := by
  cases tag <;> simp [fieldOffsets]

theorem Obj.offset_lt {mem : Memory} {o : Obj} (h : o.LaidOut mem) {i : ℕ}
    (hi : i ∈ o.offsets mem) : i < o.words mem := by
  unfold offsets at hi
  cases hk : o.kind with
  | cons =>
    rw [hk] at hi
    simp at hi
    unfold words
    rw [hk]
    dsimp only
    omega
  | boxed =>
    obtain ⟨tag, htag, hend⟩ := h hk
    rw [hk] at hi
    simp only [htag] at hi
    exact (lt_fieldsEnd hi).trans_le hend

/-- An object at `b` that agrees with the object `o` outside the terms has the same shape. -/
theorem Obj.shape_eq {mem mem' : Memory} {o : Obj} {b : ℕ} (hlaid : o.LaidOut mem)
    (h : ∀ i < o.words mem, i ∉ o.offsets mem → mem' (b + i) = mem (o.addr + i)) :
    (Obj.mk b o.kind).words mem' = o.words mem ∧ (Obj.mk b o.kind).offsets mem' = o.offsets mem ∧
      (Obj.mk b o.kind).LaidOut mem' := by
  obtain ⟨a, kind⟩ := o
  cases kind with
  | cons => exact ⟨rfl, rfl, by intro hk; cases hk⟩
  | boxed =>
    obtain ⟨tag, htag, hend⟩ := hlaid rfl
    simp only at htag hend
    have hpos := Obj.words_pos mem ⟨a, .boxed⟩
    have hoff : (Obj.mk a .boxed).offsets mem = fieldOffsets mem a tag := by
      simp only [offsets, htag]
    rw [hoff] at h
    have h0 : mem' b = mem a := h 0 hpos zero_notMem_fieldOffsets
    have hwords : (Obj.mk b .boxed).words mem' = (Obj.mk a .boxed).words mem := by
      simp only [words, h0]
    -- the words that count the fields are no fields themselves
    have hsame : fieldOffsets mem' b tag = fieldOffsets mem a tag ∧
        fieldsEnd mem' b tag = fieldsEnd mem a tag := by
      cases tag with
      | tuple => simp only [fieldOffsets, fieldsEnd, h0, and_self]
      | closure =>
        have h4 : mem' (b + 4) = mem (a + 4) := by
          refine h 4 ?_ (by simp [fieldOffsets]; omega)
          have hle : 7 + mem (a + 4) ≤ (Obj.mk a .boxed).words mem := hend
          omega
        simp only [fieldOffsets, fieldsEnd, h4, and_self]
      | map =>
        have h1 : mem' (b + 1) = mem (a + 1) := by
          refine h 1 ?_ (by simp [fieldOffsets]; omega)
          have hle : 2 + 2 * mem (a + 1) ≤ (Obj.mk a .boxed).words mem := hend
          omega
        simp only [fieldOffsets, fieldsEnd, h1, and_self]
      | _ => exact ⟨rfl, rfl⟩
    refine ⟨hwords, ?_, ?_⟩
    · rw [hoff, ← hsame.1]
      simp only [offsets, h0, htag]
    · intro _
      refine ⟨tag, by rw [h0]; exact htag, ?_⟩
      rw [hwords]
      exact hsame.2.trans_le hend

theorem Obj.label_eq {mem mem' : Memory} {o : Obj} {b : ℕ} (hlaid : o.LaidOut mem)
    (h : ∀ i < o.words mem, i ∉ o.offsets mem → mem' (b + i) = mem (o.addr + i)) :
    (Obj.mk b o.kind).label mem' = o.label mem := by
  obtain ⟨hwords, hoff, -⟩ := shape_eq hlaid h
  unfold label
  rw [hwords, hoff]
  congr 1
  refine List.map_congr_left fun i hi => ?_
  by_cases hmem : i ∈ o.offsets mem
  · rw [if_pos hmem, if_pos hmem]
  · rw [if_neg hmem, if_neg hmem]
    exact h i (List.mem_range.mp hi) hmem

/-! ## Well-formed heaps -/

section Heap

variable (inHeap : ℕ → Bool) (outside : ℕ → Prop) (objs : Set Obj)

/-- A term that is data, or points to an object of the heap or to storage outside it. -/
def Valid (t : Term) : Prop :=
  ∀ a, t.heapPtr = some a →
    (inHeap a = true ∧ Obj.mk a (kindOf t) ∈ objs) ∨ (inHeap a = false ∧ outside a)

/-- `objs` are the objects of a heap: laid out, apart from each other, inside the live words,
and with valid fields. -/
structure WellFormed (mem : Memory) (live : ℕ → Bool) : Prop where
  extent : ∀ o ∈ objs, ∀ i < o.words mem, live (o.addr + i) = true
  laidOut : ∀ o ∈ objs, o.LaidOut mem
  apart : ∀ o ∈ objs, ∀ o' ∈ objs, o ≠ o' →
    o.addr + o.words mem ≤ o'.addr ∨ o'.addr + o'.words mem ≤ o.addr
  fields : ∀ o ∈ objs, ∀ i ∈ o.offsets mem, Valid inHeap outside objs (o.field mem i)

end Heap

variable {inHeap live : ℕ → Bool} {outside : ℕ → Prop} {objs : Set Obj} {mem : Memory}

theorem WellFormed.live_addr (h : WellFormed inHeap outside objs mem live) {o : Obj}
    (ho : o ∈ objs) : live o.addr = true := h.extent o ho 0 (o.words_pos mem)

theorem graph_node_of_live {t : Term} {a : ℕ} (h : t.heapPtr = some a) (hl : live a = true) :
    (graph mem live).node t =
      some ((Obj.mk a (kindOf t)).label mem, (Obj.mk a (kindOf t)).fields mem) := by
  simp only [graph, h, hl, if_true]

theorem graph_node_of_dead {t : Term} {a : ℕ} (h : t.heapPtr = some a) (hl : live a = false) :
    (graph mem live).node t = none := by simp only [graph, h, hl, Bool.false_eq_true, if_false]

theorem graph_node_of_data {t : Term} (h : t.heapPtr = none) : (graph mem live).node t = none := by
  simp only [graph, h]

end Beamr.Gc
