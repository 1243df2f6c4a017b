import Beamr.Gc.Objects

/-!
# The invariant of a collection

Between two steps of a collection every forwarded object has a copy of its own in the new
part of the destination. The copy agrees with the object outside the terms; each of its terms
is still the object's or has been replaced by the forwarded one, and is replaced once the
copy has left the queue. Nothing outside the new part has changed. This holds as well when
the collection stops half way.
-/
namespace Beamr.Gc

open Beamr

/-- `o` has been copied to `b`. -/
def Copying.Fwd (s : Copying) (o : Obj) (b : ℕ) : Prop :=
  s.forwarding o.addr = some (Obj.mk b o.kind).term

/-- What a collection starts from: memory, the addresses in use, the heap and its objects, the
addresses copied from and the region copied to. -/
structure Arena where
  mem : Memory
  live : ℕ → Bool
  inHeap : ℕ → Bool
  outside : ℕ → Prop
  objs : Set Obj
  source : ℕ → Bool
  region : HeapRegion

namespace Arena

variable (A : Arena)

/-- First address of the new part of the destination. -/
def start : ℕ := A.region.base + A.region.used

/-- Terms that point to objects of the heap or to storage outside. -/
abbrev Ok (t : Term) : Prop := Valid A.inHeap A.outside A.objs t

structure Ready : Prop where
  wf : WellFormed A.inHeap A.outside A.objs A.mem A.live
  live_inHeap : ∀ a, A.live a = true → A.inHeap a = true
  source_inHeap : ∀ a, A.source a = true → A.inHeap a = true
  used_le : A.region.used ≤ A.region.capacity
  source_apart : ∀ a, A.region.contains a = true → A.source a = false
  objs_apart : ∀ o ∈ A.objs, ∀ i < o.words A.mem,
    ¬ (A.start ≤ o.addr + i ∧ o.addr + i < A.region.base + A.region.capacity)
  outside_apart : ∀ a, A.inHeap a = false → A.outside a →
    ¬ (A.start ≤ a ∧ a < A.region.base + A.region.capacity)

/-- `w` is the forwarded word of a term that points into the source. -/
def Moved (s : Copying) (t : Term) (w : ℕ) : Prop :=
  ∃ a t', t.heapPtr = some a ∧ A.source a = true ∧ s.forwarding a = some t' ∧ w = t'.raw

/-- `w` is the final word of a term. -/
def Done (s : Copying) (t : Term) (w : ℕ) : Prop :=
  A.Moved s t w ∨ (w = t.raw ∧ ∀ a, t.heapPtr = some a → A.source a = false)

/-- The invariant, with the positions `todo` of the copy `cur` still to be rewritten. -/
structure Inv (s : Copying) (cur : Term) (todo : List ℕ) : Prop where
  base : s.region.base = A.region.base
  capacity : s.region.capacity = A.region.capacity
  used_ge : A.region.used ≤ s.region.used
  used_le : s.region.used ≤ A.region.capacity
  frame : ∀ a, ¬ (A.start ≤ a ∧ a < A.region.base + s.region.used) → s.mem a = A.mem a
  known : ∀ a t, s.forwarding a = some t →
    A.source a = true ∧ ∃ o ∈ A.objs, o.addr = a ∧ ∃ b, t = (Obj.mk b o.kind).term
  room : ∀ o ∈ A.objs, ∀ b, s.Fwd o b →
    A.start ≤ b ∧ b + o.words A.mem ≤ A.region.base + s.region.used
  apart : ∀ o ∈ A.objs, ∀ o' ∈ A.objs, ∀ b b', s.Fwd o b → s.Fwd o' b' → o ≠ o' →
    b + o.words A.mem ≤ b' ∨ b' + o'.words A.mem ≤ b
  data : ∀ o ∈ A.objs, ∀ b, s.Fwd o b → ∀ i < o.words A.mem, i ∉ o.offsets A.mem →
    s.mem (b + i) = A.mem (o.addr + i)
  half : ∀ o ∈ A.objs, ∀ b, s.Fwd o b → ∀ i ∈ o.offsets A.mem,
    s.mem (b + i) = A.mem (o.addr + i) ∨ A.Moved s (o.field A.mem i) (s.mem (b + i))
  queue : ∀ t ∈ s.queue, ∃ o ∈ A.objs, ∃ b, s.Fwd o b ∧ t = (Obj.mk b o.kind).term
  done : ∀ o ∈ A.objs, ∀ b, s.Fwd o b → (Obj.mk b o.kind).term ∉ s.queue →
    ∀ i ∈ o.offsets A.mem, ((Obj.mk b o.kind).term = cur ∧ i ∈ todo) ∨
      A.Done s (o.field A.mem i) (s.mem (b + i))
  count : ∃ os : List Obj, os.Nodup ∧ (∀ o, o ∈ os ↔ o ∈ A.objs ∧ (s.forwarding o.addr).isSome) ∧
    s.region.used = A.region.used + (os.map (Obj.words A.mem)).sum
  allocs : ∃ new, s.region.allocations = A.region.allocations ++ new ∧
    new.Pairwise (fun x y => x.offset + x.words ≤ y.offset) ∧
    ∀ x ∈ new, A.region.used ≤ x.offset ∧ x.offset + x.words ≤ s.region.used ∧
      (x.kind = .maybeRefcounted → ∃ o ∈ A.objs, s.Fwd o (A.region.base + x.offset) ∧
        o.kind = .boxed ∧ x.words = o.words A.mem)

end Arena

/-- What the collections' allocation functions do. -/
structure AllocSpec (allocate : Allocate) : Prop where
  ok : ∀ {r r' t words a}, allocate r t words = .ok (a, r') →
    r.used + words ≤ r.capacity ∧ a = r.base + r.used ∧ r'.base = r.base ∧
      r'.capacity = r.capacity ∧ r'.used = r.used + words ∧
      ∃ kind, r'.allocations = r.allocations ++ [⟨r.used, words, kind⟩] ∧
        (kind = .maybeRefcounted → t.isBoxed = true)
  full : ∀ {r t words full}, allocate r t words = .error full → r.capacity < r.used + words

theorem allocSpec_fresh : AllocSpec allocateFresh where
  ok := by
    intro r r' t words a h
    unfold allocateFresh at h
    split_ifs at h with hbox
    · obtain ⟨hle, ha, hb, hc, hu, hal⟩ := HeapRegion.allocWithKind_ok h
      exact ⟨hle, ha, hb, hc, hu, _, hal, fun _ => hbox⟩
    · obtain ⟨hle, ha, hb, hc, hu, hal⟩ := HeapRegion.allocWithKind_ok h
      exact ⟨hle, ha, hb, hc, hu, _, hal, by intro hk; cases hk⟩
  full := by
    intro r t words full h
    unfold allocateFresh HeapRegion.alloc HeapRegion.allocWithKind at h
    split_ifs at h <;> omega

theorem markLast_eq {r : HeapRegion} {xs : List Allocation} {x : Allocation}
    (h : r.allocations = xs ++ [x]) :
    r.markLastAllocationMaybeRefcounted =
      { r with allocations := xs ++ [{ x with kind := .maybeRefcounted }] } := by
  unfold HeapRegion.markLastAllocationMaybeRefcounted
  simp only [h, List.getLast?_concat, List.dropLast_concat]

theorem allocSpec_old : AllocSpec allocateOld where
  ok := by
    intro r r' t words a h
    unfold allocateOld at h
    by_cases hfull : r.available < words
    · rw [if_pos hfull] at h
      cases h
    rw [if_neg hfull] at h
    cases halloc : r.alloc words with
    | error full => rw [halloc] at h; cases h
    | ok res =>
      obtain ⟨dst, region⟩ := res
      rw [halloc] at h
      obtain ⟨hle, hdst, hb, hc, hu, hal⟩ := HeapRegion.allocWithKind_ok halloc
      obtain ⟨rfl, rfl⟩ := Prod.mk.inj (Except.ok.inj h)
      by_cases hbox : t.isBoxed = true
      · rw [if_pos hbox, markLast_eq hal]
        exact ⟨hle, hdst, hb, hc, hu, .maybeRefcounted, rfl, fun _ => hbox⟩
      · rw [if_neg hbox]
        exact ⟨hle, hdst, hb, hc, hu, _, hal, by intro hk; cases hk⟩
  full := by
    intro r t words full h
    unfold allocateOld at h
    by_cases hfull : r.available < words
    · unfold HeapRegion.available at hfull
      omega
    rw [if_neg hfull] at h
    cases halloc : r.alloc words with
    | error full' =>
      unfold HeapRegion.alloc HeapRegion.allocWithKind at halloc
      split_ifs at halloc with hover
      exact hover
    | ok res => rw [halloc] at h; cases h

namespace Arena

variable {A : Arena} {s s' : Copying} {cur : Term} {todo : List ℕ}

/-- Forwarding addresses are never taken back. -/
def Extends (s' s : Copying) : Prop := ∀ a t, s.forwarding a = some t → s'.forwarding a = some t

theorem Extends.refl (s : Copying) : Extends s s := fun _ _ h => h

theorem Extends.trans {s₁ s₂ s₃ : Copying} (h : Extends s₃ s₂) (h' : Extends s₂ s₁) :
    Extends s₃ s₁ := fun a t ha => h a t (h' a t ha)

theorem Moved.mono (hx : Extends s' s) {t : Term} {w : ℕ} (h : A.Moved s t w) : A.Moved s' t w := by
  obtain ⟨a, t', ha, hsrc, hf, hw⟩ := h
  exact ⟨a, t', ha, hsrc, hx a t' hf, hw⟩

theorem Done.mono (hx : Extends s' s) {t : Term} {w : ℕ} (h : A.Done s t w) : A.Done s' t w :=
  h.imp_left (Moved.mono hx)

/-- Distinct objects have distinct addresses. -/
theorem Ready.obj_eq (hA : A.Ready) {o o' : Obj} (ho : o ∈ A.objs) (ho' : o' ∈ A.objs)
    (h : o.addr = o'.addr) : o = o' := by
  by_contra hne
  have hpos := o.words_pos A.mem
  have hpos' := o'.words_pos A.mem
  rcases hA.wf.apart o ho o' ho' hne with hle | hle <;> omega

theorem fwd_unique {o : Obj} {b b' : ℕ} (h : s.Fwd o b) (h' : s.Fwd o b') : b = b' := by
  have ht := Option.some.inj (h.symm.trans h')
  exact congrArg Obj.addr (Obj.term_injective ht)

/-- Distinct objects have distinct copies. -/
theorem Inv.obj_eq (hs : A.Inv s cur todo) {o o' : Obj} {b : ℕ} (ho : o ∈ A.objs)
    (ho' : o' ∈ A.objs) (h : s.Fwd o b) (h' : s.Fwd o' b) : o = o' := by
  by_contra hne
  have hpos := o.words_pos A.mem
  have hpos' := o'.words_pos A.mem
  rcases hs.apart o ho o' ho' b b h h' hne with hle | hle <;> omega

theorem Inv.cur_irrelevant (hs : A.Inv s cur []) (cur' : Term) : A.Inv s cur' [] :=
  { hs with
    done := by
      intro o ho b hf hq i hi
      rcases hs.done o ho b hf hq i hi with ⟨-, hmem⟩ | hd
      · cases hmem
      · exact .inr hd }

/-- Objects keep their words during a collection. -/
theorem Inv.mem_obj (hA : A.Ready) (hs : A.Inv s cur todo) {o : Obj} (ho : o ∈ A.objs) {i : ℕ}
    (hi : i < o.words A.mem) : s.mem (o.addr + i) = A.mem (o.addr + i) := by
  refine hs.frame _ fun hin => hA.objs_apart o ho i hi ⟨hin.1, ?_⟩
  have := hs.used_le
  omega

/-! ## One copy -/

section AddCopy

variable {t : Term} {o : Obj} {region : HeapRegion}

theorem fwd_addCopy (hA : A.Ready) (ho : o ∈ A.objs) (ht : t.heapPtr = some o.addr)
    (hk : kindOf t = o.kind) {words dst : ℕ} {o' : Obj} (ho' : o' ∈ A.objs) {b : ℕ} :
    (s.addCopy t o.addr words dst region).Fwd o' b ↔
      (o' = o ∧ b = dst) ∨ (o' ≠ o ∧ s.Fwd o' b) := by
  unfold Copying.Fwd Copying.addCopy
  dsimp only
  by_cases hsame : o' = o
  · subst hsame
    rw [if_pos rfl, termFromPtrLike_eq, hk]
    constructor
    · intro h
      exact .inl ⟨rfl, (congrArg Obj.addr (Obj.term_injective (Option.some.inj h))).symm⟩
    · rintro (⟨-, rfl⟩ | ⟨hne, -⟩)
      · rfl
      · exact absurd rfl hne
  · have hne : o'.addr ≠ o.addr := fun h => hsame (hA.obj_eq ho' ho h)
    rw [if_neg hne]
    simp [hsame]

/-- Making the copy of an object that has none keeps the invariant. -/
theorem Inv.addCopy (hA : A.Ready) (hs : A.Inv s cur todo) (ho : o ∈ A.objs)
    (hsrc : A.source o.addr = true) (hnone : s.forwarding o.addr = none)
    (ht : t.heapPtr = some o.addr) (hk : kindOf t = o.kind)
    (hroom : s.region.used + o.words A.mem ≤ s.region.capacity)
    (hb : region.base = s.region.base) (hc : region.capacity = s.region.capacity)
    (hu : region.used = s.region.used + o.words A.mem)
    (hal : ∃ kind, region.allocations =
        s.region.allocations ++ [⟨s.region.used, o.words A.mem, kind⟩] ∧
      (kind = .maybeRefcounted → t.isBoxed = true)) :
    A.Inv (s.addCopy t o.addr (o.words A.mem) (s.region.base + s.region.used) region) cur todo := by
  set dst := s.region.base + s.region.used with hdst
  set s' := s.addCopy t o.addr (o.words A.mem) dst region with hs'
  have hbase := hs.base
  have hcap := hs.capacity
  have hge := hs.used_ge
  have hstart : A.start ≤ dst := by unfold Arena.start; omega
  have hfwd : ∀ {o'} (_ : o' ∈ A.objs) {b}, s'.Fwd o' b ↔ (o' = o ∧ b = dst) ∨ (o' ≠ o ∧ s.Fwd o' b) :=
    fun ho' => fwd_addCopy hA ho ht hk ho'
  have hx₀ : Extends s' s := by
    intro a t' ha
    have hne : a ≠ o.addr := by
      rintro rfl
      rw [hnone] at ha
      cases ha
    exact (if_neg hne).trans ha
  -- words below the new copy, and the words of the copy itself
  have hold : ∀ a, a < dst → s'.mem a = s.mem a := fun a ha => if_neg (by omega)
  have hnew : ∀ i < o.words A.mem, s'.mem (dst + i) = A.mem (o.addr + i) := by
    intro i hi
    have hread : s'.mem (dst + i) = s.mem (o.addr + (dst + i - dst)) := if_pos (by omega)
    rw [hread, Nat.add_sub_cancel_left, hs.mem_obj hA ho hi]
  have hbelow : ∀ {o'} (_ : o' ∈ A.objs) {b}, s.Fwd o' b → b + o'.words A.mem ≤ dst := by
    intro o' ho' b hf
    have := (hs.room o' ho' b hf).2
    omega
  have hused : s'.region.used = s.region.used + o.words A.mem := hu
  refine {
    base := hb.trans hbase
    capacity := hc.trans hcap
    used_ge := by omega
    used_le := by omega
    frame := ?_
    known := ?_
    room := ?_
    apart := ?_
    data := ?_
    half := ?_
    queue := ?_
    done := ?_
    count := ?_
    allocs := ?_ }
  · intro a ha
    have hne : ¬ (dst ≤ a ∧ a < dst + o.words A.mem) := by omega
    exact (if_neg hne).trans (hs.frame a (by omega))
  · intro a t' hf
    by_cases ha : a = o.addr
    · subst ha
      have hval : s'.forwarding o.addr = some (termFromPtrLike t dst) := if_pos rfl
      obtain rfl := Option.some.inj (hf.symm.trans hval)
      exact ⟨hsrc, o, ho, rfl, dst, by rw [termFromPtrLike_eq, hk]⟩
    · have hval : s'.forwarding a = s.forwarding a := if_neg ha
      rw [hval] at hf
      exact hs.known a t' hf
  · intro o' ho' b hf
    rcases (hfwd ho').mp hf with ⟨rfl, rfl⟩ | ⟨-, hf⟩
    · exact ⟨hstart, by omega⟩
    · have hr := hs.room o' ho' b hf
      exact ⟨hr.1, by omega⟩
  · intro o₁ ho₁ o₂ ho₂ b₁ b₂ hf₁ hf₂ hne
    rcases (hfwd ho₁).mp hf₁ with ⟨rfl, rfl⟩ | ⟨hne₁, hf₁⟩
    · rcases (hfwd ho₂).mp hf₂ with ⟨rfl, -⟩ | ⟨-, hf₂⟩
      · exact absurd rfl hne
      · exact .inr (hbelow ho₂ hf₂)
    · rcases (hfwd ho₂).mp hf₂ with ⟨-, rfl⟩ | ⟨-, hf₂⟩
      · exact .inl (hbelow ho₁ hf₁)
      · exact hs.apart o₁ ho₁ o₂ ho₂ b₁ b₂ hf₁ hf₂ hne
  · intro o' ho' b hf i hi hmem
    rcases (hfwd ho').mp hf with ⟨rfl, rfl⟩ | ⟨-, hf⟩
    · exact hnew i hi
    · have := hbelow ho' hf
      rw [hold (b + i) (by omega)]
      exact hs.data o' ho' b hf i hi hmem
  · intro o' ho' b hf i hi
    rcases (hfwd ho').mp hf with ⟨rfl, rfl⟩ | ⟨-, hf⟩
    · exact .inl (hnew i (Obj.offset_lt (hA.wf.laidOut o' ho') hi))
    · have hlt := Obj.offset_lt (hA.wf.laidOut o' ho') hi
      have := hbelow ho' hf
      rw [hold (b + i) (by omega)]
      exact (hs.half o' ho' b hf i hi).imp_right (Moved.mono hx₀)
  · intro t' ht'
    rcases List.mem_append.mp ht' with hold' | hlast
    · obtain ⟨o', ho', b, hf, rfl⟩ := hs.queue t' hold'
      have hne : o' ≠ o := by
        rintro rfl
        rw [Copying.Fwd, hnone] at hf
        cases hf
      exact ⟨o', ho', b, (hfwd ho').mpr (.inr ⟨hne, hf⟩), rfl⟩
    · obtain rfl := List.mem_singleton.mp hlast
      exact ⟨o, ho, dst, (hfwd ho).mpr (.inl ⟨rfl, rfl⟩), by rw [termFromPtrLike_eq, hk]⟩
  · intro o' ho' b hf hq i hi
    have hq' : (Obj.mk b o'.kind).term ∉ s.queue ∧
        (Obj.mk b o'.kind).term ≠ termFromPtrLike t dst := by
      constructor
      · exact fun h => hq (List.mem_append_left _ h)
      · exact fun h => hq (List.mem_append_right _ (List.mem_singleton.mpr h))
    rcases (hfwd ho').mp hf with ⟨rfl, rfl⟩ | ⟨-, hf⟩
    · exact absurd (by rw [termFromPtrLike_eq, hk]) hq'.2
    · have hlt := Obj.offset_lt (hA.wf.laidOut o' ho') hi
      have := hbelow ho' hf
      rw [hold (b + i) (by omega)]
      exact (hs.done o' ho' b hf hq'.1 i hi).imp_right (Done.mono hx₀)
  · obtain ⟨os, hnodup, hmem, hsum⟩ := hs.count
    have hnot : o ∉ os := by
      intro h
      have hsome := ((hmem o).mp h).2
      rw [hnone] at hsome
      cases hsome
    refine ⟨o :: os, List.nodup_cons.mpr ⟨hnot, hnodup⟩, ?_, ?_⟩
    · intro o'
      rw [List.mem_cons, hmem]
      by_cases hsame : o' = o
      · subst hsame
        have hval : s'.forwarding o'.addr = some (termFromPtrLike t dst) := if_pos rfl
        simp [ho, hval]
      · constructor
        · rintro (h | ⟨ho', hsome⟩)
          · exact absurd h hsame
          · have hne : o'.addr ≠ o.addr := fun h => hsame (hA.obj_eq ho' ho h)
            have hval : s'.forwarding o'.addr = s.forwarding o'.addr := if_neg hne
            exact ⟨ho', by rw [hval]; exact hsome⟩
        · rintro ⟨ho', hsome⟩
          have hne : o'.addr ≠ o.addr := fun h => hsame (hA.obj_eq ho' ho h)
          have hval : s'.forwarding o'.addr = s.forwarding o'.addr := if_neg hne
          rw [hval] at hsome
          exact .inr ⟨ho', hsome⟩
    · rw [List.map_cons, List.sum_cons]
      omega
  · obtain ⟨new, hnew, hord, hfit⟩ := hs.allocs
    obtain ⟨kind, hlast, hbox⟩ := hal
    refine ⟨new ++ [⟨s.region.used, o.words A.mem, kind⟩], ?_, ?_, ?_⟩
    · change region.allocations = _
      rw [hlast, hnew, List.append_assoc]
    · rw [List.pairwise_append]
      refine ⟨hord, List.pairwise_singleton _ _, fun x hx y hy => ?_⟩
      obtain rfl := List.mem_singleton.mp hy
      exact (hfit x hx).2.1
    · intro x hx
      rcases List.mem_append.mp hx with hx | hx
      · obtain ⟨hge', hle, hobj⟩ := hfit x hx
        refine ⟨hge', by omega, fun hk => ?_⟩
        obtain ⟨o', ho', hf, hkind, hwords⟩ := hobj hk
        exact ⟨o', ho', hx₀ _ _ hf, hkind, hwords⟩
      · obtain rfl := List.mem_singleton.mp hx
        refine ⟨hge, hused.ge, fun hmaybe => ⟨o, ho, ?_, ?_, rfl⟩⟩
        · refine (hfwd ho).mpr (.inl ⟨rfl, ?_⟩)
          change A.region.base + s.region.used = dst
          omega
        · have hboxed := hbox hmaybe
          have hlist : t.isList = false := by
            unfold Term.isBoxed at hboxed
            unfold Term.isList
            simp only [beq_iff_eq, Term.boxedTag] at hboxed
            simp [hboxed, Term.listTag]
          rw [← hk, kindOf, hlist]
          rfl

end AddCopy

/-- Copies still queued and words still free, which bound the scan loop. -/
def remaining (s : Copying) : ℕ := s.queue.length + s.region.available

/-- A collection stops early only for lack of room for the copy of some object. -/
def NoRoom (A : Arena) (s : Copying) : Prop :=
  ∃ o ∈ A.objs, A.source o.addr = true ∧ s.forwarding o.addr = none ∧
    A.region.capacity < s.region.used + o.words A.mem

/-- How a step of a collection ends: with the invariant for `todo`, or early. -/
inductive Outcome (A : Arena) (cur : Term) (todo : List ℕ) (s : Copying) {α : Type}
    (post : α → Copying → Prop) : Except GcError α × Copying → Prop
  | ok {a : α} {s' : Copying} (inv : A.Inv s' cur todo) (ext : Extends s' s)
      (le : remaining s' ≤ remaining s) (h : post a s') : Outcome A cur todo s post (.ok a, s')
  | full {full : HeapFull} {s' : Copying} {cur' : Term} {todo' : List ℕ}
      (inv : A.Inv s' cur' todo') (ext : Extends s' s) (h : A.NoRoom s') :
      Outcome A cur todo s post (.error (.heapFull full), s')

variable {allocate : Allocate}

theorem copyTerm_data (A : Arena) (allocate : Allocate) (t : Term)
    (h : ∀ a, t.heapPtr = some a → A.source a = false) (s : Copying) :
    copyTerm A.source allocate t s = (.ok t, s) := by
  unfold copyTerm
  cases ha : t.heapPtr with
  | none => rfl
  | some a => exact if_pos (h a ha)

/-- Copying a term of the heap gives its final word and touches no word in use. -/
theorem copyTerm_spec (hA : A.Ready) (hal : AllocSpec allocate) (hs : A.Inv s cur todo) {t : Term}
    (ht : A.Ok t) :
    Outcome A cur todo s (fun t' s' => A.Done s' t t'.raw ∧
      ∀ a, a < A.region.base + s.region.used → s'.mem a = s.mem a)
      (copyTerm A.source allocate t s) := by
  by_cases hdata : ∀ a, t.heapPtr = some a → A.source a = false
  · rw [copyTerm_data A allocate t hdata]
    exact .ok hs (.refl s) le_rfl ⟨.inr ⟨rfl, hdata⟩, fun _ _ => rfl⟩
  · push Not at hdata
    obtain ⟨src, hptr, hsrc⟩ := hdata
    rw [ne_eq, Bool.not_eq_false] at hsrc
    unfold copyTerm
    simp only [hptr, hsrc, Bool.true_eq_false, if_false]
    cases hf : s.forwarding src with
    | some t' => exact .ok hs (.refl s) le_rfl ⟨.inl ⟨src, t', hptr, hsrc, hf, rfl⟩, fun _ _ => rfl⟩
    | none =>
      -- the first visit: the object is known, so its size is
      have ho : Obj.mk src (kindOf t) ∈ A.objs := by
        rcases ht src hptr with ⟨-, ho⟩ | ⟨hout, -⟩
        · exact ho
        · rw [hA.source_inHeap src hsrc] at hout
          cases hout
      set o : Obj := ⟨src, kindOf t⟩ with hodef
      have hshape := Obj.shape_eq (b := src) (hA.wf.laidOut o ho)
        (fun i hi _ => hs.mem_obj hA ho hi)
      have hsize : objectSize s.mem t = .ok (some (o.words A.mem)) := by
        rw [objectSize_eq hptr hshape.2.2, hshape.1]
      simp only [hsize]
      cases halloc : allocate s.region t (o.words A.mem) with
      | error full =>
        have hshort := hal.full halloc
        rw [hs.capacity] at hshort
        exact .full hs (.refl s) ⟨o, ho, hsrc, hf, hshort⟩
      | ok r =>
        obtain ⟨dst, region⟩ := r
        obtain ⟨hroom, rfl, hb, hc, hu, htrack⟩ := hal.ok halloc
        have hinv := hs.addCopy hA ho hsrc hf hptr rfl hroom hb hc hu htrack
        have hext : Extends (s.addCopy t o.addr (o.words A.mem) (s.region.base + s.region.used)
            region) s := by
          intro a t' ha
          have hne : a ≠ o.addr := by
            rintro rfl
            rw [hf] at ha
            cases ha
          exact (if_neg hne).trans ha
        refine .ok hinv hext ?_ ⟨.inl ⟨src, _, hptr, hsrc, if_pos rfl, rfl⟩, ?_⟩
        · have hpos := o.words_pos A.mem
          simp only [remaining, Copying.addCopy, HeapRegion.available, List.length_append,
            List.length_singleton]
          omega
        · intro a ha
          have hbase := hs.base
          exact if_neg (by omega)

/-! ## Rewriting a copy -/

/-- The state with one word written. -/
def setWord (s : Copying) (a w : ℕ) : Copying := { s with mem := s.mem.write a w }

/-- Writing the final word of a field takes its position off the list. -/
theorem Inv.setWord (hA : A.Ready) {i : ℕ} (hs : A.Inv s cur (i :: todo)) {o : Obj} {b w : ℕ}
    (ho : o ∈ A.objs) (hf : s.Fwd o b) (hcur : cur = (Obj.mk b o.kind).term)
    (hi : i ∈ o.offsets A.mem) (hw : A.Done s (o.field A.mem i) w) :
    A.Inv (setWord s (b + i) w) cur todo := by
  have hlt := Obj.offset_lt (hA.wf.laidOut o ho) hi
  have hroom := hs.room o ho b hf
  have hhere : (Arena.setWord s (b + i) w).mem (b + i) = w := if_pos rfl
  have helse : ∀ a, a ≠ b + i → (Arena.setWord s (b + i) w).mem a = s.mem a := fun a ha => if_neg ha
  -- no other word of any copy is the one written
  have hother : ∀ o' ∈ A.objs, ∀ b', s.Fwd o' b' → ∀ j < o'.words A.mem, (o' = o → j ≠ i) →
      b' + j ≠ b + i := by
    intro o' ho' b' hf' j hj hne
    by_cases hsame : o' = o
    · subst hsame
      obtain rfl := fwd_unique hf hf'
      have := hne rfl
      omega
    · rcases hs.apart o' ho' o ho b' b hf' hf hsame with hle | hle <;> omega
  refine { hs with
    frame := ?_
    data := ?_
    half := ?_
    done := ?_ }
  · intro a ha
    rw [helse a (by rintro rfl; exact ha ⟨by omega, by
      change b + i < A.region.base + s.region.used
      omega⟩)]
    exact hs.frame a ha
  · intro o' ho' b' hf' j hj hmem
    rw [helse _ (hother o' ho' b' hf' j hj (by rintro rfl rfl; exact hmem hi))]
    exact hs.data o' ho' b' hf' j hj hmem
  · intro o' ho' b' hf' j hj
    by_cases hsame : o' = o ∧ j = i
    · obtain ⟨rfl, rfl⟩ := hsame
      obtain rfl := fwd_unique hf hf'
      rw [hhere]
      rcases hw with hm | ⟨rfl, -⟩
      · exact .inr hm
      · exact .inl rfl
    · have hjlt := Obj.offset_lt (hA.wf.laidOut o' ho') hj
      rw [helse _ (hother o' ho' b' hf' j hjlt fun h hji => hsame ⟨h, hji⟩)]
      exact hs.half o' ho' b' hf' j hj
  · intro o' ho' b' hf' hq j hj
    by_cases hsame : o' = o ∧ j = i
    · obtain ⟨rfl, rfl⟩ := hsame
      obtain rfl := fwd_unique hf hf'
      rw [hhere]
      exact .inr hw
    · have hjlt := Obj.offset_lt (hA.wf.laidOut o' ho') hj
      rw [helse _ (hother o' ho' b' hf' j hjlt fun h hji => hsame ⟨h, hji⟩)]
      rcases hs.done o' ho' b' hf' hq j hj with ⟨hc, hmem⟩ | hd
      · refine .inl ⟨hc, ?_⟩
        rcases List.mem_cons.mp hmem with rfl | hmem
        · -- the copy is the one being rewritten, so the position is the one just written
          have hobj := Obj.term_injective (hc.trans hcur)
          obtain rfl : b' = b := congrArg Obj.addr hobj
          exact absurd ⟨hs.obj_eq ho' ho hf' hf, rfl⟩ hsame
        · exact hmem
      · exact .inr hd

theorem setWord_self (s : Copying) (a : ℕ) : setWord s a (s.mem a) = s := by
  have hmem : s.mem.write a (s.mem a) = s.mem := by
    funext x
    unfold Memory.write
    split_ifs with h
    · rw [h]
    · rfl
  rw [setWord, hmem]

theorem rewriteWord_eq (ptr offset : ℕ) (s : Copying) {t : Term} {s' : Copying}
    (h : copyTerm A.source allocate ⟨s.mem (ptr + offset)⟩ s = (.ok t, s'))
    (hkept : s'.mem (ptr + offset) = s.mem (ptr + offset)) :
    rewriteWord A.source allocate ptr offset s = (.ok (), setWord s' (ptr + offset) t.raw) := by
  unfold rewriteWord
  simp only [h]
  split_ifs with hne
  · rfl
  · have hsame : t.raw = s'.mem (ptr + offset) := by rw [hkept]; exact not_not.mp hne
    rw [hsame, setWord_self]

theorem rewriteWord_spec (hA : A.Ready) (hal : AllocSpec allocate) {i : ℕ}
    (hs : A.Inv s cur (i :: todo)) {o : Obj} {b : ℕ} (ho : o ∈ A.objs) (hf : s.Fwd o b)
    (hcur : cur = (Obj.mk b o.kind).term) (hi : i ∈ o.offsets A.mem) :
    Outcome A cur todo s (fun _ _ => True) (rewriteWord A.source allocate b i s) := by
  have hlt := Obj.offset_lt (hA.wf.laidOut o ho) hi
  have hroom := hs.room o ho b hf
  rcases hs.half o ho b hf i hi with hsame | hmoved
  · -- the word is still the object's
    have hfield : (⟨s.mem (b + i)⟩ : Term) = o.field A.mem i := by rw [hsame]; rfl
    have hspec := copyTerm_spec hA hal hs (hA.wf.fields o ho i hi)
    rw [← hfield] at hspec
    generalize hres : copyTerm A.source allocate ⟨s.mem (b + i)⟩ s = res at hspec
    cases hspec with
    | @ok t' s' hinv hext hle hpost =>
      obtain ⟨hdone, hkept⟩ := hpost
      rw [hfield] at hdone
      rw [rewriteWord_eq b i s hres (hkept _ (by omega))]
      exact .ok (hinv.setWord hA ho (hext _ _ hf) hcur hi hdone) hext hle trivial
    | full hinv hext hno =>
      unfold rewriteWord
      simp only [hres]
      exact .full hinv hext hno
  · -- the word has been replaced already and points to the new part
    have hdata : ∀ a, (⟨s.mem (b + i)⟩ : Term).heapPtr = some a → A.source a = false := by
      obtain ⟨a, t', -, -, hfa, hw⟩ := hmoved
      obtain ⟨-, o', ho', rfl, b', rfl⟩ := hs.known a t' hfa
      intro a' ha'
      have hword : (⟨s.mem (b + i)⟩ : Term) = (Obj.mk b' o'.kind).term := by rw [hw]
      rw [hword, Obj.heapPtr_term] at ha'
      obtain rfl := Option.some.inj ha'
      have hr := hs.room o' ho' b' hfa
      have hpos := o'.words_pos A.mem
      have hle := hs.used_le
      refine hA.source_apart b' (HeapRegion.contains_iff.mpr ⟨?_, by omega⟩)
      unfold Arena.start at hr
      omega
    have hres := copyTerm_data A allocate ⟨s.mem (b + i)⟩ hdata s
    rw [rewriteWord_eq b i s hres rfl]
    exact .ok (hs.setWord hA ho hf hcur hi (.inl hmoved)) (.refl s) le_rfl trivial

theorem rewriteWords_spec (hA : A.Ready) (hal : AllocSpec allocate) {o : Obj} {b : ℕ}
    (ho : o ∈ A.objs) (hcur : cur = (Obj.mk b o.kind).term) {offsets : List ℕ}
    (hsub : ∀ i ∈ offsets, i ∈ o.offsets A.mem) (hs : A.Inv s cur offsets) (hf : s.Fwd o b) :
    Outcome A cur [] s (fun _ _ => True) (rewriteWords A.source allocate b offsets s) := by
  induction offsets generalizing s with
  | nil => exact .ok hs (.refl s) le_rfl trivial
  | cons i offsets ih =>
    have hone := rewriteWord_spec hA hal hs ho hf hcur (hsub i (by simp))
    unfold rewriteWords
    generalize rewriteWord A.source allocate b i s = res at hone
    cases hone with
    | @ok u s₁ hinv hext hle =>
      have hrest := ih (fun j hj => hsub j (by simp [hj])) hinv (hext _ _ hf)
      dsimp only
      generalize rewriteWords A.source allocate b offsets s₁ = res at hrest
      cases hrest with
      | ok hinv' hext' hle' h => exact .ok hinv' (hext'.trans hext) (hle'.trans hle) h
      | full hinv' hext' hno => exact .full hinv' (hext'.trans hext) hno
    | full hinv hext hno => exact .full hinv hext hno

/-- Rewriting the copy of `o` rewrites exactly its terms. -/
theorem rewriteCopiedObject_eq (hA : A.Ready) (hs : A.Inv s cur todo) {o : Obj} {b : ℕ}
    (ho : o ∈ A.objs) (hf : s.Fwd o b) :
    rewriteCopiedObject A.source allocate (Obj.mk b o.kind).term s =
      rewriteWords A.source allocate b (o.offsets A.mem) s := by
  obtain ⟨-, hoff, hlaid⟩ := Obj.shape_eq (hA.wf.laidOut o ho) (hs.data o ho b hf)
  unfold rewriteCopiedObject
  simp only [Obj.heapPtr_term]
  rw [← hoff]
  cases hk : o.kind with
  | cons => exact if_pos (Term.isList_listPtr b)
  | boxed =>
    rw [hk] at hlaid
    obtain ⟨tag, htag, -⟩ := hlaid rfl
    simp only at htag
    have hlist : (Obj.mk b .boxed).term.isList = false := Term.isList_boxedPtr b
    simp only [hlist, Bool.false_eq_true, if_false, htag, Obj.offsets]

/-- One round of the scan loop. -/
theorem rewriteCopiedObject_spec (hA : A.Ready) (hal : AllocSpec allocate) (hs : A.Inv s cur [])
    {t : Term} {queue : List Term} (hq : s.queue = t :: queue) :
    Outcome A t [] { s with queue := queue } (fun _ _ => True)
      (rewriteCopiedObject A.source allocate t { s with queue := queue }) := by
  obtain ⟨o, ho, b, hf, rfl⟩ := hs.queue t (by rw [hq]; simp)
  have hpop : A.Inv { s with queue := queue } (Obj.mk b o.kind).term (o.offsets A.mem) := by
    refine { hs with
      queue := fun t' ht' => hs.queue t' (by rw [hq]; exact List.mem_cons_of_mem _ ht')
      done := ?_ }
    intro o' ho' b' hf' hq' i hi
    by_cases hsame : (Obj.mk b' o'.kind).term = (Obj.mk b o.kind).term
    · obtain rfl : b' = b := congrArg Obj.addr (Obj.term_injective hsame)
      obtain rfl := hs.obj_eq ho' ho hf' hf
      exact .inl ⟨rfl, hi⟩
    · have hnot : (Obj.mk b' o'.kind).term ∉ s.queue := by
        rw [hq]
        exact fun h => (List.mem_cons.mp h).elim hsame hq'
      rcases hs.done o' ho' b' hf' hnot i hi with ⟨-, h⟩ | hd
      · cases h
      · exact .inr hd
  rw [rewriteCopiedObject_eq hA hpop ho hf]
  exact rewriteWords_spec hA hal ho rfl (fun i hi => hi) hpop hf

/-! ## Whole runs -/

theorem scanFuel_spec (hA : A.Ready) (hal : AllocSpec allocate) {fuel : ℕ} (hs : A.Inv s cur [])
    (hfuel : remaining s ≤ fuel) :
    Outcome A cur [] s (fun _ s' => s'.queue = []) (scanFuel A.source allocate fuel s) := by
  induction fuel generalizing s with
  | zero =>
    have hnil : s.queue = [] := by
      unfold remaining at hfuel
      exact List.length_eq_zero_iff.mp (by omega)
    exact .ok hs (.refl s) le_rfl hnil
  | succ fuel ih =>
    unfold scanFuel
    cases hq : s.queue with
    | nil => exact .ok hs (.refl s) le_rfl hq
    | cons t queue =>
      have hone := rewriteCopiedObject_spec hA hal hs hq
      have hpop : remaining { s with queue := queue } + 1 = remaining s := by
        simp only [remaining, hq, List.length_cons]
        omega
      have hext₀ : Extends { s with queue := queue } s := fun _ _ h => h
      dsimp only
      generalize rewriteCopiedObject A.source allocate t { s with queue := queue } = res at hone
      cases hone with
      | @ok u s₁ hinv hext hle =>
        have hrest := ih (hinv.cur_irrelevant cur) (by omega)
        dsimp only
        generalize scanFuel A.source allocate fuel s₁ = res at hrest
        cases hrest with
        | ok hinv' hext' hle' h =>
          exact .ok hinv' ((hext'.trans hext).trans hext₀) (by omega) h
        | full hinv' hext' hno => exact .full hinv' ((hext'.trans hext).trans hext₀) hno
      | full hinv hext hno => exact .full hinv (hext.trans hext₀) hno

/-- The scan ends with an empty queue or for lack of room. -/
theorem scan_spec (hA : A.Ready) (hal : AllocSpec allocate) (hs : A.Inv s cur []) :
    Outcome A cur [] s (fun _ s' => s'.queue = []) (scan A.source allocate s) :=
  scanFuel_spec hA hal hs le_rfl

theorem copyRoots_spec (hA : A.Ready) (hal : AllocSpec allocate) {roots : List Term}
    (hroots : ∀ t ∈ roots, A.Ok t) (hs : A.Inv s cur []) :
    Outcome A cur [] s
      (fun roots' s' => List.Forall₂ (fun t t' => A.Done s' t t'.raw) roots roots')
      (copyRoots A.source allocate roots s) := by
  induction roots generalizing s with
  | nil => exact .ok hs (.refl s) le_rfl .nil
  | cons t roots ih =>
    have hone := copyTerm_spec hA hal hs (hroots t (by simp))
    unfold copyRoots
    generalize copyTerm A.source allocate t s = res at hone
    cases hone with
    | @ok t' s₁ hinv hext hle hpost =>
      have hrest := ih (fun x hx => hroots x (by simp [hx])) hinv
      dsimp only
      generalize copyRoots A.source allocate roots s₁ = res at hrest
      cases hrest with
      | ok hinv' hext' hle' h =>
        exact .ok hinv' (hext'.trans hext) (hle'.trans hle) (.cons (hpost.1.mono hext') h)
      | full hinv' hext' hno => exact .full hinv' (hext'.trans hext) hno
    | full hinv hext hno => exact .full hinv hext hno

/-- The invariant at the start. -/
theorem Ready.inv (hA : A.Ready) (cur : Term) : A.Inv (copyingFrom A.mem A.region) cur [] where
  base := rfl
  capacity := rfl
  used_ge := le_rfl
  used_le := hA.used_le
  frame := fun _ _ => rfl
  known := fun _ _ h => by cases h
  room := fun _ _ _ h => by cases h
  apart := fun _ _ _ _ _ _ h => by cases h
  data := fun _ _ _ h => by cases h
  half := fun _ _ _ h => by cases h
  queue := fun _ h => by cases h
  done := fun _ _ _ h => by cases h
  count := ⟨[], List.nodup_nil, by intro o; simp [copyingFrom], rfl⟩
  allocs := ⟨[], by simp [copyingFrom], List.Pairwise.nil, by simp⟩

end Arena

end Beamr.Gc
