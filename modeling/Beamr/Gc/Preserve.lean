import Beamr.Gc.Invariant

/-!
# What a collection preserves

The graph of a heap before a collection against the graph of what the collection leaves. A
finished collection carries every object to its copy, so terms keep their structure and their
sharing. A collection that stopped half way leaves objects and copies side by side, and either
may stand for the object.
-/
namespace Beamr.Gc

open Beamr ObjectGraph

/-- The forwarded term, or the term itself. -/
def Copying.forward (s : Copying) (t : Term) : Term :=
  match t.heapPtr with
  | none => t
  | some a => (s.forwarding a).getD t

namespace Arena

variable {A : Arena} {s : Copying} {cur : Term} {todo : List ℕ}

/-- The graph a collection starts from. -/
abbrev before (A : Arena) : ObjectGraph Term Label := graph A.mem A.live

theorem Ready.node_before (hA : A.Ready) {o : Obj} (ho : o ∈ A.objs) :
    A.before.node o.term = some (o.label A.mem, o.fields A.mem) := by
  rw [graph_node_of_live o.heapPtr_term (hA.wf.live_addr ho), Obj.kindOf_term]

/-- A term of the heap points to an object, or nowhere the collection goes. -/
theorem Ready.ok_cases (hA : A.Ready) {t : Term} (ht : A.Ok t) :
    (∃ o ∈ A.objs, t = o.term) ∨ (A.before.node t = none ∧
      ∀ a, t.heapPtr = some a → A.inHeap a = false ∧ A.outside a) := by
  cases hptr : t.heapPtr with
  | none => exact .inr ⟨graph_node_of_data hptr, by simp⟩
  | some a =>
    rcases ht a hptr with ⟨-, ho⟩ | ⟨hin, hout⟩
    · exact .inl ⟨_, ho, term_of_heapPtr hptr⟩
    · have hdead : A.live a = false := by
        by_contra hlive
        rw [hA.live_inHeap a (by simpa using hlive)] at hin
        cases hin
      refine .inr ⟨graph_node_of_dead hptr hdead, fun a' ha' => ?_⟩
      obtain rfl := Option.some.inj ha'
      exact ⟨hin, hout⟩

theorem forward_of_none {t : Term} (h : ∀ a, t.heapPtr = some a → s.forwarding a = none) :
    s.forward t = t := by
  unfold Copying.forward
  cases hptr : t.heapPtr with
  | none => rfl
  | some a => simp only [h a hptr, Option.getD_none]

theorem forward_of_fwd {o : Obj} {b : ℕ} (h : s.Fwd o b) :
    s.forward o.term = (Obj.mk b o.kind).term := by
  unfold Copying.forward
  rw [o.heapPtr_term]
  simp only [show s.forwarding o.addr = _ from h, Option.getD_some]

theorem Inv.forward_of_not_source (hs : A.Inv s cur todo) {t : Term}
    (h : ∀ a, t.heapPtr = some a → A.source a = false) : s.forward t = t := by
  refine forward_of_none fun a ha => ?_
  cases hf : s.forwarding a with
  | none => rfl
  | some t' =>
    have hsrc := (hs.known a t' hf).1
    rw [h a ha] at hsrc
    cases hsrc

theorem Moved.eq_forward {t : Term} {w : ℕ} (h : A.Moved s t w) : (⟨w⟩ : Term) = s.forward t := by
  obtain ⟨a, t', ha, -, hf, rfl⟩ := h
  unfold Copying.forward
  simp only [ha, hf, Option.getD_some]

theorem Inv.done_eq_forward (hs : A.Inv s cur todo) {t : Term} {w : ℕ} (h : A.Done s t w) :
    (⟨w⟩ : Term) = s.forward t := by
  rcases h with hm | ⟨rfl, hdata⟩
  · exact hm.eq_forward
  · exact (hs.forward_of_not_source hdata).symm

/-- An object with a forwarding address has a copy. -/
theorem Inv.exists_fwd (hA : A.Ready) (hs : A.Inv s cur todo) {o : Obj} (ho : o ∈ A.objs)
    (h : (s.forwarding o.addr).isSome) : ∃ b, s.Fwd o b := by
  obtain ⟨t, ht⟩ := Option.isSome_iff_exists.mp h
  obtain ⟨-, o', ho', haddr, b, rfl⟩ := hs.known o.addr t ht
  obtain rfl := hA.obj_eq ho' ho haddr
  exact ⟨b, ht⟩

/-- The copies made so far. -/
def copies (A : Arena) (s : Copying) : Set Obj :=
  { c | ∃ o ∈ A.objs, ∃ b, s.Fwd o b ∧ c = Obj.mk b o.kind }

/-! ## The heap that is left -/

/-- `mem'` and `live'` keep the objects of `stay` and all copies. -/
structure Kept (A : Arena) (s : Copying) (stay : Set Obj) (mem' : Memory) (live' : ℕ → Bool) :
    Prop where
  sub : ∀ o ∈ stay, o ∈ A.objs
  stay_eq : ∀ o ∈ stay, ∀ i < o.words A.mem,
    mem' (o.addr + i) = A.mem (o.addr + i) ∧ live' (o.addr + i) = true
  copy_eq : ∀ a, A.start ≤ a → a < A.region.base + s.region.used →
    mem' a = s.mem a ∧ live' a = true
  outside_dead : ∀ a, A.inHeap a = false → A.outside a → live' a = false

section Kept

variable {stay : Set Obj} {mem' : Memory} {live' : ℕ → Bool}

theorem Kept.node_stay (hA : A.Ready) (hk : A.Kept s stay mem' live') {o : Obj} (ho : o ∈ stay) :
    (graph mem' live').node o.term = some (o.label A.mem, o.fields A.mem) := by
  have hlaid := hA.wf.laidOut o (hk.sub o ho)
  have hsame : ∀ i < o.words A.mem, i ∉ o.offsets A.mem → mem' (o.addr + i) = A.mem (o.addr + i) :=
    fun i hi _ => (hk.stay_eq o ho i hi).1
  have hlive : live' o.addr = true := (hk.stay_eq o ho 0 (o.words_pos _)).2
  rw [graph_node_of_live o.heapPtr_term hlive, Obj.kindOf_term, Obj.label_eq hlaid hsame]
  congr 2
  unfold Obj.fields
  rw [(Obj.shape_eq hlaid hsame).2.1]
  refine List.map_congr_left fun i hi => ?_
  exact congrArg Term.mk (hk.stay_eq o ho i (Obj.offset_lt hlaid hi)).1

/-- Words of a copy lie in the new part of the destination. -/
theorem Inv.copy_range (hs : A.Inv s cur todo) {o : Obj} (ho : o ∈ A.objs) {b : ℕ} (hf : s.Fwd o b)
    {i : ℕ} (hi : i < o.words A.mem) :
    A.start ≤ b + i ∧ b + i < A.region.base + s.region.used := by
  have hroom := hs.room o ho b hf
  omega

theorem Kept.copy_data (hs : A.Inv s cur todo) (hk : A.Kept s stay mem' live') {o : Obj}
    (ho : o ∈ A.objs) {b : ℕ} (hf : s.Fwd o b) :
    ∀ i < o.words A.mem, i ∉ o.offsets A.mem → mem' (b + i) = A.mem (o.addr + i) := by
  intro i hi hmem
  have hr := hs.copy_range ho hf hi
  rw [(hk.copy_eq _ hr.1 hr.2).1]
  exact hs.data o ho b hf i hi hmem

theorem Kept.node_copy (hA : A.Ready) (hs : A.Inv s cur todo) (hk : A.Kept s stay mem' live')
    {o : Obj} (ho : o ∈ A.objs) {b : ℕ} (hf : s.Fwd o b) :
    (graph mem' live').node (Obj.mk b o.kind).term =
      some (o.label A.mem, (o.offsets A.mem).map fun i => ⟨s.mem (b + i)⟩) := by
  have hlaid := hA.wf.laidOut o ho
  have hdata := hk.copy_data hs ho hf
  have hrange : ∀ i < o.words A.mem, mem' (b + i) = s.mem (b + i) ∧ live' (b + i) = true := by
    intro i hi
    have hr := hs.copy_range ho hf hi
    exact hk.copy_eq _ hr.1 hr.2
  have hlive : live' b = true := (hrange 0 (o.words_pos _)).2
  rw [graph_node_of_live (Obj.heapPtr_term _) hlive, Obj.kindOf_term, Obj.label_eq hlaid hdata]
  congr 2
  unfold Obj.fields
  rw [(Obj.shape_eq hlaid hdata).2.1]
  refine List.map_congr_left fun i hi => ?_
  exact congrArg Term.mk (hrange i (Obj.offset_lt hlaid hi)).1

/-- Data and pointers to storage outside stay data. -/
theorem Kept.node_outside (hk : A.Kept s stay mem' live') {t : Term}
    (h : ∀ a, t.heapPtr = some a → A.inHeap a = false ∧ A.outside a) :
    (graph mem' live').node t = none := by
  cases hptr : t.heapPtr with
  | none => exact graph_node_of_data hptr
  | some a =>
    obtain ⟨hin, hout⟩ := h a hptr
    exact graph_node_of_dead hptr (hk.outside_dead a hin hout)

/-- Objects left in place are apart from the new part of the destination. -/
theorem Ready.apart_new (hA : A.Ready) {o : Obj} (ho : o ∈ A.objs) {b n : ℕ} (hn : 0 < n)
    (hb : A.start ≤ b) (hend : b + n ≤ A.region.base + A.region.capacity) :
    o.addr + o.words A.mem ≤ b ∨ b + n ≤ o.addr := by
  by_contra hmeet
  push Not at hmeet
  have hpos := o.words_pos A.mem
  -- the first word that both have
  have hfirst : max o.addr b - o.addr < o.words A.mem := by omega
  refine hA.objs_apart o ho _ hfirst ?_
  omega

/-- What is left is well formed as soon as its fields are valid. -/
theorem Kept.wellFormed (hA : A.Ready) (hs : A.Inv s cur todo) (hk : A.Kept s stay mem' live')
    {inHeap' : ℕ → Bool} {outside' : ℕ → Prop}
    (hstay : ∀ o ∈ stay, ∀ i ∈ o.offsets A.mem,
      Valid inHeap' outside' (stay ∪ A.copies s) (o.field A.mem i))
    (hcopy : ∀ o ∈ A.objs, ∀ b, s.Fwd o b → ∀ i ∈ o.offsets A.mem,
      Valid inHeap' outside' (stay ∪ A.copies s) ⟨s.mem (b + i)⟩) :
    WellFormed inHeap' outside' (stay ∪ A.copies s) mem' live' := by
  have hshape : ∀ o ∈ stay, o.words mem' = o.words A.mem ∧ o.offsets mem' = o.offsets A.mem ∧
      o.LaidOut mem' := fun o ho =>
    Obj.shape_eq (hA.wf.laidOut o (hk.sub o ho)) fun i hi _ => (hk.stay_eq o ho i hi).1
  have hshape' : ∀ o ∈ A.objs, ∀ b, s.Fwd o b → (Obj.mk b o.kind).words mem' = o.words A.mem ∧
      (Obj.mk b o.kind).offsets mem' = o.offsets A.mem ∧ (Obj.mk b o.kind).LaidOut mem' :=
    fun o ho b hf => Obj.shape_eq (hA.wf.laidOut o ho) (hk.copy_data hs ho hf)
  have hroom : ∀ o ∈ A.objs, ∀ b, s.Fwd o b → A.start ≤ b ∧
      b + o.words A.mem ≤ A.region.base + A.region.capacity := by
    intro o ho b hf
    have hr := hs.room o ho b hf
    have hle := hs.used_le
    exact ⟨hr.1, by omega⟩
  constructor
  · rintro o (ho | ⟨o, ho, b, hf, rfl⟩) i hi
    · rw [(hshape o ho).1] at hi
      exact (hk.stay_eq o ho i hi).2
    · rw [(hshape' o ho b hf).1] at hi
      have hr := hs.copy_range ho hf hi
      exact (hk.copy_eq _ hr.1 hr.2).2
  · rintro o (ho | ⟨o, ho, b, hf, rfl⟩)
    · exact (hshape o ho).2.2
    · exact (hshape' o ho b hf).2.2
  · rintro o (ho | ⟨o, ho, b, hf, rfl⟩) o' (ho' | ⟨o', ho', b', hf', rfl⟩) hne
    · rw [(hshape o ho).1, (hshape o' ho').1]
      exact hA.wf.apart o (hk.sub o ho) o' (hk.sub o' ho') hne
    · rw [(hshape o ho).1, (hshape' o' ho' b' hf').1]
      have hr := hroom o' ho' b' hf'
      exact hA.apart_new (hk.sub o ho) (o'.words_pos _) hr.1 hr.2
    · rw [(hshape' o ho b hf).1, (hshape o' ho').1]
      have hr := hroom o ho b hf
      exact (hA.apart_new (hk.sub o' ho') (o.words_pos _) hr.1 hr.2).symm
    · rw [(hshape' o ho b hf).1, (hshape' o' ho' b' hf').1]
      refine hs.apart o ho o' ho' b b' hf hf' ?_
      rintro rfl
      obtain rfl := fwd_unique hf hf'
      exact hne rfl
  · rintro o (ho | ⟨o, ho, b, hf, rfl⟩) i hi
    · rw [(hshape o ho).2.1] at hi
      have hlt := Obj.offset_lt (hA.wf.laidOut o (hk.sub o ho)) hi
      have heq : o.field mem' i = o.field A.mem i := congrArg Term.mk (hk.stay_eq o ho i hlt).1
      rw [heq]
      exact hstay o ho i hi
    · rw [(hshape' o ho b hf).2.1] at hi
      have hr := hs.copy_range ho hf (Obj.offset_lt (hA.wf.laidOut o ho) hi)
      have heq : (Obj.mk b o.kind).field mem' i = ⟨s.mem (b + i)⟩ :=
        congrArg Term.mk (hk.copy_eq _ hr.1 hr.2).1
      rw [heq]
      exact hcopy o ho b hf i hi

end Kept

/-! ## A finished collection -/

/-- Terms of the heap that are forwarded if they point into the source. -/
def settled (A : Arena) (s : Copying) : Set Term :=
  { t | A.Ok t ∧ ∀ a, t.heapPtr = some a → A.source a = true → (s.forwarding a).isSome }

/-- An object that points into the source only if it is copied itself. -/
def Good (A : Arena) (o : Obj) : Prop :=
  A.source o.addr = false → ∀ i ∈ o.offsets A.mem, ∀ a, (o.field A.mem i).heapPtr = some a →
    A.source a = false

/-- Objects that a collection leaves where they are. -/
def unmoved (A : Arena) : Set Obj := { o ∈ A.objs | A.source o.addr = false }

theorem settled_of_done {t : Term} {w : ℕ} (ht : A.Ok t) (h : A.Done s t w) : t ∈ A.settled s := by
  refine ⟨ht, fun a ha hsrc => ?_⟩
  rcases h with ⟨a', t', ha', -, hf, -⟩ | ⟨-, hdata⟩
  · obtain rfl := Option.some.inj (ha.symm.trans ha')
    rw [hf]
    rfl
  · rw [hdata a ha] at hsrc
    cases hsrc

section Finished

variable {mem' : Memory} {live' : ℕ → Bool}

theorem Inv.done_field (hs : A.Inv s cur []) (hq : s.queue = []) {o : Obj} (ho : o ∈ A.objs)
    {b : ℕ} (hf : s.Fwd o b) {i : ℕ} (hi : i ∈ o.offsets A.mem) :
    A.Done s (o.field A.mem i) (s.mem (b + i)) := by
  rcases hs.done o ho b hf (by rw [hq]; exact List.not_mem_nil) i hi with ⟨-, h⟩ | h
  · cases h
  · exact h

/-- The object a settled term points to, seen after the collection. -/
theorem Kept.node_forward (hA : A.Ready) (hs : A.Inv s cur []) (hq : s.queue = [])
    (hk : A.Kept s A.unmoved mem' live') {o : Obj} (ho : o ∈ A.objs) (hset : o.term ∈ A.settled s)
    (hgood : A.Good o) :
    (graph mem' live').node (s.forward o.term) =
      some (o.label A.mem, (o.fields A.mem).map s.forward) ∧
    ∀ t ∈ o.fields A.mem, t ∈ A.settled s := by
  cases hsrc : A.source o.addr with
  | true =>
    obtain ⟨b, hf⟩ := hs.exists_fwd hA ho (hset.2 o.addr o.heapPtr_term hsrc)
    constructor
    · rw [forward_of_fwd hf, hk.node_copy hA hs ho hf]
      congr 2
      rw [Obj.fields, List.map_map]
      exact List.map_congr_left fun i hi => hs.done_eq_forward (hs.done_field hq ho hf hi)
    · intro t ht
      obtain ⟨i, hi, rfl⟩ := List.mem_map.mp ht
      exact settled_of_done (hA.wf.fields o ho i hi) (hs.done_field hq ho hf hi)
  | false =>
    have hnot : ∀ t ∈ o.fields A.mem, ∀ a, t.heapPtr = some a → A.source a = false := by
      intro t ht
      obtain ⟨i, hi, rfl⟩ := List.mem_map.mp ht
      exact hgood hsrc i hi
    constructor
    · rw [hs.forward_of_not_source, hk.node_stay hA ⟨ho, hsrc⟩]
      · congr 2
        conv_lhs => rw [← List.map_id (o.fields A.mem)]
        exact List.map_congr_left fun t ht => (hs.forward_of_not_source (hnot t ht)).symm
      · intro a ha
        rw [o.heapPtr_term] at ha
        exact Option.some.inj ha ▸ hsrc
    · intro t ht
      obtain ⟨i, hi, rfl⟩ := List.mem_map.mp ht
      exact settled_of_done (hA.wf.fields o ho i hi) (.inr ⟨rfl, hnot _ ht⟩)

/-- A finished collection carries the settled terms to their forwarded terms. -/
theorem Kept.carries (hA : A.Ready) (hs : A.Inv s cur []) (hq : s.queue = [])
    (hk : A.Kept s A.unmoved mem' live') (hgood : ∀ o ∈ A.objs, A.Good o) :
    Carries A.before (graph mem' live') s.forward (A.settled s) where
  leaf := by
    intro t ht hnode
    rcases hA.ok_cases ht.1 with ⟨o, ho, rfl⟩ | ⟨-, hout⟩
    · rw [hA.node_before ho] at hnode
      cases hnode
    · have hfix : s.forward t = t := by
        refine hs.forward_of_not_source fun a ha => ?_
        by_contra hsrc
        have hin := hA.source_inHeap a (by simpa using hsrc)
        rw [(hout a ha).1] at hin
        cases hin
      rw [hfix]
      exact ⟨hk.node_outside hout, rfl⟩
  node := by
    intro t label fields ht hnode
    rcases hA.ok_cases ht.1 with ⟨o, ho, rfl⟩ | ⟨hnone, -⟩
    · rw [hA.node_before ho] at hnode
      obtain ⟨rfl, rfl⟩ := Prod.mk.inj (Option.some.inj hnode)
      exact hk.node_forward hA hs hq ho ht (hgood o ho)
    · rw [hnone] at hnode
      cases hnode

/-- Where the forwarded term of a settled term points. -/
theorem Inv.forward_cases (hA : A.Ready) (hs : A.Inv s cur todo) {t : Term}
    (ht : t ∈ A.settled s) :
    (∃ o ∈ A.objs, t = o.term ∧ A.source o.addr = true ∧
      ∃ b, s.Fwd o b ∧ s.forward t = (Obj.mk b o.kind).term) ∨
    ((∀ a, t.heapPtr = some a → A.source a = false) ∧ s.forward t = t) := by
  by_cases hdata : ∀ a, t.heapPtr = some a → A.source a = false
  · exact .inr ⟨hdata, hs.forward_of_not_source hdata⟩
  · push Not at hdata
    obtain ⟨a, ha, hsrc⟩ := hdata
    rw [ne_eq, Bool.not_eq_false] at hsrc
    rcases ht.1 a ha with ⟨-, ho⟩ | ⟨hin, -⟩
    · obtain ⟨b, hf⟩ := hs.exists_fwd hA ho (ht.2 a ha hsrc)
      have hterm := term_of_heapPtr ha
      refine .inl ⟨_, ho, hterm, hsrc, b, hf, ?_⟩
      rw [hterm]
      simpa only [Obj.kindOf_term] using forward_of_fwd hf
    · rw [hA.source_inHeap a hsrc] at hin
      cases hin

/-- A copy lies in the destination. -/
theorem Inv.copy_contains (hs : A.Inv s cur todo) {o : Obj} (ho : o ∈ A.objs) {b : ℕ}
    (hf : s.Fwd o b) : A.region.contains b = true := by
  have hr := hs.copy_range ho hf (o.words_pos A.mem)
  have hle := hs.used_le
  unfold Arena.start at hr
  exact HeapRegion.contains_iff.mpr ⟨by omega, by omega⟩

/-- Nothing settled is forwarded into the source. -/
theorem Inv.forward_not_source (hA : A.Ready) (hs : A.Inv s cur todo) {t : Term}
    (ht : t ∈ A.settled s) {a : ℕ} (ha : (s.forward t).heapPtr = some a) : A.source a = false := by
  rcases hs.forward_cases hA ht with ⟨o, ho, -, -, b, hf, heq⟩ | ⟨hdata, heq⟩
  · rw [heq, Obj.heapPtr_term] at ha
    exact Option.some.inj ha ▸ hA.source_apart b (hs.copy_contains ho hf)
  · rw [heq] at ha
    exact hdata a ha

/-- No term of the heap points to a copy. -/
theorem Ready.not_ok_copy (hA : A.Ready) (hs : A.Inv s cur todo) {o : Obj} (ho : o ∈ A.objs)
    {b : ℕ} (hf : s.Fwd o b) (k : ObjKind) : ¬ A.Ok (Obj.mk b k).term := by
  intro hok
  have hr := hs.copy_range ho hf (o.words_pos A.mem)
  have hle := hs.used_le
  rcases hok b (Obj.heapPtr_term _) with ⟨-, ho'⟩ | ⟨hin, hout⟩
  · exact hA.objs_apart _ ho' 0 (Obj.words_pos _ _) ⟨hr.1, by change b + 0 < _; omega⟩
  · exact hA.outside_apart b hin hout ⟨hr.1, by omega⟩

section Valid

variable {inHeap' : ℕ → Bool} (hregion : ∀ a, A.region.contains a = true → inHeap' a = true)
  (hstay : ∀ o ∈ A.unmoved, inHeap' o.addr = true)
  (hout : ∀ a, A.outside a → inHeap' a = false)

include hregion hstay hout

/-- Forwarded terms are valid in the collected heap. -/
theorem Inv.valid_forward (hA : A.Ready) (hs : A.Inv s cur todo) {t : Term} (ht : t ∈ A.settled s) :
    Valid inHeap' A.outside (A.unmoved ∪ A.copies s) (s.forward t) := by
  intro a ha
  rcases hs.forward_cases hA ht with ⟨o, ho, -, -, b, hf, heq⟩ | ⟨hdata, heq⟩
  · rw [heq] at ha ⊢
    rw [Obj.heapPtr_term] at ha
    obtain rfl := Option.some.inj ha
    rw [Obj.kindOf_term]
    exact .inl ⟨hregion b (hs.copy_contains ho hf), .inr ⟨o, ho, b, hf, rfl⟩⟩
  · rw [heq] at ha ⊢
    rcases ht.1 a ha with ⟨-, ho⟩ | ⟨-, houta⟩
    · have hun : Obj.mk a (kindOf t) ∈ A.unmoved := ⟨ho, hdata a ha⟩
      exact .inl ⟨hstay _ hun, .inl hun⟩
    · exact .inr ⟨hout a houta, houta⟩

/-- The collected heap is well formed. -/
theorem Kept.wellFormed_finished (hA : A.Ready) (hs : A.Inv s cur []) (hq : s.queue = [])
    (hk : A.Kept s A.unmoved mem' live') (hgood : ∀ o ∈ A.objs, A.Good o) :
    WellFormed inHeap' A.outside (A.unmoved ∪ A.copies s) mem' live' := by
  refine hk.wellFormed hA hs ?_ ?_
  · intro o ho i hi
    have hdata := hgood o ho.1 ho.2 i hi
    have hset : o.field A.mem i ∈ A.settled s :=
      settled_of_done (hA.wf.fields o ho.1 i hi) (.inr ⟨rfl, hdata⟩)
    have hv := hs.valid_forward hregion hstay hout hA hset
    rwa [hs.forward_of_not_source hdata] at hv
  · intro o ho b hf i hi
    have hdone := hs.done_field hq ho hf hi
    rw [hs.done_eq_forward hdone]
    exact hs.valid_forward hregion hstay hout hA (settled_of_done (hA.wf.fields o ho i hi) hdone)

end Valid

/-- Distinct terms stay distinct. -/
theorem Inv.forward_injOn (hA : A.Ready) (hs : A.Inv s cur todo) :
    Set.InjOn s.forward (A.settled s) := by
  intro t ht t' ht' heq
  rcases hs.forward_cases hA ht with ⟨o, ho, rfl, -, b, hf, hfo⟩ | ⟨-, hfix⟩
  · rcases hs.forward_cases hA ht' with ⟨o', ho', rfl, -, b', hf', hfo'⟩ | ⟨-, hfix'⟩
    · rw [hfo, hfo'] at heq
      obtain rfl : b = b' := congrArg Obj.addr (Obj.term_injective heq)
      rw [hs.obj_eq ho ho' hf hf']
    · rw [hfo, hfix'] at heq
      exact absurd (heq ▸ ht'.1) (hA.not_ok_copy hs ho hf o.kind)
  · rcases hs.forward_cases hA ht' with ⟨o', ho', rfl, -, b', hf', hfo'⟩ | ⟨-, hfix'⟩
    · rw [hfix, hfo'] at heq
      exact absurd (heq ▸ ht.1) (hA.not_ok_copy hs ho' hf' o'.kind)
    · rw [hfix, hfix'] at heq
      exact heq

end Finished

/-! ## A collection that stopped half way -/

/-- A term, or the forwarded term in its place. -/
def StandsFor (A : Arena) (s : Copying) (t t' : Term) : Prop :=
  A.Ok t ∧ (t' = t ∨ A.Moved s t t'.raw)

theorem Kept.bisimulation (hA : A.Ready) (hs : A.Inv s cur todo) {mem' : Memory}
    {live' : ℕ → Bool} (hk : A.Kept s A.objs mem' live') :
    Bisimulation A.before (graph mem' live') (A.StandsFor s) where
  leaf := by
    rintro t t' ⟨ht, hstands⟩ hnode
    rcases hA.ok_cases ht with ⟨o, ho, rfl⟩ | ⟨-, hout⟩
    · rw [hA.node_before ho] at hnode
      cases hnode
    · rcases hstands with rfl | ⟨a, -, ha, hsrc, -, -⟩
      · exact ⟨hk.node_outside hout, rfl⟩
      · have hin := hA.source_inHeap a hsrc
        rw [(hout a ha).1] at hin
        cases hin
  node := by
    rintro t t' label fields ⟨ht, hstands⟩ hnode
    rcases hA.ok_cases ht with ⟨o, ho, rfl⟩ | ⟨hnone, -⟩
    · rw [hA.node_before ho] at hnode
      obtain ⟨rfl, rfl⟩ := Prod.mk.inj (Option.some.inj hnode)
      rcases hstands with rfl | ⟨a, t'', ha, hsrc, hf, hw⟩
      · refine ⟨_, hk.node_stay hA ho, ?_⟩
        rw [List.forall₂_same]
        intro u hu
        obtain ⟨i, hi, rfl⟩ := List.mem_map.mp hu
        exact ⟨hA.wf.fields o ho i hi, .inl rfl⟩
      · rw [o.heapPtr_term] at ha
        obtain rfl := Option.some.inj ha
        obtain ⟨b, hfwd⟩ := hs.exists_fwd hA ho (by rw [hf]; rfl)
        have ht' : t' = (Obj.mk b o.kind).term := by
          have hsame := Option.some.inj (hf.symm.trans hfwd)
          rw [← hsame]
          exact congrArg Term.mk hw
        subst ht'
        refine ⟨_, hk.node_copy hA hs ho hfwd, ?_⟩
        rw [Obj.fields, List.forall₂_map_left_iff, List.forall₂_map_right_iff, List.forall₂_same]
        intro i hi
        refine ⟨hA.wf.fields o ho i hi, ?_⟩
        exact (hs.half o ho b hfwd i hi).imp_left (congrArg Term.mk)
    · rw [hnone] at hnode
      cases hnode

theorem Done.standsFor {t : Term} {t' : Term} (ht : A.Ok t) (h : A.Done s t t'.raw) :
    A.StandsFor s t t' := by
  refine ⟨ht, ?_⟩
  rcases h with hm | ⟨hraw, -⟩
  · exact .inr hm
  · exact .inl (congrArg Term.mk hraw)

/-! ## How a collection ends -/

/-- The three ways a collection of `roots` ends. -/
inductive Run (A : Arena) (allocate : Allocate) (roots : List Term) : Prop
  | finished {roots' : List Term} {s₁ s : Copying}
      (copied : copyRoots A.source allocate roots (copyingFrom A.mem A.region) = (.ok roots', s₁))
      (scanned : scan A.source allocate s₁ = (.ok (), s))
      (inv : ∀ cur, A.Inv s cur []) (queue : s.queue = []) (roots_eq : roots' = roots.map s.forward)
      (settled : ∀ t ∈ roots, t ∈ A.settled s)
  | fullRoots {full : HeapFull} {s : Copying} {cur : Term} {todo : List ℕ}
      (copied : copyRoots A.source allocate roots (copyingFrom A.mem A.region) =
        (.error (.heapFull full), s))
      (inv : A.Inv s cur todo) (noRoom : A.NoRoom s)
  | fullScan {full : HeapFull} {roots' : List Term} {s₁ s : Copying} {cur : Term} {todo : List ℕ}
      (copied : copyRoots A.source allocate roots (copyingFrom A.mem A.region) = (.ok roots', s₁))
      (scanned : scan A.source allocate s₁ = (.error (.heapFull full), s))
      (inv : A.Inv s cur todo) (noRoom : A.NoRoom s)
      (stands : List.Forall₂ (A.StandsFor s) roots roots')

section Run

variable {allocate : Allocate} {roots : List Term}

theorem Run.of_finished (h : A.Run allocate roots) {roots' : List Term} {s₁ s : Copying}
    (hcopy : copyRoots A.source allocate roots (copyingFrom A.mem A.region) = (.ok roots', s₁))
    (hscan : scan A.source allocate s₁ = (.ok (), s)) :
    (∀ cur, A.Inv s cur []) ∧ s.queue = [] ∧ roots' = roots.map s.forward ∧
      ∀ t ∈ roots, t ∈ A.settled s := by
  cases h with
  | finished copied scanned inv queue roots_eq settled =>
    obtain ⟨hroots, rfl⟩ := Prod.mk.inj (hcopy.symm.trans copied)
    obtain rfl := Except.ok.inj hroots
    obtain ⟨-, rfl⟩ := Prod.mk.inj (hscan.symm.trans scanned)
    exact ⟨inv, queue, roots_eq, settled⟩
  | fullRoots copied =>
    rw [hcopy] at copied
    cases copied
  | fullScan copied scanned =>
    obtain ⟨-, rfl⟩ := Prod.mk.inj (hcopy.symm.trans copied)
    rw [hscan] at scanned
    cases scanned

end Run

theorem Inv.roots_eq_map (hs : A.Inv s cur todo) {roots roots' : List Term}
    (h : List.Forall₂ (fun t t' : Term => A.Done s t t'.raw) roots roots') :
    roots' = roots.map s.forward := by
  induction h with
  | nil => rfl
  | cons hhead htail ih => rw [List.map_cons, ← hs.done_eq_forward hhead, ih]

theorem Ready.run (hA : A.Ready) {allocate : Allocate} (hal : AllocSpec allocate)
    {roots : List Term} (hroots : ∀ t ∈ roots, A.Ok t) : A.Run allocate roots := by
  have hcopy := copyRoots_spec hA hal hroots (hA.inv .nil)
  generalize hres : copyRoots A.source allocate roots (copyingFrom A.mem A.region) = res at hcopy
  cases hcopy with
  | full hinv hext hno => exact .fullRoots hres hinv hno
  | @ok roots' s₁ hinv hext hle hdone =>
    have hscan := scan_spec hA hal hinv
    generalize hres' : scan A.source allocate s₁ = res' at hscan
    cases hscan with
    | @ok u s hinv' hext' hle' hq =>
      have hfinal := hdone.imp fun (t t' : Term) (h : A.Done s₁ t t'.raw) => h.mono hext'
      have hset := (List.forall₂_and_left roots roots').mpr ⟨hroots, hfinal⟩ |>.imp
        fun t t' h => And.intro (settled_of_done h.1 h.2) trivial
      exact .finished hres hres' (fun cur => hinv'.cur_irrelevant cur) hq
        (hinv'.roots_eq_map hfinal) ((List.forall₂_and_left roots roots').mp hset).1
    | @full full s cur' todo' hinv' hext' hno =>
      refine .fullScan hres hres' hinv' hno ?_
      exact ((List.forall₂_and_left roots roots').mpr ⟨hroots, hdone⟩).imp
        fun t t' h => Done.standsFor h.1 (h.2.mono hext')

end Arena

end Beamr.Gc
