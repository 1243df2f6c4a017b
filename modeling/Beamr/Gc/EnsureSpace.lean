import Beamr.Gc.RootSet

/-!
# Ensuring space

A request for words goes through a minor collection, a major collection where the minor one
ran out of room, and the growth of the empty nursery. The half-finished minor collection leaves
a sound process, so the major collection carries every root it traces. It traces the first 256
X registers, whatever the number of live ones.
-/
namespace Beamr.Gc

open Beamr ObjectGraph

/-! ## Growth of an empty nursery -/

section Growth

variable {sys : SystemAllocator} {external : List HeapRegion} {objs : Set Obj} {p q r : Process}

/-- `q` is `p` with another, empty nursery. -/
structure Grown (external : List HeapRegion) (p q : Process) : Prop where
  slots : q = { p with heap := q.heap }
  old : q.heap.old = p.heap.old
  empty : q.heap.young.used = 0
  records : q.heap.young.allocations = []
  apart : q.heap.young.Apart q.heap.old
  external_apart : ∀ r ∈ external, r.Apart q.heap.young
  mem : ∀ a, p.heap.old.contains a = true → q.heap.mem a = p.heap.mem a

theorem Grown.trans (h : Grown external p q) (h' : Grown external q r) : Grown external p r where
  slots := by rw [h'.slots, h.slots]
  old := h'.old.trans h.old
  empty := h'.empty
  records := h'.records
  apart := h'.apart
  external_apart := h'.external_apart
  mem := by
    intro a ha
    rw [h'.mem a (by rw [h.old]; exact ha), h.mem a ha]

theorem grown_growYoungTo (sys : SystemAllocator) (external : List HeapRegion) (p : Process)
    (next : ℕ) : Grown external p { p with heap := p.heap.growYoungTo sys external next } := by
  have hnew : ∀ r ∈ p.heap.young :: p.heap.old :: external,
      r.Apart (p.heap.growYoungTo sys external next).young := fun r hr =>
    sys.apart (p.heap.young :: p.heap.old :: external) next r hr
  refine ⟨rfl, rfl, rfl, rfl, (hnew p.heap.old (by simp)).symm, ?_, ?_⟩
  · exact fun r hr => hnew r (by simp [hr])
  · intro a ha
    refine zero_of_not_contains (r := (p.heap.growYoungTo sys external next).young) ?_
    exact not_contains_of_apart (hnew p.heap.old (by simp)) ha

/-- The growth loop ends with the words free, or at the size limit. -/
theorem growFuel_spec (sys : SystemAllocator) {words fuel : ℕ} (hp : Grown external p p)
    (hfuel : words ≤ p.heap.available + fuel) :
    Grown external p (growFuel sys external words fuel p).2 ∧
      ((growFuel sys external words fuel p).1 = .ok () →
        words ≤ (growFuel sys external words fuel p).2.heap.available) := by
  induction fuel generalizing p with
  | zero => exact ⟨hp, fun _ => hfuel⟩
  | succ fuel ih =>
    unfold growFuel
    by_cases hlt : p.heap.available < words
    · rw [if_pos hlt]
      unfold Heap.growToNextCapacityWithMax
      by_cases hmax : p.heap.nextCapacity > p.heap.maxCapacity
      · rw [if_pos hmax]
        exact ⟨hp, fun h => by cases h⟩
      · rw [if_neg hmax]
        have hstep := grown_growYoungTo sys external p p.heap.nextCapacity
        have hroom : p.heap.available + 1 ≤
            (p.heap.growYoungTo sys external p.heap.nextCapacity).available := by
          have hle : p.heap.young.capacity + 1 ≤ p.heap.nextCapacity := le_max_right _ _
          unfold Heap.available HeapRegion.available
          change _ ≤ p.heap.nextCapacity - 0
          omega
        have hself : Grown external
            { p with heap := p.heap.growYoungTo sys external p.heap.nextCapacity } _ :=
          ⟨rfl, rfl, hstep.empty, hstep.records, hstep.apart, hstep.external_apart, fun _ _ => rfl⟩
        obtain ⟨hgrown, hok⟩ := ih hself (by
          change words ≤ (p.heap.growYoungTo sys external p.heap.nextCapacity).available + fuel
          omega)
        exact ⟨hstep.trans hgrown, hok⟩
    · rw [if_neg hlt]
      exact ⟨hp, fun _ => not_lt.mp hlt⟩

/-- In a heap with an empty nursery the live words are those of the old region. -/
theorem allocated_of_empty {h : Heap} (hempty : h.young.used = 0) (a : ℕ) :
    h.allocated a = h.old.allocated a := by
  simp only [Heap.allocated, not_allocated_of_empty hempty, Bool.false_or]

theorem Intact.dead_of_stored {h : Heap} (hI : Intact external h objs) {a : ℕ}
    (ha : Stored external a) : h.allocated a = false := by
  by_contra hall
  have hc := hI.contains_of_allocated (by simpa using hall)
  rw [hI.stored ha] at hc
  cases hc

/-- Live words stay live and keep their contents. -/
theorem Grown.word (h : Grown external p q) (hempty : p.heap.young.used = 0)
    (hle : p.heap.old.used ≤ p.heap.old.capacity) {a : ℕ} (ha : p.heap.allocated a = true) :
    q.heap.mem a = p.heap.mem a ∧ q.heap.allocated a = true := by
  rw [allocated_of_empty hempty] at ha
  refine ⟨h.mem a (contains_of_allocated hle ha), ?_⟩
  rw [allocated_of_empty h.empty, h.old]
  exact ha

theorem Grown.allRoots_eq (h : Grown external p q) (liveX : ℕ) :
    allRoots q liveX = allRoots p liveX := by
  rw [h.slots]
  rfl

/-- A heap with an empty nursery stays intact. -/
theorem Grown.intact (h : Grown external p q) (hI : Intact external p.heap objs)
    (hempty : p.heap.young.used = 0) : Intact external q.heap objs := by
  have hword := fun o (ho : o ∈ objs) i (hi : i < o.words p.heap.mem) =>
    h.word hempty hI.old_le (hI.wf.extent o ho i hi)
  have hold : ∀ o ∈ objs, ∀ i < o.words p.heap.mem, q.heap.old.allocated (o.addr + i) = true := by
    intro o ho i hi
    rw [← allocated_of_empty h.empty]
    exact (hword o ho i hi).2
  have hle : q.heap.old.used ≤ q.heap.old.capacity := by rw [h.old]; exact hI.old_le
  have hext : ∀ r ∈ external, r.Apart q.heap.young ∧ r.Apart q.heap.old := by
    intro r hr
    rw [h.old]
    exact ⟨h.external_apart r hr, (hI.external_apart r hr).2⟩
  refine ⟨by rw [h.empty]; exact Nat.zero_le _, hle, h.apart, hext, ?_, ?_, ?_, ?_⟩
  · exact ⟨by rw [h.records]; simp, by rw [h.records]; exact .nil, by rw [h.records]; simp⟩
  · rw [h.old]
    exact hI.old_tracked.congr fun a ha => h.mem a (contains_of_allocated hI.old_le ha)
  · intro o ho
    right
    have hshape := Obj.shape_eq (b := o.addr) (hI.wf.laidOut o ho) fun i hi _ => (hword o ho i hi).1
    exact fun i hi => hold o ho i (hshape.1 ▸ hi)
  · refine hI.wf.congr (fun o ho i hi => (hword o ho i hi).1) (fun o ho i hi => (hword o ho i hi).2)
      ?_ ?_
    · exact fun o ho => Heap.contains_iff.mpr
        (.inr (contains_of_allocated hle (hold o ho 0 (o.words_pos _))))
    · rintro a ⟨r, hr, ha⟩
      simp only [Heap.contains, not_contains_of_apart (hext r hr).1 ha,
        not_contains_of_apart (hext r hr).2 ha, Bool.or_self]

/-- Valid terms denote what they did. -/
theorem Grown.sameStructure (h : Grown external p q) (hI : Intact external p.heap objs)
    (hempty : p.heap.young.used = 0) {t : Term}
    (ht : Valid p.heap.contains (Stored external) objs t) :
    SameStructure (heapGraph p) (heapGraph q) t t := by
  refine hI.wf.sameStructure
    (fun o ho i hi => (h.word hempty hI.old_le (hI.wf.extent o ho i hi)).1)
    (fun o ho => (h.word hempty hI.old_le (hI.wf.live_addr ho)).2) ?_ ht
  exact fun a _ ha => ⟨hI.dead_of_stored ha, (h.intact hI hempty).dead_of_stored ha⟩

end Growth

/-! ## A minor collection that runs out of room -/

section Slots

variable {R : Term → Term → Prop} {p q : Process} {liveX k : ℕ}

theorem allRoots_eq (p : Process) (liveX : ℕ) :
    allRoots p liveX = p.xRegs.take (min liveX xRegCount) ++ p.drainArrival.restRoots :=
  Process.rootList_eq _ _

theorem forall₂_append_iff {as as' bs bs' : List Term} (hlen : as.length = as'.length) :
    List.Forall₂ R (as ++ bs) (as' ++ bs') ↔ List.Forall₂ R as as' ∧ List.Forall₂ R bs bs' := by
  constructor
  · intro h
    have htake := List.forall₂_take as.length h
    have hdrop := List.forall₂_drop as.length h
    rw [List.take_left, hlen, List.take_left] at htake
    rw [List.drop_left, hlen, List.drop_left] at hdrop
    exact ⟨htake, hdrop⟩
  · rintro ⟨has, hbs⟩
    exact List.rel_append has hbs

theorem take_xRegs_length (p : Process) (liveX : ℕ) :
    (p.xRegs.take (min liveX xRegCount)).length = min liveX xRegCount := by
  rw [List.length_take, p.xRegs_length, min_assoc, min_self]

/-- Slot by slot: the X registers and the other roots. -/
theorem forall₂_allRoots : List.Forall₂ R (allRoots p liveX) (allRoots q liveX) ↔
    List.Forall₂ R (p.xRegs.take (min liveX xRegCount)) (q.xRegs.take (min liveX xRegCount)) ∧
      List.Forall₂ R p.drainArrival.restRoots q.drainArrival.restRoots := by
  rw [allRoots_eq, allRoots_eq, forall₂_append_iff (by rw [take_xRegs_length, take_xRegs_length])]

theorem take_xRegs_add (p : Process) (h : liveX ≤ k) :
    p.xRegs.take (min k xRegCount) = p.xRegs.take (min liveX xRegCount) ++
      (p.xRegs.drop (min liveX xRegCount)).take (min k xRegCount - min liveX xRegCount) := by
  rw [← List.take_add]
  congr 1
  omega

/-- Registers above the live ones that nobody has touched may be added. -/
theorem forall₂_allRoots_extend (h : liveX ≤ k)
    (hroots : List.Forall₂ R (allRoots p liveX) (allRoots q liveX))
    (hdrop : q.xRegs.drop (min liveX xRegCount) = p.xRegs.drop (min liveX xRegCount))
    (hrefl : ∀ t ∈ allRoots p k, R t t) : List.Forall₂ R (allRoots p k) (allRoots q k) := by
  rw [forall₂_allRoots] at hroots ⊢
  refine ⟨?_, hroots.2⟩
  rw [take_xRegs_add p h, take_xRegs_add q h, hdrop]
  refine List.rel_append hroots.1 (List.forall₂_same.mpr fun t ht => hrefl t ?_)
  rw [allRoots_eq, take_xRegs_add p h]
  exact List.mem_append_left _ (List.mem_append_right _ ht)

theorem forall₂_allRoots_mono (h : liveX ≤ k)
    (hroots : List.Forall₂ R (allRoots p k) (allRoots q k)) :
    List.Forall₂ R (allRoots p liveX) (allRoots q liveX) := by
  rw [forall₂_allRoots] at hroots ⊢
  refine ⟨?_, hroots.2⟩
  have htake := List.forall₂_take (min liveX xRegCount) hroots.1
  rw [List.take_take, List.take_take] at htake
  have hmin : min (min liveX xRegCount) (min k xRegCount) = min liveX xRegCount := by omega
  rwa [hmin] at htake

/-- Combine a relation between two lists with a property of the second. -/
theorem forall₂_of_right {S : Term → Term → Prop} {P : Term → Prop} {ts us : List Term}
    (h : List.Forall₂ R ts us) (hP : ∀ u ∈ us, P u) (hS : ∀ t u, R t u → P u → S t u) :
    List.Forall₂ S ts us := by
  induction h with
  | nil => exact .nil
  | cons hhead htail ih =>
    exact .cons (hS _ _ hhead (hP _ (by simp))) (ih fun u hu => hP u (by simp [hu]))

theorem allRoots_subset (h : liveX ≤ k) {t : Term} (ht : t ∈ allRoots p liveX) :
    t ∈ allRoots p k := by
  rw [allRoots_eq] at ht ⊢
  rw [take_xRegs_add p h]
  rcases List.mem_append.mp ht with ht | ht
  · exact List.mem_append_left _ (List.mem_append_left _ ht)
  · exact List.mem_append_right _ ht

theorem Sound.mono {external : List HeapRegion} {objs : Set Obj} (hp : Sound external objs p k)
    (h : liveX ≤ k) : Sound external objs p liveX :=
  ⟨hp.heap, fun t ht => hp.roots t (allRoots_subset h ht)⟩

end Slots

section Failed

variable {arcBytes : ℕ → ℕ} {external : List HeapRegion} {objs : Set Obj} {p q : Process}
  {liveX k : ℕ} {s : Copying} {cur : Term} {todo : List ℕ}

/-- What a minor collection leaves that ran out of room. -/
structure MinorFailed (external : List HeapRegion) (objs : Set Obj) (p q : Process) (liveX : ℕ)
    (s : Copying) : Prop where
  inv : ∃ cur todo, (minorArena external p.heap objs).Inv s cur todo
  heap : q.heap = { p.heap with mem := s.mem, old := s.region }
  rest : q.xRegs.drop (min liveX xRegCount) = p.xRegs.drop (min liveX xRegCount)
  roots : List.Forall₂ ((minorArena external p.heap objs).StandsFor s) (allRoots p liveX)
    (allRoots q liveX)

/-- A minor collection fails when what it promotes does not fit. -/
theorem Sound.minorFailed (arcBytes : ℕ → ℕ) (hp : Sound external objs p liveX)
    (hno : ¬ Promotable objs p liveX) :
    ∃ full q s, collectMinorWithLive arcBytes p liveX = (.error (.heapFull full), q) ∧
      MinorFailed external objs p q liveX s := by
  rw [collectMinorWithLive_eq]
  cases hp.heap.minor_ready.run allocSpec_old hp.roots with
  | finished copied scanned => exact absurd (hp.promotable ⟨copied, scanned⟩) hno
  | @fullRoots full s cur todo copied inv noRoom =>
    have hcopy : copyRoots p.heap.young.contains allocateOld (allRoots p liveX)
      (copyingFrom p.heap.mem p.heap.old) = (.error (.heapFull full), s) := copied
    simp only [hcopy]
    refine ⟨full, _, s, rfl, ⟨cur, todo, inv⟩, rfl, rfl, ?_⟩
    have hsame : allRoots (withOld (startGc p) s) liveX = allRoots p liveX :=
      allRoots_of_arrival rfl liveX
    rw [hsame, List.forall₂_same]
    exact fun t ht => ⟨hp.roots t ht, .inl rfl⟩
  | @fullScan full roots s₁ s cur todo copied scanned inv noRoom stands =>
    have hcopy : copyRoots p.heap.young.contains allocateOld (allRoots p liveX)
      (copyingFrom p.heap.mem p.heap.old) = (.ok roots, s₁) := copied
    have hscan : scan p.heap.young.contains allocateOld s₁ = (.error (.heapFull full), s) := scanned
    simp only [hcopy, hscan]
    have hlen : roots.length = ((withOld (startGc p) s₁).rootList liveX).length :=
      stands.length_eq.symm
    obtain ⟨hroots, hdrop, hsame⟩ := Process.replaceRoots_spec _ liveX hlen
    have harr : (withOld ((withOld (startGc p) s₁).replaceRootsWithLiveX liveX roots)
      s).mailbox.arrival = [] := hsame.arrival
    have hall : allRoots (withOld ((withOld (startGc p) s₁).replaceRootsWithLiveX liveX roots)
      s) liveX = roots := (allRoots_of_arrival harr liveX).trans hroots
    refine ⟨full, _, s, rfl, ⟨cur, todo, inv⟩, ?_, hdrop, ?_⟩
    · exact congrArg (fun h : Heap => { h with mem := s.mem, old := s.region }) hsame.heap
    · rw [hall]
      exact stands

section Half

variable (hI : Intact external p.heap objs) (hf : MinorFailed external objs p q liveX s)

include hf

theorem MinorFailed.contains (a : ℕ) : q.heap.contains a = p.heap.contains a := by
  obtain ⟨cur, todo, hinv⟩ := hf.inv
  have hbase : s.region.base = p.heap.old.base := hinv.base
  have hcap : s.region.capacity = p.heap.old.capacity := hinv.capacity
  rw [hf.heap]
  simp only [Heap.contains, HeapRegion.contains, hbase, hcap]

theorem MinorFailed.valid {t t' : Term}
    (h : (minorArena external p.heap objs).StandsFor s t t') :
    Valid q.heap.contains (Stored external)
      (objs ∪ (minorArena external p.heap objs).copies s) t' := by
  obtain ⟨cur, todo, hinv⟩ := hf.inv
  intro a ha
  rw [hf.contains]
  rcases h.2 with rfl | ⟨a', t'', ha', hsrc, hfwd, hw⟩
  · exact (h.1 a ha).imp_left fun ⟨hin, ho⟩ => ⟨hin, .inl ho⟩
  · obtain ⟨-, o, ho, rfl, b, rfl⟩ := hinv.known a' t'' hfwd
    obtain rfl : t' = (Obj.mk b o.kind).term := congrArg Term.mk hw
    rw [Obj.heapPtr_term] at ha
    obtain rfl := Option.some.inj ha
    rw [Obj.kindOf_term]
    refine .inl ⟨Heap.contains_iff.mpr (.inr (hinv.copy_contains ho hfwd)), .inr ⟨o, ho, b, hfwd, rfl⟩⟩

include hI

/-- Objects and copies side by side. -/
theorem MinorFailed.kept : (minorArena external p.heap objs).Kept s objs q.heap.mem
    q.heap.allocated := by
  obtain ⟨cur, todo, hinv⟩ := hf.inv
  have hbase : s.region.base = p.heap.old.base := hinv.base
  have hge : p.heap.old.used ≤ s.region.used := hinv.used_ge
  have hle : s.region.used ≤ p.heap.old.capacity := hinv.used_le
  rw [hf.heap]
  refine ⟨fun o ho => ho, ?_, ?_, ?_⟩
  · intro o ho i hi
    refine ⟨hinv.mem_obj hI.minor_ready ho hi, ?_⟩
    have hall := hI.wf.extent o ho i hi
    rw [Heap.allocated_iff] at hall ⊢
    refine hall.imp_right fun h => ?_
    rw [HeapRegion.allocated_iff] at h ⊢
    dsimp only
    omega
  · intro a h₁ h₂
    have hstart : p.heap.old.base + p.heap.old.used ≤ a := h₁
    have hend : a < p.heap.old.base + s.region.used := h₂
    refine ⟨rfl, Heap.allocated_iff.mpr (.inr (HeapRegion.allocated_iff.mpr ?_))⟩
    dsimp only
    omega
  · intro a hin _
    obtain ⟨hy, ho⟩ := Bool.or_eq_false_iff.mp (show p.heap.contains a = false from hin)
    have hyoung := not_allocated_of_not_contains hI.young_le hy
    have hold : s.region.allocated a = false := by
      by_contra hall
      rw [Bool.not_eq_false, HeapRegion.allocated_iff] at hall
      rw [HeapRegion.contains_iff.mpr ⟨by omega, by omega⟩] at ho
      cases ho
    simp only [Heap.allocated, hyoung, hold, Bool.or_self]

theorem MinorFailed.intact :
    Intact external q.heap (objs ∪ (minorArena external p.heap objs).copies s) := by
  have hkept := hf.kept hI
  obtain ⟨cur, todo, hinv⟩ := hf.inv
  have hA := hI.minor_ready
  have hbase : s.region.base = p.heap.old.base := hinv.base
  have hcap : s.region.capacity = p.heap.old.capacity := hinv.capacity
  have hge : p.heap.old.used ≤ s.region.used := hinv.used_ge
  have hle : s.region.used ≤ p.heap.old.capacity := hinv.used_le
  have hwf : WellFormed q.heap.contains (Stored external)
      (objs ∪ (minorArena external p.heap objs).copies s) q.heap.mem q.heap.allocated := by
    refine hkept.wellFormed hA hinv ?_ ?_
    · intro o ho i hi
      exact hf.valid ⟨hA.wf.fields o ho i hi, .inl rfl⟩
    · intro o ho b hfwd i hi
      refine hf.valid ⟨hA.wf.fields o ho i hi, ?_⟩
      exact (hinv.half o ho b hfwd i hi).imp_left (congrArg Term.mk)
  have hshape : ∀ o ∈ objs, o.words q.heap.mem = o.words p.heap.mem := fun o ho =>
    (Obj.shape_eq (b := o.addr) (hI.wf.laidOut o ho) fun i hi _ => (hkept.stay_eq o ho i hi).1).1
  have hshape' : ∀ o ∈ objs, ∀ b, s.Fwd o b →
      (Obj.mk b o.kind).words q.heap.mem = o.words p.heap.mem := fun o ho b hfwd =>
    (Obj.shape_eq (hI.wf.laidOut o ho) (hkept.copy_data hinv ho hfwd)).1
  rw [hf.heap] at hwf hshape hshape' ⊢
  refine ⟨hI.young_le, by dsimp only; omega, ?_, ?_, hI.minor_young hinv,
    hinv.tracked hA hI.old_tracked, ?_, hwf⟩
  · have hap := hI.apart
    unfold HeapRegion.Apart at hap ⊢
    simp only [hbase, hcap]
    exact hap
  · intro r hr
    have hap := hI.external_apart r hr
    unfold HeapRegion.Apart at hap ⊢
    simp only [hbase, hcap]
    exact hap
  · rintro o (ho | ⟨o, ho, b, hfwd, rfl⟩)
    · rw [hshape o ho]
      refine (hI.whole o ho).imp_right fun hall i hi => ?_
      have hi' := HeapRegion.allocated_iff.mp (hall i hi)
      rw [HeapRegion.allocated_iff]
      dsimp only
      omega
    · right
      intro i hi
      rw [hshape' o ho b hfwd] at hi
      have hr := hinv.copy_range ho hfwd hi
      have hstart : p.heap.old.base + p.heap.old.used ≤ b + i := hr.1
      have hend : b + i < p.heap.old.base + s.region.used := hr.2
      rw [HeapRegion.allocated_iff]
      dsimp only
      omega

end Half

/-- The same for registers above the live ones. -/
theorem MinorFailed.stands (hf : MinorFailed external objs p q liveX s)
    (hp : Sound external objs p k) (h : liveX ≤ k) :
    List.Forall₂ ((minorArena external p.heap objs).StandsFor s) (allRoots p k) (allRoots q k) :=
  forall₂_allRoots_extend h hf.roots hf.rest fun t ht => ⟨hp.roots t ht, .inl rfl⟩

theorem forall_right {R : Term → Term → Prop} {P : Term → Prop} {ts us : List Term}
    (h : List.Forall₂ R ts us) (hP : ∀ t u, R t u → P u) : ∀ u ∈ us, P u := by
  induction h with
  | nil => simp
  | cons hhead htail ih =>
    intro u hu
    rcases List.mem_cons.mp hu with rfl | hu
    · exact hP _ _ hhead
    · exact ih u hu

theorem forall_left {R : Term → Term → Prop} {P : Term → Prop} {ts us : List Term}
    (h : List.Forall₂ R ts us) (hP : ∀ t u, R t u → P t) : ∀ t ∈ ts, P t :=
  forall_right (R := flip R) h.flip fun u t htu => hP t u htu

/-- A half-finished minor collection leaves a sound process. -/
theorem MinorFailed.sound (hf : MinorFailed external objs p q liveX s)
    (hp : Sound external objs p k) (h : liveX ≤ k) :
    Sound external (objs ∪ (minorArena external p.heap objs).copies s) q k :=
  ⟨hf.intact hp.heap, forall_right (hf.stands hp h) fun _ _ => hf.valid⟩

theorem MinorFailed.sameStructure (hf : MinorFailed external objs p q liveX s)
    (hI : Intact external p.heap objs) {t t' : Term}
    (h : (minorArena external p.heap objs).StandsFor s t t') :
    SameStructure (heapGraph p) (heapGraph q) t t' := by
  have hkept := hf.kept hI
  obtain ⟨cur, todo, hinv⟩ := hf.inv
  exact (hkept.bisimulation hI.minor_ready hinv).sameStructure h

/-- What points into the heap still does. -/
theorem MinorFailed.points (hf : MinorFailed external objs p q liveX s) {t t' : Term}
    (h : (minorArena external p.heap objs).StandsFor s t t') {a : ℕ} (ha : t.heapPtr = some a)
    (hin : p.heap.contains a = true) : ∃ a', t'.heapPtr = some a' ∧ q.heap.contains a' = true := by
  rcases h.2 with rfl | ⟨a', t'', -, -, hfwd, hw⟩
  · exact ⟨a, ha, by rw [hf.contains]; exact hin⟩
  · obtain ⟨cur, todo, hinv⟩ := hf.inv
    obtain ⟨-, o, ho, rfl, b, rfl⟩ := hinv.known a' t'' hfwd
    obtain rfl : t' = (Obj.mk b o.kind).term := congrArg Term.mk hw
    refine ⟨b, Obj.heapPtr_term _, ?_⟩
    rw [hf.contains]
    exact Heap.contains_iff.mpr (.inr (hinv.copy_contains ho hfwd))

end Failed

/-! ## Old objects that point into the nursery -/

section Generational

variable {external : List HeapRegion} {objs : Set Obj} {p q : Process} {liveX : ℕ} {s : Copying}
  {mem' : Memory} {live' : ℕ → Bool}

/-- If the roots denote what they did after the nursery is gone, nothing reachable in the old
region pointed there. -/
theorem MinorDone.generational (hp : Sound external objs p liveX)
    (hd : MinorDone external objs p q liveX s)
    (hk : (reachArena external objs p liveX).Kept s (reachArena external objs p liveX).unmoved
      mem' live') (hdead : ∀ a, p.heap.young.contains a = true → live' a = false)
    (hsame : ∀ t ∈ allRoots p liveX, SameStructure (heapGraph p) (graph mem' live') t (s.forward t)) :
    Generational objs p liveX := by
  have hA := hp.ready
  have hinv := hd.inv .nil
  rw [generational_iff]
  -- along some path every reachable object is met before and after
  suffices hpath : ∀ o, Reachable p.heap.mem objs (allRoots p liveX) o →
      (reachArena external objs p liveX).Good o ∧
      o.term ∈ (reachArena external objs p liveX).settled s ∧
      ∃ t ∈ allRoots p liveX, ∃ path, (heapGraph p).follow path t = some o.term ∧
        (graph mem' live').follow path (s.forward t) = some (s.forward o.term) from
    fun o ho => (hpath o ho).1
  have hgood : ∀ o, Reachable p.heap.mem objs (allRoots p liveX) o → ∀ t ∈ allRoots p liveX,
      ∀ path, (heapGraph p).follow path t = some o.term →
        (graph mem' live').follow path (s.forward t) = some (s.forward o.term) →
        (reachArena external objs p liveX).Good o := by
    intro o ho t ht path hbefore hafter hold i hi₀ a ha₀
    have hi : i ∈ o.offsets p.heap.mem := hi₀
    have ha : (o.field p.heap.mem i).heapPtr = some a := ha₀
    have hb₀ : (heapGraph p).node o.term = some (o.label p.heap.mem, o.fields p.heap.mem) :=
      hA.node_before ho
    have ha₁ : (graph mem' live').node o.term = some (o.label p.heap.mem, o.fields p.heap.mem) :=
      hk.node_stay hA ⟨ho, hold⟩
    by_contra hyoung₀
    have hyoung : p.heap.young.contains a = true := Bool.not_eq_false _ ▸ hyoung₀
    obtain ⟨y, hy, hoy⟩ := (hsame t ht).follow hbefore
    obtain rfl := Option.some.inj (hafter.symm.trans hy)
    have hfix : s.forward o.term = o.term := hinv.forward_of_not_source fun a ha => by
      rw [o.heapPtr_term] at ha
      exact Option.some.inj ha ▸ hold
    rw [hfix] at hoy
    obtain ⟨n, hn, hget⟩ := List.mem_iff_getElem.mp hi
    have hfield : (o.fields p.heap.mem)[n]? = some (o.field p.heap.mem i) := by
      rw [Obj.fields, List.getElem?_map, List.getElem?_eq_getElem hn]
      exact congrArg (fun i => some (o.field p.heap.mem i)) hget
    have hb : (heapGraph p).follow [n] o.term = some (o.field p.heap.mem i) := by
      rw [follow_node hb₀, hfield]
      rfl
    have ha' : (graph mem' live').follow [n] o.term = some (o.field p.heap.mem i) := by
      rw [follow_node ha₁, hfield]
      rfl
    obtain ⟨z, hz, hzz⟩ := hoy.follow hb
    obtain rfl := Option.some.inj (ha'.symm.trans hz)
    have hsome := hzz.node_isSome
    rw [graph_node_of_dead ha (hdead a hyoung)] at hsome
    rcases hA.ok_cases (hA.wf.fields o ho i hi) with ⟨o', ho', heq⟩ | ⟨-, hout⟩
    · have heq' : o.field p.heap.mem i = o'.term := heq
      have hnode : (heapGraph p).node o'.term =
        some (o'.label p.heap.mem, o'.fields p.heap.mem) := hA.node_before ho'
      rw [heq', hnode] at hsome
      cases hsome
    · have hin : p.heap.contains a = false := (hout a ha).1
      have hin' : p.heap.contains a = true := Heap.contains_iff.mpr (.inl hyoung)
      rw [hin] at hin'
      cases hin'
  intro o ho
  induction ho with
  | @root o hobj hroot =>
    have hr : Reachable p.heap.mem objs (allRoots p liveX) o := .root hobj hroot
    exact ⟨hgood o hr _ hroot [] rfl rfl, hd.settled _ hroot, _, hroot, [], rfl, rfl⟩
  | @field o o' hreach hobj hmem ih =>
    obtain ⟨hgo, hset, t, ht, path, hbefore, hafter⟩ := ih
    have hr : Reachable p.heap.mem objs (allRoots p liveX) o' := hreach.field hobj hmem
    obtain ⟨hnode₀, hfields⟩ := hk.node_forward hA hinv hd.queue hreach hset hgo
    have hnode : (graph mem' live').node (s.forward o.term) =
      some (o.label p.heap.mem, (o.fields p.heap.mem).map s.forward) := hnode₀
    have hnodeb : (heapGraph p).node o.term = some (o.label p.heap.mem, o.fields p.heap.mem) :=
      hA.node_before hreach
    obtain ⟨n, hn, hget⟩ := List.mem_iff_getElem.mp hmem
    have hn' : (o.fields p.heap.mem)[n]? = some o'.term := by
      rw [List.getElem?_eq_getElem hn, hget]
    have hb : (heapGraph p).follow (path ++ [n]) t = some o'.term := by
      rw [follow_append, hbefore, Option.bind_some, follow_node hnodeb, hn']
      rfl
    have ha : (graph mem' live').follow (path ++ [n]) (s.forward t) = some (s.forward o'.term) := by
      rw [follow_append, hafter, Option.bind_some, follow_node hnode, List.getElem?_map, hn']
      rfl
    exact ⟨hgood o' hr t ht _ hb ha, hfields _ hmem, t, ht, _, hb, ha⟩

end Generational

/-! ## Requests -/

section Request

variable (sys : SystemAllocator) {external : List HeapRegion} (arcBytes : ℕ → ℕ) {objs : Set Obj}
  {p q r : Process} {words liveX : ℕ} {s : Copying}

/-- No collection is needed. -/
def FastPath (p : Process) (words : ℕ) : Prop :=
  p.heap.available ≥ words ∧ virtualBinaryPressureExceedsHeap p = false

/-- What a request owes its caller: the words on success, and every root as it was. -/
def Ensured (p : Process) (words liveX : ℕ) (result : Except GcError Unit × Process) : Prop :=
  (result.1 = .ok () → words ≤ result.2.heap.available) ∧
    List.Forall₂ (SameStructure (heapGraph p) (heapGraph result.2)) (allRoots p liveX)
      (allRoots result.2 liveX)

theorem MinorDone.grown (hp : Sound external objs p liveX)
    (hd : MinorDone external objs p q liveX s) : Grown external q q := by
  have hinv := hd.inv .nil
  have hcap : s.region.capacity = p.heap.old.capacity := hinv.capacity
  have hbase : s.region.base = p.heap.old.base := hinv.base
  refine ⟨rfl, rfl, by rw [hd.young]; rfl, by rw [hd.young]; rfl, ?_, ?_, fun _ _ => rfl⟩
  · have hap := hp.heap.apart
    unfold HeapRegion.Apart at hap ⊢
    rw [hd.young, hd.old, hcap, hbase]
    exact hap
  · intro r hr
    rw [hd.young]
    exact (hp.heap.external_apart r hr).1

/-- The old region after the minor collection and the growth. -/
theorem MinorDone.old_allocated (hd : MinorDone external objs p q liveX s) (hg : Grown external q r) {a : ℕ}
    (ha : r.heap.allocated a = true) : p.heap.old.contains a = true := by
  have hinv := hd.inv .nil
  have hbase : s.region.base = p.heap.old.base := hinv.base
  have hle : s.region.used ≤ p.heap.old.capacity := hinv.used_le
  rw [allocated_of_empty hg.empty, hg.old, hd.old, HeapRegion.allocated_iff] at ha
  exact HeapRegion.contains_iff.mpr ⟨by omega, by omega⟩

theorem MinorDone.kept_grown (hp : Sound external objs p liveX)
    (hd : MinorDone external objs p q liveX s) (hg : Grown external q r) :
    (reachArena external objs p liveX).Kept s (reachArena external objs p liveX).unmoved
      r.heap.mem r.heap.allocated := by
  have hk := hd.kept hp
  have hempty := (hd.grown hp).empty
  have hle : q.heap.old.used ≤ q.heap.old.capacity := by
    rw [hd.old, (hd.inv .nil).capacity]
    exact (hd.inv .nil).used_le
  refine ⟨hk.sub, ?_, ?_, ?_⟩
  · intro o ho i hi
    obtain ⟨hmem, hlive⟩ := hk.stay_eq o ho i hi
    obtain ⟨hmem', hlive'⟩ := hg.word hempty hle hlive
    exact ⟨hmem'.trans hmem, hlive'⟩
  · intro a h₁ h₂
    obtain ⟨hmem, hlive⟩ := hk.copy_eq a h₁ h₂
    obtain ⟨hmem', hlive'⟩ := hg.word hempty hle hlive
    exact ⟨hmem'.trans hmem, hlive'⟩
  · intro a hin _
    by_contra hall
    have hold := hd.old_allocated hg (by simpa using hall)
    have hc : p.heap.contains a = true := Heap.contains_iff.mpr (.inr hold)
    rw [show p.heap.contains a = false from hin] at hc
    cases hc

/-- After a finished minor collection the request is met exactly when no reachable old object
pointed into the nursery. -/
theorem MinorDone.ensured_iff (hp : Sound external objs p liveX)
    (hd : MinorDone external objs p q liveX s) :
    Ensured p words liveX (growFuel sys external words words q) ↔ Generational objs p liveX := by
  obtain ⟨hg, hok⟩ := growFuel_spec sys (hd.grown hp) (Nat.le_add_left words q.heap.available)
  have hroots : allRoots (growFuel sys external words words q).2 liveX =
      (allRoots p liveX).map s.forward := (hg.allRoots_eq liveX).trans hd.roots
  unfold Ensured
  rw [hroots, List.forall₂_map_right_iff, List.forall₂_same]
  constructor
  · rintro ⟨-, hsame⟩
    refine hd.generational hp (hd.kept_grown hp hg) (fun a ha => ?_) hsame
    by_contra hall
    have hold := hd.old_allocated hg (by simpa using hall)
    rw [not_contains_of_apart hp.heap.apart ha] at hold
    cases hold
  · intro hgen
    have hsound := hd.sound hp hgen
    refine ⟨hok, fun t ht => ?_⟩
    refine ((hd.carries hp hgen).sameStructure (hd.settled t ht)).trans ?_
    refine hg.sameStructure hsound.heap (hd.grown hp).empty (hsound.roots _ ?_)
    rw [hd.roots]
    exact List.mem_map_of_mem ht

theorem MajorDone.grown (hp : Sound external objs p 256) (hd : MajorDone sys external objs p q s) :
    Grown external q q := by
  have hsound := hd.sound hp
  exact ⟨rfl, rfl, by rw [hd.young]; rfl, by rw [hd.young]; rfl, hsound.heap.apart,
    fun r hr => (hsound.heap.external_apart r hr).1, fun _ _ => rfl⟩

/-- X registers from 256 up to the live ones, which a major collection does not trace. -/
def untracedX (p : Process) (liveX : ℕ) : List Term := (p.xRegs.take liveX).drop 256

theorem untracedX_eq (p : Process) (liveX : ℕ) :
    (p.xRegs.take (min (max liveX 256) xRegCount)).drop 256 = untracedX p liveX := by
  have hlen : (p.xRegs.drop 256).length = xRegCount - 256 := by
    rw [List.length_drop, p.xRegs_length]
  unfold untracedX
  rw [List.drop_take, List.drop_take, List.take_eq_take_iff, hlen]
  unfold xRegCount
  omega

/-- After a failed minor collection the major one and the growth keep every traced root. -/
theorem MinorFailed.traced (hf : MinorFailed external objs p q liveX s)
    (hp : Sound external objs p (max liveX 256)) {s₂ : Copying}
    (hd : MajorDone sys external (objs ∪ (minorArena external p.heap objs).copies s) q r s₂)
    {f : Process} (hg : Grown external r f) :
    List.Forall₂ (SameStructure (heapGraph p) (heapGraph f)) (allRoots p 256) (allRoots f 256) := by
  have hq := hf.sound hp (le_max_left liveX 256)
  have hq256 := hq.mono (le_max_right liveX 256)
  have hr := hd.sound hq256
  have hstands := forall₂_allRoots_mono (le_max_right liveX 256) (hf.stands hp (le_max_left liveX 256))
  rw [hg.allRoots_eq, hd.roots, List.forall₂_map_right_iff]
  have hmem : ∀ u ∈ allRoots q 256, SameStructure (heapGraph q) (heapGraph f) u (s₂.forward u) := by
    intro u hu
    refine (hd.sameStructure hq256 hu).trans ?_
    refine hg.sameStructure hr.heap (hd.grown sys hq256).empty (hr.roots _ ?_)
    rw [hd.roots]
    exact List.mem_map_of_mem hu
  refine forall₂_of_right hstands hmem fun t u htu hu => ?_
  exact (hf.sameStructure hp.heap htu).trans hu

theorem take_append_untracedX (p : Process) (liveX : ℕ) :
    p.xRegs.take (min 256 xRegCount) ++ untracedX p liveX =
      p.xRegs.take (min (max liveX 256) xRegCount) := by
  rw [← untracedX_eq]
  conv_rhs => rw [← List.take_append_drop 256 (p.xRegs.take (min (max liveX 256) xRegCount))]
  rw [List.take_take]
  congr 2
  unfold xRegCount
  omega

/-- A valid term that does not point into the heap is data for ever. -/
theorem sameStructure_of_avoids {objs' : Set Obj} (hI : Intact external p.heap objs)
    (hI' : Intact external q.heap objs') {t : Term}
    (ht : Valid p.heap.contains (Stored external) objs t) (hav : Avoids p.heap.contains t) :
    SameStructure (heapGraph p) (heapGraph q) t t := by
  have hnode : (heapGraph p).node t = none ∧ (heapGraph q).node t = none := by
    cases hptr : t.heapPtr with
    | none => exact ⟨graph_node_of_data hptr, graph_node_of_data hptr⟩
    | some a =>
      rcases ht a hptr with ⟨hin, -⟩ | ⟨-, hout⟩
      · rw [hav a hptr] at hin
        cases hin
      · exact ⟨graph_node_of_dead hptr (hI.dead_of_stored hout),
          graph_node_of_dead hptr (hI'.dead_of_stored hout)⟩
  intro n
  cases n with
  | zero => rfl
  | succ n => rw [unfold_leaf hnode.1, unfold_leaf hnode.2]

/-- The untraced registers after a failed minor collection, a major one and the growth. -/
theorem MinorFailed.untraced (hf : MinorFailed external objs p q liveX s)
    (hp : Sound external objs p (max liveX 256)) {s₂ : Copying}
    (hd : MajorDone sys external (objs ∪ (minorArena external p.heap objs).copies s) q r s₂)
    {f : Process} (hg : Grown external r f) :
    List.Forall₂ ((minorArena external p.heap objs).StandsFor s) (untracedX p liveX)
      (untracedX f liveX) := by
  have hstands := List.forall₂_drop 256
    (forall₂_allRoots.mp (hf.stands hp (le_max_left liveX 256))).1
  have hx : f.xRegs.drop 256 = q.xRegs.drop 256 := by
    rw [hg.slots]
    exact hd.rest
  rw [untracedX_eq, untracedX_eq] at hstands
  have hsame : untracedX f liveX = untracedX q liveX := by
    unfold untracedX
    rw [List.drop_take, List.drop_take, hx]
  rwa [hsame]

/-- A register that pointed into the heap points to nothing that is left. -/
theorem MinorFailed.lost (hf : MinorFailed external objs p q liveX s) {objs' : Set Obj}
    {s₂ : Copying} (hd : MajorDone sys external objs' q r s₂) {f : Process}
    (hg : Grown external r f) {t t' : Term}
    (h : (minorArena external p.heap objs).StandsFor s t t') {a : ℕ} (ha : t.heapPtr = some a)
    (hin : p.heap.contains a = true) : (heapGraph f).node t' = none := by
  obtain ⟨a', ha', hin'⟩ := hf.points h ha hin
  refine graph_node_of_dead ha' ?_
  by_contra hall
  obtain ⟨hbase, -, hused, hle⟩ := hd.old_range
  rw [Bool.not_eq_false, allocated_of_empty hg.empty, hg.old, HeapRegion.allocated_iff] at hall
  have hfresh : (freshOldRegion sys external q.heap).contains a' = true :=
    HeapRegion.contains_iff.mpr ⟨by omega, by omega⟩
  rw [fresh_not_contains sys hfresh] at hin'
  cases hin'

/-- After a failed minor collection the request is met exactly when no live register above the
first 256 pointed into the heap. -/
theorem MinorFailed.ensured_iff (hf : MinorFailed external objs p q liveX s)
    (hp : Sound external objs p (max liveX 256)) {s₂ : Copying}
    (hd : MajorDone sys external (objs ∪ (minorArena external p.heap objs).copies s) q r s₂) :
    Ensured p words liveX (growFuel sys external words words r) ↔
      ∀ t ∈ untracedX p liveX, Avoids p.heap.contains t := by
  have hq := hf.sound hp (le_max_left liveX 256)
  have hq256 := hq.mono (le_max_right liveX 256)
  have hr := hd.sound hq256
  obtain ⟨hg, hok⟩ :=
    growFuel_spec sys (hd.grown sys hq256) (Nat.le_add_left words r.heap.available)
  set f := (growFuel sys external words words r).2 with hfdef
  have hstands := hf.untraced sys hp hd hg
  constructor
  · rintro ⟨-, hsame⟩
    by_cases hsmall : liveX ≤ 256
    · have hnil : untracedX p liveX = [] := by
        unfold untracedX
        rw [List.drop_eq_nil_iff, List.length_take]
        omega
      simp [hnil]
    · have hmax : min liveX xRegCount = min (max liveX 256) xRegCount := by omega
      have hdrop := List.forall₂_drop 256 (forall₂_allRoots.mp hsame).1
      rw [hmax, untracedX_eq, untracedX_eq] at hdrop
      have hboth := List.Forall₂.mp (fun t u h h' => And.intro h h') hdrop hstands
      refine forall_left hboth fun t u ⟨htu, hst⟩ a ha => ?_
      by_contra hin
      rw [Bool.not_eq_false] at hin
      have hsome := htu.node_isSome
      rw [hf.lost sys hd hg hst ha hin] at hsome
      rcases hst.1 a ha with ⟨-, ho⟩ | ⟨hout, -⟩
      · rw [heapGraph, graph_node_of_live ha (hp.heap.wf.live_addr ho)] at hsome
        cases hsome
      · rw [show p.heap.contains a = false from hout] at hin
        cases hin
  · intro hav
    have hf' := hg.intact hr.heap (hd.grown sys hq256).empty
    obtain ⟨hx, hrest⟩ := forall₂_allRoots.mp (hf.traced sys hp hd hg)
    have hun : List.Forall₂ (SameStructure (heapGraph p) (heapGraph f)) (untracedX p liveX)
        (untracedX f liveX) := by
      refine ((List.forall₂_and_left _ _).mpr ⟨hav, hstands⟩).imp fun t u ⟨ha, hst⟩ => ?_
      obtain rfl : u = t := by
        rcases hst.2 with rfl | ⟨a, -, hptr, hsrc, -, -⟩
        · rfl
        · have hnot := ha a hptr
          rw [Heap.contains_iff.mpr (.inl hsrc)] at hnot
          cases hnot
      exact sameStructure_of_avoids hp.heap hf' hst.1 ha
    refine ⟨hok, forall₂_allRoots_mono (le_max_left liveX 256) ?_⟩
    refine forall₂_allRoots.mpr ⟨?_, hrest⟩
    rw [← take_append_untracedX p, ← take_append_untracedX f]
    exact List.rel_append hx hun

theorem ensureSpace_fast (h : FastPath p words) :
    ensureSpace sys external arcBytes p words liveX = (.ok (), p) := if_pos h

/-- A request is met on the fast path; after a minor collection, exactly when no reachable old
object pointed into the nursery; and after a minor collection without room for what it promotes,
exactly when no live X register above the first 256 pointed into the heap. A major collection
never runs out of room. -/
theorem ensureSpace_ensured_iff (hp : Sound external objs p (max liveX 256)) :
    (Ensured p words liveX (ensureSpace sys external arcBytes p words liveX) ↔
      FastPath p words ∨ (Promotable objs p liveX ∧ Generational objs p liveX) ∨
        (¬ Promotable objs p liveX ∧ ∀ t ∈ untracedX p liveX, Avoids p.heap.contains t)) ∧
    ∃ stats q, collectMajor sys external arcBytes p = (.ok stats, q) := by
  have hlive := hp.mono (le_max_left liveX 256)
  constructor
  · by_cases hfast : FastPath p words
    · rw [ensureSpace_fast sys arcBytes hfast]
      refine iff_of_true ⟨fun _ => hfast.1, ?_⟩ (.inl hfast)
      exact List.forall₂_same.mpr fun t _ => SameStructure.refl t
    have hguard : ¬ (p.heap.available ≥ words ∧ virtualBinaryPressureExceedsHeap p = false) := hfast
    rw [ensureSpace, if_neg hguard]
    by_cases hfit : Promotable objs p liveX
    · obtain ⟨roots, s₁, s, hfin⟩ := hlive.finishes hfit
      rw [collectMinorWithLive_eq]
      simp only [hfin.1, hfin.2]
      rw [(hlive.minorDone arcBytes hfin).ensured_iff sys hlive]
      simp [hfast, hfit]
    · obtain ⟨full, q, s, hrun, hf⟩ := hlive.minorFailed arcBytes hfit
      have hq := (hf.sound hp (le_max_left liveX 256)).mono (le_max_right liveX 256)
      obtain ⟨stats, r, s₂, hmajor, hd⟩ := hq.majorDone sys arcBytes
      simp only [hrun, hmajor]
      rw [hf.ensured_iff sys hp hd]
      simp [hfast, hfit]
  · obtain ⟨stats, q, s, h, -⟩ := (hp.mono (le_max_right liveX 256)).majorDone sys arcBytes
    exact ⟨stats, q, h⟩

end Request

/-! ## Requests of small processes -/

theorem youngToOld_promotable (liveX : ℕ) : Promotable smallObjs youngToOld liveX := by
  intro os hnodup hos
  have hone : ∀ o ∈ os, o = ⟨16, .boxed⟩ := by
    intro o ho
    obtain ⟨addr, kind⟩ := o
    obtain ⟨rfl, haddr⟩ : kind = .boxed ∧ (addr = 16 ∨ addr = 32) := (hos _ ho).mem_objs
    rcases haddr with rfl | rfl
    · rfl
    · have hsrc : youngToOld.heap.young.contains 32 = true := (hos _ ho).isSource
      exact absurd hsrc (by decide)
  match os, hnodup, hone with
  | [], _, _ => exact Nat.zero_le _
  | [o], _, hone =>
    rw [hone o (by simp)]
    decide
  | o :: o' :: os, hnodup, hone =>
    have heq : o = o' := (hone o (by simp)).trans (hone o' (by simp)).symm
    simp [heq] at hnodup

/-- A request for more than the nursery has left, met after a minor collection. -/
theorem ensureSpace_ensured_iff_youngToOld :
    Ensured youngToOld 7 1 (ensureSpace .behind [] (fun _ => 0) youngToOld 7 1) :=
  (ensureSpace_ensured_iff .behind (fun _ => 0) (youngToOld_sound (max 1 256))).1.mpr
    (.inr (.inl ⟨youngToOld_promotable 1, youngToOld_generational 1⟩))

/-- The old region is full and X register 256 holds the young tuple. -/
def highRegister : Process :=
  smallProcess (smallHeap (twoTuples .nil .nil) 0) untracedRegister (.boxedPtr 16)

set_option maxRecDepth 16000 in
/-- The minor collection has no room and the major one does not trace register 256. -/
theorem not_ensured_of_highRegister :
    ¬ ∀ (sys : SystemAllocator) (external : List HeapRegion) (arcBytes : ℕ → ℕ) (objs : Set Obj)
      (p : Process) (words liveX : ℕ), Sound external objs p (max liveX 256) →
      Ensured p words liveX (ensureSpace sys external arcBytes p words liveX) := by
  intro hall
  have hsound : Sound [] smallObjs highRegister (max 1024 256) :=
    small_sound (.inl rfl) (.inl rfl) (.inr (.inl rfl)) 0 256 _
  have hroots := (hall .behind [] (fun _ => 0) smallObjs highRegister 8 1024 hsound).2
  have hx := (forall₂_allRoots.mp hroots).1
  obtain ⟨-, hget⟩ := List.forall₂_iff_get.mp hx
  have hsame := hget 256 (by decide) (by decide)
  have hsome := hsame.node_isSome
  exact absurd hsome (by decide)

end Beamr.Gc
