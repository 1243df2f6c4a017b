import Beamr.Gc.Minor
import Mathlib.Algebra.BigOperators.Group.Finset.Basic
import Mathlib.Order.Interval.Finset.Nat

/-!
# Major collections

A major collection copies both generations into a fresh region. The region is sized for every
word in use, and objects do not overlap, so it never runs out of room. It traces the first 256
X registers.
-/
namespace Beamr.Gc

open Beamr ObjectGraph

section Major

variable (sys : SystemAllocator) (external : List HeapRegion) (arcBytes : ℕ → ℕ) {p : Process}

/-- Memory with the fresh region zeroed. -/
def freshMemory (p : Process) : Memory :=
  p.heap.mem.zero (freshOldRegion sys external p.heap).base
    (freshOldRegion sys external p.heap).capacity

/-- What a finished major collection leaves. -/
def majorEnd (p : Process) (roots : List Term) (s₁ s : Copying) : Process :=
  finishMajor arcBytes ((withMemory (startGc p) s₁.mem).replaceRoots roots) s

theorem collectMajor_eq (p : Process) :
    collectMajor sys external arcBytes p =
      match copyRoots p.heap.contains allocateFresh (allRoots p 256)
        (copyingFrom (freshMemory sys external p) (freshOldRegion sys external p.heap)) with
      | (.error e, s) => (.error e, withMemory (startGc p) s.mem)
      | (.ok roots, s₁) =>
        match scan p.heap.contains allocateFresh s₁ with
        | (.error e, s) =>
          (.error e, withMemory ((withMemory (startGc p) s₁.mem).replaceRoots roots) s.mem)
        | (.ok (), s) =>
          (.ok (finishStats p.noteGcAttempt (majorEnd arcBytes p roots s₁ s) s),
            majorEnd arcBytes p roots s₁ s) := rfl

/-- The slots of the process after a finished major collection. -/
theorem majorEnd_slots {roots : List Term} (hlen : roots.length = (allRoots p 256).length)
    (s₁ s : Copying) :
    let q := majorEnd arcBytes p roots s₁ s
    allRoots q 256 = roots ∧ q.mailbox.arrival = [] ∧ hidden q = hidden p ∧
      q.xRegs.drop 256 = p.xRegs.drop 256 := by
  intro q
  obtain ⟨hroots, hdrop, hsame⟩ :=
    Process.replaceRoots_spec (withMemory (startGc p) s₁.mem) 256 hlen
  have harr : q.mailbox.arrival = [] := hsame.arrival
  have hhidden := hidden_of_untraced hsame
  exact ⟨(allRoots_of_arrival harr 256).trans hroots, harr, hhidden, hdrop⟩

/-- The heap of the process after a finished major collection. -/
theorem majorEnd_heap {roots : List Term} (hlen : roots.length = (allRoots p 256).length)
    (s₁ s : Copying) (hyoung : Tracked s.mem p.heap.young) (hold : Tracked s.mem p.heap.old)
    (hyle : p.heap.young.used ≤ p.heap.young.capacity)
    (hole : p.heap.old.used ≤ p.heap.old.capacity) (hap : p.heap.young.Apart p.heap.old) :
    let q := majorEnd arcBytes p roots s₁ s
    q.heap.old = s.region ∧ q.heap.young = p.heap.young.reset ∧
      ∀ a, p.heap.contains a = false → q.heap.mem a = s.mem a := by
  intro q
  obtain ⟨-, -, hsame⟩ := Process.replaceRoots_spec (withMemory (startGc p) s₁.mem) 256 hlen
  set p₃ := (withMemory (startGc p) s₁.mem).replaceRootsWithLiveX 256 roots with hp₃
  have hy : p₃.heap.young = p.heap.young := by rw [hsame.heap]; rfl
  have ho : p₃.heap.old = p.heap.old := by rw [hsame.heap]; rfl
  refine ⟨rfl, ?_, fun a ha => ?_⟩
  · change p₃.heap.young.reset = _
    rw [hy]
  · obtain ⟨hya, hoa⟩ := Bool.or_eq_false_iff.mp ha
    have hydead := not_allocated_of_not_contains hyle hya
    have hodead := not_allocated_of_not_contains hole hoa
    change (releaseRegion arcBytes _ p₃.heap.old
      (releaseRegion arcBytes _ p₃.heap.young (s.mem, 0))).1.zero p₃.heap.young.base
      p₃.heap.young.used a = _
    rw [hy, ho]
    generalize hfwd : (fun a => (s.forwarding a).isSome) = fwd
    -- the walk over the nursery leaves the old region as it is
    have hfirst : ∀ b, p.heap.young.contains b = false →
        (releaseRegion arcBytes fwd p.heap.young (s.mem, 0)).1 b = s.mem b := fun b hb =>
      releaseRegion_frame hyoung (not_allocated_of_not_contains hyle hb)
    have htrack : Tracked (releaseRegion arcBytes fwd p.heap.young (s.mem, 0)).1 p.heap.old := by
      refine hold.congr fun b hb => hfirst b ?_
      exact not_contains_of_apart hap.symm (contains_of_allocated hole hb)
    have hzero : ∀ m : Memory, m.zero p.heap.young.base p.heap.young.used a = m a := by
      intro m
      refine if_neg fun hin => ?_
      rw [HeapRegion.allocated_iff.mpr hin] at hydead
      cases hydead
    have hsecond : (releaseRegion arcBytes fwd p.heap.old
        (releaseRegion arcBytes fwd p.heap.young (s.mem, 0))).1 a = _ :=
      releaseRegion_frame htrack hodead
    rw [hzero]
    exact hsecond.trans (hfirst a hya)

end Major

/-! ## Room for every object -/

section Room

variable {sys : SystemAllocator} {external : List HeapRegion} {h : Heap} {objs : Set Obj}

/-- Words of an object. -/
def extent (mem : Memory) (o : Obj) : Finset ℕ := Finset.Ico o.addr (o.addr + o.words mem)

/-- Objects that do not overlap have no more words than are in use. -/
theorem Intact.sum_words_le (hI : Intact external h objs) {os : List Obj} (hnodup : os.Nodup)
    (hos : ∀ o ∈ os, o ∈ objs) : (os.map (Obj.words h.mem)).sum ≤ h.totalUsed := by
  classical
  have hdisj : ∀ o ∈ os.toFinset, ∀ o' ∈ os.toFinset, o ≠ o' →
      Disjoint (extent h.mem o) (extent h.mem o') := by
    intro o ho o' ho' hne
    rw [Finset.disjoint_left]
    intro a ha ha'
    rw [extent, Finset.mem_Ico] at ha ha'
    have hap := hI.wf.apart o (hos o (by simpa using ho)) o' (hos o' (by simpa using ho')) hne
    omega
  have hsub : os.toFinset.biUnion (extent h.mem) ⊆
      Finset.Ico h.young.base (h.young.base + h.young.used) ∪
        Finset.Ico h.old.base (h.old.base + h.old.used) := by
    intro a ha
    obtain ⟨o, ho, hin⟩ := Finset.mem_biUnion.mp ha
    rw [extent, Finset.mem_Ico] at hin
    have hall := hI.wf.extent o (hos o (by simpa using ho)) (a - o.addr) (by omega)
    rw [Nat.add_sub_cancel' hin.1, Heap.allocated_iff] at hall
    simpa only [Finset.mem_union, Finset.mem_Ico, HeapRegion.allocated_iff] using hall
  calc (os.map (Obj.words h.mem)).sum
      = ∑ o ∈ os.toFinset, o.words h.mem := (List.sum_toFinset _ hnodup).symm
    _ = ∑ o ∈ os.toFinset, (extent h.mem o).card := by
        refine Finset.sum_congr rfl fun o _ => ?_
        rw [extent, Nat.card_Ico, Nat.add_sub_cancel_left]
    _ = (os.toFinset.biUnion (extent h.mem)).card := (Finset.card_biUnion hdisj).symm
    _ ≤ _ := Finset.card_le_card hsub
    _ ≤ h.totalUsed := by
        refine (Finset.card_union_le _ _).trans ?_
        rw [Nat.card_Ico, Nat.card_Ico, Heap.totalUsed]
        omega

theorem totalUsed_le_fresh : h.totalUsed ≤ (freshOldRegion sys external h).capacity :=
  (h.le_compactedOldCapacity h.totalUsed).trans (le_max_left _ _)

theorem Intact.major_words (hI : Intact external h objs) {o : Obj} (ho : o ∈ objs) :
    o.words (majorArena sys external h objs).mem = o.words h.mem :=
  (Obj.shape_eq (b := o.addr) (hI.wf.laidOut o ho) fun _ hi _ => hI.zero_fresh sys ho hi).1

/-- A major collection never runs out of room. -/
theorem Intact.major_room (hI : Intact external h objs) {s : Copying} {cur : Term} {todo : List ℕ}
    (hs : (majorArena sys external h objs).Inv s cur todo) :
    ¬ (majorArena sys external h objs).NoRoom s := by
  rintro ⟨o, ho, -, hnone, hshort⟩
  obtain ⟨os, hnodup, hmem, hsum⟩ := hs.count
  have hnot : o ∉ os := by
    intro hin
    have hsome := ((hmem o).mp hin).2
    rw [hnone] at hsome
    cases hsome
  have hobjs : ∀ o' ∈ o :: os, o' ∈ objs := by
    intro o' ho'
    rcases List.mem_cons.mp ho' with rfl | ho'
    · exact ho
    · exact ((hmem o').mp ho').1
  have hle := hI.sum_words_le (List.nodup_cons.mpr ⟨hnot, hnodup⟩) hobjs
  have hsame : os.map (Obj.words (majorArena sys external h objs).mem) =
      os.map (Obj.words h.mem) :=
    List.map_congr_left fun o' ho' => hI.major_words (hobjs o' (by simp [ho']))
  have hcap : h.totalUsed ≤ (majorArena sys external h objs).region.capacity := totalUsed_le_fresh
  have hused : (majorArena sys external h objs).region.used = 0 := rfl
  rw [hsame, hused, Nat.zero_add] at hsum
  rw [hI.major_words ho] at hshort
  rw [List.map_cons, List.sum_cons] at hle
  omega

end Room

/-! ## Structure -/

section Finished

variable {sys : SystemAllocator} {external : List HeapRegion} {arcBytes : ℕ → ℕ} {objs : Set Obj}
  {p q : Process} {s : Copying}

/-- What a finished major collection has done to the process. -/
structure MajorDone (sys : SystemAllocator) (external : List HeapRegion) (objs : Set Obj)
    (p q : Process) (s : Copying) : Prop where
  inv : ∀ cur, (majorArena sys external p.heap objs).Inv s cur []
  queue : s.queue = []
  settled : ∀ t ∈ allRoots p 256, t ∈ (majorArena sys external p.heap objs).settled s
  roots : allRoots q 256 = (allRoots p 256).map s.forward
  arrival : q.mailbox.arrival = []
  rest : q.xRegs.drop 256 = p.xRegs.drop 256
  old : q.heap.old = s.region
  young : q.heap.young = p.heap.young.reset
  mem : ∀ a, p.heap.contains a = false → q.heap.mem a = s.mem a

/-- Both source generations are untouched until they are released. -/
theorem Intact.major_frame {h : Heap} {cur : Term} {todo : List ℕ}
    (hs : (majorArena sys external h objs).Inv s cur todo) {a : ℕ} (ha : h.contains a = true) :
    s.mem a = h.mem a := by
  have hfresh : (freshOldRegion sys external h).contains a = false := by
    by_contra hc
    rw [fresh_not_contains sys (by simpa using hc)] at ha
    cases ha
  have hzero : (majorArena sys external h objs).mem a = h.mem a := zero_of_not_contains hfresh
  rw [hs.frame a, hzero]
  intro hin
  have hle := hs.used_le
  have hstart : (freshOldRegion sys external h).base ≤ a := le_trans (Nat.le_add_right _ _) hin.1
  have hend : a < (freshOldRegion sys external h).base + s.region.used := hin.2
  have hcap : s.region.used ≤ (freshOldRegion sys external h).capacity := hle
  rw [HeapRegion.contains_iff.mpr ⟨hstart, by omega⟩] at hfresh
  cases hfresh

/-- A major collection of a sound process always finishes. -/
theorem Sound.majorDone (hp : Sound external objs p 256) (sys : SystemAllocator)
    (arcBytes : ℕ → ℕ) :
    ∃ stats q s, collectMajor sys external arcBytes p = (.ok stats, q) ∧
      MajorDone sys external objs p q s := by
  have hA := hp.heap.major_ready sys
  rw [collectMajor_eq]
  cases hA.run allocSpec_fresh hp.roots with
  | fullRoots copied inv noRoom => exact absurd noRoom (hp.heap.major_room inv)
  | fullScan copied scanned inv noRoom => exact absurd noRoom (hp.heap.major_room inv)
  | @finished roots s₁ s copied scanned inv queue roots_eq settled =>
    have hcopy : copyRoots p.heap.contains allocateFresh (allRoots p 256)
      (copyingFrom (freshMemory sys external p) (freshOldRegion sys external p.heap)) =
      (.ok roots, s₁) := copied
    have hscan : scan p.heap.contains allocateFresh s₁ = (.ok (), s) := scanned
    simp only [hcopy, hscan]
    have hlen : roots.length = (allRoots p 256).length := by rw [roots_eq, List.length_map]
    have hframe : ∀ a, p.heap.contains a = true → s.mem a = p.heap.mem a :=
      fun a ha => Intact.major_frame (inv .nil) ha
    have hyoung : Tracked s.mem p.heap.young := hp.heap.young_tracked.congr fun a ha =>
      hframe a (Heap.contains_iff.mpr (.inl (contains_of_allocated hp.heap.young_le ha)))
    have hold : Tracked s.mem p.heap.old := hp.heap.old_tracked.congr fun a ha =>
      hframe a (Heap.contains_iff.mpr (.inr (contains_of_allocated hp.heap.old_le ha)))
    obtain ⟨hroots, harr, -, hrest⟩ := majorEnd_slots arcBytes hlen s₁ s
    obtain ⟨hoq, hyq, hmem⟩ := majorEnd_heap arcBytes hlen s₁ s hyoung hold hp.heap.young_le
      hp.heap.old_le hp.heap.apart
    exact ⟨_, _, s, rfl, ⟨inv, queue, settled, hroots.trans roots_eq, harr, hrest, hoq, hyq, hmem⟩⟩

/-- Everything is copied. -/
theorem Intact.major_unmoved {h : Heap} (hI : Intact external h objs) :
    (majorArena sys external h objs).unmoved = ∅ := by
  ext o
  simp only [Set.mem_empty_iff_false, iff_false]
  rintro ⟨ho, hsrc⟩
  have hc := hI.word_contains ho (o.words_pos _)
  have hsrc' : h.contains o.addr = false := hsrc
  rw [Nat.add_zero, hsrc'] at hc
  cases hc

theorem Intact.major_good {h : Heap} (hI : Intact external h objs) :
    ∀ o ∈ (majorArena sys external h objs).objs, (majorArena sys external h objs).Good o := by
  intro o ho hsrc
  have hun : o ∈ (majorArena sys external h objs).unmoved := ⟨ho, hsrc⟩
  rw [hI.major_unmoved] at hun
  exact absurd hun (Set.notMem_empty o)

/-- Addresses of the fresh region, seen from the collected process. -/
theorem MajorDone.old_range (hd : MajorDone sys external objs p q s) :
    q.heap.old.base = (freshOldRegion sys external p.heap).base ∧
    q.heap.old.capacity = (freshOldRegion sys external p.heap).capacity ∧
    q.heap.old.used = s.region.used ∧
    s.region.used ≤ (freshOldRegion sys external p.heap).capacity := by
  have hinv := hd.inv .nil
  rw [hd.old]
  exact ⟨hinv.base, hinv.capacity, rfl, hinv.used_le⟩

theorem MajorDone.kept (hd : MajorDone sys external objs p q s) (hp : Sound external objs p 256) :
    (majorArena sys external p.heap objs).Kept s (majorArena sys external p.heap objs).unmoved
      q.heap.mem q.heap.allocated := by
  obtain ⟨hbase, -, hused, hle⟩ := hd.old_range
  refine ⟨fun o ho => ho.1, ?_, ?_, ?_⟩
  · intro o ho
    rw [hp.heap.major_unmoved] at ho
    exact absurd ho (Set.notMem_empty o)
  · intro a h₁ h₂
    have hstart : (freshOldRegion sys external p.heap).base ≤ a := le_trans (Nat.le_add_right _ _) h₁
    have hend : a < (freshOldRegion sys external p.heap).base + s.region.used := h₂
    refine ⟨hd.mem a (fresh_not_contains sys (HeapRegion.contains_iff.mpr ⟨hstart, by omega⟩)), ?_⟩
    refine Heap.allocated_iff.mpr (.inr (HeapRegion.allocated_iff.mpr ⟨by omega, by omega⟩))
  · intro a hin hout
    obtain ⟨r, hr, ha⟩ := hout
    have hap := fresh_apart (h := p.heap) sys (show r ∈ p.heap.young :: p.heap.old :: external by
      simp [hr])
    have hnot := not_contains_of_apart hap ha
    have hyoung : q.heap.young.allocated a = false := not_allocated_of_empty (by rw [hd.young]; rfl)
    have hold : q.heap.old.allocated a = false := by
      by_contra hall
      rw [Bool.not_eq_false, HeapRegion.allocated_iff] at hall
      rw [HeapRegion.contains_iff.mpr ⟨by omega, by omega⟩] at hnot
      cases hnot
    simp only [Heap.allocated, hyoung, hold, Bool.or_self]

/-- Every traced root denotes what it did. -/
theorem MajorDone.sameStructure (hd : MajorDone sys external objs p q s)
    (hp : Sound external objs p 256) {t : Term} (ht : t ∈ allRoots p 256) :
    SameStructure (heapGraph p) (heapGraph q) t (s.forward t) := by
  have hcar := (hd.kept hp).carries (hp.heap.major_ready sys) (hd.inv .nil) hd.queue
    hp.heap.major_good
  refine SameStructure.trans ?_ (hcar.sameStructure (hd.settled t ht))
  refine hp.heap.wf.sameStructure (fun o ho i hi => hp.heap.zero_fresh sys ho hi)
    (fun o ho => hp.heap.wf.live_addr ho) ?_ (hp.roots t ht)
  intro a hin _
  have hdead : p.heap.allocated a = false := by
    by_contra hall
    rw [hp.heap.contains_of_allocated (by simpa using hall)] at hin
    cases hin
  exact ⟨hdead, hdead⟩

/-- A major collection leaves a sound process. -/
theorem MajorDone.sound (hd : MajorDone sys external objs p q s) (hp : Sound external objs p 256) :
    Sound external ((majorArena sys external p.heap objs).unmoved ∪
      (majorArena sys external p.heap objs).copies s) q 256 := by
  have hA := hp.heap.major_ready sys
  have hinv := hd.inv .nil
  obtain ⟨hbase, hcap, hused, hle⟩ := hd.old_range
  have hregion : ∀ a, (freshOldRegion sys external p.heap).contains a = true →
      q.heap.contains a = true := by
    intro a ha
    rw [HeapRegion.contains_iff] at ha
    exact Heap.contains_iff.mpr (.inr (HeapRegion.contains_iff.mpr ⟨by omega, by omega⟩))
  have hstay : ∀ o ∈ (majorArena sys external p.heap objs).unmoved, q.heap.contains o.addr = true := by
    intro o ho
    rw [hp.heap.major_unmoved] at ho
    exact absurd ho (Set.notMem_empty o)
  have hexternal : ∀ r ∈ external, r.Apart q.heap.young ∧ r.Apart q.heap.old := by
    intro r hr
    have hap := (hp.heap.external_apart r hr).1
    have hfresh := fresh_apart (h := p.heap) sys (show r ∈ p.heap.young :: p.heap.old :: external by
      simp [hr])
    unfold HeapRegion.Apart at hap hfresh ⊢
    rw [hd.young, hbase, hcap]
    exact ⟨hap, hfresh⟩
  have hout : ∀ a, Stored external a → q.heap.contains a = false := by
    rintro a ⟨r, hr, ha⟩
    obtain ⟨hy, ho⟩ := hexternal r hr
    simp only [Heap.contains, not_contains_of_apart hy ha, not_contains_of_apart ho ha, Bool.or_self]
  have hwf := (hd.kept hp).wellFormed_finished hregion hstay hout hA hinv hd.queue
    hp.heap.major_good
  refine ⟨⟨?_, ?_, ?_, hexternal, ?_, ?_, ?_, hwf⟩, ?_⟩
  · rw [hd.young]
    exact Nat.zero_le _
  · omega
  · have hap := fresh_apart (h := p.heap) sys
      (show p.heap.young ∈ p.heap.young :: p.heap.old :: external by simp)
    unfold HeapRegion.Apart at hap ⊢
    rw [hd.young, hbase, hcap]
    exact hap
  · rw [hd.young]
    exact Tracked.reset _
  · have htrack := hinv.tracked hA (Tracked.empty _ _)
    rw [hd.old]
    refine htrack.congr fun a ha => hd.mem a ?_
    rw [← hd.old, HeapRegion.allocated_iff] at ha
    have hin : (freshOldRegion sys external p.heap).contains a = true :=
      HeapRegion.contains_iff.mpr ⟨by omega, by omega⟩
    exact fresh_not_contains sys hin
  · intro o ho
    right
    intro i hi
    have hall := hwf.extent o ho i hi
    rw [Heap.allocated_iff] at hall
    rcases hall with h | h
    · rw [not_allocated_of_empty (by rw [hd.young]; rfl)] at h
      cases h
    · exact h
  · intro t ht
    rw [hd.roots] at ht
    obtain ⟨u, hu, rfl⟩ := List.mem_map.mp ht
    exact hinv.valid_forward hregion hstay hout hA (hd.settled u hu)

end Finished

end Beamr.Gc
