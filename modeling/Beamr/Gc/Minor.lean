import Beamr.Gc.Intact

/-!
# Minor collections

A minor collection of an intact heap either finishes, with every root denoting what it did, or
stops for lack of room in the old region. It finishes exactly when the young objects that the
roots reach through the nursery fit. Old objects are not scanned: what is said of a finished
collection needs that no reachable old object points into the nursery.
-/
namespace Beamr.Gc

open Beamr ObjectGraph

/-- The object graph of a process. -/
def heapGraph (p : Process) : ObjectGraph Term Label := graph p.heap.mem p.heap.allocated

/-- All roots of a process, messages that have not been drained yet included. -/
def allRoots (p : Process) (liveX : ℕ) : List Term := p.drainArrival.rootList liveX

theorem allRoots_of_arrival {p : Process} (h : p.mailbox.arrival = []) (liveX : ℕ) :
    allRoots p liveX = p.rootList liveX := by
  simp [allRoots, Process.drainArrival, Mailbox.drainArrival, Process.rootList, h]

/-- Terms that no snapshot visits, apart from X registers: the key of the receive marker, the
class of the exception and the locations of the raw stack trace. -/
def hidden (p : Process) : List Term :=
  (p.mailbox.recvMarker.map Prod.fst).toList ++ (p.currentException.map Exception.cls).toList ++
    p.rawLocations

theorem hidden_of_untraced {p q : Process} (h : p.Untraced q) : hidden q = hidden p := by
  unfold hidden
  rw [h.recvMarker, h.cls, h.rawLocations]

section Minor

variable (arcBytes : ℕ → ℕ) {p : Process} {liveX : ℕ}

/-- The process a collection copies the roots of. -/
def startGc (p : Process) : Process := p.noteGcAttempt.drainArrival

/-- What a finished minor collection leaves. -/
def minorEnd (p : Process) (liveX : ℕ) (roots : List Term) (s₁ s : Copying) :
    Process :=
  finishMinor arcBytes ((withOld (startGc p) s₁).replaceRootsWithLiveX liveX roots) liveX s

theorem collectMinorWithLive_eq (p : Process) (liveX : ℕ) :
    collectMinorWithLive arcBytes p liveX =
      match copyRoots p.heap.young.contains allocateOld (allRoots p liveX)
        (copyingFrom p.heap.mem p.heap.old) with
      | (.error e, s) => (.error e, withOld (startGc p) s)
      | (.ok roots, s₁) =>
        match scan p.heap.young.contains allocateOld s₁ with
        | (.error e, s) =>
          (.error e, withOld ((withOld (startGc p) s₁).replaceRootsWithLiveX liveX roots) s)
        | (.ok (), s) =>
          (.ok (finishStats p.noteGcAttempt (minorEnd arcBytes p liveX roots s₁ s) s),
            minorEnd arcBytes p liveX roots s₁ s) := rfl

theorem clearDeadXRegs_take (q : Process) (liveX : ℕ) :
    (q.clearDeadXRegs liveX).xRegs.take (min liveX xRegCount) =
      q.xRegs.take (min liveX xRegCount) := by
  have hlen : (q.xRegs.take liveX).length = min liveX xRegCount := by
    rw [List.length_take, q.xRegs_length]
  change (q.xRegs.take liveX ++ _).take _ = _
  rw [← hlen, List.take_left, hlen, ← q.xRegs_length, List.take_eq_take_min]

theorem clearDeadXRegs_drop (q : Process) (liveX : ℕ) :
    ∀ t ∈ (q.clearDeadXRegs liveX).xRegs.drop (min liveX xRegCount), t = .nil := by
  have hlen : (q.xRegs.take liveX).length = min liveX xRegCount := by
    rw [List.length_take, q.xRegs_length]
  change ∀ t ∈ (q.xRegs.take liveX ++ _).drop _, t = .nil
  rw [← hlen, List.drop_left]
  simp

/-- The slots of the process after a finished minor collection. -/
theorem minorEnd_slots {roots : List Term} (hlen : roots.length = (allRoots p liveX).length)
    (s₁ s : Copying) :
    let q := minorEnd arcBytes p liveX roots s₁ s
    allRoots q liveX = roots ∧ q.mailbox.arrival = [] ∧ hidden q = hidden p ∧
      (∀ t ∈ q.xRegs.drop (min liveX xRegCount), t = .nil) := by
  intro q
  obtain ⟨hroots, -, hsame⟩ := Process.replaceRoots_spec (withOld (startGc p) s₁) liveX hlen
  have harr : q.mailbox.arrival = [] := hsame.arrival
  have hhidden := hidden_of_untraced hsame
  refine ⟨?_, harr, hhidden, clearDeadXRegs_drop _ liveX⟩
  rw [allRoots_of_arrival harr, Process.rootList_eq, ← hroots, Process.rootList_eq]
  congr 1
  exact clearDeadXRegs_take _ liveX

/-- The heap of the process after a finished minor collection. -/
theorem minorEnd_heap {roots : List Term} (hlen : roots.length = (allRoots p liveX).length)
    (s₁ s : Copying) (htrack : Tracked s.mem p.heap.young)
    (hle : p.heap.young.used ≤ p.heap.young.capacity) :
    let q := minorEnd arcBytes p liveX roots s₁ s
    q.heap.old = s.region ∧ q.heap.young = p.heap.young.reset ∧
      ∀ a, p.heap.young.contains a = false → q.heap.mem a = s.mem a := by
  intro q
  obtain ⟨-, -, hsame⟩ := Process.replaceRoots_spec (withOld (startGc p) s₁) liveX hlen
  set p₃ := (withOld (startGc p) s₁).replaceRootsWithLiveX liveX roots with hp₃
  have hyoung : p₃.heap.young = p.heap.young := by rw [hsame.heap]; rfl
  refine ⟨rfl, ?_, fun a ha => ?_⟩
  · change p₃.heap.young.reset = _
    rw [hyoung]
  · have hdead := not_allocated_of_not_contains hle ha
    change (releaseRegion arcBytes _ p₃.heap.young (s.mem, 0)).1.zero p₃.heap.young.base
      p₃.heap.young.used a = _
    rw [hyoung]
    have hzero : ∀ m : Memory, m.zero p.heap.young.base p.heap.young.used a = m a := by
      intro m
      refine if_neg fun hin => ?_
      rw [HeapRegion.allocated_iff.mpr hin] at hdead
      cases hdead
    rw [hzero, releaseRegion_frame htrack hdead]

end Minor

/-! ## Structure and sharing -/

/-- A process whose heap is intact and whose roots are valid. -/
structure Sound (external : List HeapRegion) (objs : Set Obj) (p : Process) (liveX : ℕ) : Prop where
  heap : Intact external p.heap objs
  roots : ∀ t ∈ allRoots p liveX, Valid p.heap.contains (Stored external) objs t

/-- No reachable old object points into the nursery. -/
def Generational (objs : Set Obj) (p : Process) (liveX : ℕ) : Prop :=
  ∀ o, Reachable p.heap.mem objs (allRoots p liveX) o → p.heap.young.contains o.addr = false →
    ∀ t ∈ o.fields p.heap.mem, ∀ a, t.heapPtr = some a → p.heap.young.contains a = false

/-- The nursery objects that the roots reach through the nursery fit into the old region. -/
def Promotable (objs : Set Obj) (p : Process) (liveX : ℕ) : Prop :=
  Fits p.heap.mem objs (allRoots p liveX) p.heap.young.contains p.heap.old.available

section Finished

variable {arcBytes : ℕ → ℕ} {external : List HeapRegion} {objs : Set Obj} {p q : Process}
  {liveX : ℕ} {s : Copying}

/-- The reachable part of the arena of a minor collection. -/
abbrev reachArena (external : List HeapRegion) (objs : Set Obj) (p : Process) (liveX : ℕ) : Arena :=
  (minorArena external p.heap objs).restrict (allRoots p liveX)

theorem Sound.ready (hp : Sound external objs p liveX) : (reachArena external objs p liveX).Ready :=
  hp.heap.minor_ready.restrict _

theorem Sound.roots_ok (hp : Sound external objs p liveX) :
    ∀ t ∈ allRoots p liveX, (reachArena external objs p liveX).Ok t :=
  fun t ht => Arena.Ready.restrict_ok ht (hp.roots t ht)

theorem generational_iff : Generational objs p liveX ↔
    ∀ o ∈ (reachArena external objs p liveX).objs, (reachArena external objs p liveX).Good o := by
  constructor
  · intro h o ho hold i hi a ha
    exact h o ho hold _ (List.mem_map.mpr ⟨i, hi, rfl⟩) a ha
  · intro h o ho hold t ht a ha
    obtain ⟨i, hi, rfl⟩ := List.mem_map.mp ht
    exact h o ho hold i hi a ha

/-- What a finished minor collection has done to the process. -/
structure MinorDone (external : List HeapRegion) (objs : Set Obj) (p q : Process) (liveX : ℕ)
    (s : Copying) : Prop where
  inv : ∀ cur, (reachArena external objs p liveX).Inv s cur []
  queue : s.queue = []
  settled : ∀ t ∈ allRoots p liveX, t ∈ (reachArena external objs p liveX).settled s
  roots : allRoots q liveX = (allRoots p liveX).map s.forward
  arrival : q.mailbox.arrival = []
  hidden : hidden q = hidden p
  dead : ∀ t ∈ q.xRegs.drop (min liveX xRegCount), t = .nil
  old : q.heap.old = s.region
  young : q.heap.young = p.heap.young.reset
  mem : ∀ a, p.heap.young.contains a = false → q.heap.mem a = s.mem a

/-- The nursery is untouched until it is released. -/
theorem Intact.minor_young {h : Heap} (hI : Intact external h objs) {objs' : Set Obj} {cur : Term}
    {todo : List ℕ} (hs : (minorArena external h objs').Inv s cur todo) :
    Tracked s.mem h.young := by
  refine hI.young_tracked.congr fun a ha => hs.frame a fun hin => ?_
  have hyoung := Gc.contains_of_allocated hI.young_le ha
  have hnot := not_contains_of_apart hI.apart hyoung
  have hle : s.region.used ≤ h.old.capacity := hs.used_le
  have hstart : h.old.base + h.old.used ≤ a := hin.1
  have hend : a < h.old.base + s.region.used := hin.2
  rw [HeapRegion.contains_iff.mpr ⟨by omega, by omega⟩] at hnot
  cases hnot

/-- The calls of a minor collection that finishes. -/
def Finishes (p : Process) (liveX : ℕ) (roots : List Term) (s₁ s : Copying) : Prop :=
  copyRoots p.heap.young.contains allocateOld (allRoots p liveX)
    (copyingFrom p.heap.mem p.heap.old) = (.ok roots, s₁) ∧
  scan p.heap.young.contains allocateOld s₁ = (.ok (), s)

theorem Sound.traced_ready (hp : Sound external objs p liveX) :
    ((minorArena external p.heap objs).traced (allRoots p liveX)).Ready :=
  hp.heap.minor_ready.traced _ fun _ ho hy _ hi => hp.heap.young_word ho hy hi

theorem Sound.traced_run (hp : Sound external objs p liveX) :
    ((minorArena external p.heap objs).traced (allRoots p liveX)).Run allocateOld
      (allRoots p liveX) :=
  hp.traced_ready.run allocSpec_old fun t ht =>
    Arena.valid_traced hp.heap.minor_ready (hp.roots t ht) fun _ ho hsrc heq =>
      .root ho hsrc (heq ▸ ht)

/-- A minor collection finishes when what it promotes fits. -/
theorem Sound.finishes (hp : Sound external objs p liveX) (hfit : Promotable objs p liveX) :
    ∃ roots s₁ s, Finishes p liveX roots s₁ s := by
  have hA := hp.heap.minor_ready
  cases hp.traced_run with
  | finished copied scanned => exact ⟨_, _, _, copied, scanned⟩
  | fullRoots copied inv noRoom => exact absurd hfit (noRoom.not_fits hA inv)
  | fullScan copied scanned inv noRoom => exact absurd hfit (noRoom.not_fits hA inv)

theorem Sound.promotable (hp : Sound external objs p liveX) {roots : List Term} {s₁ s : Copying}
    (h : Finishes p liveX roots s₁ s) : Promotable objs p liveX := by
  obtain ⟨inv, queue, -, settled⟩ := hp.traced_run.of_finished h.1 h.2
  exact (inv .nil).fits hp.traced_ready queue settled

theorem Sound.minorDone (arcBytes : ℕ → ℕ) (hp : Sound external objs p liveX) {roots : List Term}
    {s₁ s : Copying} (h : Finishes p liveX roots s₁ s) :
    MinorDone external objs p (minorEnd arcBytes p liveX roots s₁ s) liveX s := by
  have hrun := hp.ready.run allocSpec_old hp.roots_ok
  obtain ⟨inv, queue, roots_eq, settled⟩ := hrun.of_finished h.1 h.2
  have hlen : roots.length = (allRoots p liveX).length := by rw [roots_eq, List.length_map]
  obtain ⟨hall, harr, hhid, hdead⟩ := minorEnd_slots arcBytes hlen s₁ s
  obtain ⟨hold, hyoung, hmem⟩ :=
    minorEnd_heap arcBytes hlen s₁ s (hp.heap.minor_young (inv .nil)) hp.heap.young_le
  exact ⟨inv, queue, settled, hall.trans roots_eq, harr, hhid, hdead, hold, hyoung, hmem⟩

theorem finishes_of_ok {stats : GcStats} (h : collectMinorWithLive arcBytes p liveX = (.ok stats, q)) :
    ∃ roots s₁ s, Finishes p liveX roots s₁ s ∧ q = minorEnd arcBytes p liveX roots s₁ s := by
  rw [collectMinorWithLive_eq] at h
  generalize hcopy : copyRoots p.heap.young.contains allocateOld (allRoots p liveX)
    (copyingFrom p.heap.mem p.heap.old) = res at h
  obtain ⟨res, s₁⟩ := res
  cases res with
  | error e => cases h
  | ok roots =>
    generalize hscan : scan p.heap.young.contains allocateOld s₁ = res' at h
    obtain ⟨res', s⟩ := res'
    cases res' with
    | error e => simp only [hscan] at h; cases h
    | ok u =>
      simp only [hscan] at h
      exact ⟨roots, s₁, s, ⟨hcopy, hscan⟩, (Prod.mk.inj h).2.symm⟩

/-- The collected heap keeps the old objects and the copies. -/
theorem MinorDone.kept (hp : Sound external objs p liveX) (hd : MinorDone external objs p q liveX s) :
    (reachArena external objs p liveX).Kept s (reachArena external objs p liveX).unmoved
      q.heap.mem q.heap.allocated := by
  have hinv := hd.inv .nil
  have hbase : s.region.base = p.heap.old.base := hinv.base
  have hge : p.heap.old.used ≤ s.region.used := hinv.used_ge
  have hle : s.region.used ≤ p.heap.old.capacity := hinv.used_le
  have hlive : ∀ a, p.heap.old.base ≤ a → a < p.heap.old.base + s.region.used →
      q.heap.allocated a = true := by
    intro a h₁ h₂
    refine Heap.allocated_iff.mpr (.inr ?_)
    rw [hd.old]
    exact HeapRegion.allocated_iff.mpr ⟨by omega, by omega⟩
  have hnot : ∀ a, p.heap.old.base ≤ a → a < p.heap.old.base + s.region.used →
      p.heap.young.contains a = false := fun a h₁ h₂ =>
    not_contains_of_apart hp.heap.apart.symm (HeapRegion.contains_iff.mpr ⟨h₁, by omega⟩)
  refine ⟨fun o ho => ho.1, ?_, ?_, ?_⟩
  · intro o ho i hi
    have hold := HeapRegion.allocated_iff.mp (hp.heap.old_word ho.1.mem_objs ho.2 hi)
    refine ⟨?_, hlive _ hold.1 (by omega)⟩
    rw [hd.mem _ (hnot _ hold.1 (by omega))]
    exact hinv.mem_obj hp.ready ho.1 hi
  · intro a h₁ h₂
    have hstart : p.heap.old.base + p.heap.old.used ≤ a := h₁
    exact ⟨hd.mem a (hnot a (by omega) h₂), hlive a (by omega) h₂⟩
  · intro a hin hout
    have hnotin : p.heap.old.contains a = false := by
      have hc : p.heap.contains a = false := hin
      exact (Bool.or_eq_false_iff.mp hc).2
    have hyoung : q.heap.young.allocated a = false := not_allocated_of_empty (by rw [hd.young]; rfl)
    have hold : q.heap.old.allocated a = false := by
      rw [hd.old]
      by_contra hall
      rw [Bool.not_eq_false, HeapRegion.allocated_iff] at hall
      rw [HeapRegion.contains_iff.mpr ⟨by omega, by omega⟩] at hnotin
      cases hnotin
    simp only [Heap.allocated, hyoung, hold, Bool.or_self]

/-- Every settled term goes to its forwarded term. -/
theorem MinorDone.carries (hp : Sound external objs p liveX)
    (hd : MinorDone external objs p q liveX s) (hgen : Generational objs p liveX) :
    Carries (heapGraph p) (heapGraph q) s.forward ((reachArena external objs p liveX).settled s) :=
  (hd.kept hp).carries hp.ready (hd.inv .nil) hd.queue (generational_iff.mp hgen)

/-- The objects of the heap after a minor collection. -/
abbrev promoted (external : List HeapRegion) (objs : Set Obj) (p : Process) (liveX : ℕ)
    (s : Copying) : Set Obj :=
  (reachArena external objs p liveX).unmoved ∪ (reachArena external objs p liveX).copies s

/-- A finished minor collection leaves a sound process. -/
theorem MinorDone.sound (hp : Sound external objs p liveX)
    (hd : MinorDone external objs p q liveX s) (hgen : Generational objs p liveX) :
    Sound external (promoted external objs p liveX s) q liveX := by
  have hA := hp.ready
  have hinv := hd.inv .nil
  have hkept := hd.kept hp
  have hcap : s.region.capacity = p.heap.old.capacity := hinv.capacity
  have hbase : s.region.base = p.heap.old.base := hinv.base
  have hge : p.heap.old.used ≤ s.region.used := hinv.used_ge
  have hle : s.region.used ≤ p.heap.old.capacity := hinv.used_le
  have hyoung : ∀ a, q.heap.young.contains a = p.heap.young.contains a := by
    intro a
    rw [hd.young]
    rfl
  have hold : ∀ a, q.heap.old.contains a = p.heap.old.contains a := by
    intro a
    rw [hd.old]
    simp only [HeapRegion.contains, hcap, hbase]
  have hcontains : ∀ a, q.heap.contains a = p.heap.contains a := fun a => by
    simp only [Heap.contains, hyoung, hold]
  have hregion : ∀ a, p.heap.old.contains a = true → q.heap.contains a = true := fun a ha => by
    rw [hcontains, Heap.contains_iff]
    exact .inr ha
  have hstay : ∀ o ∈ (reachArena external objs p liveX).unmoved, q.heap.contains o.addr = true := by
    intro o ho
    rw [hcontains]
    exact hp.heap.word_contains ho.1.mem_objs (o.words_pos _)
  have hout : ∀ a, Stored external a → q.heap.contains a = false := fun a ha => by
    rw [hcontains]
    exact hp.heap.stored ha
  have hwf := hkept.wellFormed_finished hregion hstay hout hA hinv hd.queue (generational_iff.mp hgen)
  refine ⟨⟨?_, ?_, ?_, ?_, ?_, ?_, ?_, hwf⟩, ?_⟩
  · rw [hd.young]
    exact Nat.zero_le _
  · rw [hd.old, hcap]
    exact hle
  · rw [hd.young, hd.old]
    have hap := hp.heap.apart
    unfold HeapRegion.Apart at hap ⊢
    simp only [HeapRegion.reset, hcap, hbase]
    exact hap
  · intro r hr
    have hap := hp.heap.external_apart r hr
    unfold HeapRegion.Apart at hap ⊢
    rw [hd.young, hd.old, hcap, hbase]
    exact hap
  · rw [hd.young]
    exact Tracked.reset _
  · have htrack := hinv.tracked hA hp.heap.old_tracked
    rw [hd.old]
    refine htrack.congr fun a ha => hd.mem a ?_
    rw [HeapRegion.allocated_iff] at ha
    exact not_contains_of_apart hp.heap.apart.symm
      (HeapRegion.contains_iff.mpr ⟨by omega, by omega⟩)
  · intro o ho
    right
    intro i hi
    have hall := hwf.extent o ho i hi
    rw [Heap.allocated_iff] at hall
    rcases hall with h | h
    · rw [not_allocated_of_empty (by rw [hd.young]; rfl)] at h
      cases h
    · exact h
  · intro t ht
    rw [hd.roots] at ht
    obtain ⟨u, hu, rfl⟩ := List.mem_map.mp ht
    exact hinv.valid_forward hregion hstay hout hA (hd.settled u hu)

/-- What a minor collection owes the roots: every slot denotes the structure it did, two paths
meet when they met before, and nothing within reach lies in the nursery of `p`. -/
structure Preserved (p q : Process) (liveX : ℕ) : Prop where
  same : List.Forall₂ (SameStructure (heapGraph p) (heapGraph q)) (allRoots p liveX)
    (allRoots q liveX)
  sharing : ∀ (i j : ℕ) (t u t' u' : Term), (allRoots p liveX)[i]? = some t →
    (allRoots q liveX)[i]? = some t' → (allRoots p liveX)[j]? = some u →
    (allRoots q liveX)[j]? = some u' → ∀ path path', ((heapGraph p).follow path t).isSome →
      ((heapGraph p).follow path t = (heapGraph p).follow path' u ↔
        (heapGraph q).follow path t' = (heapGraph q).follow path' u')
  reclaimed : ∀ t ∈ allRoots q liveX, ∀ u, (heapGraph q).Reaches t u → ∀ a, u.heapPtr = some a →
    p.heap.young.contains a = false

/-- A finished minor collection of a sound process preserves its roots. -/
theorem collectMinorWithLive_preserved {stats : GcStats} (hp : Sound external objs p liveX)
    (hgen : Generational objs p liveX)
    (h : collectMinorWithLive arcBytes p liveX = (.ok stats, q)) : Preserved p q liveX := by
  obtain ⟨roots, s₁, s, hfin, rfl⟩ := finishes_of_ok h
  have hd := hp.minorDone arcBytes hfin
  have hcar := hd.carries hp hgen
  constructor
  · rw [hd.roots, List.forall₂_map_right_iff, List.forall₂_same]
    exact fun t ht => hcar.sameStructure (hd.settled t ht)
  · intro i j t u t' u' ht ht' hu hu' path path' hsome
    rw [hd.roots, List.getElem?_map, ht] at ht'
    rw [hd.roots, List.getElem?_map, hu] at hu'
    obtain rfl := Option.some.inj ht'
    obtain rfl := Option.some.inj hu'
    exact hcar.sharing ((hd.inv .nil).forward_injOn hp.ready)
      (hd.settled t (List.mem_of_getElem? ht)) (hd.settled u (List.mem_of_getElem? hu)) hsome
  · intro t' ht' u' hreach a ha
    rw [hd.roots] at ht'
    obtain ⟨t, ht, rfl⟩ := List.mem_map.mp ht'
    obtain ⟨u, hu, rfl⟩ := hcar.reaches (hd.settled t ht) hreach
    exact (hd.inv .nil).forward_not_source hp.ready hu ha

end Finished

/-! ## A small heap -/

section Small

variable {mem : Memory}

/-- A region with one allocation of two words and `room` words left. -/
def smallRegion (base room : ℕ) : HeapRegion :=
  ⟨base, 2 + room, 2, 2, [⟨0, 2, .notRefcounted⟩]⟩

/-- One tuple of one field in each region, and `room` words left in the old one. -/
def smallHeap (mem : Memory) (room : ℕ) : Heap where
  mem := mem
  young := smallRegion 16 6
  old := smallRegion 32 room
  initialCapacity := 8
  previousCapacity := 8
  maxCapacity := 64

/-- One X register in use. -/
def smallProcess (heap : Heap) (i : Fin 1024) (x : Term) : Process where
  heap := heap
  virtualBinaryHeap := 0
  xRegs := (List.replicate 1024 .nil).set i x
  xRegs_length := by rw [List.length_set, List.length_replicate]; rfl
  frames := []
  mailbox := ⟨[], [], 0, none⟩
  currentException := none
  dictionary := []
  groupLeader := .nil
  nativeRoots := []
  nativeContinuations := []
  rawLocations := []
  gcAttempts := 0
  gcCompletions := 0

/-- A young tuple of `youngField` and an old tuple of `oldField`. -/
def twoTuples (youngField oldField : Term) : Memory := fun a =>
  if a = 16 ∨ a = 32 then BoxedHeader.new .tuple 1
  else if a = 17 then youngField.raw
  else if a = 33 then oldField.raw
  else 0

def smallObjs : Set Obj := { o | o.kind = .boxed ∧ (o.addr = 16 ∨ o.addr = 32) }

/-- `.nil` and pointers to the two tuples. -/
def SmallTerm (t : Term) : Prop := t = .nil ∨ t = .boxedPtr 16 ∨ t = .boxedPtr 32

theorem smallRegion_contains (base room : ℕ) : (smallRegion base room).contains base = true :=
  HeapRegion.contains_iff.mpr ⟨le_rfl, by simp [smallRegion]⟩

theorem SmallTerm.valid {t : Term} (h : SmallTerm t) (room : ℕ) :
    Valid (smallHeap mem room).contains (Stored []) smallObjs t := by
  intro a ha
  left
  rcases h with rfl | rfl | rfl
  · cases ha
  · rw [Term.heapPtr_boxedPtr] at ha
    obtain rfl := Option.some.inj ha
    exact ⟨Heap.contains_iff.mpr (.inl (smallRegion_contains 16 6)), by decide, by decide⟩
  · rw [Term.heapPtr_boxedPtr] at ha
    obtain rfl := Option.some.inj ha
    exact ⟨Heap.contains_iff.mpr (.inr (smallRegion_contains 32 room)), by decide, by decide⟩

variable {y o x : Term}

theorem smallObjs_shape {b : Obj} (hb : b ∈ smallObjs) :
    b.words (twoTuples y o) = 2 ∧ b.offsets (twoTuples y o) = [1] ∧ b.LaidOut (twoTuples y o) := by
  obtain ⟨addr, kind⟩ := b
  obtain ⟨hk, ha⟩ := hb
  dsimp only at hk ha
  subst hk
  have hhead : twoTuples y o addr = BoxedHeader.new .tuple 1 := if_pos ha
  have htag : BoxedHeader.tag (BoxedHeader.new .tuple 1) = some .tuple := by decide
  have hsize : BoxedHeader.size (BoxedHeader.new .tuple 1) = 1 := by decide
  refine ⟨?_, ?_, fun _ => ⟨.tuple, ?_, le_rfl⟩⟩
  · simp only [Obj.words, hhead, hsize]
  · simp only [Obj.offsets, hhead, htag, fieldOffsets, hsize]
    rfl
  · simp only [hhead, htag]

theorem smallObjs_field (hy : SmallTerm y) (ho : SmallTerm o) {b : Obj} (hb : b ∈ smallObjs) :
    SmallTerm (b.field (twoTuples y o) 1) := by
  obtain ⟨addr, kind⟩ := b
  rcases hb.2 with ha | ha
  · obtain rfl : addr = 16 := ha
    exact hy
  · obtain rfl : addr = 32 := ha
    exact ho

theorem small_sound (hy : SmallTerm y) (ho : SmallTerm o) (hx : SmallTerm x) (room : ℕ)
    (i : Fin 1024) (liveX : ℕ) :
    Sound [] smallObjs (smallProcess (smallHeap (twoTuples y o) room) i x) liveX where
  heap := by
    have htrack : ∀ (mem : Memory) base room, Tracked mem (smallRegion base room) := by
      intro mem base room
      exact ⟨by simp [smallRegion], by simp [smallRegion], by simp [smallRegion]⟩
    have hwhole : ∀ b ∈ smallObjs, (∀ i < 2, (smallRegion 16 6).allocated (b.addr + i) = true) ∨
        ∀ i < 2, (smallRegion 32 room).allocated (b.addr + i) = true := by
      intro b hb
      rcases hb.2 with ha | ha
      · refine .inl fun i hi => HeapRegion.allocated_iff.mpr ?_
        simp only [smallRegion, ha]
        omega
      · refine .inr fun i hi => HeapRegion.allocated_iff.mpr ?_
        simp only [smallRegion, ha]
        omega
    have hle : ∀ base room, (smallRegion base room).used ≤ (smallRegion base room).capacity := by
      intro base room
      simp [smallRegion]
    have hap : (smallRegion 16 6).Apart (smallRegion 32 room) := .inl (by simp [smallRegion])
    refine ⟨hle 16 6, hle 32 room, hap, by simp, htrack _ _ _, htrack _ _ _, ?_, ?_⟩
    · intro b hb
      simp only [smallProcess, smallHeap, (smallObjs_shape hb).1]
      exact hwhole b hb
    · constructor
      · intro b hb i hi
        simp only [smallProcess, smallHeap, (smallObjs_shape hb).1] at hi
        rw [Heap.allocated_iff]
        exact (hwhole b hb).imp (fun h => h i hi) (fun h => h i hi)
      · exact fun b hb => (smallObjs_shape hb).2.2
      · intro b hb b' hb' hne
        simp only [smallProcess, smallHeap, (smallObjs_shape hb).1, (smallObjs_shape hb').1]
        have haddr : b.addr ≠ b'.addr := by
          intro h
          exact hne (Obj.term_injective (by simp only [Obj.term, hb.1, hb'.1, h]))
        rcases hb.2 with h | h <;> rcases hb'.2 with h' | h' <;> omega
      · intro b hb i hi
        simp only [smallProcess, smallHeap, (smallObjs_shape hb).2.1, List.mem_singleton] at hi
        subst hi
        exact (smallObjs_field hy ho hb).valid room
  roots := by
    intro t ht
    refine SmallTerm.valid ?_ room
    have hmem : t ∈ ((List.replicate 1024 Term.nil).set i x).take (min liveX xRegCount) ++
        [.nil] := by
      rw [allRoots, Process.rootList_eq] at ht
      exact ht
    rcases List.mem_append.mp hmem with h | h
    · rcases List.mem_or_eq_of_mem_set (List.mem_of_mem_take h) with h | rfl
      · exact .inl (List.eq_of_mem_replicate h)
      · exact hx
    · exact .inl (List.mem_singleton.mp h)

def firstX : Fin 1024 := 0

/-- The first X register a major collection does not trace. -/
def untracedRegister : Fin 1024 := 256

/-- A register holds the young tuple and the young tuple the old one. -/
def youngToOld : Process :=
  smallProcess (smallHeap (twoTuples (.boxedPtr 32) .nil) 6) firstX (.boxedPtr 16)

/-- A register holds the old tuple and the old tuple the young one. -/
def oldToYoung : Process :=
  smallProcess (smallHeap (twoTuples .nil (.boxedPtr 16)) 6) firstX (.boxedPtr 32)

theorem youngToOld_sound (liveX : ℕ) : Sound [] smallObjs youngToOld liveX :=
  small_sound (.inr (.inr rfl)) (.inl rfl) (.inr (.inl rfl)) 6 0 liveX

theorem oldToYoung_sound (liveX : ℕ) : Sound [] smallObjs oldToYoung liveX :=
  small_sound (.inl rfl) (.inr (.inl rfl)) (.inr (.inr rfl)) 6 0 liveX

theorem small_generational {p : Process}
    (hheap : p.heap = smallHeap (twoTuples (.boxedPtr 32) .nil) 6) (liveX : ℕ) :
    Generational smallObjs p liveX := by
  intro b hb hold t ht a ha
  have hobj := hb.mem_objs
  rw [hheap] at hold ht ⊢
  have haddr : b.addr = 32 := by
    rcases hobj.2 with h | h
    · rw [h] at hold
      exact absurd hold (by decide)
    · exact h
  obtain ⟨i, hi, rfl⟩ := List.mem_map.mp ht
  have hi' : i ∈ b.offsets (twoTuples (.boxedPtr 32) .nil) := hi
  rw [(smallObjs_shape hobj).2.1, List.mem_singleton] at hi'
  subst hi'
  unfold Obj.field at ha
  rw [haddr] at ha
  cases ha

theorem youngToOld_generational (liveX : ℕ) : Generational smallObjs youngToOld liveX :=
  small_generational rfl liveX

set_option maxRecDepth 4000 in
theorem collectMinorWithLive_preserved_youngToOld :
    ∃ stats q, collectMinorWithLive (fun _ => 0) youngToOld 256 = (.ok stats, q) ∧
      Preserved youngToOld q 256 := by
  have hrun : collectMinorWithLive (fun _ => 0) youngToOld 256 =
      (.ok ⟨1, 2, 2, 2, 0, 4⟩, (collectMinorWithLive (fun _ => 0) youngToOld 256).2) :=
    Prod.ext rfl rfl
  exact ⟨_, _, hrun, collectMinorWithLive_preserved (youngToOld_sound 256)
    (youngToOld_generational 256) hrun⟩

set_option maxRecDepth 4000 in
/-- The old tuple is not scanned, so the young one it holds is lost. -/
theorem not_preserved_of_oldToYoung :
    ¬ ∀ (arcBytes : ℕ → ℕ) (external : List HeapRegion) (objs : Set Obj) (p q : Process)
      (stats : GcStats), Sound external objs p 256 → collectMinor arcBytes p = (.ok stats, q) →
      Preserved p q 256 := by
  intro hall
  have hrun : collectMinor (fun _ => 0) oldToYoung =
      (.ok ⟨0, 0, 2, 2, 0, 2⟩, (collectMinor (fun _ => 0) oldToYoung).2) := Prod.ext rfl rfl
  have hpres := hall _ _ _ _ _ _ (oldToYoung_sound 256) hrun
  have hmem : Term.boxedPtr 32 ∈ allRoots (collectMinor (fun _ => 0) oldToYoung).2 256 := by
    refine List.mem_of_getElem? (i := 0) ?_
    decide
  have hreach : (heapGraph (collectMinor (fun _ => 0) oldToYoung).2).follow [0] (.boxedPtr 32) =
      some (.boxedPtr 16) := by decide
  have hdead := hpres.reclaimed _ hmem _ ⟨[0], hreach⟩ 16 (Term.heapPtr_boxedPtr 16)
  exact absurd hdead (by decide)

end Small

end Beamr.Gc
