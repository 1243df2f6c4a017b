import Beamr.Gc.EnsureSpace

/-!
# Rooted allocation

`alloc_words_rooted` of the JIT runtime. The terms that a helper holds across an allocation are
pushed on the native root stack, which a collection visits, and are read back from it before the
stack is cut to its old depth.
-/
namespace Beamr.Jit

open Gc ObjectGraph

/-! ## The native root stack -/

def pushNativeRoot (p : Process) (term : Term) : ℕ × Process :=
  (p.nativeRoots.length, { p with nativeRoots := p.nativeRoots ++ [term] })

def nativeRoot (p : Process) (index : ℕ) : Option Term := p.nativeRoots[index]?

def nativeRootDepth (p : Process) : ℕ := p.nativeRoots.length

def truncateNativeRoots (p : Process) (depth : ℕ) : Process :=
  { p with nativeRoots := p.nativeRoots.take depth }

/-! ## Allocation -/

/-- `Heap::alloc`, in the nursery. -/
def heapAlloc (h : Heap) (words : ℕ) : Except HeapFull (ℕ × Heap) :=
  match h.young.alloc words with
  | .error full => .error full
  | .ok (ptr, young) => .ok (ptr, { h with young := young })

section Alloc

variable (sys : SystemAllocator) (external : List HeapRegion) (arcBytes : ℕ → ℕ)

/-- A null pointer is `none`. -/
def allocWords (p : Process) (words : ℕ) : Option ℕ × Process :=
  if words = 0 then (none, p)
  else match ensureSpace sys external arcBytes p words 256 with
    | (.error _, p) => (none, p)
    | (.ok (), p) =>
      match heapAlloc p.heap words with
      | .error _ => (none, p)
      | .ok (ptr, heap) => (some ptr, { p with heap := heap })

/-- The first loop, with the indices the stack hands back. -/
def pushRoots : Process → List Term → List ℕ × Process
  | p, [] => ([], p)
  | p, root :: roots =>
    let (index, p) := pushNativeRoot p root
    let (indices, p) := pushRoots p roots
    (index :: indices, p)

/-- The second loop. A slot that cannot be read leaves its root as it was. -/
def readBack (p : Process) : List Term → List ℕ → List Term × Bool
  | root :: roots, index :: indices =>
    let (rest, recovered) := readBack p roots indices
    match nativeRoot p index with
    | some forwarded => (forwarded :: rest, recovered)
    | none => (root :: rest, false)
  | roots, _ => (roots, true)

structure RootedAllocation where
  pointer : Option ℕ
  roots : List Term
  process : Process

def allocWordsRooted (p : Process) (words : ℕ) (roots : List Term) : RootedAllocation :=
  let depth := nativeRootDepth p
  let (indices, p) := pushRoots p roots
  let (pointer, p) := allocWords sys external arcBytes p words
  let (roots, allRecovered) := readBack p roots indices
  { pointer := if allRecovered then pointer else none
    roots := roots
    process := truncateNativeRoots p depth }

end Alloc

/-! ## The collectors keep the slots of the stack -/

/-- The number of slots between the X registers and the native roots, and of the native roots. -/
def rootShape (p : Process) : ℕ × ℕ :=
  (p.frames.flatten.length + (p.mailbox.scanList.length + p.mailbox.arrival.length) +
    (Process.exceptionTerms p.currentException).length + 2 * p.dictionary.length + 1,
    p.nativeRoots.length)

section Shape

variable (sys : SystemAllocator) (external : List HeapRegion) (arcBytes : ℕ → ℕ)

theorem flatten_slots_length (frames : List (List Term)) (values : List Term) :
    (Refill.each Refill.slots frames values).1.flatten.length = frames.flatten.length := by
  induction frames generalizing values with
  | nil => rfl
  | cons frame frames ih =>
    change ((Refill.slots frame values).1 :: (Refill.each Refill.slots frames
      (Refill.slots frame values).2).1).flatten.length = _
    rw [List.flatten_cons, List.length_append, ih, Refill.slots_length, List.flatten_cons,
      List.length_append]

theorem refillException_length (e : Option Exception) (values : List Term) :
    (Process.exceptionTerms (Process.refillException e values).1).length =
      (Process.exceptionTerms e).length := by
  cases e with
  | none => rfl
  | some e => rfl

theorem rootShape_refillRest (p : Process) (xs : List Term) (hxs : xs.length = xRegCount)
    (values : List Term) : rootShape (p.refillRest xs hxs values).1 = rootShape p := by
  refine Prod.ext ?_ (Refill.slots_length p.nativeRoots _)
  have hframes := flatten_slots_length p.frames values
  have hscan := Refill.slots_length p.mailbox.scanList (Refill.each Refill.slots p.frames values).2
  have hexception := refillException_length p.currentException
    (Refill.slots p.mailbox.scanList (Refill.each Refill.slots p.frames values).2).2
  have hdictionary := Refill.each_length Refill.pair p.dictionary
    (Process.refillException p.currentException
      (Refill.slots p.mailbox.scanList (Refill.each Refill.slots p.frames values).2).2).2
  change (Refill.each Refill.slots p.frames values).1.flatten.length +
    ((Refill.slots p.mailbox.scanList _).1.length + p.mailbox.arrival.length) +
    (Process.exceptionTerms (Process.refillException p.currentException _).1).length +
    2 * (Refill.each Refill.pair p.dictionary _).1.length + 1 = _
  rw [hframes, hscan, hexception, hdictionary]
  rfl

theorem rootShape_replaceRoots (p : Process) (liveX : ℕ) (roots : List Term) :
    rootShape (p.replaceRootsWithLiveX liveX roots) = rootShape p := rootShape_refillRest ..

theorem rootShape_drainArrival (p : Process) : rootShape p.drainArrival = rootShape p := by
  simp [rootShape, Process.drainArrival, Mailbox.drainArrival]

theorem rootShape_collectMinor (p : Process) (liveX : ℕ) :
    rootShape (collectMinorWithLive arcBytes p liveX).2 = rootShape p := by
  have hdrained := rootShape_drainArrival p
  unfold collectMinorWithLive
  dsimp only [Process.rootsWithLiveX]
  split
  · exact hdrained
  · split
    · exact (rootShape_replaceRoots ..).trans hdrained
    · exact (rootShape_replaceRoots ..).trans hdrained

theorem rootShape_collectMajor (p : Process) :
    rootShape (collectMajor sys external arcBytes p).2 = rootShape p := by
  have hdrained := rootShape_drainArrival p
  unfold collectMajor
  dsimp only [Process.roots, Process.rootsWithLiveX]
  split
  · exact hdrained
  · split
    · exact (rootShape_replaceRoots ..).trans hdrained
    · exact (rootShape_replaceRoots ..).trans hdrained

theorem rootShape_growFuel (words fuel : ℕ) (p : Process) :
    rootShape (growFuel sys external words fuel p).2 = rootShape p := by
  induction fuel generalizing p with
  | zero => rfl
  | succ fuel ih =>
    rw [growFuel]
    split
    · split
      · rfl
      · exact ih _
    · rfl

theorem rootShape_ensureSpace (p : Process) (words liveX : ℕ) :
    rootShape (ensureSpace sys external arcBytes p words liveX).2 = rootShape p := by
  have hminor := rootShape_collectMinor arcBytes p liveX
  rw [ensureSpace]
  split
  · rfl
  · split
    next stats q hq =>
      rw [hq] at hminor
      exact (rootShape_growFuel sys external words words q).trans hminor
    next full q hq =>
      rw [hq] at hminor
      have hmajor := rootShape_collectMajor sys external arcBytes q
      split
      next e r hr =>
        rw [hr] at hmajor
        exact hmajor.trans hminor
      next stats r hr =>
        rw [hr] at hmajor
        exact (rootShape_growFuel sys external words words r).trans (hmajor.trans hminor)
    next e q _ hq =>
      rw [hq] at hminor
      exact hminor

theorem rootShape_allocWords (p : Process) (words : ℕ) :
    rootShape (allocWords sys external arcBytes p words).2 = rootShape p := by
  have hensure := rootShape_ensureSpace sys external arcBytes p words 256
  rw [allocWords]
  split
  · rfl
  · split
    next e q hq =>
      rw [hq] at hensure
      exact hensure
    next q hq =>
      rw [hq] at hensure
      split
      · exact hensure
      · exact hensure

end Shape

/-! ## Pushing and reading back -/

theorem pushRoots_eq (p : Process) (roots : List Term) :
    pushRoots p roots = (List.range' p.nativeRoots.length roots.length,
      { p with nativeRoots := p.nativeRoots ++ roots }) := by
  induction roots generalizing p with
  | nil => simp [pushRoots]
  | cons root roots ih =>
    rw [pushRoots]
    simp only [pushNativeRoot, ih, List.length_append, List.length_cons, List.length_nil,
      List.append_assoc, List.range'_succ]
    rfl

/-- A stack with the slots still on it gives all of them back, in order. -/
theorem readBack_eq (q : Process) (roots : List Term) {depth : ℕ}
    (h : q.nativeRoots.length = depth + roots.length) :
    readBack q roots (List.range' depth roots.length) = (q.nativeRoots.drop depth, true) := by
  induction roots generalizing depth with
  | nil => simp [readBack, h]
  | cons root roots ih =>
    have hlt : depth < q.nativeRoots.length := by
      rw [h, List.length_cons]
      omega
    have hdepth : q.nativeRoots.length = depth + 1 + roots.length := by
      rw [h, List.length_cons]
      omega
    have hrest := ih hdepth
    rw [List.length_cons, List.range'_succ, readBack, hrest, nativeRoot,
      List.getElem?_eq_getElem hlt, List.drop_eq_getElem_cons hlt]

/-- The process with the roots pushed. -/
def withRoots (p : Process) (roots : List Term) : Process :=
  { p with nativeRoots := p.nativeRoots ++ roots }

section Rooted

variable (sys : SystemAllocator) (external : List HeapRegion) (arcBytes : ℕ → ℕ)

theorem nativeRoots_allocWords (p : Process) (words : ℕ) :
    (allocWords sys external arcBytes p words).2.nativeRoots.length = p.nativeRoots.length :=
  congrArg Prod.snd (rootShape_allocWords sys external arcBytes p words)

/-- The refusal is never reached: the call allocates with the roots pushed, gives back what is on
top of the stack, and leaves the rest. -/
theorem allocWordsRooted_eq (p : Process) (words : ℕ) (roots : List Term) :
    allocWordsRooted sys external arcBytes p words roots =
      let (pointer, q) := allocWords sys external arcBytes (withRoots p roots) words
      { pointer := pointer
        roots := q.nativeRoots.drop p.nativeRoots.length
        process := truncateNativeRoots q p.nativeRoots.length } := by
  have hlength : (allocWords sys external arcBytes (withRoots p roots) words).2.nativeRoots.length =
      p.nativeRoots.length + roots.length :=
    (nativeRoots_allocWords ..).trans List.length_append
  rw [allocWordsRooted, pushRoots_eq]
  dsimp only
  rw [← withRoots, readBack_eq _ roots hlength]
  rfl

end Rooted

/-! ## The roots denote what they did -/

/-- The roots between the X registers and the native roots. -/
def frontRoots (p : Process) : List Term :=
  p.frames.flatten ++ p.mailbox.scanList ++ Process.exceptionTerms p.currentException ++
    p.dictionary.flatMap Beamr.pairTerms ++ [p.groupLeader]

theorem frontRoots_length (p : Process) :
    (frontRoots p.drainArrival).length = (rootShape p).1 := by
  have hpairs : ∀ d : List (Term × Term), (d.flatMap Beamr.pairTerms).length = 2 * d.length := by
    intro d
    induction d with
    | nil => rfl
    | cons e d ih =>
      rw [List.flatMap_cons, List.length_append, ih, List.length_cons, Beamr.pairTerms]
      simp
      omega
  simp only [frontRoots, rootShape, Process.drainArrival, Mailbox.drainArrival, List.length_append,
    hpairs, List.length_singleton]

theorem nativeRoots_of_allRoots {R : Term → Term → Prop} {p q : Process} {liveX : ℕ}
    (h : List.Forall₂ R (allRoots p liveX) (allRoots q liveX))
    (hshape : rootShape q = rootShape p) :
    List.Forall₂ R p.nativeRoots q.nativeRoots := by
  have hfront : (frontRoots p.drainArrival).length = (frontRoots q.drainArrival).length := by
    rw [frontRoots_length, frontRoots_length, hshape]
  have hnative : p.nativeRoots.length = q.nativeRoots.length := (congrArg Prod.snd hshape).symm
  have hrest : List.Forall₂ R
      (frontRoots p.drainArrival ++ p.nativeRoots ++
        p.nativeContinuations.flatMap NativeContinuation.forEachTerm)
      (frontRoots q.drainArrival ++ q.nativeRoots ++
        q.nativeContinuations.flatMap NativeContinuation.forEachTerm) := (forall₂_allRoots.mp h).2
  rw [forall₂_append_iff (by rw [List.length_append, List.length_append, hfront, hnative]),
    forall₂_append_iff hfront] at hrest
  exact hrest.1.2

theorem nativeRoots_subset {p : Process} {t : Term} (h : t ∈ p.nativeRoots) {liveX : ℕ} :
    t ∈ allRoots p liveX := by
  rw [allRoots_eq]
  exact List.mem_append_right _ (List.mem_append_left _ (List.mem_append_right _ h))

section Denotes

variable (sys : SystemAllocator) {external : List HeapRegion} (arcBytes : ℕ → ℕ) {objs : Set Obj}
  {p q : Process}

theorem Grown.sound {liveX : ℕ} (h : Grown external p q) (hp : Sound external objs p liveX)
    (hempty : p.heap.young.used = 0) : Sound external objs q liveX := by
  have hI := h.intact hp.heap hempty
  refine ⟨hI, fun t ht => ?_⟩
  rw [h.allRoots_eq] at ht
  exact (hp.roots t ht).congr (fun o ho => hI.contains_of_allocated (hI.wf.live_addr ho))
    fun a ha => hI.stored ha

theorem untracedX_nil (p : Process) : untracedX p 256 = [] := by
  rw [untracedX, List.drop_eq_nil_iff, List.length_take]
  exact Nat.min_le_left ..

/-- With terms that are never changed a request keeps what all roots denote, also where it fails. -/
theorem ensureSpace_kept (hp : Sound external objs p 256) (hgen : Generational objs p 256)
    (words : ℕ) :
    (∃ objs', Sound external objs' (ensureSpace sys external arcBytes p words 256).2 256) ∧
      List.Forall₂ (SameStructure (heapGraph p)
          (heapGraph (ensureSpace sys external arcBytes p words 256).2))
        (allRoots p 256) (allRoots (ensureSpace sys external arcBytes p words 256).2 256) := by
  have hensured : Ensured p words 256 (ensureSpace sys external arcBytes p words 256) ↔ _ :=
    (ensureSpace_ensured_iff sys arcBytes hp).1
  by_cases hfast : FastPath p words
  · refine ⟨⟨objs, ?_⟩, (hensured.mpr (.inl hfast)).2⟩
    rw [ensureSpace_fast sys arcBytes hfast]
    exact hp
  have hguard : ¬ (p.heap.available ≥ words ∧ virtualBinaryPressureExceedsHeap p = false) := hfast
  by_cases hfit : Promotable objs p 256
  · refine ⟨?_, (hensured.mpr (.inr (.inl ⟨hfit, hgen⟩))).2⟩
    obtain ⟨roots, s₁, s, hfin⟩ := hp.finishes hfit
    have hdone := hp.minorDone arcBytes hfin
    rw [ensureSpace, if_neg hguard, collectMinorWithLive_eq]
    simp only [hfin.1, hfin.2]
    obtain ⟨hg, -⟩ := growFuel_spec sys (hdone.grown hp) (Nat.le_add_left words _)
    exact ⟨_, Grown.sound hg (hdone.sound hp hgen) (hdone.grown hp).empty⟩
  · have hnone : ∀ t ∈ untracedX p 256, Avoids p.heap.contains t := by
      rw [untracedX_nil]
      exact List.forall_mem_nil _
    refine ⟨?_, (hensured.mpr (.inr (.inr ⟨hfit, hnone⟩))).2⟩
    obtain ⟨full, q, s, hrun, hf⟩ := hp.minorFailed arcBytes hfit
    have hq := hf.sound hp (Nat.le_refl 256)
    obtain ⟨stats, r, s₂, hmajor, hd⟩ := hq.majorDone sys arcBytes
    rw [ensureSpace, if_neg hguard]
    simp only [hrun, hmajor]
    obtain ⟨hg, -⟩ := growFuel_spec sys (hd.grown sys hq) (Nat.le_add_left words _)
    exact ⟨_, Grown.sound hg (hd.sound hq) (hd.grown sys hq).empty⟩

/-- New words do not change what valid terms denote. -/
theorem heapAlloc_sameStructure (hI : Intact external p.heap objs) {words ptr : ℕ} {heap : Heap}
    (h : heapAlloc p.heap words = .ok (ptr, heap)) {t : Term}
    (ht : Valid p.heap.contains (Stored external) objs t) :
    SameStructure (heapGraph p) (heapGraph { p with heap := heap }) t t := by
  rw [heapAlloc] at h
  split at h
  next => cases h
  next base young hyoung =>
    obtain ⟨-, rfl⟩ := Prod.mk.inj (Except.ok.inj h)
    obtain ⟨hroom, -, hbase, hcapacity, hused, -⟩ := HeapRegion.allocWithKind_ok hyoung
    have hmono : ∀ a, p.heap.allocated a = true →
        Heap.allocated { p.heap with young := young } a = true := by
      intro a ha
      rw [Heap.allocated_iff] at ha ⊢
      refine ha.imp_left fun hy => ?_
      rw [HeapRegion.allocated_iff] at hy ⊢
      change young.base ≤ a ∧ a < young.base + young.used
      omega
    refine hI.wf.sameStructure (fun o _ i _ => rfl) (fun o ho => hmono _ (hI.wf.live_addr ho)) ?_ ht
    intro a hin hout
    refine ⟨hI.dead_of_stored hout, ?_⟩
    by_contra hall
    rw [Bool.not_eq_false, Heap.allocated_iff] at hall
    have hcontains : p.heap.contains a = true := by
      rw [Heap.contains_iff]
      refine hall.imp (fun hy => ?_) fun ho => contains_of_allocated hI.old_le ho
      rw [HeapRegion.allocated_iff] at hy
      change young.base ≤ a ∧ a < young.base + young.used at hy
      rw [HeapRegion.contains_iff]
      omega
    rw [hin] at hcontains
    cases hcontains

/-- A request for words keeps what the terms on the root stack denote. -/
theorem allocWords_kept (hp : Sound external objs p 256) (hgen : Generational objs p 256)
    (words : ℕ) :
    List.Forall₂ (SameStructure (heapGraph p)
        (heapGraph (allocWords sys external arcBytes p words).2))
      p.nativeRoots (allocWords sys external arcBytes p words).2.nativeRoots := by
  by_cases hwords : words = 0
  · rw [allocWords, if_pos hwords]
    exact List.forall₂_same.mpr fun t _ => SameStructure.refl t
  obtain ⟨⟨objs', hsound⟩, hall⟩ := ensureSpace_kept sys arcBytes hp hgen words
  have hnative := nativeRoots_of_allRoots hall
    (rootShape_ensureSpace sys external arcBytes p words 256)
  rw [allocWords, if_neg hwords]
  generalize ensureSpace sys external arcBytes p words 256 = outcome at hsound hnative ⊢
  obtain ⟨e | _, q⟩ := outcome
  · exact hnative
  · dsimp only at hsound hnative ⊢
    split
    next => exact hnative
    next ptr heap halloc =>
      refine forall₂_of_right hnative (fun u hu => hsound.roots u (nativeRoots_subset hu)) ?_
      exact fun t u htu hu => htu.trans (heapAlloc_sameStructure hsound.heap halloc hu)

end Denotes

/-- Whatever comes of the allocation, the root stack has its old depth, and the roots handed back
are the terms that the collector left in their slots, in the order in which they were given. They,
and the terms below them on the stack, denote what they did before. -/
theorem allocWordsRooted_balanced (sys : SystemAllocator) (external : List HeapRegion)
    (arcBytes : ℕ → ℕ) (p : Process) (words : ℕ) (roots : List Term) :
    let r := allocWordsRooted sys external arcBytes p words roots
    let allocated := allocWords sys external arcBytes (withRoots p roots) words
    nativeRootDepth r.process = nativeRootDepth p ∧
      r.pointer = allocated.1 ∧ r.roots.length = roots.length ∧
      allocated.2.nativeRoots = r.process.nativeRoots ++ r.roots ∧
      ∀ objs, Sound external objs (withRoots p roots) 256 →
        Generational objs (withRoots p roots) 256 →
        List.Forall₂ (SameStructure (heapGraph p) (heapGraph r.process)) roots r.roots ∧
          List.Forall₂ (SameStructure (heapGraph p) (heapGraph r.process)) p.nativeRoots
            r.process.nativeRoots := by
  have hlength : (allocWords sys external arcBytes (withRoots p roots) words).2.nativeRoots.length =
      p.nativeRoots.length + roots.length :=
    (nativeRoots_allocWords ..).trans List.length_append
  have hkept := fun (objs : Set Obj) (hp : Sound external objs (withRoots p roots) 256) hgen =>
    allocWords_kept sys arcBytes hp hgen words
  rw [allocWordsRooted_eq]
  generalize allocWords sys external arcBytes (withRoots p roots) words = outcome at hlength hkept ⊢
  obtain ⟨pointer, q⟩ := outcome
  dsimp only [nativeRootDepth, truncateNativeRoots] at hlength hkept ⊢
  refine ⟨?_, rfl, ?_, (List.take_append_drop ..).symm, fun objs hp hgen => ?_⟩
  · rw [List.length_take, hlength]
    omega
  · rw [List.length_drop, hlength]
    omega
  · have hsplit : List.Forall₂ (SameStructure (heapGraph p) (heapGraph q)) (p.nativeRoots ++ roots)
        (q.nativeRoots.take p.nativeRoots.length ++ q.nativeRoots.drop p.nativeRoots.length) := by
      rw [List.take_append_drop]
      exact hkept objs hp hgen
    rw [forall₂_append_iff (by rw [List.length_take, hlength]; omega)] at hsplit
    exact ⟨hsplit.2, hsplit.1⟩

/-- The young tuple, pushed while the request runs a minor collection. -/
theorem allocWordsRooted_balanced_youngToOld :
    List.Forall₂ (SameStructure (heapGraph youngToOld)
        (heapGraph (allocWordsRooted .behind [] (fun _ => 0) youngToOld 7 [.boxedPtr 16]).process))
      [.boxedPtr 16]
      (allocWordsRooted .behind [] (fun _ => 0) youngToOld 7 [.boxedPtr 16]).roots := by
  have hsound : Sound [] smallObjs (withRoots youngToOld [.boxedPtr 16]) 256 := by
    refine ⟨(youngToOld_sound 256).heap, fun t ht => ?_⟩
    have hroots : allRoots (withRoots youngToOld [.boxedPtr 16]) 256 =
        allRoots youngToOld 256 ++ [.boxedPtr 16] := by
      have hrest : (withRoots youngToOld [.boxedPtr 16]).drainArrival.restRoots =
          youngToOld.drainArrival.restRoots ++ [.boxedPtr 16] := by decide
      rw [allRoots_eq, allRoots_eq, List.append_assoc, hrest]
      rfl
    rw [hroots] at ht
    rcases List.mem_append.mp ht with h | h
    · exact (youngToOld_sound 256).roots t h
    · rw [List.mem_singleton.mp h]
      exact SmallTerm.valid (.inr (.inl rfl)) 6
  exact ((allocWordsRooted_balanced .behind [] (fun _ => 0) youngToOld 7 [.boxedPtr 16]).2.2.2.2
    smallObjs hsound (small_generational rfl 256)).1

end Beamr.Jit
