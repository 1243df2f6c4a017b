import Beamr.Gc.Major

/-!
# Root completeness

Every term a process can read, against the space a collection reclaims. The slots of the
snapshot never point into that space afterwards; what the snapshot does not visit keeps the
term it had. A minor collection clears the X registers above the live ones, a major collection
leaves those above the first 256 as they are.
-/
namespace Beamr.Gc

open Beamr

/-- Terms that do not point into `region`. -/
def Avoids (region : ℕ → Bool) (t : Term) : Prop := ∀ a, t.heapPtr = some a → region a = false

/-- Every term stored in a process that execution can read. -/
def readable (p : Process) : List Term :=
  p.xRegs ++ p.restRoots ++ p.mailbox.arrival ++ hidden p

/-! ## The snapshot avoids the source -/

section Copy

variable {source : ℕ → Bool} {allocate : Allocate} {s s' : Copying}

/-- Forwarding addresses lie outside the source. -/
structure Outbound (source : ℕ → Bool) (s : Copying) : Prop where
  forwarded : ∀ a t, s.forwarding a = some t → Avoids source t
  region : ∀ a, s.region.contains a = true → source a = false

theorem objectSize_pos {mem : Memory} {t : Term} {words : ℕ}
    (h : objectSize mem t = .ok (some words)) : 0 < words := by
  unfold objectSize at h
  split_ifs at h
  · obtain rfl := Option.some.inj (Except.ok.inj h)
    norm_num
  · cases h
  · split at h
    · cases h
    · split at h
      · cases h
      · obtain rfl := Option.some.inj (Except.ok.inj h)
        omega

/-- Only terms that are no pointers have no size. -/
theorem objectSize_none {mem : Memory} {t : Term} (h : objectSize mem t = .ok none) :
    t.heapPtr = none := by
  unfold objectSize at h
  by_cases hl : t.isList = true
  · rw [if_pos hl] at h
    cases h
  rw [if_neg hl] at h
  by_cases hb : t.isBoxed = true
  · simp only [hb, Bool.not_true, Bool.false_eq_true, if_false] at h
    cases hptr : t.heapPtr with
    | none => rfl
    | some a =>
      rw [hptr] at h
      dsimp only at h
      cases htag : BoxedHeader.tag (mem a) with
      | none => rw [htag] at h; cases h
      | some tag => rw [htag] at h; cases h
  · unfold Term.heapPtr
    rw [if_neg (by simp [hl, hb])]

/-- One step of the copy: a term that is not in the source, a forwarding address, or the
address of a new copy. -/
theorem copyTerm_avoids (hal : AllocSpec allocate) (hs : Outbound source s) {t t' : Term}
    (h : copyTerm source allocate t s = (.ok t', s')) : Avoids source t' ∧ Outbound source s' := by
  unfold copyTerm at h
  cases hptr : t.heapPtr with
  | none =>
    rw [hptr] at h
    obtain ⟨ht, rfl⟩ := Prod.mk.inj h
    obtain rfl := Except.ok.inj ht
    refine ⟨fun a ha => ?_, hs⟩
    rw [hptr] at ha
    cases ha
  | some src =>
    rw [hptr] at h
    dsimp only at h
    by_cases hsrc : source src = false
    · rw [if_pos hsrc] at h
      obtain ⟨ht, rfl⟩ := Prod.mk.inj h
      obtain rfl := Except.ok.inj ht
      refine ⟨fun a ha => ?_, hs⟩
      obtain rfl := Option.some.inj (hptr.symm.trans ha)
      exact hsrc
    rw [if_neg hsrc] at h
    cases hf : s.forwarding src with
    | some fwd =>
      rw [hf] at h
      obtain ⟨ht, rfl⟩ := Prod.mk.inj h
      obtain rfl := Except.ok.inj ht
      exact ⟨hs.forwarded src _ hf, hs⟩
    | none =>
      rw [hf] at h
      dsimp only at h
      cases hsize : objectSize s.mem t with
      | error e => rw [hsize] at h; cases h
      | ok size =>
        rw [hsize] at h
        cases size with
        | none =>
          rw [objectSize_none hsize] at hptr
          cases hptr
        | some words =>
          dsimp only at h
          cases halloc : allocate s.region t words with
          | error full => rw [halloc] at h; cases h
          | ok r =>
            obtain ⟨dst, region⟩ := r
            rw [halloc] at h
            obtain ⟨ht, rfl⟩ := Prod.mk.inj h
            obtain rfl := Except.ok.inj ht
            obtain ⟨hroom, rfl, hb, hc, -⟩ := hal.ok halloc
            have hpos := objectSize_pos hsize
            have hnew : Avoids source (termFromPtrLike t (s.region.base + s.region.used)) := by
              intro a ha
              rw [termFromPtrLike_eq, Obj.heapPtr_term] at ha
              obtain rfl := Option.some.inj ha
              exact hs.region _ (HeapRegion.contains_iff.mpr ⟨by simp, by simp; omega⟩)
            refine ⟨hnew, fun a u hu => ?_, fun a ha => hs.region a ?_⟩
            · simp only [Copying.addCopy] at hu
              split_ifs at hu with ha
              · obtain rfl := Option.some.inj hu
                exact hnew
              · exact hs.forwarded a u hu
            · rw [HeapRegion.contains_iff] at ha ⊢
              simp only [Copying.addCopy, hb, hc] at ha
              exact ha

theorem copyRoots_avoids (hal : AllocSpec allocate) (hs : Outbound source s)
    {roots roots' : List Term} (h : copyRoots source allocate roots s = (.ok roots', s')) :
    roots'.length = roots.length ∧ ∀ t ∈ roots', Avoids source t := by
  induction roots generalizing s roots' s' with
  | nil =>
    obtain ⟨hr, rfl⟩ := Prod.mk.inj h
    obtain rfl := Except.ok.inj hr
    simp
  | cons t roots ih =>
    unfold copyRoots at h
    generalize hone : copyTerm source allocate t s = res at h
    obtain ⟨res, s₁⟩ := res
    cases res with
    | error e => cases h
    | ok t' =>
      obtain ⟨ht', hs₁⟩ := copyTerm_avoids hal hs hone
      dsimp only at h
      generalize hrest : copyRoots source allocate roots s₁ = res at h
      obtain ⟨res, s₂⟩ := res
      cases res with
      | error e => cases h
      | ok rest =>
        obtain ⟨hr, rfl⟩ := Prod.mk.inj h
        obtain rfl := Except.ok.inj hr
        obtain ⟨hlen, hall⟩ := ih hs₁ hrest
        refine ⟨by rw [List.length_cons, List.length_cons, hlen], fun u hu => ?_⟩
        rcases List.mem_cons.mp hu with rfl | hu
        · exact ht'
        · exact hall u hu

end Copy

/-! ## Whole collections -/

section Collect

variable {sys : SystemAllocator} {external : List HeapRegion} {arcBytes : ℕ → ℕ} {p q : Process}

/-- With the arrival queue drained, what can be read is the snapshot, the other registers and
what is hidden. -/
theorem forall_readable {P : Term → Prop} {liveX : ℕ} (harr : q.mailbox.arrival = []) :
    (∀ t ∈ readable q, P t) ↔ (∀ t ∈ allRoots q liveX, P t) ∧
      (∀ t ∈ q.xRegs.drop (min liveX xRegCount), P t) ∧ ∀ t ∈ hidden q, P t := by
  have hx : ∀ t, t ∈ q.xRegs ↔ t ∈ q.xRegs.take (min liveX xRegCount) ∨
      t ∈ q.xRegs.drop (min liveX xRegCount) := by
    intro t
    rw [← List.mem_append, List.take_append_drop]
  rw [allRoots_of_arrival harr, Process.rootList_eq]
  simp only [readable, harr, List.append_nil, List.mem_append, hx]
  constructor
  · intro h
    exact ⟨fun t ht => h t (ht.elim (fun h => .inl (.inl (.inl h))) fun h => .inl (.inr h)),
      fun t ht => h t (.inl (.inl (.inr ht))), fun t ht => h t (.inr ht)⟩
  · rintro ⟨hroots, hdrop, hhid⟩ t (((h | h) | h) | h)
    · exact hroots t (.inl h)
    · exact hdrop t h
    · exact hroots t (.inr h)
    · exact hhid t h

theorem avoids_nil (region : ℕ → Bool) : Avoids region .nil := by
  intro a ha
  cases ha

theorem outbound_copyingFrom {source : ℕ → Bool} {region : HeapRegion} (mem : Memory)
    (h : ∀ a, region.contains a = true → source a = false) :
    Outbound source (copyingFrom mem region) where
  forwarded := fun _ _ hf => by cases hf
  region := h

theorem minor_readable {stats : GcStats} {liveX : ℕ} (hap : p.heap.young.Apart p.heap.old)
    (h : collectMinorWithLive arcBytes p liveX = (.ok stats, q)) :
    (∀ t ∈ readable q, Avoids p.heap.young.contains t) ↔
      ∀ t ∈ hidden p, Avoids p.heap.young.contains t := by
  obtain ⟨roots, s₁, s, hfin, rfl⟩ := finishes_of_ok h
  obtain ⟨hlen, havoid⟩ := copyRoots_avoids allocSpec_old
    (outbound_copyingFrom _ fun a ha => not_contains_of_apart hap.symm ha) hfin.1
  obtain ⟨hroots, harr, hhid, hdead⟩ := minorEnd_slots arcBytes hlen s₁ s
  rw [forall_readable harr, hroots, hhid]
  constructor
  · exact fun h => h.2.2
  · intro h
    refine ⟨havoid, fun t ht => ?_, h⟩
    rw [hdead t ht]
    exact avoids_nil _

theorem finishes_of_major {stats : GcStats}
    (h : collectMajor sys external arcBytes p = (.ok stats, q)) :
    ∃ roots s₁ s, copyRoots p.heap.contains allocateFresh (allRoots p 256)
        (copyingFrom (freshMemory sys external p) (freshOldRegion sys external p.heap)) =
        (.ok roots, s₁) ∧
      q = majorEnd arcBytes p roots s₁ s := by
  rw [collectMajor_eq] at h
  generalize hcopy : copyRoots p.heap.contains allocateFresh (allRoots p 256)
    (copyingFrom (freshMemory sys external p) (freshOldRegion sys external p.heap)) = res at h
  obtain ⟨res, s₁⟩ := res
  cases res with
  | error e => cases h
  | ok roots =>
    generalize hscan : scan p.heap.contains allocateFresh s₁ = res' at h
    obtain ⟨res', s⟩ := res'
    cases res' with
    | error e => simp only [hscan] at h; cases h
    | ok u =>
      simp only [hscan] at h
      exact ⟨roots, s₁, s, rfl, (Prod.mk.inj h).2.symm⟩

theorem major_readable {stats : GcStats}
    (h : collectMajor sys external arcBytes p = (.ok stats, q)) :
    (∀ t ∈ readable q, Avoids p.heap.contains t) ↔
      ∀ t ∈ p.xRegs.drop 256 ++ hidden p, Avoids p.heap.contains t := by
  obtain ⟨roots, s₁, s, hcopy, rfl⟩ := finishes_of_major h
  obtain ⟨hlen, havoid⟩ := copyRoots_avoids allocSpec_fresh
    (outbound_copyingFrom _ fun a ha => fresh_not_contains sys ha) hcopy
  obtain ⟨hroots, harr, hhid, hrest⟩ := majorEnd_slots arcBytes hlen s₁ s
  rw [forall_readable harr, hroots, hhid]
  have hmin : min 256 xRegCount = 256 := rfl
  rw [hmin, hrest]
  simp only [List.mem_append]
  constructor
  · rintro ⟨-, hdrop, hhid⟩ t (ht | ht)
    · exact hdrop t ht
    · exact hhid t ht
  · exact fun h => ⟨havoid, fun t ht => h t (.inl ht), fun t ht => h t (.inr ht)⟩

/-- After a collection no term of the process points into the reclaimed space exactly when no
slot outside the snapshot did before. -/
theorem collect_readable_iff (sys : SystemAllocator) (external : List HeapRegion)
    (arcBytes : ℕ → ℕ) (p : Process) (hap : p.heap.young.Apart p.heap.old) :
    (∀ liveX stats q, collectMinorWithLive arcBytes p liveX = (.ok stats, q) →
      ((∀ t ∈ readable q, Avoids p.heap.young.contains t) ↔
        ∀ t ∈ hidden p, Avoids p.heap.young.contains t)) ∧
    ∀ stats q, collectMajor sys external arcBytes p = (.ok stats, q) →
      ((∀ t ∈ readable q, Avoids p.heap.contains t) ↔
        ∀ t ∈ p.xRegs.drop 256 ++ hidden p, Avoids p.heap.contains t) :=
  ⟨fun _ _ _ h => minor_readable hap h, fun _ _ h => major_readable h⟩

end Collect

/-! ## A bound receive marker -/

/-- A process whose receive marker is bound to a young reference. -/
def boundMarker : Process :=
  { smallProcess (smallHeap (fun a => if a = 16 then BoxedHeader.new .reference 1 else 0) 6)
      firstX (.boxedPtr 16) with
    mailbox := ⟨[], [], 0, some (.boxedPtr 16, 0)⟩ }

theorem collect_readable_iff_youngToOld :
    youngToOld.heap.young.Apart youngToOld.heap.old ∧
    ∀ liveX stats q, collectMinorWithLive (fun _ => 0) youngToOld liveX = (.ok stats, q) →
      ∀ t ∈ readable q, Avoids youngToOld.heap.young.contains t := by
  have hap : youngToOld.heap.young.Apart youngToOld.heap.old := .inl (by decide)
  refine ⟨hap, fun liveX stats q h => ?_⟩
  refine ((collect_readable_iff .behind [] (fun _ => 0) youngToOld hap).1 liveX stats q h).mpr ?_
  intro t ht
  cases ht

set_option maxRecDepth 4000 in
/-- The marker is not visited and keeps a pointer into the nursery. -/
theorem not_readable_of_boundMarker :
    ¬ ∀ (arcBytes : ℕ → ℕ) (p q : Process) (stats : GcStats), p.heap.young.Apart p.heap.old →
      collectMinor arcBytes p = (.ok stats, q) →
      ∀ t ∈ readable q, Avoids p.heap.young.contains t := by
  intro hall
  have hrun : collectMinor (fun _ => 0) boundMarker =
      (.ok ⟨1, 2, 2, 2, 0, 4⟩, (collectMinor (fun _ => 0) boundMarker).2) := Prod.ext rfl rfl
  have hkey : Term.boxedPtr 16 ∈ hidden (collectMinor (fun _ => 0) boundMarker).2 := by decide
  have hav := hall _ _ _ _ (.inl (by decide)) hrun _ (List.mem_append_right _ hkey) 16
    (Term.heapPtr_boxedPtr 16)
  exact absurd hav (by decide)

end Beamr.Gc
