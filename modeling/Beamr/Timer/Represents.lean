import Beamr.Lib.Runs
import Beamr.Timer.Wheel

/-!
# The three structures of a timer wheel agree

Every operation keeps the entries, the buckets and the deadlines in step with each other. What
an operation does to the timers is said by `pending`, which leaves out the slots that removals
move around.
-/
namespace Beamr.Timer

theorem getElem?_swapRemove {α : Type} {xs : List α} {s : ℕ} (hs : s < xs.length) (i : ℕ) :
    (swapRemove xs s)[i]? =
      if i + 1 < xs.length then (if i = s then xs[xs.length - 1]? else xs[i]?) else none := by
  have hlast : xs.getLast? = some (xs.get ⟨xs.length - 1, by omega⟩) := by
    rw [List.getLast?_eq_getElem?]
    exact List.getElem?_eq_getElem _
  rw [swapRemove, hlast]
  dsimp only
  rw [List.getElem?_dropLast, List.length_set]
  by_cases hi : i + 1 < xs.length
  · rw [if_pos (show i < xs.length - 1 by omega), if_pos hi, List.getElem?_set]
    by_cases his : i = s
    · subst his
      simp [hs, List.getElem?_eq_getElem (show xs.length - 1 < xs.length by omega)]
    · simp [Ne.symm his, his]
  · rw [if_neg (show ¬ i < xs.length - 1 by omega), if_neg hi]

theorem length_swapRemove {α : Type} {xs : List α} {s : ℕ} (hs : s < xs.length) :
    (swapRemove xs s).length = xs.length - 1 := by
  unfold swapRemove
  split
  next => simp
  next hnone =>
    rw [List.getLast?_eq_none_iff] at hnone
    simp [hnone] at hs

namespace TimerWheel

variable {T : Type} {w : TimerWheel T}

/-- A timer without its slot: what it is, and its bucket. -/
def pending (w : TimerWheel T) (reference : ℕ) : Option (ExpiredTimer T × ℕ) :=
  (w.entries reference).map fun entry => (entry.expired reference, entry.bucket)

/-- Everything but the timers is the same. -/
structure Frame (w w' : TimerWheel T) : Prop where
  bucketCount : w'.bucketCount = w.bucketCount
  nextRef : w'.nextRef = w.nextRef
  start : w'.start = w.start
  currentTick : w'.currentTick = w.currentTick

theorem Frame.refl (w : TimerWheel T) : Frame w w := ⟨rfl, rfl, rfl, rfl⟩

theorem Frame.trans {w w₁ w₂ : TimerWheel T} (h : Frame w w₁) (h' : Frame w₁ w₂) : Frame w w₂ :=
  ⟨h'.bucketCount.trans h.bucketCount, h'.nextRef.trans h.nextRef, h'.start.trans h.start,
    h'.currentTick.trans h.currentTick⟩

/-- The entries, the buckets and the deadlines describe the same timers: each pending reference
stands in one slot of one bucket, each slot is that of a pending timer, and the deadlines are
those of the pending timers. -/
structure Consistent (w : TimerWheel T) : Prop where
  nonempty : 0 < w.bucketCount
  positioned : ∀ {r e}, w.entries r = some e →
    e.bucket < w.bucketCount ∧ (w.buckets e.bucket)[e.slot]? = some r
  listed : ∀ {b i r}, (w.buckets b)[i]? = some r →
    ∃ e, w.entries r = some e ∧ e.bucket = b ∧ e.slot = i
  deadlines : ∀ t r, toLex (t, r) ∈ w.deadlines ↔ ∃ e, w.entries r = some e ∧ e.expiresAt = t

/-! ## Removing one timer -/

theorem setSlot_entries (w : TimerWheel T) (r s p : ℕ) :
    (w.setSlot r s).entries p =
      if p = r then (w.entries p).map fun e => { e with slot := s } else w.entries p := by
  unfold setSlot
  split
  next e he =>
    by_cases hp : p = r
    · subst hp
      simp [he]
    · simp [hp]
  next he =>
    by_cases hp : p = r
    · subst hp
      simp [he]
    · simp [hp]

@[simp] theorem setSlot_buckets (w : TimerWheel T) (r s : ℕ) :
    (w.setSlot r s).buckets = w.buckets := by
  unfold setSlot
  split <;> rfl

@[simp] theorem setSlot_deadlines (w : TimerWheel T) (r s : ℕ) :
    (w.setSlot r s).deadlines = w.deadlines := by
  unfold setSlot
  split <;> rfl

theorem Frame.setSlot {w w' : TimerWheel T} (h : Frame w w') (r s : ℕ) :
    Frame w (w'.setSlot r s) := by
  refine h.trans ?_
  unfold TimerWheel.setSlot
  split <;> exact ⟨rfl, rfl, rfl, rfl⟩

/-- A wheel from which one timer is gone. -/
structure Removes (w : TimerWheel T) (r : ℕ) (e : TimerEntry T) (w' : TimerWheel T) : Prop where
  frame : Frame w w'
  buckets : w'.buckets = Function.update w.buckets e.bucket (swapRemove (w.buckets e.bucket) e.slot)
  deadlines : w'.deadlines = w.deadlines.erase (toLex (e.expiresAt, r))
  entries : ∀ p, w'.entries p =
    if p = r then none
    else if (swapRemove (w.buckets e.bucket) e.slot)[e.slot]? = some p then
      (w.entries p).map fun q => { q with slot := e.slot }
    else w.entries p

theorem Consistent.removes (h : Consistent w) {r : ℕ} {e : TimerEntry T}
    (he : w.entries r = some e) : ∃ w', w.removeEntry r = (some e, w') ∧ Removes w r e w' := by
  obtain ⟨hbucket, hslot⟩ := h.positioned he
  refine ⟨(w.removeEntry r).2, ?_, ?_⟩
  · simp [removeEntry, he]
  · simp only [removeEntry, he, swapRemoveBucketSlot, hbucket, if_true, hslot]
    split
    next replacement hreplacement =>
      refine ⟨?_, by simp, by simp, ?_⟩
      · apply Frame.setSlot
        apply Frame.setSlot
        exact ⟨rfl, rfl, rfl, rfl⟩
      · intro p
        simp only [setSlot_entries, hreplacement, Option.some.injEq, Function.update_apply]
        by_cases hp : p = r
        · simp [hp]
        · simp [hp, eq_comm]
    next hnone =>
      refine ⟨?_, by simp, by simp, ?_⟩
      · apply Frame.setSlot
        exact ⟨rfl, rfl, rfl, rfl⟩
      · intro p
        simp only [setSlot_entries, hnone, Function.update_apply]
        by_cases hp : p = r
        · simp [hp]
        · simp [hp]

theorem Removes.pending {w' : TimerWheel T} {r : ℕ} {e : TimerEntry T} (h : Removes w r e w')
    (p : ℕ) : w'.pending p = if p = r then none else w.pending p := by
  rw [TimerWheel.pending, h.entries p]
  by_cases hp : p = r
  · simp [hp]
  · rw [if_neg hp, if_neg hp]
    split
    next => rw [Option.map_map]; rfl
    next => rfl

/-- The element that fills the slot is the last of the bucket, unless the slot was the last. -/
theorem Consistent.filler (h : Consistent w) {r p : ℕ} {e : TimerEntry T}
    (he : w.entries r = some e) (hp : (swapRemove (w.buckets e.bucket) e.slot)[e.slot]? = some p) :
    e.slot + 1 < (w.buckets e.bucket).length ∧ ∃ q, w.entries p = some q ∧ q.bucket = e.bucket ∧
      q.slot = (w.buckets e.bucket).length - 1 := by
  obtain ⟨hslot, -⟩ := List.getElem?_eq_some_iff.mp (h.positioned he).2
  rw [getElem?_swapRemove hslot] at hp
  split at hp
  next hlast =>
    rw [if_pos rfl] at hp
    exact ⟨hlast, h.listed hp⟩
  next => cases hp

theorem Consistent.of_removes (h : Consistent w) {w' : TimerWheel T} {r : ℕ} {e : TimerEntry T}
    (he : w.entries r = some e) (hr : Removes w r e w') : Consistent w' := by
  obtain ⟨hbucket, hat⟩ := h.positioned he
  obtain ⟨hslot, -⟩ := List.getElem?_eq_some_iff.mp hat
  refine ⟨hr.frame.bucketCount ▸ h.nonempty, ?_, ?_, ?_⟩
  · intro p q' hq'
    rw [hr.entries p] at hq'
    split at hq'
    next => cases hq'
    next hpr =>
      split at hq'
      next hfill =>
        -- The reference that was moved stands in the freed slot.
        obtain ⟨-, q, hq, hqb, -⟩ := h.filler he hfill
        rw [hq] at hq'
        cases hq'
        rw [hr.frame.bucketCount, hr.buckets, hqb, Function.update_self]
        exact ⟨hbucket, hfill⟩
      next hfill =>
        obtain ⟨hqb, hqs⟩ := h.positioned hq'
        rw [hr.frame.bucketCount, hr.buckets]
        refine ⟨hqb, ?_⟩
        by_cases hsame : q'.bucket = e.bucket
        · rw [hsame] at hqs ⊢
          rw [Function.update_self, getElem?_swapRemove hslot]
          obtain ⟨hin, -⟩ := List.getElem?_eq_some_iff.mp hqs
          have hne : q'.slot ≠ e.slot := by
            intro heq
            rw [heq, hat] at hqs
            exact hpr (Option.some.inj hqs).symm
          have hlast : q'.slot + 1 < (w.buckets e.bucket).length := by
            by_contra hend
            apply hfill
            rw [getElem?_swapRemove hslot, if_pos (by omega), if_pos rfl]
            have hend : q'.slot = (w.buckets e.bucket).length - 1 := by omega
            rw [← hend, hqs]
          rw [if_pos hlast, if_neg hne, hqs]
        · rw [Function.update_of_ne hsame, hqs]
  · intro b i p hp
    rw [hr.buckets] at hp
    by_cases hb : b = e.bucket
    · subst hb
      rw [Function.update_self] at hp
      by_cases hi : i = e.slot
      · subst hi
        obtain ⟨hlt, q, hq, hqb, hqs⟩ := h.filler he hp
        have hpr : p ≠ r := by
          intro heq
          rw [heq, he] at hq
          cases hq
          omega
        refine ⟨{ q with slot := e.slot }, ?_, hqb, rfl⟩
        rw [hr.entries p, if_neg hpr, if_pos hp, hq]
        rfl
      · rw [getElem?_swapRemove hslot] at hp
        split at hp
        next hin =>
          obtain ⟨q, hq, hqb, hqs⟩ := h.listed hp
          have hpr : p ≠ r := by
            intro heq
            rw [heq, he] at hq
            cases hq
            exact hi hqs.symm
          have hfill : (swapRemove (w.buckets e.bucket) e.slot)[e.slot]? ≠ some p := by
            intro hfill
            obtain ⟨-, q', hq', -, hqs'⟩ := h.filler he hfill
            rw [hq] at hq'
            cases hq'
            omega
          exact ⟨q, by rw [hr.entries p, if_neg hpr, if_neg hfill, hq], hqb, hqs⟩
        next => cases hp
    · rw [Function.update_of_ne hb] at hp
      obtain ⟨q, hq, hqb, hqs⟩ := h.listed hp
      have hpr : p ≠ r := by
        intro heq
        rw [heq, he] at hq
        cases hq
        exact hb hqb.symm
      have hfill : (swapRemove (w.buckets e.bucket) e.slot)[e.slot]? ≠ some p := by
        intro hfill
        obtain ⟨-, q', hq', hqb', -⟩ := h.filler he hfill
        rw [hq] at hq'
        cases hq'
        exact hb (hqb.symm.trans hqb')
      exact ⟨q, by rw [hr.entries p, if_neg hpr, if_neg hfill, hq], hqb, hqs⟩
  · intro t p
    rw [hr.deadlines, Finset.mem_erase, h.deadlines, hr.entries p]
    by_cases hpr : p = r
    · subst hpr
      simp [he, eq_comm]
    · have hne : toLex (t, p) ≠ toLex (e.expiresAt, r) := by
        intro heq
        exact hpr (Prod.mk.inj (toLex.injective heq)).2
      rw [if_neg hpr, and_iff_right hne]
      split
      next => simp
      next => rfl

/-! ## Expiry -/

theorem pending_eq_some {r : ℕ} {x : ExpiredTimer T} {b : ℕ} :
    w.pending r = some (x, b) ↔ ∃ e, w.entries r = some e ∧ e.expired r = x ∧ e.bucket = b := by
  simp [pending]

/-- The timers of some buckets that are due are gone, and they are the ones returned. -/
structure Expires (buckets : List ℕ) (now : ℕ) (w : TimerWheel T) (xs : List (ExpiredTimer T))
    (w' : TimerWheel T) : Prop where
  consistent : Consistent w'
  frame : Frame w w'
  pending : ∀ r, w'.pending r =
    (w.pending r).filter fun p => ¬ (p.2 ∈ buckets ∧ p.1.expiresAt ≤ now)
  fired : ∀ x, x ∈ xs ↔
    ∃ b ∈ buckets, w.pending x.reference = some (x, b) ∧ x.expiresAt ≤ now
  nodup : xs.Nodup

namespace Expires

variable {bs cs : List ℕ} {now : ℕ} {xs ys : List (ExpiredTimer T)} {w₁ w₂ : TimerWheel T}

theorem of_none (h : Consistent w) (hnone : ∀ r x b, w.pending r = some (x, b) → b ∈ bs →
    now < x.expiresAt) : Expires bs now w [] w := by
  refine ⟨h, Frame.refl w, ?_, ?_, List.nodup_nil⟩
  · intro r
    rcases hr : w.pending r with _ | ⟨x, b⟩
    · rfl
    · rw [Option.filter_some, if_pos]
      simp only [decide_eq_true_eq, not_and, not_le]
      exact hnone r x b hr
  · intro x
    refine ⟨nofun, ?_⟩
    rintro ⟨b, hb, hx, hdue⟩
    have := hnone _ _ _ hx hb
    omega

theorem append (h : Expires bs now w xs w₁) (h' : Expires cs now w₁ ys w₂) :
    Expires (bs ++ cs) now w (xs ++ ys) w₂ := by
  have hmid : ∀ r x b, w₁.pending r = some (x, b) ↔
      w.pending r = some (x, b) ∧ ¬ (b ∈ bs ∧ x.expiresAt ≤ now) := by
    intro r x b
    rw [h.pending r, Option.filter_eq_some_iff, decide_eq_true_eq]
  refine ⟨h'.consistent, h.frame.trans h'.frame, ?_, ?_, ?_⟩
  · intro r
    rw [h'.pending r, h.pending r, Option.filter_filter]
    congr 1
    funext p
    by_cases hb : p.2 ∈ bs <;> by_cases hc : p.2 ∈ cs <;> simp [hb, hc]
  · intro x
    rw [List.mem_append, h.fired, h'.fired]
    constructor
    · rintro (⟨b, hb, hx, hdue⟩ | ⟨b, hb, hx, hdue⟩)
      · exact ⟨b, List.mem_append_left _ hb, hx, hdue⟩
      · exact ⟨b, List.mem_append_right _ hb, ((hmid _ _ _).mp hx).1, hdue⟩
    · rintro ⟨b, hb, hx, hdue⟩
      by_cases hfirst : b ∈ bs
      · exact .inl ⟨b, hfirst, hx, hdue⟩
      · refine .inr ⟨b, (List.mem_append.mp hb).resolve_left hfirst, ?_, hdue⟩
        exact (hmid _ _ _).mpr ⟨hx, fun hboth => hfirst hboth.1⟩
  · refine List.nodup_append'.mpr ⟨h.nodup, h'.nodup, ?_⟩
    intro x hxs hys
    obtain ⟨b, hb, hx, hdue⟩ := (h.fired x).mp hxs
    obtain ⟨c, -, hy, -⟩ := (h'.fired x).mp hys
    obtain ⟨hy, hnot⟩ := (hmid _ _ _).mp hy
    rw [hx] at hy
    cases hy
    exact hnot ⟨hb, hdue⟩

/-- One timer that is due is removed first. -/
theorem cons {b : ℕ} {x : ExpiredTimer T} (hx : w.pending x.reference = some (x, b))
    (hdue : x.expiresAt ≤ now) (hframe : Frame w w₁)
    (hpending : ∀ p, w₁.pending p = if p = x.reference then none else w.pending p)
    (h : Expires [b] now w₁ xs w₂) : Expires [b] now w (x :: xs) w₂ := by
  refine ⟨h.consistent, hframe.trans h.frame, ?_, ?_, ?_⟩
  · intro r
    rw [h.pending r, hpending r]
    split
    next hr =>
      subst hr
      rw [hx, Option.filter_some, if_neg]
      · rfl
      · simp [hdue]
    next => rfl
  · intro y
    rw [List.mem_cons, h.fired, hpending]
    constructor
    · rintro (rfl | ⟨c, hc, hy, hdue⟩)
      · exact ⟨b, List.mem_singleton.mpr rfl, hx, hdue⟩
      · split at hy
        next => cases hy
        next => exact ⟨c, hc, hy, hdue⟩
    · rintro ⟨c, hc, hy, hdue⟩
      by_cases hr : y.reference = x.reference
      · left
        rw [hr, hx] at hy
        exact (Prod.mk.inj (Option.some.inj hy)).1.symm
      · right
        exact ⟨c, hc, by rw [if_neg hr, hy], hdue⟩
  · refine List.nodup_cons.mpr ⟨?_, h.nodup⟩
    intro hin
    obtain ⟨c, -, hy, -⟩ := (h.fired x).mp hin
    rw [hpending, if_pos rfl] at hy
    cases hy

end Expires

/-- The loop returns what is due in its bucket; with each turn the slots that are left get
fewer, by a removal or by going on to the next. -/
theorem Consistent.expireLoop {bucket now : ℕ} (fuel : ℕ) : ∀ {w : TimerWheel T} {slot : ℕ}
    {expired : List (ExpiredTimer T)}, Consistent w → (w.buckets bucket).length ≤ slot + fuel →
    (∀ i r e, i < slot → (w.buckets bucket)[i]? = some r → w.entries r = some e →
      now < e.expiresAt) →
    ∃ xs w', expireLoop bucket now fuel w slot expired = (expired ++ xs, w') ∧
      Expires [bucket] now w xs w' := by
  have hend : ∀ {w : TimerWheel T} {slot : ℕ}, Consistent w → (w.buckets bucket).length ≤ slot →
      (∀ i r e, i < slot → (w.buckets bucket)[i]? = some r → w.entries r = some e →
        now < e.expiresAt) → Expires [bucket] now w [] w := by
    intro w slot h hlength hpassed
    refine Expires.of_none h ?_
    intro r x b hr hb
    rw [List.mem_singleton] at hb
    obtain ⟨e, he, rfl, rfl⟩ := pending_eq_some.mp hr
    obtain ⟨-, hat⟩ := h.positioned he
    rw [hb] at hat
    obtain ⟨hin, -⟩ := List.getElem?_eq_some_iff.mp hat
    exact hpassed e.slot r e (by omega) hat he
  induction fuel with
  | zero =>
    intro w slot expired h hlength hpassed
    exact ⟨[], w, by simp [TimerWheel.expireLoop], hend h hlength hpassed⟩
  | succ fuel ih =>
    intro w slot expired h hlength hpassed
    rw [TimerWheel.expireLoop]
    split
    next hnone =>
      rw [List.getElem?_eq_none_iff] at hnone
      exact ⟨[], w, by simp, hend h hnone hpassed⟩
    next r hat =>
      obtain ⟨e, he, hbucket, hslot⟩ := h.listed hat
      obtain ⟨hin, -⟩ := List.getElem?_eq_some_iff.mp hat
      rw [he]
      dsimp only
      split
      next hdue =>
        obtain ⟨w₁, hremove, hremoves⟩ := h.removes he
        rw [hremove]
        have hleft : w₁.buckets bucket = swapRemove (w.buckets bucket) slot := by
          rw [hremoves.buckets, ← hbucket, ← hslot, Function.update_self]
        obtain ⟨xs, w', hloop, hexpires⟩ := @ih w₁ slot (expired ++ [e.expired r])
          (h.of_removes he hremoves) (by
            rw [hleft, length_swapRemove hin]
            omega) (by
            intro i p q hi hp hq
            rw [hleft, getElem?_swapRemove hin, if_pos (by omega), if_neg (by omega)] at hp
            obtain ⟨q', hq', -⟩ := h.listed hp
            have hsame : q.expiresAt = q'.expiresAt := by
              have hview := hremoves.pending p
              rw [pending, hq] at hview
              split at hview
              next => cases hview
              next =>
                rw [pending, hq'] at hview
                exact congrArg (fun v => v.1.expiresAt) (Option.some.inj hview)
            rw [hsame]
            exact hpassed i p q' hi hp hq')
        refine ⟨e.expired r :: xs, w', by simp [hloop], ?_⟩
        apply hexpires.cons _ hdue hremoves.frame hremoves.pending
        exact pending_eq_some.mpr ⟨e, he, rfl, hbucket⟩
      next hlate =>
        refine ih h (by omega) ?_
        intro i p q hi hp hq
        rcases Nat.lt_succ_iff_lt_or_eq.mp hi with hi | rfl
        · exact hpassed i p q hi hp hq
        · rw [hat] at hp
          cases hp
          rw [he] at hq
          cases hq
          omega

theorem Consistent.expireBucket (h : Consistent w) (bucket now : ℕ)
    (expired : List (ExpiredTimer T)) :
    ∃ xs w', w.expireBucket bucket now expired = (expired ++ xs, w') ∧
      Expires [bucket] now w xs w' :=
  h.expireLoop _ (by omega) (fun i _ _ hi => by omega)

/-- The walk over a list of buckets. -/
theorem Consistent.walk (now : ℕ) (buckets : ℕ → ℕ) (steps : List ℕ) : ∀ {w : TimerWheel T}
    (expired : List (ExpiredTimer T)), Consistent w →
    ∃ xs w', steps.foldl (fun result step => result.2.expireBucket (buckets step) now result.1)
        (expired, w) = (expired ++ xs, w') ∧ Expires (steps.map buckets) now w xs w' := by
  induction steps with
  | nil =>
    intro w expired h
    exact ⟨[], w, by simp, Expires.of_none h nofun⟩
  | cons step rest ih =>
    intro w expired h
    obtain ⟨xs, w₁, hbucket, hxs⟩ := h.expireBucket (buckets step) now expired
    obtain ⟨ys, w₂, hrest, hys⟩ := ih (expired ++ xs) hxs.consistent
    refine ⟨xs ++ ys, w₂, ?_, hxs.append hys⟩
    rw [List.foldl_cons, hbucket, hrest, List.append_assoc]

/-! ## Adding one timer -/

/-- A wheel with one more timer, at the end of its bucket. -/
structure Adds (w : TimerWheel T) (r : ℕ) (e : TimerEntry T) (w' : TimerWheel T) : Prop where
  bucketCount : w'.bucketCount = w.bucketCount
  buckets : w'.buckets = Function.update w.buckets e.bucket (w.buckets e.bucket ++ [r])
  deadlines : w'.deadlines = insert (toLex (e.expiresAt, r)) w.deadlines
  entries : w'.entries = Function.update w.entries r (some e)
  bucket : e.bucket < w.bucketCount
  slot : e.slot = (w.buckets e.bucket).length

theorem Adds.pending {w' : TimerWheel T} {r : ℕ} {e : TimerEntry T} (h : Adds w r e w') (p : ℕ) :
    w'.pending p = if p = r then some (e.expired r, e.bucket) else w.pending p := by
  rw [TimerWheel.pending, h.entries, Function.update_apply]
  split
  next hp => rw [hp]; rfl
  next => rfl

theorem Consistent.of_adds (h : Consistent w) {w' : TimerWheel T} {r : ℕ} {e : TimerEntry T}
    (hnew : w.entries r = none) (ha : Adds w r e w') : Consistent w' := by
  have hold : ∀ {p : ℕ} {q : TimerEntry T}, w.entries p = some q → p ≠ r := by
    intro p q hq hp
    rw [hp, hnew] at hq
    cases hq
  refine ⟨ha.bucketCount ▸ h.nonempty, ?_, ?_, ?_⟩
  · intro p q hq
    rw [ha.entries, Function.update_apply] at hq
    rw [ha.bucketCount, ha.buckets]
    split at hq
    next hp =>
      cases hq
      rw [Function.update_self, hp]
      exact ⟨ha.bucket, by simp [ha.slot]⟩
    next =>
      obtain ⟨hb, hs⟩ := h.positioned hq
      refine ⟨hb, ?_⟩
      obtain ⟨hin, -⟩ := List.getElem?_eq_some_iff.mp hs
      by_cases hsame : q.bucket = e.bucket
      · rw [hsame] at hs hin ⊢
        rw [Function.update_self, List.getElem?_append_left hin, hs]
      · rw [Function.update_of_ne hsame, hs]
  · intro b i p hp
    rw [ha.buckets] at hp
    rw [ha.entries]
    have hlisted : (w.buckets b)[i]? = some p →
        ∃ q, Function.update w.entries r (some e) p = some q ∧ q.bucket = b ∧ q.slot = i := by
      intro hp
      obtain ⟨q, hq, hb, hs⟩ := h.listed hp
      exact ⟨q, by rw [Function.update_of_ne (hold hq), hq], hb, hs⟩
    by_cases hb : b = e.bucket
    · rw [hb, Function.update_self] at hp
      by_cases hi : i < (w.buckets e.bucket).length
      · rw [List.getElem?_append_left hi, ← hb] at hp
        exact hlisted hp
      · rw [List.getElem?_append_right (not_lt.mp hi), List.getElem?_singleton] at hp
        split at hp
        next hlast =>
          cases hp
          refine ⟨e, Function.update_self .., hb.symm, ?_⟩
          rw [ha.slot]
          omega
        next => cases hp
    · rw [Function.update_of_ne hb] at hp
      exact hlisted hp
  · intro t p
    rw [ha.deadlines, Finset.mem_insert, h.deadlines, ha.entries, Function.update_apply]
    by_cases hp : p = r
    · subst hp
      have hsame : toLex (t, p) = toLex (e.expiresAt, p) ↔ e.expiresAt = t := by
        rw [toLex.injective.eq_iff, Prod.mk.injEq, and_iff_left rfl, eq_comm]
      simp [hsame, hnew]
    · have hne : toLex (t, p) ≠ toLex (e.expiresAt, r) := by
        intro heq
        exact hp (Prod.mk.inj (toLex.injective heq)).2
      simp [hp, hne]

/-! ## The representation -/

/-- The three structures describe the same timers, each in the bucket of its deadline, and the
earliest deadline is theirs. -/
structure Represents (w : TimerWheel T) : Prop where
  consistent : Consistent w
  placed : ∀ {r e}, w.entries r = some e → e.bucket = w.bucketFor e.expiresAt
  earliest_none : w.earliestDeadline = none ↔ ∀ r, w.entries r = none
  earliest_some : ∀ t, w.earliestDeadline = some t →
    (∃ r e, w.entries r = some e ∧ e.expiresAt = t) ∧
      ∀ r e, w.entries r = some e → t ≤ e.expiresAt

theorem Consistent.earliest_none (h : Consistent w) :
    w.earliestDeadline = none ↔ ∀ r, w.entries r = none := by
  have hempty : w.earliestDeadline = none ↔ w.deadlines = ∅ := by
    rw [earliestDeadline, ← Finset.min_eq_top]
    exact Option.map_eq_none_iff
  rw [hempty, Finset.eq_empty_iff_forall_notMem]
  constructor
  · intro hnone r
    rcases hr : w.entries r with _ | e
    · rfl
    · exact (hnone _ ((h.deadlines e.expiresAt r).mpr ⟨e, hr, rfl⟩)).elim
  · intro hnone d hd
    obtain ⟨e, he, -⟩ := (h.deadlines (ofLex d).1 (ofLex d).2).mp hd
    rw [hnone] at he
    cases he

theorem Consistent.earliest_some (h : Consistent w) {t : ℕ} (ht : w.earliestDeadline = some t) :
    (∃ r e, w.entries r = some e ∧ e.expiresAt = t) ∧
      ∀ r e, w.entries r = some e → t ≤ e.expiresAt := by
  obtain ⟨d, hd, rfl⟩ := Option.map_eq_some_iff.mp ht
  have hmin : w.deadlines.min = (d : WithTop Deadline) := hd
  constructor
  · exact ⟨_, (h.deadlines (ofLex d).1 (ofLex d).2).mp (Finset.mem_of_min hmin)⟩
  · intro r e he
    have hin : toLex (e.expiresAt, r) ∈ w.deadlines := (h.deadlines _ _).mpr ⟨e, he, rfl⟩
    have hle : d ≤ toLex (e.expiresAt, r) := Finset.min_le_of_eq hin hmin
    exact Prod.Lex.monotone_fst _ _ hle

theorem Consistent.represents (h : Consistent w) : Represents w ↔
    ∀ {r e}, w.entries r = some e → e.bucket = w.bucketFor e.expiresAt :=
  ⟨fun hw => hw.placed, fun hplaced => ⟨h, hplaced, h.earliest_none, fun _ => h.earliest_some⟩⟩

/-! ## Steps -/

/-- A schedule from before the start of the wheel moves the start back. -/
def rebased (w : TimerWheel T) (now : ℕ) : TimerWheel T :=
  if now < w.start then { w with start := now, currentTick := 0 } else w

@[simp] theorem rebased_entries (w : TimerWheel T) (now : ℕ) :
    (w.rebased now).entries = w.entries := by
  unfold rebased
  split <;> rfl

@[simp] theorem rebased_nextRef (w : TimerWheel T) (now : ℕ) :
    (w.rebased now).nextRef = w.nextRef := by
  unfold rebased
  split <;> rfl

theorem Consistent.rebased (h : Consistent w) (now : ℕ) : Consistent (w.rebased now) := by
  unfold TimerWheel.rebased
  split <;> exact ⟨h.nonempty, h.positioned, h.listed, h.deadlines⟩

theorem Consistent.setCurrentTick (h : Consistent w) (tick : ℕ) :
    Consistent { w with currentTick := tick } :=
  ⟨h.nonempty, h.positioned, h.listed, h.deadlines⟩

/-- What a schedule with a new reference adds. -/
theorem Consistent.scheduleReservedAt (h : Consistent w) (limit : ℕ) {reference : ℕ}
    (hnew : w.entries reference = none) (now delay targetPid : ℕ) (message : T)
    (kind : TimerKind) :
    ∃ e w', w.scheduleReservedAt limit reference now delay targetPid message kind =
        (some reference, w') ∧ Adds (w.rebased now) reference e w' ∧
      e.expired reference =
        ⟨reference, targetPid, message, expiry limit now delay, kind⟩ ∧
      e.bucket = (w.rebased now).bucketFor e.expiresAt ∧ w'.start = (w.rebased now).start ∧
      w'.currentTick = (w.rebased now).currentTick ∧ w'.nextRef = w.nextRef := by
  have hmod : (w.rebased now).bucketFor (expiry limit now delay) < (w.rebased now).bucketCount :=
    Nat.mod_lt _ (h.rebased now).nonempty
  let bucket := (w.rebased now).bucketFor (expiry limit now delay)
  let e : TimerEntry T := ⟨targetPid, message, expiry limit now delay, kind, bucket,
    ((w.rebased now).buckets bucket).length⟩
  have hresult : w.scheduleReservedAt limit reference now delay targetPid message kind =
      (some reference, { w.rebased now with
        buckets := Function.update (w.rebased now).buckets bucket
          ((w.rebased now).buckets bucket ++ [reference])
        deadlines := insert (toLex (e.expiresAt, reference)) (w.rebased now).deadlines
        entries := Function.update (w.rebased now).entries reference (some e) }) := by
    rw [TimerWheel.scheduleReservedAt, hnew]
    rfl
  exact ⟨e, _, hresult, ⟨rfl, rfl, rfl, rfl, hmod, rfl⟩, rfl, rfl, rfl, rfl, rebased_nextRef w now⟩

theorem scheduleReservedAt_of_some {limit reference : ℕ} {e : TimerEntry T}
    (hold : w.entries reference = some e) (now delay targetPid : ℕ) (message : T)
    (kind : TimerKind) :
    w.scheduleReservedAt limit reference now delay targetPid message kind = (none, w) := by
  rw [scheduleReservedAt, hold]

theorem Consistent.tickAt (h : Consistent w) {now : ℕ} (hnow : w.currentTick ≤ w.tickFor now) :
    ∃ xs w', w.tickAt now = (xs, { w' with currentTick := w.tickFor now }) ∧
      Expires ((List.range (min (w.tickFor now - w.currentTick + 1) w.bucketCount)).map
        fun step => (w.currentTick + step) % w.bucketCount) now w xs w' := by
  obtain ⟨xs, w', hwalk, hexpires⟩ := Consistent.walk now
    (fun step => (w.currentTick + step) % w.bucketCount)
    (List.range (min (w.tickFor now - w.currentTick + 1) w.bucketCount)) [] h
  refine ⟨xs, w', ?_, hexpires⟩
  rw [TimerWheel.tickAt, if_neg (not_lt.mpr hnow)]
  simp only [hwalk, List.nil_append]

theorem tickAt_of_lt {now : ℕ} (hnow : w.tickFor now < w.currentTick) : w.tickAt now = ([], w) := by
  rw [tickAt, if_pos hnow]

theorem Consistent.cancelAt (h : Consistent w) (reference now : ℕ) :
    Consistent (w.cancelAt reference now).2 ∧ Frame w (w.cancelAt reference now).2 ∧
      ∀ p, (w.cancelAt reference now).2.pending p =
        if p = reference then none else w.pending p := by
  rcases he : w.entries reference with _ | e
  · have hsame : (w.cancelAt reference now).2 = w := by simp [TimerWheel.cancelAt, removeEntry, he]
    rw [hsame]
    refine ⟨h, Frame.refl w, ?_⟩
    intro p
    split
    next hp => simp [hp, pending, he]
    next => rfl
  · obtain ⟨w', hremove, hremoves⟩ := h.removes he
    have hgone : (w.cancelAt reference now).2 = w' := by simp [TimerWheel.cancelAt, hremove]
    rw [hgone]
    exact ⟨h.of_removes he hremoves, hremoves.frame, hremoves.pending⟩

theorem Consistent.allocateRef (h : Consistent w) : Consistent w.allocateRef.2 :=
  ⟨h.nonempty, h.positioned, h.listed, h.deadlines⟩

/-- Moving the start back to `now` leaves the bucket of every pending deadline as it is. -/
def KeepsBuckets (w : TimerWheel T) (reference now : ℕ) : Prop :=
  w.entries reference = none → now < w.start → ∀ r e, w.entries r = some e →
    ({ w with start := now } : TimerWheel T).bucketFor e.expiresAt = w.bucketFor e.expiresAt

/-- A schedule from before the start of the wheel moves no pending deadline to another bucket. -/
def CallKeepsBuckets (w : TimerWheel T) : Call T → Prop
  | .scheduleReservedAt reference now _ _ _ _ => w.KeepsBuckets reference now
  | .scheduleAt now _ _ _ _ => w.KeepsBuckets w.nextRef now
  | _ => True

theorem placed_iff : (∀ {r e}, w.entries r = some e → e.bucket = w.bucketFor e.expiresAt) ↔
    ∀ r x b, w.pending r = some (x, b) → b = w.bucketFor x.expiresAt := by
  constructor
  · intro h r x b hr
    obtain ⟨e, he, rfl, rfl⟩ := pending_eq_some.mp hr
    exact h he
  · intro h r e he
    exact h r _ _ (pending_eq_some.mpr ⟨e, he, rfl, rfl⟩)

theorem bucketFor_congr {w' : TimerWheel T} (hcount : w'.bucketCount = w.bucketCount)
    (hstart : w'.start = w.start) (t : ℕ) : w'.bucketFor t = w.bucketFor t := by
  rw [bucketFor, bucketFor, tickFor, tickFor, hcount, hstart]

theorem Represents.schedule_iff (h : Represents w) (limit r now delay targetPid : ℕ) (message : T)
    (kind : TimerKind) :
    Represents (w.scheduleReservedAt limit r now delay targetPid message kind).2 ↔
      w.KeepsBuckets r now := by
  rcases hr : w.entries r with _ | e
  · obtain ⟨e, w', hresult, hadds, -, hbucket, hstart, -⟩ :=
      h.consistent.scheduleReservedAt limit hr now delay targetPid message kind
    have hsame := bucketFor_congr hadds.bucketCount hstart
    have hconsistent : Consistent w' :=
      (h.consistent.rebased now).of_adds (by simpa using hr) hadds
    have hold : ∀ {p : ℕ} {q : TimerEntry T}, w.entries p = some q → p ≠ r := by
      intro p q hq hp
      rw [hp, hr] at hq
      cases hq
    rw [hresult, hconsistent.represents]
    have hkeeps : w.KeepsBuckets r now ↔ ∀ p q, w.entries p = some q →
        q.bucket = (w.rebased now).bucketFor q.expiresAt := by
      unfold KeepsBuckets rebased
      by_cases hnow : now < w.start
      · simp only [hr, hnow, if_true, forall_const]
        refine forall_congr' fun p => forall_congr' fun q => forall_congr' fun hq => ?_
        rw [h.placed hq]
        exact eq_comm
      · simp only [hnow, if_false, false_implies, implies_true, true_iff]
        exact fun p q hq => h.placed hq
    rw [hkeeps]
    constructor
    · intro hplaced p q hq
      rw [← hsame]
      apply hplaced
      rw [hadds.entries, Function.update_of_ne (hold hq), rebased_entries, hq]
    · intro hplaced p q hq
      rw [hsame]
      rw [hadds.entries, Function.update_apply, rebased_entries] at hq
      split at hq
      next =>
        cases hq
        exact hbucket
      next => exact hplaced p q hq
  · rw [scheduleReservedAt_of_some hr]
    simp [KeepsBuckets, hr, h]

theorem Represents.step_iff (h : Represents w) (limit : ℕ) (call : Call T) :
    Represents (w.step limit call) ↔ w.CallKeepsBuckets call := by
  have hplaced := placed_iff.mp h.placed
  cases call with
  | reserveReference =>
    exact iff_of_true (h.consistent.allocateRef.represents.mpr h.placed) trivial
  | scheduleReservedAt r now delay targetPid message kind =>
    exact h.schedule_iff limit r now delay targetPid message kind
  | scheduleAt now delay targetPid message kind =>
    have hallocated : Represents w.allocateRef.2 :=
      h.consistent.allocateRef.represents.mpr h.placed
    exact hallocated.schedule_iff limit w.nextRef now delay targetPid message kind
  | cancelAt r now =>
    obtain ⟨hconsistent, hframe, hpending⟩ := h.consistent.cancelAt r now
    refine iff_of_true (hconsistent.represents.mpr (placed_iff.mpr ?_)) trivial
    intro p x b hp
    rw [hpending] at hp
    rw [bucketFor_congr hframe.bucketCount hframe.start]
    split at hp
    next => cases hp
    next => exact hplaced p x b hp
  | tickAt now =>
    refine iff_of_true ?_ trivial
    by_cases hnow : w.tickFor now < w.currentTick
    · simpa [TimerWheel.step, tickAt_of_lt hnow] using h
    · obtain ⟨xs, w', hresult, hexpires⟩ := h.consistent.tickAt (not_lt.mp hnow)
      simp only [TimerWheel.step, hresult]
      have hconsistent := hexpires.consistent.setCurrentTick (w.tickFor now)
      refine hconsistent.represents.mpr (placed_iff.mpr ?_)
      intro p x b hp
      have hold : w'.pending p = some (x, b) := hp
      rw [hexpires.pending, Option.filter_eq_some_iff] at hold
      have hsame := bucketFor_congr hexpires.frame.bucketCount hexpires.frame.start x.expiresAt
      exact (hplaced p x b hold.1).trans hsame.symm

theorem represents_withBucketCount (bucketCount start : ℕ) :
    Represents (withBucketCount bucketCount start : TimerWheel T) := by
  have hconsistent : Consistent (withBucketCount bucketCount start : TimerWheel T) := by
    refine ⟨?_, nofun, ?_, ?_⟩
    · simp [withBucketCount]
    · intro b i r hr
      simp [withBucketCount] at hr
    · intro t r
      simp [withBucketCount]
  exact hconsistent.represents.mpr nofun

end TimerWheel

/-- The three structures agree in every state of a run, each timer in the bucket of its deadline
and the earliest deadline theirs, exactly when no schedule from before the start of the wheel
moves a pending deadline to another bucket. -/
theorem run_represents_iff (T : Type) (limit bucketCount start : ℕ) (calls : List (Call T)) :
    (∀ n, TimerWheel.Represents ((calls.take n).foldl (TimerWheel.step limit)
      (.withBucketCount bucketCount start))) ↔
    Runs.Meets (TimerWheel.step limit) TimerWheel.CallKeepsBuckets
      (.withBucketCount bucketCount start) calls :=
  Runs.forall_take_iff (fun _ call h => h.step_iff limit call)
    (TimerWheel.represents_withBucketCount bucketCount start) calls

/-- The second timer is scheduled from three milliseconds before the start of the wheel: the
first stays in bucket 5, but its deadline is now that of bucket 8. -/
theorem not_run_represents :
    ¬ ∀ n, TimerWheel.Represents
      (([.scheduleAt 10000000 5000000 1 () .deliver, .scheduleAt 7000000 1000000 1 () .deliver].take
        n).foldl (TimerWheel.step (2 ^ 63)) (.withBucketCount 1024 10000000)) := by
  intro h
  have hplaced : 5 = 8 := (h 2).placed (r := 1) (e := ⟨1, (), 15000000, .deliver, 5, 0⟩) rfl
  omega

end Beamr.Timer
