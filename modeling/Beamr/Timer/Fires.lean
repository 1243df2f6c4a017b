import Beamr.Timer.Represents
import Mathlib.Data.List.Perm.Basic

/-!
# Timers fire on time and once

What a wheel is for, as a log of timers without buckets or ticks: a schedule adds a timer unless
its reference is pending, a cancel takes it out, and a tick takes out those that are due. With
instants that never go back, a tick of the wheel returns what the log says.
-/
namespace Beamr.Timer

variable {T : Type}

/-- The pending timers, with all that were scheduled, cancelled and returned. -/
structure Log (T : Type) where
  nextRef : ℕ
  pending : List (ExpiredTimer T)
  scheduled : List (ExpiredTimer T)
  cancelled : List (ExpiredTimer T)
  returned : List (ExpiredTimer T)

namespace Log

def start : Log T := ⟨1, [], [], [], []⟩

def allocateRef (log : Log T) : Log T :=
  { log with nextRef := if log.nextRef + 1 < 2 ^ 64 then log.nextRef + 1 else 1 }

def schedule (log : Log T) (timer : ExpiredTimer T) : Log T :=
  if timer.reference ∈ log.pending.map (·.reference) then log
  else { log with
    pending := log.pending ++ [timer]
    scheduled := log.scheduled ++ [timer] }

def cancel (log : Log T) (reference : ℕ) : Log T :=
  { log with
    pending := log.pending.filter (·.reference ≠ reference)
    cancelled := log.cancelled ++ log.pending.filter (·.reference = reference) }

/-- The timers that are due. -/
def due (log : Log T) (now : ℕ) : List (ExpiredTimer T) :=
  log.pending.filter (·.expiresAt ≤ now)

def tick (log : Log T) (now : ℕ) : Log T :=
  { log with
    pending := log.pending.filter (now < ·.expiresAt)
    returned := log.returned ++ log.due now }

def step (limit : ℕ) (log : Log T) : Call T → Log T
  | .reserveReference => log.allocateRef
  | .scheduleReservedAt reference now delay targetPid message kind =>
    log.schedule ⟨reference, targetPid, message, TimerWheel.expiry limit now delay, kind⟩
  | .scheduleAt now delay targetPid message kind =>
    log.allocateRef.schedule
      ⟨log.nextRef, targetPid, message, TimerWheel.expiry limit now delay, kind⟩
  | .cancelAt reference _ => log.cancel reference
  | .tickAt now => log.tick now

end Log

/-- The instant a call is made at. -/
def Call.now : Call T → Option ℕ
  | .reserveReference => none
  | .scheduleReservedAt _ now _ _ _ _ => some now
  | .scheduleAt now _ _ _ _ => some now
  | .cancelAt _ now => some now
  | .tickAt now => some now

/-- What the ticks of a run return. -/
def TimerWheel.fired (limit : ℕ) : TimerWheel T → List (Call T) → List (ExpiredTimer T)
  | _, [] => []
  | w, .tickAt now :: rest => (w.tickAt now).1 ++ fired limit (w.tickAt now).2 rest
  | w, call :: rest => fired limit (w.step limit call) rest

/-! ## Ticks -/

theorem TimerWheel.tickFor_mono (w : TimerWheel T) {s t : ℕ} (h : s ≤ t) :
    w.tickFor s ≤ w.tickFor t :=
  Nat.div_le_div_right (Nat.sub_le_sub_right h _)

/-- A walk of at most one lap comes to the bucket of every tick on its way. -/
theorem mem_walk {current target t lap : ℕ} (hlap : 0 < lap) (hlow : current ≤ t)
    (hhigh : t ≤ target) :
    t % lap ∈ (List.range (min (target - current + 1) lap)).map
      fun step => (current + step) % lap := by
  refine List.mem_map.mpr ⟨(t - current) % lap, ?_, ?_⟩
  · rw [List.mem_range, lt_min_iff]
    have hle := Nat.mod_le (t - current) lap
    exact ⟨by omega, Nat.mod_lt _ hlap⟩
  · rw [Nat.add_mod_mod]
    congr 1
    omega

/-! ## The wheel follows the log -/

/-- The wheel holds the timers of the log, all of them at or ahead of its current tick. -/
structure Tracks (w : TimerWheel T) (log : Log T) (last : ℕ) : Prop where
  represents : w.Represents
  nextRef : w.nextRef = log.nextRef
  pending : ∀ x, x ∈ log.pending ↔ ∃ b, w.pending x.reference = some (x, b)
  nodup : (log.pending.map (·.reference)).Nodup
  started : log.pending ≠ [] → w.start ≤ last
  current : w.currentTick ≤ w.tickFor last
  ahead : ∀ x ∈ log.pending, w.currentTick ≤ w.tickFor x.expiresAt

namespace Tracks

open TimerWheel

variable {w : TimerWheel T} {log : Log T} {last now : ℕ}

theorem pending_ref (h : Tracks w log last) {r : ℕ} :
    r ∈ log.pending.map (·.reference) ↔ w.entries r ≠ none := by
  rw [List.mem_map]
  constructor
  · rintro ⟨x, hx, rfl⟩ hnone
    obtain ⟨b, hb⟩ := (h.pending x).mp hx
    simp [TimerWheel.pending, hnone] at hb
  · intro hsome
    obtain ⟨e, he⟩ := Option.ne_none_iff_exists'.mp hsome
    exact ⟨e.expired r, (h.pending _).mpr ⟨e.bucket, pending_eq_some.mpr ⟨e, he, rfl, rfl⟩⟩, rfl⟩

/-- Time goes on. -/
theorem later (h : Tracks w log last) (hnow : last ≤ now) : Tracks w log now :=
  ⟨h.represents, h.nextRef, h.pending, h.nodup, fun hne => (h.started hne).trans hnow,
    h.current.trans (w.tickFor_mono hnow), h.ahead⟩

theorem allocateRef (h : Tracks w log last) : Tracks w.allocateRef.2 log.allocateRef last := by
  refine ⟨?_, ?_, h.pending, h.nodup, h.started, h.current, h.ahead⟩
  · exact h.represents.consistent.allocateRef.represents.mpr h.represents.placed
  · simp [TimerWheel.allocateRef, Log.allocateRef, h.nextRef]

theorem le_expiry (limit now delay : ℕ) : now ≤ expiry limit now delay := by
  unfold expiry
  split <;> omega

theorem scheduleReservedAt (h : Tracks w log last) (limit : ℕ) (hnow : last ≤ now)
    (r delay targetPid : ℕ) (message : T) (kind : TimerKind) :
    Tracks (w.scheduleReservedAt limit r now delay targetPid message kind).2
      (log.schedule ⟨r, targetPid, message, expiry limit now delay, kind⟩) now := by
  rcases hr : w.entries r with _ | e
  · obtain ⟨e, w', hresult, hadds, hexpired, hbucket, hstart, hcurrent, hnextRef⟩ :=
      h.represents.consistent.scheduleReservedAt limit hr now delay targetPid message
        kind
    have hfresh : r ∉ log.pending.map (·.reference) := by
      rw [h.pending_ref, not_not]
      exact hr
    have hexpires : e.expiresAt = expiry limit now delay :=
      congrArg ExpiredTimer.expiresAt hexpired
    -- The start moves back only while nothing is pending.
    have hsame : log.pending ≠ [] → w.rebased now = w := by
      intro hne
      have := h.started hne
      exact if_neg (by omega)
    have hkeeps : w.KeepsBuckets r now := by
      intro _ hearly p q hq
      have hne : log.pending ≠ [] := by
        intro hnil
        have hp := h.pending_ref.mpr (hq ▸ Option.some_ne_none q)
        rw [hnil] at hp
        cases hp
      have := h.started hne
      omega
    have hbefore : (w.rebased now).start ≤ now ∧
        (w.rebased now).currentTick ≤ (w.rebased now).tickFor now := by
      unfold TimerWheel.rebased
      split
      next => exact ⟨le_rfl, Nat.zero_le _⟩
      next hlate => exact ⟨not_lt.mp hlate, h.current.trans (w.tickFor_mono hnow)⟩
    have htick : ∀ t, w'.tickFor t = (w.rebased now).tickFor t := by
      intro t
      rw [tickFor, tickFor, hstart]
    have hrepresents := (h.represents.schedule_iff limit r now delay targetPid message kind).mpr
      hkeeps
    rw [hresult] at hrepresents ⊢
    rw [Log.schedule, if_neg hfresh]
    refine ⟨hrepresents, hnextRef.trans h.nextRef, ?_, ?_, ?_, ?_, ?_⟩
    · intro x
      rw [List.mem_append, List.mem_singleton, h.pending, hadds.pending, ← hexpired]
      constructor
      · rintro (⟨b, hb⟩ | rfl)
        · have hne : x.reference ≠ r := by
            intro heq
            simp [TimerWheel.pending, heq, hr] at hb
          exact ⟨b, by simpa [hne, TimerWheel.pending] using hb⟩
        · exact ⟨e.bucket, if_pos rfl⟩
      · rintro ⟨b, hb⟩
        split at hb
        next => exact .inr (Prod.mk.inj (Option.some.inj hb)).1.symm
        next => exact .inl ⟨b, by simpa [TimerWheel.pending] using hb⟩
    · rw [List.map_append]
      refine List.nodup_append'.mpr ⟨h.nodup, List.nodup_singleton _, ?_⟩
      simpa using hfresh
    · intro _
      rw [hstart]
      exact hbefore.1
    · rw [hcurrent, htick]
      exact hbefore.2
    · intro x hx
      rw [hcurrent, htick]
      rcases List.mem_append.mp hx with hold | hnew
      · rw [hsame (List.ne_nil_of_mem hold)]
        exact h.ahead x hold
      · rw [List.mem_singleton.mp hnew]
        exact hbefore.2.trans (TimerWheel.tickFor_mono _ (le_expiry limit now delay))
  · rw [scheduleReservedAt_of_some hr, Log.schedule, if_pos]
    · exact h.later hnow
    · rw [h.pending_ref, hr]
      exact Option.some_ne_none e

theorem cancelAt (h : Tracks w log last) (hnow : last ≤ now) (r : ℕ) :
    Tracks (w.cancelAt r now).2 (log.cancel r) now := by
  obtain ⟨-, hframe, hpending⟩ := h.represents.consistent.cancelAt r now
  have htick : ∀ t, (w.cancelAt r now).2.tickFor t = w.tickFor t := by
    intro t
    rw [tickFor, tickFor, hframe.start]
  refine ⟨(h.represents.step_iff 0 (.cancelAt r now)).mpr trivial,
    hframe.nextRef.trans h.nextRef, ?_, ?_, ?_, ?_, ?_⟩
  · intro x
    simp only [Log.cancel, List.mem_filter, decide_eq_true_eq, h.pending, hpending]
    by_cases hx : x.reference = r
    · simp [hx]
    · simp [hx]
  · exact h.nodup.sublist ((List.filter_sublist ..).map _)
  · intro hne
    rw [hframe.start]
    refine (h.started ?_).trans hnow
    intro hnil
    simp [Log.cancel, hnil] at hne
  · rw [hframe.currentTick, htick]
    exact h.current.trans (w.tickFor_mono hnow)
  · intro x hx
    rw [hframe.currentTick, htick]
    exact h.ahead x (List.mem_of_mem_filter hx)

/-- A tick returns what is due, and nothing else. -/
theorem tickAt (h : Tracks w log last) (hnow : last ≤ now) :
    (w.tickAt now).1.Perm (log.due now) ∧ Tracks (w.tickAt now).2 (log.tick now) now := by
  have htarget : w.currentTick ≤ w.tickFor now := h.current.trans (w.tickFor_mono hnow)
  obtain ⟨xs, w', hresult, hexpires⟩ := h.represents.consistent.tickAt htarget
  have hplaced := placed_iff.mp h.represents.placed
  -- Every timer that is due stands in a bucket of the walk.
  have hwalked : ∀ x b, x ∈ log.pending → w.pending x.reference = some (x, b) →
      x.expiresAt ≤ now → b ∈ (List.range (min (w.tickFor now - w.currentTick + 1)
        w.bucketCount)).map fun step => (w.currentTick + step) % w.bucketCount := by
    intro x b hx hb hdue
    rw [hplaced _ _ _ hb]
    exact mem_walk h.represents.consistent.nonempty (h.ahead x hx) (w.tickFor_mono hdue)
  have hmem : ∀ x, x ∈ xs ↔ x ∈ log.due now := by
    intro x
    rw [hexpires.fired, Log.due, List.mem_filter, decide_eq_true_eq, h.pending]
    constructor
    · rintro ⟨b, -, hb, hdue⟩
      exact ⟨⟨b, hb⟩, hdue⟩
    · rintro ⟨⟨b, hb⟩, hdue⟩
      exact ⟨b, hwalked x b ((h.pending x).mpr ⟨b, hb⟩) hb hdue, hb, hdue⟩
  have hdistinct : log.pending.Nodup := List.Nodup.of_map _ h.nodup
  have hrepresents := (h.represents.step_iff 0 (.tickAt now)).mpr trivial
  rw [TimerWheel.step, hresult] at hrepresents
  rw [hresult]
  refine ⟨(List.perm_ext_iff_of_nodup hexpires.nodup (hdistinct.filter _)).mpr hmem,
    hrepresents, hexpires.frame.nextRef.trans h.nextRef, ?_, ?_, ?_, ?_, ?_⟩
  · intro x
    have hafter : ∀ b, w'.pending x.reference = some (x, b) ↔
        w.pending x.reference = some (x, b) ∧ now < x.expiresAt := by
      intro b
      rw [hexpires.pending, Option.filter_eq_some_iff, decide_eq_true_eq]
      refine and_congr_right fun hb => ?_
      constructor
      · intro hnot
        by_contra hdue
        exact hnot ⟨hwalked x b ((h.pending x).mpr ⟨b, hb⟩) hb (not_lt.mp hdue), not_lt.mp hdue⟩
      · intro hlate hboth
        exact absurd hboth.2 (not_le.mpr hlate)
    simp only [Log.tick, List.mem_filter, decide_eq_true_eq, h.pending]
    change _ ↔ ∃ b, w'.pending x.reference = some (x, b)
    simp only [hafter, exists_and_right]
  · exact h.nodup.sublist ((List.filter_sublist ..).map _)
  · intro hne
    change w'.start ≤ now
    rw [hexpires.frame.start]
    refine (h.started ?_).trans hnow
    intro hnil
    simp [Log.tick, hnil] at hne
  · change w.tickFor now ≤ (now - w'.start) / 1000000
    rw [hexpires.frame.start]
    rfl
  · intro x hx
    change w.tickFor now ≤ (x.expiresAt - w'.start) / 1000000
    rw [hexpires.frame.start]
    have hlate : now < x.expiresAt := by simpa using (List.mem_filter.mp hx).2
    exact w.tickFor_mono hlate.le

theorem step (h : Tracks w log last) (limit : ℕ) (call : Call T)
    (hnow : ∀ now ∈ call.now, last ≤ now) :
    Tracks (w.step limit call) (log.step limit call) (call.now.getD last) := by
  cases call with
  | reserveReference => exact h.allocateRef
  | scheduleReservedAt r now delay targetPid message kind =>
    exact h.scheduleReservedAt limit (hnow now rfl) r delay targetPid message kind
  | scheduleAt now delay targetPid message kind =>
    have hschedule := h.allocateRef.scheduleReservedAt limit (hnow now rfl) w.nextRef
      delay targetPid message kind
    rw [h.nextRef] at hschedule
    simpa [TimerWheel.step, TimerWheel.scheduleAt, Log.step, TimerWheel.allocateRef, h.nextRef,
      Call.now] using hschedule
  | cancelAt r now => exact h.cancelAt (hnow now rfl) r
  | tickAt now => exact (h.tickAt (hnow now rfl)).2

end Tracks

/-! ## Runs -/

/-- Each timer that was scheduled was returned once, cancelled, or is pending. -/
def Log.Conserved (log : Log T) : Prop :=
  log.scheduled.Perm (log.returned ++ log.cancelled ++ log.pending)

theorem Log.Conserved.step {log : Log T} (h : log.Conserved) (limit : ℕ) (call : Call T) :
    (log.step limit call).Conserved := by
  have hschedule : ∀ (log : Log T) (timer : ExpiredTimer T), log.Conserved →
      (log.schedule timer).Conserved := by
    intro log timer h
    unfold Log.schedule
    split
    next => exact h
    next =>
      have hadded := List.Perm.append_right [timer] h
      simpa [Log.Conserved] using hadded
  cases call with
  | reserveReference => exact h
  | scheduleReservedAt r now delay targetPid message kind => exact hschedule _ _ h
  | scheduleAt now delay targetPid message kind => exact hschedule log.allocateRef _ h
  | cancelAt r now =>
    have hsplit := List.filter_append_perm (fun x : ExpiredTimer T => x.reference = r) log.pending
    refine h.trans ?_
    simp only [Log.step, Log.cancel, List.append_assoc]
    refine List.Perm.append_left _ (List.Perm.append_left _ (hsplit.symm.trans ?_))
    simp [decide_not]
  | tickAt now =>
    have hsplit := List.filter_append_perm (fun x : ExpiredTimer T => x.expiresAt ≤ now)
      log.pending
    refine h.trans ?_
    simp only [Log.step, Log.tick, Log.due, List.append_assoc]
    refine List.Perm.append_left _ ?_
    refine (List.Perm.append_left _ hsplit.symm).trans ?_
    rw [← List.append_assoc, ← List.append_assoc]
    refine List.perm_append_comm.append ?_
    have hlate : ∀ x : ExpiredTimer T, (!decide (x.expiresAt ≤ now)) = decide (now < x.expiresAt) :=
      fun x => by simp [← decide_not]
    simp [hlate]

theorem Tracks.run (limit : ℕ) {now : ℕ} (calls : List (Call T)) : ∀ {w : TimerWheel T} {log : Log T}
    {last : ℕ}, Tracks w log last →
    (last :: (calls.filterMap Call.now ++ [now])).Pairwise (· ≤ ·) →
    Tracks (calls.foldl (TimerWheel.step limit) w) (calls.foldl (Log.step limit) log) now ∧
      (calls.foldl (Log.step limit) log).returned.Perm
        (log.returned ++ TimerWheel.fired limit w calls) := by
  induction calls with
  | nil =>
    intro w log last h hnow
    refine ⟨h.later ?_, by simp [TimerWheel.fired]⟩
    exact List.rel_of_pairwise_cons hnow (by simp)
  | cons call rest ih =>
    intro w log last h hnow
    have hcall : ∀ t ∈ call.now, last ≤ t := by
      intro t ht
      apply List.rel_of_pairwise_cons hnow
      simp [Option.mem_def.mp ht]
    have hrest : (call.now.getD last :: (rest.filterMap Call.now ++ [now])).Pairwise (· ≤ ·) := by
      cases hc : call.now with
      | none => simpa [hc] using hnow
      | some t =>
        rw [List.filterMap_cons_some hc] at hnow
        exact hnow.of_cons
    obtain ⟨htracks, hreturned⟩ := ih (h.step limit call hcall) hrest
    refine ⟨htracks, hreturned.trans ?_⟩
    have hother : (log.step limit call).returned = log.returned →
        TimerWheel.fired limit w (call :: rest) =
          TimerWheel.fired limit (w.step limit call) rest →
        ((log.step limit call).returned ++ TimerWheel.fired limit (w.step limit call) rest).Perm
          (log.returned ++ TimerWheel.fired limit w (call :: rest)) := by
      intro hsame hfired
      rw [hsame, hfired]
    have hkept : ∀ (log : Log T) (timer : ExpiredTimer T),
        (log.schedule timer).returned = log.returned := by
      intro log timer
      unfold Log.schedule
      split <;> rfl
    cases call with
    | reserveReference => exact hother rfl rfl
    | scheduleReservedAt r t delay targetPid message kind => exact hother (hkept _ _) rfl
    | scheduleAt t delay targetPid message kind => exact hother (hkept _ _) rfl
    | cancelAt r t => exact hother rfl rfl
    | tickAt t =>
      have hdue := (h.tickAt (hcall t rfl)).1
      simp only [Log.step, Log.tick, TimerWheel.step, TimerWheel.fired, List.append_assoc]
      exact (hdue.symm.append_right _).append_left _

/-- With instants that never go back, a tick returns exactly the timers that were scheduled,
neither cancelled nor returned before, and are due; and over the run each scheduled timer is
returned once, cancelled, or still pending. -/
theorem tickAt_perm_due (T : Type) (limit bucketCount start now : ℕ) (calls : List (Call T))
    (hnow : (calls.filterMap Call.now ++ [now]).Pairwise (· ≤ ·)) :
    let w := calls.foldl (TimerWheel.step limit) (.withBucketCount bucketCount start)
    let log := calls.foldl (Log.step limit) .start
    (w.tickAt now).1.Perm (log.due now) ∧
      log.scheduled.Perm (TimerWheel.fired limit (.withBucketCount bucketCount start) calls ++
        log.cancelled ++ log.pending) := by
  intro w log
  have hstart : Tracks (.withBucketCount bucketCount start : TimerWheel T) .start 0 :=
    ⟨TimerWheel.represents_withBucketCount bucketCount start, rfl, by
      simp [Log.start, TimerWheel.pending, TimerWheel.withBucketCount], List.nodup_nil,
      fun hne => (hne rfl).elim, Nat.zero_le _, nofun⟩
  have hfrom : (0 :: (calls.filterMap Call.now ++ [now])).Pairwise (· ≤ ·) :=
    List.pairwise_cons.mpr ⟨fun t _ => Nat.zero_le t, hnow⟩
  obtain ⟨htracks, hreturned⟩ := Tracks.run limit calls hstart hfrom
  have hconserved : log.Conserved := by
    have hrun : ∀ (calls : List (Call T)) (log : Log T), log.Conserved →
        (calls.foldl (Log.step limit) log).Conserved := by
      intro calls
      induction calls with
      | nil => exact fun _ h => h
      | cons call rest ih => exact fun log h => ih _ (h.step limit call)
    exact hrun calls .start (List.Perm.refl _)
  refine ⟨(htracks.tickAt le_rfl).1, hconserved.trans ?_⟩
  exact (hreturned.append_right _).append_right _

/-- One timer is cancelled, one is due two laps later, and one is not. -/
theorem tickAt_perm_due_laps :
    let calls : List (Call Unit) := [.scheduleAt 0 2000000 7 () .deliver,
      .scheduleAt 0 9000000 8 () .receiveTimeout, .scheduleAt 1000000 90000000 9 () .deliver,
      .cancelAt 1 1500000]
    ((calls.foldl (TimerWheel.step (2 ^ 63)) (.withBucketCount 4 0)).tickAt 9500000).1.Perm
      [⟨2, 8, (), 9000000, .receiveTimeout⟩] :=
  (tickAt_perm_due Unit (2 ^ 63) 4 0 9500000 _ (by decide)).1

end Beamr.Timer
