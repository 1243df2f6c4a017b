import Beamr.Lib.Runs
import Beamr.Scheduler.Delivery

/-!
# The exit-event stream

`publish` and the receiving calls of the one subscription, one channel operation or one access of
the overflow flag at a time. Exits are numbered in the order of their publication, which is the
channel operation.
-/
namespace Beamr.Scheduler

inductive ExitEvent
  | exited (pid : ℕ) (reason : ExitReason)
  | lagged
  deriving DecidableEq

/-- Where the subscriber is: outside of its calls, past the check of the flag and in the channel,
or past the clearing of the flag with the queue to be counted and discarded. -/
inductive RecvPhase
  | outside
  | channel
  | counting
  | discarding (left : ℕ)
  deriving DecidableEq

/-- `overflowing` are the exits whose publisher found the queue full and has not set the flag yet,
and `lagged` is how many exits had been published when the last `Lagged` was returned. -/
structure ExitStream where
  queue : List (ℕ × ExitEvent)
  overflowed : Bool
  phase : RecvPhase
  published : List ExitEvent
  overflowing : List ℕ
  returned : List (ℕ × ExitEvent)
  lagged : ℕ

inductive StreamAction
  | publish (event : ExitEvent)
  | storeOverflowed (i : ℕ)
  | recv
  | timeout
  deriving DecidableEq

def exitEventCapacity : ℕ := 1024

namespace ExitStream

def subscribe : ExitStream := ⟨[], false, .outside, [], [], [], 0⟩

variable (s : ExitStream)

/-- `try_send` of `publish`. -/
def publish (capacity : ℕ) (event : ExitEvent) : ExitStream :=
  if s.queue.length < max capacity 1 then
    { s with
      queue := s.queue ++ [(s.published.length, event)]
      published := s.published ++ [event] }
  else
    { s with
      published := s.published ++ [event]
      overflowing := s.overflowing ++ [s.published.length] }

/-- What a publisher goes on with that found the queue full. -/
def storeOverflowed (i : ℕ) : ExitStream :=
  match s.overflowing[i]? with
  | none => s
  | some _ => { s with overflowed := true, overflowing := s.overflowing.eraseIdx i }

/-- The next step of the subscriber. It waits where the channel is empty. -/
def recv : ExitStream :=
  match s.phase with
  | .outside =>
    if s.overflowed then { s with overflowed := false, phase := .counting }
    else { s with phase := .channel }
  | .channel =>
    match s.queue with
    | [] => s
    | first :: rest =>
      { s with queue := rest, returned := s.returned ++ [first], phase := .outside }
  | .counting => { s with phase := .discarding s.queue.length }
  | .discarding 0 => { s with phase := .outside, lagged := s.published.length }
  | .discarding (left + 1) => { s with queue := s.queue.tail, phase := .discarding left }

/-- `recv_timeout` gives up in the channel. -/
def timeout : ExitStream :=
  match s.phase with
  | .channel => { s with phase := .outside }
  | _ => s

def step (capacity : ℕ) (s : ExitStream) : StreamAction → ExitStream
  | .publish event => s.publish capacity event
  | .storeOverflowed i => s.storeOverflowed i
  | .recv => s.recv
  | .timeout => s.timeout

/-- Every exit was returned or a marker was returned after it. -/
def Reported : Prop :=
  ∀ n event, s.published[n]? = some event → (n, event) ∈ s.returned ∨ n < s.lagged

/-- The subscriber waits for the channel. -/
def Blocked : Prop := s.phase = .channel ∧ s.queue = []

/-- A marker is still to be returned. -/
def Announced : Prop :=
  match s.phase with
  | .outside | .channel => s.overflowed = true
  | .counting | .discarding _ => True

/-- A check that finds the flag clear and the channel empty comes after every publisher that
found the queue full has set the flag, unless a marker was returned since. -/
def ChecksInTime (s : ExitStream) : StreamAction → Prop
  | .recv => s.phase = .outside → s.overflowed = false → s.queue = [] →
      ∀ n ∈ s.overflowing, n < s.lagged
  | _ => True

/-- Every exit is somewhere, and those that did not fit are nowhere else. -/
structure Accounted : Prop where
  somewhere : ∀ n event, s.published[n]? = some event →
    (n, event) ∈ s.returned ∨ n < s.lagged ∨ (n, event) ∈ s.queue ∨ n ∈ s.overflowing ∨
      s.Announced
  overflowing : ∀ n ∈ s.overflowing, n < s.published.length
  apart : ∀ p ∈ s.returned ++ s.queue, p.1 < s.published.length ∧ p.1 ∉ s.overflowing

namespace Accounted

variable {s}

theorem subscribe : ExitStream.subscribe.Accounted where
  somewhere n event h := by simp [ExitStream.subscribe] at h
  overflowing n h := absurd h List.not_mem_nil
  apart p h := absurd h List.not_mem_nil

theorem publish (h : s.Accounted) (capacity : ℕ) (event : ExitEvent) :
    (s.publish capacity event).Accounted := by
  have hold : ∀ n e, (s.published ++ [event])[n]? = some e →
      s.published[n]? = some e ∨ n = s.published.length ∧ e = event := by
    intro n e hn
    rw [List.getElem?_append] at hn
    split at hn
    next => exact .inl hn
    next hlt =>
      obtain ⟨hzero, rfl⟩ := List.getElem?_eq_some_iff.mp hn
      rw [List.length_singleton] at hzero
      exact .inr ⟨by omega, List.getElem_singleton _⟩
  rw [ExitStream.publish]
  split
  next hroom =>
    constructor
    · intro n e hn
      rcases hold n e hn with hn | ⟨rfl, rfl⟩
      · rcases h.somewhere n e hn with h | h | h | h | h
        · exact .inl h
        · exact .inr (.inl h)
        · exact .inr (.inr (.inl (List.mem_append_left _ h)))
        · exact .inr (.inr (.inr (.inl h)))
        · exact .inr (.inr (.inr (.inr h)))
      · exact .inr (.inr (.inl (List.mem_append_right _ (List.mem_singleton_self _))))
    · intro n hn
      have := h.overflowing n hn
      rw [List.length_append]
      exact Nat.lt_add_right _ this
    · intro p hp
      rw [List.length_append]
      rw [← List.append_assoc, List.mem_append] at hp
      rcases hp with hp | hp
      · obtain ⟨hlt, hnot⟩ := h.apart p hp
        exact ⟨Nat.lt_add_right _ hlt, hnot⟩
      · rw [List.mem_singleton.mp hp]
        exact ⟨Nat.lt_succ_self _, fun hmem => Nat.lt_irrefl _ (h.overflowing _ hmem)⟩
  next hfull =>
    constructor
    · intro n e hn
      rcases hold n e hn with hn | ⟨rfl, rfl⟩
      · rcases h.somewhere n e hn with h | h | h | h | h
        · exact .inl h
        · exact .inr (.inl h)
        · exact .inr (.inr (.inl h))
        · exact .inr (.inr (.inr (.inl (List.mem_append_left _ h))))
        · exact .inr (.inr (.inr (.inr h)))
      · exact .inr (.inr (.inr (.inl (List.mem_append_right _ (List.mem_singleton_self _)))))
    · intro n hn
      rw [List.length_append]
      rcases List.mem_append.mp hn with hn | hn
      · exact Nat.lt_add_right _ (h.overflowing n hn)
      · rw [List.mem_singleton.mp hn]
        exact Nat.lt_succ_self _
    · intro p hp
      obtain ⟨hlt, hnot⟩ := h.apart p hp
      rw [List.length_append]
      refine ⟨Nat.lt_add_right _ hlt, fun hmem => ?_⟩
      rcases List.mem_append.mp hmem with hmem | hmem
      · exact hnot hmem
      · rw [List.mem_singleton.mp hmem] at hlt
        exact Nat.lt_irrefl _ hlt

theorem storeOverflowed (h : s.Accounted) (i : ℕ) : (s.storeOverflowed i).Accounted := by
  rw [ExitStream.storeOverflowed]
  split
  next => exact h
  next n hn =>
    refine ⟨fun n e hn => ?_, fun n hn => ?_, fun p hp => ?_⟩
    · -- the flag announces a marker wherever the subscriber is
      refine .inr (.inr (.inr (.inr ?_)))
      rw [Announced]
      dsimp only
      split <;> trivial
    · exact h.overflowing n (List.mem_of_mem_eraseIdx hn)
    · obtain ⟨hlt, hnot⟩ := h.apart p hp
      exact ⟨hlt, fun hmem => hnot (List.mem_of_mem_eraseIdx hmem)⟩

theorem recv (h : s.Accounted) : s.recv.Accounted := by
  rw [ExitStream.recv]
  split
  next hphase =>
    split
    next hflag => exact ⟨fun n e hn => .inr (.inr (.inr (.inr trivial))), h.overflowing, h.apart⟩
    next hflag =>
      refine ⟨fun n e hn => ?_, h.overflowing, h.apart⟩
      have hsomewhere := h.somewhere n e hn
      rw [Announced, hphase] at hsomewhere
      exact hsomewhere
  next hphase =>
    split
    next => exact h
    next first rest hqueue =>
      refine ⟨fun n e hn => ?_, h.overflowing, fun p hp => ?_⟩
      · have hsomewhere := h.somewhere n e hn
        rw [Announced, hphase, hqueue, List.mem_cons] at hsomewhere
        rcases hsomewhere with h | h | (h | h) | h | h
        · exact .inl (List.mem_append_left _ h)
        · exact .inr (.inl h)
        · exact .inl (List.mem_append_right _ (List.mem_singleton.mpr h))
        · exact .inr (.inr (.inl h))
        · exact .inr (.inr (.inr (.inl h)))
        · exact .inr (.inr (.inr (.inr h)))
      · refine h.apart p ?_
        rw [hqueue, ← List.singleton_append, ← List.append_assoc]
        exact hp
  next => exact ⟨fun n e hn => .inr (.inr (.inr (.inr trivial))), h.overflowing, h.apart⟩
  next =>
    refine ⟨fun n e hn => .inr (.inl ?_), h.overflowing, h.apart⟩
    exact (List.getElem?_eq_some_iff.mp hn).1
  next =>
    refine ⟨fun n e hn => .inr (.inr (.inr (.inr trivial))), h.overflowing, fun p hp => ?_⟩
    refine h.apart p ?_
    rcases List.mem_append.mp hp with hp | hp
    · exact List.mem_append_left _ hp
    · exact List.mem_append_right _ (List.mem_of_mem_tail hp)

theorem timeout (h : s.Accounted) : s.timeout.Accounted := by
  rw [ExitStream.timeout]
  split
  next hphase =>
    refine ⟨fun n e hn => ?_, h.overflowing, h.apart⟩
    have hsomewhere := h.somewhere n e hn
    rw [Announced, hphase] at hsomewhere
    exact hsomewhere
  next => exact h

theorem step (h : s.Accounted) (capacity : ℕ) (a : StreamAction) :
    (s.step capacity a).Accounted := by
  cases a with
  | publish event => exact h.publish capacity event
  | storeOverflowed i => exact h.storeOverflowed i
  | recv => exact h.recv
  | timeout => exact h.timeout

end Accounted

variable {s}

/-- The only step into an empty channel is a check of the flag, and while the subscriber waits
every publication wakes it. -/
theorem blocked_step (capacity : ℕ) {a : StreamAction} (h : (s.step capacity a).Blocked) :
    s.Blocked ∧ (s.step capacity a).published = s.published ∧
        (s.step capacity a).returned = s.returned ∧ (s.step capacity a).lagged = s.lagged ∨
      a = .recv ∧ s.phase = .outside ∧ s.overflowed = false ∧ s.queue = [] := by
  obtain ⟨hphase, hqueue⟩ := h
  cases a with
  | publish event =>
    rw [step, ExitStream.publish] at hphase hqueue
    split at hqueue
    next => exact absurd hqueue (List.append_ne_nil_of_right_ne_nil _ (List.cons_ne_nil _ _))
    next hfull =>
      have hempty : s.queue = [] := hqueue
      rw [hempty, List.length_nil] at hfull
      omega
  | storeOverflowed i =>
    left
    rw [step, ExitStream.storeOverflowed] at hphase hqueue ⊢
    split at hphase
    next h =>
      simp only [h] at hqueue ⊢
      exact ⟨⟨hphase, hqueue⟩, trivial, trivial, trivial⟩
    next h =>
      simp only [h] at hqueue ⊢
      exact ⟨⟨hphase, hqueue⟩, trivial, trivial, trivial⟩
  | recv =>
    rw [step, ExitStream.recv] at hphase hqueue ⊢
    cases hp : s.phase with
    | outside =>
      simp only [hp] at hphase hqueue
      split at hphase
      next => cases hphase
      next hflag =>
        simp only [hflag] at hqueue
        exact .inr ⟨rfl, rfl, Bool.not_eq_true _ ▸ hflag, hqueue⟩
    | channel =>
      simp only [hp] at hphase hqueue ⊢
      cases hq : s.queue with
      | nil =>
        exact .inl ⟨⟨hp, hq⟩, rfl, rfl, rfl⟩
      | cons first rest =>
        simp only [hq] at hphase
        cases hphase
    | counting =>
      simp only [hp] at hphase
      cases hphase
    | discarding left =>
      cases left with
      | zero =>
        simp only [hp] at hphase
        cases hphase
      | succ left =>
        simp only [hp] at hphase
        cases hphase
  | timeout =>
    rw [step, ExitStream.timeout] at hphase hqueue
    split at hphase
    next => cases hphase
    next hne => exact absurd hphase hne

/-- Nothing is lost while the subscriber waits for an empty channel. -/
structure Silent (s : ExitStream) : Prop where
  accounted : s.Accounted
  reported : s.Blocked → s.Reported

theorem Silent.step (h : s.Silent) (capacity : ℕ) {a : StreamAction} (ha : s.ChecksInTime a) :
    (s.step capacity a).Silent where
  accounted := h.accounted.step capacity a
  reported hblocked := by
    rcases blocked_step capacity hblocked with
      ⟨hs, hpublished, hreturned, hlagged⟩ | ⟨rfl, hphase, hflag, hqueue⟩
    · rw [Reported, hpublished, hreturned, hlagged]
      exact h.reported hs
    · have hin : ∀ n ∈ s.overflowing, n < s.lagged := ha hphase hflag hqueue
      rw [ExitStream.step, ExitStream.recv, hphase, hflag]
      intro n e hn
      rcases h.accounted.somewhere n e hn with h | h | h | h | h
      · exact .inl h
      · exact .inr h
      · rw [hqueue] at h
        exact absurd h List.not_mem_nil
      · exact .inr (hin n h)
      · rw [Announced, hphase, hflag] at h
        cases h

/-- The publishers that found the queue full set the flag. -/
theorem storeOverflowed_all (capacity : ℕ) :
    ∃ stores : List StreamAction, (∀ a ∈ stores, ∃ i, a = .storeOverflowed i) ∧
      ∃ flag, stores.foldl (step capacity) s = { s with overflowed := flag, overflowing := [] } := by
  generalize hcount : s.overflowing = overflowing
  induction overflowing generalizing s with
  | nil => exact ⟨[], fun a ha => absurd ha List.not_mem_nil, s.overflowed, by rw [← hcount]; rfl⟩
  | cons n rest ih =>
    have hfirst : s.step capacity (.storeOverflowed 0) =
        { s with overflowed := true, overflowing := rest } := by
      simp [step, ExitStream.storeOverflowed, hcount]
    obtain ⟨stores, hstores, flag, hrun⟩ :=
      ih (s := { s with overflowed := true, overflowing := rest }) rfl
    refine ⟨.storeOverflowed 0 :: stores, ?_, flag, ?_⟩
    · intro a ha
      rcases List.mem_cons.mp ha with rfl | ha
      · exact ⟨0, rfl⟩
      · exact hstores a ha
    · rw [List.foldl_cons, hfirst, hrun]

theorem accounted_run (capacity : ℕ) (actions : List StreamAction) :
    (actions.foldl (step capacity) subscribe).Accounted :=
  List.foldlRecOn actions _ .subscribe fun _ hs a _ => hs.step capacity a

/-- Publications that find room. -/
theorem publish_replicate (capacity : ℕ) (event : ExitEvent) {k : ℕ} (hk : k ≤ max capacity 1) :
    ∃ queue published, queue.length = k ∧ (∀ p ∈ queue, p.1 < k) ∧ published.length = k ∧
      (List.replicate k (.publish event)).foldl (step capacity) subscribe =
        { subscribe with queue := queue, published := published } := by
  induction k with
  | zero => exact ⟨[], [], rfl, fun p hp => absurd hp List.not_mem_nil, rfl, rfl⟩
  | succ k ih =>
    obtain ⟨queue, published, hlength, hnumbers, hpublished, hrun⟩ := ih (Nat.le_of_succ_le hk)
    refine ⟨queue ++ [(k, event)], published ++ [event], by simp [hlength], fun p hp => ?_,
      by simp [hpublished], ?_⟩
    · rcases List.mem_append.mp hp with hp | hp
      · exact Nat.lt_succ_of_lt (hnumbers p hp)
      · rw [List.mem_singleton.mp hp]
        exact Nat.lt_succ_self k
    · rw [List.replicate_succ', List.foldl_append, hrun, List.foldl_cons, List.foldl_nil, step,
        ExitStream.publish, if_pos (hlength ▸ hk)]
      simp [hpublished, subscribe]

/-- Two steps for each exit in the queue while the flag is clear. -/
theorem recv_replicate (capacity : ℕ) (hphase : s.phase = .outside) (hflag : s.overflowed = false) :
    (List.replicate (2 * s.queue.length) .recv).foldl (step capacity) s =
      { s with queue := [], returned := s.returned ++ s.queue } := by
  generalize hqueue : s.queue = queue
  induction queue generalizing s with
  | nil =>
    rw [List.append_nil]
    cases s
    cases hqueue
    rfl
  | cons first rest ih =>
    have hfirst : (s.step capacity .recv).step capacity .recv =
        { s with queue := rest, returned := s.returned ++ [first] } := by
      simp [step, ExitStream.recv, hphase, hflag, hqueue]
    have hcount : 2 * (first :: rest).length = 2 * rest.length + 2 := by
      rw [List.length_cons]
      omega
    rw [hcount, List.replicate_succ, List.replicate_succ, List.foldl_cons, List.foldl_cons, hfirst,
      ih (s := { s with queue := rest, returned := s.returned ++ [first] }) hphase hflag rfl]
    simp

end ExitStream

open ExitStream in
/-- After every part of a run, once the publishers in progress are done, a subscriber that waits
for an empty channel has been told of every exit, exactly when every check of the flag in the run
comes in time. -/
theorem exit_events_reported_iff (capacity : ℕ) (actions : List StreamAction) :
    Runs.Meets (step capacity) ChecksInTime subscribe actions ↔
      ∀ k (stores : List StreamAction), (∀ a ∈ stores, ∃ i, a = .storeOverflowed i) →
        let s := (actions.take k ++ stores).foldl (step capacity) subscribe
        s.overflowing = [] → s.Blocked → s.Reported := by
  constructor
  · intro h k stores hstores
    dsimp only
    intro _ hblocked
    have htake : Runs.Meets (step capacity) ChecksInTime subscribe (actions.take k) := by
      rw [← List.take_append_drop k actions] at h
      exact (Runs.Meets.append.mp h).1
    have hmeets : Runs.Meets (step capacity) ChecksInTime subscribe (actions.take k ++ stores) := by
      refine Runs.Meets.append.mpr ⟨htake, ?_⟩
      exact Runs.Meets.of_forall fun a ha s => by
        obtain ⟨i, rfl⟩ := hstores a ha
        trivial
    have hsilent : ((actions.take k ++ stores).foldl (step capacity) subscribe).Silent := by
      refine hmeets.invariant (fun s a hs ha => hs.step capacity ha) ⟨.subscribe, fun hs => ?_⟩
      cases hs.1
    exact hsilent.reported hblocked
  · intro h
    by_contra hnot
    obtain ⟨before, a, after, rfl, -, ha⟩ := Runs.Meets.exists_not hnot
    have hs := accounted_run capacity before
    set s := before.foldl (step capacity) subscribe with hbefore
    cases a with
    | recv =>
      simp only [ChecksInTime, not_forall] at ha
      obtain ⟨hphase, hflag, hqueue, n, hn, hlagged⟩ := ha
      obtain ⟨stores, hstores, flag, hrun⟩ :=
        storeOverflowed_all (s := { s with phase := .channel }) capacity
      have hfinal : ((before ++ .recv :: after).take (before.length + 1) ++ stores).foldl
          (step capacity) subscribe =
            { s with phase := .channel, overflowed := flag, overflowing := [] } := by
        have htake : (before ++ .recv :: after).take (before.length + 1) =
            before ++ [StreamAction.recv] := by
          rw [List.take_length_add_append]
          rfl
        have hrecv : s.step capacity .recv = { s with phase := .channel } := by
          rw [step, ExitStream.recv, hphase, hflag]
          rfl
        rw [htake, List.foldl_append, List.foldl_append, ← hbefore, List.foldl_cons, hrecv,
          List.foldl_nil, hrun]
      have hreported := h (before.length + 1) stores hstores
      rw [hfinal] at hreported
      have hnumber := hs.overflowing n hn
      rcases hreported rfl ⟨rfl, hqueue⟩ n _ (List.getElem?_eq_getElem hnumber) with hin | hlt
      · exact (hs.apart _ (List.mem_append_left _ hin)).2 hn
      · exact hlagged hlt
    | publish event => exact ha trivial
    | storeOverflowed i => exact ha trivial
    | timeout => exact ha trivial

open ExitStream in
/-- The subscriber takes out all that the full queue holds and checks the flag for its next call
before the publisher that found the queue full sets it: the subscriber waits, and neither that
exit nor a marker has come to it. -/
theorem not_exit_events_reported :
    ¬ ∀ actions : List StreamAction,
      (actions.foldl (step exitEventCapacity) subscribe).overflowing = [] →
        (actions.foldl (step exitEventCapacity) subscribe).Blocked →
          (actions.foldl (step exitEventCapacity) subscribe).Reported := by
  intro h
  obtain ⟨queue, published, hlength, hnumbers, hpublished, hfill⟩ :=
    publish_replicate exitEventCapacity (.exited 1 .normal) (k := 1024) (by decide)
  have hfull : step exitEventCapacity { subscribe with queue := queue, published := published }
      (.publish (.exited 1 .normal)) = { subscribe with
        queue := queue
        published := published ++ [.exited 1 .normal]
        overflowing := [1024] } := by
    rw [step, ExitStream.publish, if_neg (by rw [hlength]; decide), hpublished]
    rfl
  have hrun := h (List.replicate 1024 (.publish (.exited 1 .normal)) ++
    (.publish (.exited 1 .normal) :: (List.replicate (2 * queue.length) .recv ++
      [.recv, .storeOverflowed 0])))
  rw [List.foldl_append, hfill, List.foldl_cons, hfull, List.foldl_append,
    recv_replicate (s := { subscribe with
      queue := queue
      published := published ++ [.exited 1 .normal]
      overflowing := [1024] }) exitEventCapacity rfl rfl] at hrun
  have hlast : (published ++ [ExitEvent.exited 1 .normal])[1024]? = some (.exited 1 .normal) := by
    rw [← hpublished]
    exact List.getElem?_concat_length
  rcases hrun rfl ⟨rfl, rfl⟩ 1024 (.exited 1 .normal) hlast with hin | hlt
  · exact Nat.lt_irrefl _ (hnumbers _ hin)
  · exact Nat.not_lt_zero _ hlt

end Beamr.Scheduler
