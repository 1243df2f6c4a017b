import Mathlib.Tactic

/-!
# Run queues

The priority run queues of scheduler threads, and the stealing between them. Each deque is a list
with its front first. The thread of a queue pushes, pops and steals one call after the other, and
each read or change of a deque in such a call is a step, with the steps of other threads between.
-/
namespace Beamr.Scheduler

inductive Priority
  | max
  | high
  | normal
  | low
  deriving DecidableEq

namespace Priority

/-- The order in which the lanes are popped and stolen from. -/
def order : List Priority := [.max, .high, .normal, .low]

end Priority

/-- A queued process id, with the number of its push. -/
structure Queued where
  pid : ℕ
  stamp : ℕ
  deriving DecidableEq

/-- The lanes that `steal_half_from` has still to visit, and its limit and count. -/
structure StealLoop where
  rest : List Priority
  remaining : ℕ
  stolen : ℕ

/-- Where a call of `steal_half_from` is. -/
inductive StealPhase
  | measure (rest : List Priority) (victimLen : ℕ)
  | readFlag (victimLen : ℕ)
  | lanes (loop : StealLoop)
  | batch (lane : Priority) (before : ℕ) (loop : StealLoop)
  /-- The element that the steal has popped is in hand. -/
  | pushBack (first : Queued) (lane : Priority) (before : ℕ) (loop : StealLoop)
  | count (lane : Priority) (before : ℕ) (loop : StealLoop)

/-- What the thread of a queue is in the middle of. A steal is one of a loop of `try_steal` that has
`attempts` further victims to try. -/
inductive Task (n : ℕ)
  | idle
  | preferLow
  | lanes (rest : List Priority)
  | steal (victim : Fin n) (attempts : ℕ) (phase : StealPhase)

structure RunQueue (n : ℕ) where
  lane : Priority → List Queued
  nonLowPopsSinceLow : ℕ
  inSlice : Bool
  task : Task n

/-- All queues, with a log of what was pushed and popped where, and the numbers of what has been
stolen. -/
structure RunQueues (n : ℕ) where
  queues : Fin n → RunQueue n
  pushed : List (Fin n × Priority × Queued)
  popped : List (Fin n × Priority × Queued)
  moved : List ℕ

/-- What the thread of a queue does next: it starts a call, or goes on with the one it is in. A
steal from a deque takes a batch of any size up to the limit, or none when it has to retry. -/
inductive QueueStep (n : ℕ)
  | push (pid : ℕ) (priority : Priority)
  | setSlice (inSlice : Bool)
  | pop
  | steal (victim : Fin n)
  | trySteal (lastVictim : Fin n)
  | advance (batch : Option ℕ)

namespace RunQueues

variable {n : ℕ} (s : RunQueues n)

def new : RunQueues n where
  queues := fun _ => ⟨fun _ => [], 0, false, .idle⟩
  pushed := []
  popped := []
  moved := []

def lane (i : Fin n) (p : Priority) : List Queued := (s.queues i).lane p

def task (i : Fin n) : Task n := (s.queues i).task

def setQueue (i : Fin n) (queue : RunQueue n) : RunQueues n :=
  { s with queues := Function.update s.queues i queue }

def setTask (i : Fin n) (task : Task n) : RunQueues n :=
  s.setQueue i { s.queues i with task := task }

def setLane (i : Fin n) (p : Priority) (entries : List Queued) : RunQueues n :=
  s.setQueue i { s.queues i with lane := Function.update (s.queues i).lane p entries }

/-! ## Pushes and pops -/

def pushWithPriority (i : Fin n) (pid : ℕ) (p : Priority) : RunQueues n :=
  let entry : Queued := ⟨pid, s.pushed.length⟩
  { s.setLane i p (s.lane i p ++ [entry]) with pushed := s.pushed ++ [(i, p, entry)] }

def setSlice (i : Fin n) (inSlice : Bool) : RunQueues n :=
  s.setQueue i { s.queues i with inSlice := inSlice }

variable (lowFairnessWindow : Fin n → UInt64)

def shouldPreferLow (i : Fin n) : Bool :=
  0 < (lowFairnessWindow i).toNat &&
    (lowFairnessWindow i).toNat ≤ (s.queues i).nonLowPopsSinceLow && !(s.lane i .low).isEmpty

/-- The counter saturates. -/
def recordPop (i : Fin n) (p : Priority) : RunQueues n :=
  let pops := (s.queues i).nonLowPopsSinceLow
  s.setQueue i { s.queues i with
    nonLowPopsSinceLow := if p = .low then 0 else min (pops + 1) (2 ^ 64 - 1) }

/-- `pop` returns the front of a lane. -/
def popFront (i : Fin n) (p : Priority) (entry : Queued) (rest : List Queued) : RunQueues n :=
  { ((s.setLane i p rest).recordPop i p).setTask i .idle with
    popped := s.popped ++ [(i, p, entry)] }

/-- `pop_priority` with what follows it: `pop` returns, or goes on. -/
def popPriority (i : Fin n) (p : Priority) (otherwise : Task n) : RunQueues n :=
  match s.lane i p with
  | [] => s.setTask i otherwise
  | entry :: rest => s.popFront i p entry rest

def advanceLanes (i : Fin n) : List Priority → RunQueues n
  | [] => s.setTask i .idle
  | p :: rest => s.popPriority i p (.lanes rest)

/-! ## Steals -/

def nextVictim [NeZero n] (current my : Fin n) : Fin n :=
  let victim := current + 1
  if victim = my then victim + 1 else victim

def startSteal (i victim : Fin n) (attempts : ℕ) : RunQueues n :=
  s.setTask i (.steal victim attempts (.measure Priority.order 0))

/-- The call returns, and `try_steal` goes on to the next victim when nothing was stolen. -/
def finishSteal (i victim : Fin n) (attempts stolen : ℕ) : RunQueues n :=
  haveI : NeZero n := ⟨Nat.ne_zero_of_lt i.isLt⟩
  match stolen, attempts with
  | 0, attempts + 1 => s.startSteal i (nextVictim victim i) attempts
  | _, _ => s.setTask i .idle

/-- `steal_batch_with_limit_and_pop`: a batch leaves the front of the victim's deque, and all of it
but the first element is appended to the deque of the thief. -/
def stealBatch (i victim : Fin n) (p : Priority) (first : Queued) (waiting : List Queued)
    (others : ℕ) : RunQueues n :=
  let s₁ := s.setLane victim p (waiting.drop others)
  { s₁.setLane i p (s₁.lane i p ++ waiting.take others) with
    moved := (first :: waiting.take others).map Queued.stamp ++ s.moved }

def advanceBatch (i victim : Fin n) (attempts : ℕ) (p : Priority) (before : ℕ) (loop : StealLoop)
    (batch : Option ℕ) : RunQueues n :=
  match batch, s.lane victim p with
  | some size, first :: waiting =>
    (s.stealBatch i victim p first waiting (min size (loop.remaining - 1))).setTask i
      (.steal victim attempts (.pushBack first p before loop))
  | _, _ => s.setTask i (.steal victim attempts (.lanes loop))

def advanceSteal (i victim : Fin n) (attempts : ℕ) (batch : Option ℕ) :
    StealPhase → RunQueues n
  | .measure (p :: rest) victimLen =>
    s.setTask i (.steal victim attempts (.measure rest (victimLen + (s.lane victim p).length)))
  | .measure [] victimLen =>
    if victimLen = 0 then s.finishSteal i victim attempts 0
    else s.setTask i (.steal victim attempts (.readFlag victimLen))
  | .readFlag victimLen =>
    let remaining := if (s.queues victim).inSlice then max (victimLen / 2) 1 else victimLen / 2
    if remaining = 0 then s.finishSteal i victim attempts 0
    else s.setTask i (.steal victim attempts (.lanes ⟨Priority.order, remaining, 0⟩))
  | .lanes ⟨[], _, stolen⟩ => s.finishSteal i victim attempts stolen
  | .lanes ⟨p :: rest, remaining, stolen⟩ =>
    if remaining = 0 then s.finishSteal i victim attempts stolen
    else s.setTask i (.steal victim attempts
      (.batch p (s.lane i p).length ⟨rest, remaining, stolen⟩))
  | .batch p before loop => s.advanceBatch i victim attempts p before loop batch
  | .pushBack first p before loop =>
    (s.setLane i p (s.lane i p ++ [first])).setTask i
      (.steal victim attempts (.count p before loop))
  | .count p before loop =>
    let count := (s.lane i p).length - before
    s.setTask i (.steal victim attempts
      (.lanes { loop with remaining := loop.remaining - count, stolen := loop.stolen + count }))

/-- A call is only started by a thread that is in no other, and one that has returned is not gone
on with. A queue does not steal from itself. -/
def step (a : Fin n × QueueStep n) : RunQueues n :=
  haveI : NeZero n := ⟨Nat.ne_zero_of_lt a.1.isLt⟩
  match s.task a.1, a.2 with
  | .idle, .push pid p => s.pushWithPriority a.1 pid p
  | .idle, .setSlice inSlice => s.setSlice a.1 inSlice
  | .idle, .pop => s.setTask a.1
      (if s.shouldPreferLow lowFairnessWindow a.1 then .preferLow else .lanes Priority.order)
  | .idle, .steal victim => if victim = a.1 then s else s.startSteal a.1 victim 0
  | .idle, .trySteal lastVictim =>
    if n ≤ 1 then s else s.startSteal a.1 (nextVictim lastVictim a.1) (n - 2)
  | .preferLow, .advance _ => s.popPriority a.1 .low (.lanes Priority.order)
  | .lanes rest, .advance _ => s.advanceLanes a.1 rest
  | .steal victim attempts phase, .advance batch => s.advanceSteal a.1 victim attempts batch phase
  | _, _ => s

/-! ## Lanes and tasks -/

variable {s}

theorem queues_setQueue (i j : Fin n) (queue : RunQueue n) :
    (s.setQueue i queue).queues j = if j = i then queue else s.queues j :=
  Function.update_apply ..

theorem lane_setQueue {i : Fin n} {queue : RunQueue n} (h : queue.lane = (s.queues i).lane)
    (j : Fin n) (p : Priority) : (s.setQueue i queue).lane j p = s.lane j p := by
  rw [lane, queues_setQueue, lane]
  split
  next hj => rw [hj, h]
  next => rfl

theorem task_setQueue {i : Fin n} {queue : RunQueue n} (h : queue.task = s.task i) (j : Fin n) :
    (s.setQueue i queue).task j = s.task j := by
  rw [task, queues_setQueue]
  split
  next hj => rw [hj, h]
  next => rfl

@[simp] theorem lane_setTask (i j : Fin n) (task : Task n) (p : Priority) :
    (s.setTask i task).lane j p = s.lane j p := by
  refine lane_setQueue ?_ j p
  rfl

@[simp] theorem lane_recordPop (i j : Fin n) (p q : Priority) :
    (s.recordPop i p).lane j q = s.lane j q := by
  refine lane_setQueue ?_ j q
  rfl

@[simp] theorem lane_setSlice (i j : Fin n) (inSlice : Bool) (p : Priority) :
    (s.setSlice i inSlice).lane j p = s.lane j p := by
  refine lane_setQueue ?_ j p
  rfl

theorem lane_setLane (i j : Fin n) (p q : Priority) (entries : List Queued) :
    (s.setLane i p entries).lane j q = if j = i ∧ q = p then entries else s.lane j q := by
  rw [lane, setLane, queues_setQueue, lane]
  by_cases h : j = i
  · subst h
    simp [Function.update_apply]
  · simp [h]

@[simp] theorem lane_setLane_self (i : Fin n) (p : Priority) (entries : List Queued) :
    (s.setLane i p entries).lane i p = entries := by simp [lane_setLane]

theorem lane_setLane_of_ne {i j : Fin n} {p q : Priority} (h : q ≠ p) (entries : List Queued) :
    (s.setLane i p entries).lane j q = s.lane j q := by simp [lane_setLane, h]

theorem task_setTask (i j : Fin n) (task : Task n) :
    (s.setTask i task).task j = if j = i then task else s.task j := by
  rw [RunQueues.task, setTask, queues_setQueue]
  split
  · rfl
  · rfl

@[simp] theorem task_setTask_self (i : Fin n) (task : Task n) :
    (s.setTask i task).task i = task := by
  simp [task_setTask]

@[simp] theorem task_setLane (i j : Fin n) (p : Priority) (entries : List Queued) :
    (s.setLane i p entries).task j = s.task j := by
  refine task_setQueue ?_ j
  rfl

@[simp] theorem task_recordPop (i j : Fin n) (p : Priority) :
    (s.recordPop i p).task j = s.task j := by
  refine task_setQueue ?_ j
  rfl

@[simp] theorem task_setSlice (i j : Fin n) (inSlice : Bool) :
    (s.setSlice i inSlice).task j = s.task j := by
  refine task_setQueue ?_ j
  rfl

theorem lane_popFront (i j : Fin n) (p q : Priority) (entry : Queued) (rest : List Queued) :
    (s.popFront i p entry rest).lane j q = (s.setLane i p rest).lane j q :=
  (lane_setTask i j .idle q).trans (lane_recordPop i j p q)

theorem task_popFront (i j : Fin n) (p : Priority) (entry : Queued) (rest : List Queued) :
    (s.popFront i p entry rest).task j = if j = i then .idle else s.task j := by
  have htask := task_setTask (s := (s.setLane i p rest).recordPop i p) i j .idle
  rw [task_recordPop, task_setLane] at htask
  exact htask

theorem lane_stealBatch (i victim j : Fin n) (p q : Priority) (first : Queued)
    (waiting : List Queued) (others : ℕ) :
    (s.stealBatch i victim p first waiting others).lane j q =
      ((s.setLane victim p (waiting.drop others)).setLane i p
        ((s.setLane victim p (waiting.drop others)).lane i p ++ waiting.take others)).lane j q :=
  rfl

theorem task_stealBatch (i victim j : Fin n) (p : Priority) (first : Queued)
    (waiting : List Queued) (others : ℕ) :
    (s.stealBatch i victim p first waiting others).task j = s.task j :=
  (task_setLane (s := s.setLane victim p (waiting.drop others)) i j p _).trans (task_setLane ..)

/-! ## What a step does -/

/-- What a thread in the middle of a call holds of a lane. -/
def hand : Task n → Priority → List Queued
  | .steal _ _ (.pushBack first p _ _), q => if q = p then [first] else []
  | _, _ => []

variable (s)

/-- The low lane is empty, or the counter is below the window. -/
def Fair (i : Fin n) : Prop :=
  0 < (lowFairnessWindow i).toNat → s.lane i .low ≠ [] →
    (s.queues i).nonLowPopsSinceLow < (lowFairnessWindow i).toNat

/-- The state after a step of queue `i`. The lanes of a pop are only gone through when no low entry
is to be preferred. -/
inductive Effect (i : Fin n) : RunQueues n → Prop
  | same : Effect i s
  | slice (inSlice : Bool) : Effect i (s.setSlice i inSlice)
  | call (task : Task n) (hhand : hand task = hand (s.task i))
      (hfair : ∀ rest, task = .lanes rest → s.Fair lowFairnessWindow i ∨
        ∃ before, s.task i = .lanes before) :
      Effect i (s.setTask i task)
  | push (pid : ℕ) (p : Priority) (hidle : s.task i = .idle) : Effect i (s.pushWithPriority i pid p)
  | pop (p : Priority) (entry : Queued) (rest : List Queued) (hlane : s.lane i p = entry :: rest)
      (hhand : ∀ q, hand (s.task i) q = [])
      (hlanes : p ≠ .low → ∃ before, s.task i = .lanes before) :
      Effect i (s.popFront i p entry rest)
  | batch (victim : Fin n) (attempts : ℕ) (p : Priority) (first : Queued) (waiting : List Queued)
      (others before : ℕ) (loop : StealLoop) (hlane : s.lane victim p = first :: waiting)
      (hhand : ∀ q, hand (s.task i) q = []) (hsteal : ∀ rest, s.task i ≠ .lanes rest) :
      Effect i ((s.stealBatch i victim p first waiting others).setTask i
        (.steal victim attempts (.pushBack first p before loop)))
  | pushBack (victim : Fin n) (attempts : ℕ) (p : Priority) (first : Queued) (before : ℕ)
      (loop : StealLoop)
      (htask : s.task i = .steal victim attempts (.pushBack first p before loop)) :
      Effect i ((s.setLane i p (s.lane i p ++ [first])).setTask i
        (.steal victim attempts (.count p before loop)))

variable {s} {lowFairnessWindow}

theorem Effect.steal {i victim : Fin n} {attempts : ℕ} {phase : StealPhase}
    (h : hand (.steal victim attempts phase : Task n) = hand (s.task i)) :
    Effect s lowFairnessWindow i (s.setTask i (.steal victim attempts phase)) :=
  .call _ h fun rest hrest => by cases hrest

theorem Effect.finishSteal {i : Fin n} (hhand : ∀ q, hand (s.task i) q = []) (victim : Fin n)
    (attempts stolen : ℕ) :
    Effect s lowFairnessWindow i (s.finishSteal i victim attempts stolen) := by
  have hnone : hand (s.task i) = fun _ => [] := funext hhand
  unfold RunQueues.finishSteal
  split
  · exact .steal hnone.symm
  · exact .call _ hnone.symm fun rest hrest => by cases hrest

theorem Effect.popPriority {i : Fin n} {p : Priority} {otherwise : Task n}
    (hhand : ∀ q, hand (s.task i) q = [])
    (hlanes : p ≠ .low → ∃ before, s.task i = .lanes before)
    (hother : ∀ q, hand otherwise q = [])
    (hfair : s.lane i p = [] → ∀ rest, otherwise = .lanes rest → s.Fair lowFairnessWindow i ∨
      ∃ before, s.task i = .lanes before) :
    Effect s lowFairnessWindow i (s.popPriority i p otherwise) := by
  rw [RunQueues.popPriority]
  split
  next hempty =>
    exact .call _ (funext fun q => (hother q).trans (hhand q).symm) (hfair hempty)
  next entry rest hlane => exact .pop p entry rest hlane hhand hlanes

/-- Every step of a steal. -/
theorem Effect.advanceSteal {i victim : Fin n} {attempts : ℕ} {phase : StealPhase}
    (htask : s.task i = .steal victim attempts phase) (batch : Option ℕ) :
    Effect s lowFairnessWindow i (s.advanceSteal i victim attempts batch phase) := by
  have hsteal : ∀ rest, s.task i ≠ .lanes rest := by simp [htask]
  unfold RunQueues.advanceSteal
  split
  next => exact .steal (by rw [htask]; rfl)
  next =>
    split
    · exact .finishSteal (by simp [htask, hand]) ..
    · exact .steal (by rw [htask]; rfl)
  next victimLen =>
    obtain ⟨remaining, hremaining⟩ : ∃ r, r = if (s.queues victim).inSlice then
      max (victimLen / 2) 1 else victimLen / 2 := ⟨_, rfl⟩
    dsimp only
    rw [← hremaining]
    split
    · exact .finishSteal (by simp [htask, hand]) ..
    · exact .steal (by rw [htask]; rfl)
  next => exact .finishSteal (by simp [htask, hand]) ..
  next =>
    split
    · exact .finishSteal (by simp [htask, hand]) ..
    · exact .steal (by rw [htask]; rfl)
  next =>
    unfold RunQueues.advanceBatch
    split
    next size first waiting hlane =>
      exact .batch victim attempts _ first waiting _ _ _ hlane (by simp [htask, hand]) hsteal
    next => exact .steal (by rw [htask]; rfl)
  next first p before loop => exact .pushBack victim attempts p first before loop htask
  next => exact .steal (by rw [htask]; rfl)

theorem Effect.pop_call {i : Fin n} (hidle : s.task i = .idle) :
    Effect s lowFairnessWindow i (s.setTask i
      (if s.shouldPreferLow lowFairnessWindow i then .preferLow else .lanes Priority.order)) := by
  split
  next => exact .call _ (by rw [hidle]; rfl) fun rest hrest => by cases hrest
  next hno =>
    refine .call _ (by rw [hidle]; rfl) fun rest _ => .inl fun hwindow hlow => ?_
    by_contra hcount
    refine hno ?_
    simp [shouldPreferLow, hwindow, hlow, Nat.not_lt.1 hcount]

theorem Effect.advanceLanes {i : Fin n} {rest : List Priority} (htask : s.task i = .lanes rest) :
    Effect s lowFairnessWindow i (s.advanceLanes i rest) := by
  have hhand : ∀ q, hand (s.task i) q = [] := by simp [htask, hand]
  cases rest with
  | nil => exact .call _ (by rw [htask]; rfl) fun rest hrest => by cases hrest
  | cons p rest =>
    exact .popPriority hhand (fun _ => ⟨_, htask⟩) (fun _ => rfl) fun _ _ _ => .inr ⟨_, htask⟩

theorem step_effect (a : Fin n × QueueStep n) :
    Effect s lowFairnessWindow a.1 (s.step lowFairnessWindow a) := by
  unfold step
  split
  next pid p hidle _ => exact .push pid p hidle
  next inSlice _ _ => exact .slice inSlice
  next hidle _ => exact .pop_call hidle
  next victim hidle _ =>
    split
    · exact .same
    · exact .steal (by rw [hidle]; rfl)
  next last hidle _ =>
    split
    · exact .same
    · exact .steal (by rw [hidle]; rfl)
  next hlow _ =>
    refine .popPriority (by simp [hlow, hand]) (fun h => absurd rfl h) (fun _ => rfl) ?_
    intro hempty rest _
    exact .inl fun _ hne => absurd hempty hne
  next rest _ hlanes _ => exact .advanceLanes hlanes
  next victim attempts phase batch htask _ => exact .advanceSteal htask batch
  next => exact .same

end RunQueues

end Beamr.Scheduler
