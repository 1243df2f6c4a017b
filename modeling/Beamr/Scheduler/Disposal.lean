import Beamr.Lib.Runs
import Mathlib.Data.List.Dedup

/-!
# Disposal of process bodies

The body of one process on its way between its slot, the local variables of the workers that run it
and the outcomes of its slices, with the parties that finalize it. What the heap of the body refers
to is released by whoever holds the body last. A body that goes out of scope otherwise is lost.
-/
namespace Beamr.Scheduler

/-- A reference-counted object of a heap, such as a file descriptor. -/
structure HeapObject where
  id : ℕ
  isFd : Bool
  deriving DecidableEq

structure HeapBody where
  pid : ℕ
  exited : Bool
  heap : List HeapObject
  deriving DecidableEq

/-- What `take_process` leaves behind has the greatest pid, which no process has. -/
def placeholderPid : ℕ := 18446744073709551615

def HeapBody.placeholder : HeapBody := ⟨placeholderPid, false, []⟩

inductive BodySlot
  | present (process : HeapBody)
  | executing
  deriving DecidableEq

inductive SliceOutcome
  | requeue (process : HeapBody)
  | wait (process : HeapBody)
  | suspended (process : HeapBody)
  | exited
  deriving DecidableEq

/-- The process that an outcome carries. -/
def SliceOutcome.process? : SliceOutcome → Option HeapBody
  | .requeue process => some process
  | .wait process => some process
  | .suspended process => some process
  | .exited => none

/-- How a slice ends. A process that exits is terminated at once but on one early return of a native
slice. -/
inductive SliceEnd
  | yielded
  | waiting
  | suspended
  | exited (terminates : Bool)
  deriving DecidableEq

inductive AfterStore
  | cleanup
  | recheck
  deriving DecidableEq

/-- Where a thread is that has to do with the process, with the variable `process` and the outcome
of its slice if it has run it. -/
inductive ExitThread
  | runProcess
  | takeRunnable
  | slice (process : HeapBody)
  | checkTombstone (process : HeapBody) (outcome : SliceOutcome)
  | storeRunnable (process : HeapBody) (next : AfterStore)
  | cleanupIfTombstoned
  | cleanupExited
  | finalize
  | removeBody
  deriving DecidableEq

/-- The entries of the process, the threads, how often the work that is keyed by the pid was begun,
the objects that its heap ever referred to, the descriptors that were closed, the objects that were
released, those of them that were collected as garbage, and those that were lost. -/
structure BodySystem where
  pid : ℕ
  slot : Option BodySlot
  inTable : Bool
  tombstone : Bool
  threads : List ExitThread
  finalized : ℕ
  allocated : List HeapObject
  closed : List HeapObject
  released : List HeapObject
  collected : List HeapObject
  lost : List HeapObject

/-- `merged` are the objects that the delivery of waiting messages allocates at store-back. -/
inductive BodyAction
  | advance (thread : ExitThread) (merged : List HeapObject)
  | allocate (process : HeapBody) (objects : List HeapObject)
  | collect (process : HeapBody) (dead : HeapObject → Bool)
  | endSlice (process : HeapBody) (how : SliceEnd)
  | schedule
  | exitSignal
  | processExitSignal
  | terminateProcess
  | evictTombstone

namespace BodySystem

def spawn (pid : ℕ) : BodySystem :=
  ⟨pid, some (.present ⟨pid, false, []⟩), true, false, [], 0, [], [], [], [], []⟩

variable (s : BodySystem)

def start (thread : ExitThread) : BodySystem := { s with threads := s.threads ++ [thread] }

/-- Closes the descriptors and releases all objects of a heap. -/
def release (heap : List HeapObject) : BodySystem :=
  { s with
    closed := s.closed ++ heap.filter (·.isFd)
    released := s.released ++ heap }

/-- A body goes out of scope. -/
def drop (process : HeapBody) : BodySystem := { s with lost := s.lost ++ process.heap }

/-- Objects that were never there before, each once. -/
def fresh (objects : List HeapObject) : List HeapObject :=
  (objects.filter (· ∉ s.allocated)).dedup

def takeRunnable : BodySystem :=
  match s.slot with
  | some (.present process) => { s with slot := some .executing }.start (.slice process)
  | _ => s

def endSlice (process : HeapBody) : SliceEnd → BodySystem
  | .yielded => s.start (.checkTombstone .placeholder (.requeue process))
  | .waiting => s.start (.checkTombstone .placeholder (.wait process))
  | .suspended => s.start (.checkTombstone .placeholder (.suspended process))
  | .exited true =>
    (s.release process.heap).start
      (.checkTombstone { process with exited := true, heap := [] } .exited)
  | .exited false => s.start (.checkTombstone process .exited)

/-- The part of `run_process` after the slice. With a tombstone it stores the variable and lets the
outcome go. -/
def checkTombstone (process : HeapBody) (outcome : SliceOutcome) : BodySystem :=
  match s.tombstone, outcome.process? with
  | true, some carried => (s.drop carried).start (.storeRunnable process .cleanup)
  | false, some carried => (s.drop process).start (.storeRunnable carried .recheck)
  | _, none => s.start (.storeRunnable process .cleanup)

/-- `store_runnable_process` looks its process up by the pid it has. There is neither an entry nor
a process for the placeholder. -/
def storeBody (process : HeapBody) (merged : List HeapObject) : BodySystem :=
  if process.pid = s.pid then
    match s.slot with
    | some .executing =>
      { s with
        slot := some (.present { process with heap := process.heap ++ s.fresh merged })
        allocated := s.allocated ++ s.fresh merged }
    | some (.present old) => { s with slot := some (.present process) }.drop old
    | none =>
      if s.inTable then { s with slot := some (.present process) } else s.release process.heap
  else s.release process.heap

def storeRunnable (process : HeapBody) (merged : List HeapObject) : AfterStore → BodySystem
  | .cleanup => (s.storeBody process merged).start .cleanupExited
  | .recheck => (s.storeBody process merged).start .cleanupIfTombstoned

/-- The removal of the entry yields the body unless a worker has it. -/
def removeBody : BodySystem :=
  match s.slot with
  | some (.present process) => { s with slot := none }.release process.heap
  | _ => { s with slot := none }

/-- The next step of a thread that is taken out of the list. -/
def advance (merged : List HeapObject) : ExitThread → BodySystem
  | .runProcess => if s.inTable then s.start .takeRunnable else s
  | .takeRunnable => s.takeRunnable
  | .slice process => s.start (.slice process)
  | .checkTombstone process outcome => s.checkTombstone process outcome
  | .storeRunnable process next => s.storeRunnable process merged next
  | .cleanupIfTombstoned => if s.tombstone then s.start .cleanupExited else s
  | .cleanupExited => { s with tombstone := true }.start .finalize
  | .finalize =>
    if s.inTable then { s with inTable := false, finalized := s.finalized + 1 }.start .removeBody
    else s
  | .removeBody => s.removeBody

/-- An exit signal that is to end the process. The cascade along links inserts the tombstone of a
stored process itself. -/
def receiveExit (next : ExitThread) (marks : Bool) : BodySystem :=
  match s.slot with
  | some (.present process) =>
    if process.exited then s
    else
      ({ s with
        slot := some (.present { process with exited := true, heap := [] })
        tombstone := s.tombstone || marks }.release process.heap).start next
  | some .executing => { s with tombstone := true }
  | none => s

def step (s : BodySystem) : BodyAction → BodySystem
  | .advance thread merged =>
    if thread ∈ s.threads then
      { s with threads := s.threads.erase thread }.advance merged thread
    else s
  | .allocate process objects =>
    if .slice process ∈ s.threads then
      { s with
        threads := s.threads.erase (.slice process)
        allocated := s.allocated ++ s.fresh objects }.start
          (.slice { process with heap := process.heap ++ s.fresh objects })
    else s
  | .collect process dead =>
    if .slice process ∈ s.threads then
      { s with
        threads := s.threads.erase (.slice process)
        released := s.released ++ process.heap.filter dead
        collected := s.collected ++ process.heap.filter dead }.start
          (.slice { process with heap := process.heap.filter fun object => !dead object })
    else s
  | .endSlice process how =>
    if .slice process ∈ s.threads then
      { s with threads := s.threads.erase (.slice process) }.endSlice process how
    else s
  | .schedule => s.start .runProcess
  | .exitSignal => s.receiveExit .cleanupExited false
  | .processExitSignal => s.receiveExit .finalize true
  | .terminateProcess => if s.tombstone then s else s.start .cleanupExited
  | .evictTombstone => { s with tombstone := false }

end BodySystem

def HeapBody.ofSlot : Option BodySlot → List HeapObject
  | some (.present process) => process.heap
  | _ => []

def ExitThread.heap : ExitThread → List HeapObject
  | .slice process => process.heap
  | .checkTombstone process outcome => process.heap ++ (outcome.process?.map (·.heap)).getD []
  | .storeRunnable process _ => process.heap
  | _ => []

namespace BodySystem

variable (s : BodySystem)

/-- What the body refers to, wherever it is. -/
def live : List HeapObject := HeapBody.ofSlot s.slot ++ s.threads.flatMap ExitThread.heap

/-! ## The claim -/

/-- Every object is released once or still held, none is released twice, a descriptor that its
process did not drop is closed, the process that has left the table was finalized once, and has
left nothing once all threads are done. -/
structure DisposedOnce : Prop where
  once : ∀ object, s.released.count object ≤ 1
  kept : ∀ object ∈ s.allocated, object ∈ s.released ∨ object ∈ s.live
  closed : ∀ object ∈ s.released, object.isFd = true → object ∈ s.closed ∨ object ∈ s.collected
  finalized : s.finalized = if s.inTable then 0 else 1
  disposed : s.threads = [] → s.inTable = false → ∀ object ∈ s.allocated,
    s.released.count object = 1

/-- A worker that finds a tombstone after the slice has the body in its variable, or the body refers
to nothing. -/
def HandsOver (s : BodySystem) : BodyAction → Prop
  | .advance (.checkTombstone process outcome) _ =>
    .checkTombstone process outcome ∈ s.threads → s.tombstone = true →
      ∀ carried, outcome.process? = some carried → carried.heap = []
  | _ => True

end BodySystem

/-! ## Where the body is -/

/-- The local variables of a thread: the body of the process, or the placeholder where the outcome
carries the body. -/
def ExitThread.WellFormed (pid : ℕ) : ExitThread → Prop
  | .slice process => process.pid = pid
  | .checkTombstone process outcome =>
    match outcome.process? with
    | some carried => process = .placeholder ∧ carried.pid = pid
    | none => process.pid = pid
  | .storeRunnable process _ => process.pid = pid ∨ process = .placeholder
  | _ => True

/-- Whether a thread has the body of the process. -/
def ExitThread.holds (pid : ℕ) : ExitThread → Bool
  | .slice _ => true
  | .checkTombstone _ _ => true
  | .storeRunnable process _ => process.pid = pid
  | _ => false

def BodySlot.isPresent : Option BodySlot → Bool
  | some (.present _) => true
  | _ => false

namespace BodySystem

variable {s s' : BodySystem} {hand : List ExitThread}

/-- The threads in hand are those that have been taken out of the list. -/
structure Regular (s : BodySystem) (hand : List ExitThread) : Prop where
  pid : s.pid ≠ placeholderPid
  nodup : s.allocated.Nodup
  balance : ∀ object, s.released.count object + s.lost.count object +
    (HeapBody.ofSlot s.slot).count object +
    ((hand ++ s.threads).flatMap ExitThread.heap).count object = s.allocated.count object
  threads : ∀ thread ∈ hand ++ s.threads, thread.WellFormed s.pid
  slotPid : ∀ process, s.slot = some (.present process) → process.pid = s.pid
  exclusive : (hand ++ s.threads).countP (ExitThread.holds s.pid) +
    (BodySlot.isPresent s.slot).toNat ≤ 1
  removed : s.slot = none → s.inTable = false
  removal : s.inTable = false → s.slot = none ∨ .removeBody ∈ hand ++ s.threads
  token : .removeBody ∈ hand ++ s.threads → s.inTable = false
  finalized : s.finalized = if s.inTable then 0 else 1
  closed : ∀ object ∈ s.released, object.isFd = true → object ∈ s.closed ∨ object ∈ s.collected

/-- Only which threads there are matters. -/
theorem Regular.perm {hand' threads : List ExitThread} (h : s.Regular hand)
    (hperm : (hand ++ s.threads).Perm (hand' ++ threads)) :
    Regular { s with threads := threads } hand' where
  pid := h.pid
  nodup := h.nodup
  balance object := by
    rw [← h.balance object, (hperm.flatMap_right ExitThread.heap).count_eq object]
  threads thread hthread := h.threads thread (hperm.mem_iff.mpr hthread)
  slotPid := h.slotPid
  exclusive := by
    have hexclusive := h.exclusive
    rwa [hperm.countP_eq] at hexclusive
  removed := h.removed
  removal hdead := (h.removal hdead).imp_right hperm.mem_iff.mp
  token hmem := h.token (hperm.mem_iff.mpr hmem)
  finalized := h.finalized
  closed := h.closed

theorem Regular.erase (h : s.Regular []) {thread : ExitThread} (hmem : thread ∈ s.threads) :
    Regular { s with threads := s.threads.erase thread } [thread] :=
  h.perm (List.perm_cons_erase hmem)

theorem Regular.start {thread : ExitThread} (h : s.Regular [thread]) :
    (s.start thread).Regular [] :=
  have hcomm : List.Perm ([thread] ++ s.threads) (s.threads ++ [thread]) :=
    List.perm_append_comm
  h.perm hcomm

/-- A thread without a body that is not about to remove the entry has nothing to leave. -/
theorem Regular.finish {thread : ExitThread} (h : s.Regular [thread]) (hheap : thread.heap = [])
    (hremove : thread ≠ .removeBody) : s.Regular [] where
  pid := h.pid
  nodup := h.nodup
  balance object := by
    have hbalance := h.balance object
    rwa [List.cons_append, List.flatMap_cons, hheap] at hbalance
  threads other hother := h.threads other (List.mem_cons_of_mem thread hother)
  slotPid := h.slotPid
  exclusive := by
    have hexclusive := h.exclusive
    rw [List.cons_append, List.countP_cons] at hexclusive
    omega
  removed := h.removed
  removal hdead := (h.removal hdead).imp_right fun hmem =>
    (List.mem_cons.mp hmem).resolve_left hremove.symm
  token hmem := h.token (List.mem_cons_of_mem thread hmem)
  finalized := h.finalized
  closed := h.closed

/-- A thread that has no body to begin with. -/
theorem Regular.begin (h : s.Regular []) (thread : ExitThread) (hheap : thread.heap = [])
    (hholds : thread.holds s.pid = false) (hwf : thread.WellFormed s.pid)
    (hremove : thread ≠ .removeBody) : s.Regular [thread] where
  pid := h.pid
  nodup := h.nodup
  balance object := by
    rw [List.cons_append, List.flatMap_cons, hheap]
    exact h.balance object
  threads other hother := (List.mem_cons.mp hother).elim (fun heq => heq ▸ hwf) (h.threads other)
  slotPid := h.slotPid
  exclusive := by
    rw [List.cons_append, List.countP_cons, hholds]
    exact h.exclusive
  removed := h.removed
  removal hdead := (h.removal hdead).imp_right (List.mem_cons_of_mem thread)
  token hmem := h.token ((List.mem_cons.mp hmem).resolve_left hremove.symm)
  finalized := h.finalized
  closed := h.closed

/-- A step of a thread by which the body may change, come out of the slot or go there, be released
or be lost. -/
theorem Regular.move {thread next : ExitThread} {slot : Option BodySlot}
    {tombstone : Bool} {allocated closed released collected lost : List HeapObject}
    (h : s.Regular [thread]) (hnodup : allocated.Nodup)
    (hbalance : ∀ object, released.count object + lost.count object +
        (HeapBody.ofSlot slot).count object + next.heap.count object + s.allocated.count object =
      s.released.count object + s.lost.count object + (HeapBody.ofSlot s.slot).count object +
        thread.heap.count object + allocated.count object)
    (hwf : next.WellFormed s.pid)
    (hslotPid : ∀ process, slot = some (.present process) → process.pid = s.pid)
    (hexclusive : (next.holds s.pid).toNat + (BodySlot.isPresent slot).toNat ≤
      (thread.holds s.pid).toNat + (BodySlot.isPresent s.slot).toNat)
    (hslot : slot = none ↔ s.slot = none)
    (hthread : thread ≠ .removeBody) (hnext : next ≠ .removeBody)
    (hclosed : ∀ object ∈ released, object.isFd = true → object ∈ closed ∨ object ∈ collected) :
    Regular ⟨s.pid, slot, s.inTable, tombstone, s.threads, s.finalized, allocated, closed, released,
      collected, lost⟩ [next] where
  pid := h.pid
  nodup := hnodup
  balance object := by
    have hbefore := h.balance object
    have hchange := hbalance object
    rw [List.cons_append, List.flatMap_cons, List.count_append] at hbefore ⊢
    dsimp only
    omega
  threads other hother := by
    rcases List.mem_cons.mp hother with rfl | hother
    · exact hwf
    · exact h.threads other (List.mem_cons_of_mem thread hother)
  slotPid := hslotPid
  exclusive := by
    have hbefore := h.exclusive
    have hcount (other : ExitThread) : (if other.holds s.pid = true then 1 else 0) =
        (other.holds s.pid).toNat := by
      cases other.holds s.pid <;> rfl
    rw [List.cons_append, List.countP_cons, hcount] at hbefore ⊢
    dsimp only
    omega
  removed hnone := h.removed (hslot.mp hnone)
  removal hdead := (h.removal hdead).imp hslot.mpr fun hmem =>
    List.mem_cons_of_mem next ((List.mem_cons.mp hmem).resolve_left hthread.symm)
  token hmem := h.token
    (List.mem_cons_of_mem thread ((List.mem_cons.mp hmem).resolve_left hnext.symm))
  finalized := h.finalized
  closed := hclosed

theorem Regular.takeRunnable (h : s.Regular [.takeRunnable]) : s.takeRunnable.Regular [] := by
  rw [BodySystem.takeRunnable]
  split
  next process hslot =>
    refine Regular.start (h.move h.nodup (fun object => ?_) (h.slotPid process hslot) (by simp)
      ?_ ?_ (by simp) (by simp) h.closed)
    · simp [hslot, HeapBody.ofSlot, ExitThread.heap]
    · simp [hslot, ExitThread.holds, BodySlot.isPresent]
    · simp [hslot]
  next => exact h.finish rfl (by simp)

/-- A released descriptor has been closed before. -/
theorem Regular.closed_release (h : s.Regular hand) (heap : List HeapObject) (object : HeapObject)
    (hobject : object ∈ s.released ++ heap) (hfd : object.isFd = true) :
    object ∈ s.closed ++ heap.filter (·.isFd) ∨ object ∈ s.collected := by
  rcases List.mem_append.mp hobject with hobject | hobject
  · exact (h.closed object hobject hfd).imp_left (List.mem_append_left _)
  · exact .inl (List.mem_append_right _ (List.mem_filter.mpr ⟨hobject, hfd⟩))

/-- The outcome of a slice carries the body. -/
theorem Regular.carry {process : HeapBody} (h : s.Regular [.slice process])
    {outcome : SliceOutcome} (houtcome : outcome.process? = some process) :
    (s.start (.checkTombstone .placeholder outcome)).Regular [] := by
  have hpid : process.pid = s.pid := h.threads _ (List.mem_cons_self ..)
  refine Regular.start (h.move h.nodup (fun object => ?_) ?_ h.slotPid (Nat.le_refl _) Iff.rfl
    (by simp) (by simp) h.closed)
  · simp [ExitThread.heap, houtcome, HeapBody.placeholder]
  · rw [ExitThread.WellFormed.eq_def]
    simp [houtcome, hpid]

theorem Regular.endSlice {process : HeapBody} (h : s.Regular [.slice process]) (how : SliceEnd) :
    (s.endSlice process how).Regular [] := by
  have hpid : process.pid = s.pid := h.threads _ (List.mem_cons_self ..)
  cases how with
  | yielded => exact h.carry rfl
  | waiting => exact h.carry rfl
  | suspended => exact h.carry rfl
  | exited terminates =>
    cases terminates with
    | true =>
      refine Regular.start (h.move h.nodup (fun object => ?_) hpid h.slotPid (Nat.le_refl _) Iff.rfl
        (by simp) (by simp) (h.closed_release process.heap))
      simp [ExitThread.heap, SliceOutcome.process?, List.count_append]
      omega
    | false =>
      refine Regular.start (h.move h.nodup (fun object => ?_) hpid h.slotPid (Nat.le_refl _) Iff.rfl
        (by simp) (by simp) h.closed)
      simp [ExitThread.heap, SliceOutcome.process?]

theorem Regular.checkTombstone {process : HeapBody} {outcome : SliceOutcome}
    (h : s.Regular [.checkTombstone process outcome]) :
    (s.checkTombstone process outcome).Regular [] := by
  have hwf := h.threads _ (List.mem_cons_self ..)
  rw [ExitThread.WellFormed.eq_def] at hwf
  rw [BodySystem.checkTombstone]
  cases hcarried : outcome.process? with
  | none =>
    simp only [hcarried] at hwf ⊢
    refine Regular.start (h.move h.nodup (fun object => ?_) (.inl hwf) h.slotPid ?_ Iff.rfl
      (by simp) (by simp) h.closed)
    · simp [ExitThread.heap, hcarried]
    · simp [ExitThread.holds, hwf]
  | some carried =>
    simp only [hcarried] at hwf ⊢
    obtain ⟨rfl, hpid⟩ := hwf
    cases htombstone : s.tombstone with
    | true =>
      refine Regular.start (h.move h.nodup (fun object => ?_) (.inr rfl) h.slotPid ?_ Iff.rfl
        (by simp) (by simp) h.closed)
      · simp [ExitThread.heap, hcarried, List.count_append, HeapBody.placeholder]
        omega
      · exact Nat.add_le_add_right (Bool.toNat_le _) _
    | false =>
      refine Regular.start (h.move h.nodup (fun object => ?_) (.inl hpid) h.slotPid ?_ Iff.rfl
        (by simp) (by simp) h.closed)
      · simp [ExitThread.heap, hcarried, HeapBody.placeholder]
      · simp [ExitThread.holds, hpid]

theorem fresh_nodup (h : s.Regular hand) (objects : List HeapObject) :
    (s.allocated ++ s.fresh objects).Nodup := by
  refine h.nodup.append (List.nodup_dedup _) fun object hold hnew => ?_
  have hfilter := List.mem_filter.mp (List.mem_dedup.mp hnew)
  exact of_decide_eq_true hfilter.2 hold

theorem Regular.storeBody {process : HeapBody} {after : AfterStore}
    (h : s.Regular [.storeRunnable process after]) (merged : List HeapObject) (next : ExitThread)
    (hheap : next.heap = []) (hholds : next.holds s.pid = false) (hwf : next.WellFormed s.pid)
    (hremove : next ≠ .removeBody) : (s.storeBody process merged).Regular [next] := by
  have hrelease : (s.release process.heap).Regular [next] := by
    refine h.move h.nodup (fun object => ?_) hwf h.slotPid ?_ Iff.rfl (by simp) hremove
      (h.closed_release process.heap)
    · rw [hheap]
      simp [ExitThread.heap, List.count_append]
      omega
    · rw [hholds]
      exact Nat.add_le_add_right (Nat.zero_le _) _
  rw [BodySystem.storeBody]
  split
  next hpid =>
    have hholder : ExitThread.holds s.pid (.storeRunnable process after) = true :=
      decide_eq_true hpid
    cases hslot : s.slot with
    | none =>
      rw [if_neg (Bool.not_eq_true _ ▸ h.removed hslot)]
      exact hrelease
    | some slot =>
      cases slot with
      | executing =>
        refine h.move (fresh_nodup h merged) (fun object => ?_) hwf ?_ ?_ ?_ (by simp) hremove
          h.closed
        · rw [hheap]
          simp [hslot, HeapBody.ofSlot, ExitThread.heap, List.count_append]
          omega
        · rintro q hq
          obtain rfl := BodySlot.present.inj (Option.some.inj hq)
          exact hpid
        · simp [hholds, hholder, hslot, BodySlot.isPresent]
        · simp [hslot]
      | present old =>
        have hexclusive := h.exclusive
        rw [List.cons_append, List.countP_cons, hslot, hholder] at hexclusive
        simp [BodySlot.isPresent] at hexclusive
  next => exact hrelease

theorem Regular.storeRunnable {process : HeapBody} {after : AfterStore}
    (h : s.Regular [.storeRunnable process after]) (merged : List HeapObject) :
    (s.storeRunnable process merged after).Regular [] := by
  cases after with
  | cleanup => exact (h.storeBody merged .cleanupExited rfl rfl trivial (by simp)).start
  | recheck => exact (h.storeBody merged .cleanupIfTombstoned rfl rfl trivial (by simp)).start

/-- The tombstone does not matter to where the body is. -/
theorem Regular.mark (h : s.Regular hand) (tombstone : Bool) :
    Regular { s with tombstone := tombstone } hand :=
  ⟨h.pid, h.nodup, h.balance, h.threads, h.slotPid, h.exclusive, h.removed, h.removal, h.token,
    h.finalized, h.closed⟩

theorem Regular.finalize (h : s.Regular [.finalize]) : (s.advance [] .finalize).Regular [] := by
  rw [advance]
  split
  next htable =>
    refine Regular.start ⟨h.pid, h.nodup, h.balance, ?_, h.slotPid, h.exclusive, fun _ => rfl, ?_,
      fun _ => rfl, ?_, h.closed⟩
    · intro thread hthread
      rcases List.mem_cons.mp hthread with rfl | hthread
      · trivial
      · exact h.threads thread (List.mem_cons_of_mem _ hthread)
    · exact fun _ => .inr (List.mem_cons_self ..)
    · have hfinalized := h.finalized
      rw [if_pos htable] at hfinalized
      simp [hfinalized]
  next => exact h.finish rfl (by simp)

theorem Regular.removeBody (h : s.Regular [.removeBody]) : s.removeBody.Regular [] := by
  have hdead : s.inTable = false := h.token (List.mem_cons_self ..)
  have hthreads (thread : ExitThread) (hmem : thread ∈ s.threads) : thread.WellFormed s.pid :=
    h.threads thread (List.mem_cons_of_mem _ hmem)
  have hexclusive := h.exclusive
  rw [List.cons_append, List.nil_append, List.countP_cons] at hexclusive
  have hbalance := h.balance
  rw [BodySystem.removeBody]
  split
  next process hslot =>
    refine ⟨h.pid, h.nodup, fun object => ?_, hthreads, fun _ hq => (by cases hq), ?_,
      fun _ => hdead, fun _ => .inl rfl, fun _ => hdead, h.finalized, h.closed_release process.heap⟩
    · have hobject := hbalance object
      rw [hslot] at hobject
      simp [release, HeapBody.ofSlot, ExitThread.heap, List.count_append] at hobject ⊢
      omega
    · exact Nat.le_trans (Nat.le_add_right ..) (Nat.le_trans (Nat.le_add_right ..) hexclusive)
  next hslot =>
    have hempty : HeapBody.ofSlot s.slot = [] := by
      cases hs : s.slot with
      | none => rfl
      | some slot =>
        cases slot with
        | executing => rfl
        | present process => exact absurd hs (hslot process)
    refine ⟨h.pid, h.nodup, fun object => ?_, hthreads, fun _ hq => (by cases hq), ?_,
      fun _ => hdead, fun _ => .inl rfl, fun _ => hdead, h.finalized, h.closed⟩
    · have hobject := hbalance object
      rwa [hempty] at hobject
    · exact Nat.le_trans (Nat.le_add_right ..) (Nat.le_trans (Nat.le_add_right ..) hexclusive)

theorem Regular.receiveExit (h : s.Regular []) (next : ExitThread) (hheap : next.heap = [])
    (hholds : next.holds s.pid = false) (hwf : next.WellFormed s.pid)
    (hremove : next ≠ .removeBody) (marks : Bool) : (s.receiveExit next marks).Regular [] := by
  rw [BodySystem.receiveExit]
  split
  next process hslot =>
    split
    next => exact h
    next =>
      have hbegin := h.begin next hheap hholds hwf hremove
      refine Regular.start (hbegin.move h.nodup (fun object => ?_) hwf ?_
        (by simp [hslot, BodySlot.isPresent]) (by simp [hslot]) hremove hremove
        (h.closed_release process.heap))
      · simp [hslot, HeapBody.ofSlot, List.count_append]
        omega
      · rintro q hq
        obtain rfl := BodySlot.present.inj (Option.some.inj hq)
        exact h.slotPid process hslot
  next => exact h.mark true
  next => exact h

theorem Regular.allocate {process : HeapBody} (h : s.Regular [.slice process])
    (objects : List HeapObject) :
    Regular { s with allocated := s.allocated ++ s.fresh objects }
      [.slice { process with heap := process.heap ++ s.fresh objects }] := by
  have hpid : process.pid = s.pid := h.threads _ (List.mem_cons_self ..)
  refine h.move (fresh_nodup h objects) (fun object => ?_) hpid h.slotPid (Nat.le_refl _) Iff.rfl
    (by simp) (by simp) h.closed
  simp [ExitThread.heap, List.count_append]
  omega

theorem Regular.collect {process : HeapBody} (h : s.Regular [.slice process])
    (dead : HeapObject → Bool) :
    Regular
      { s with
        released := s.released ++ process.heap.filter dead
        collected := s.collected ++ process.heap.filter dead }
      [.slice { process with heap := process.heap.filter fun object => !dead object }] := by
  have hpid : process.pid = s.pid := h.threads _ (List.mem_cons_self ..)
  refine h.move h.nodup (fun object => ?_) hpid h.slotPid (Nat.le_refl _) Iff.rfl (by simp)
    (by simp) fun object hobject hfd => ?_
  · have hsplit := (List.filter_append_perm dead process.heap).count_eq object
    rw [List.count_append] at hsplit
    simp only [ExitThread.heap, List.count_append]
    omega
  · rcases List.mem_append.mp hobject with hobject | hobject
    · exact (h.closed object hobject hfd).imp_right (List.mem_append_left _)
    · exact .inr (List.mem_append_right _ hobject)

theorem Regular.advance {thread : ExitThread} (h : s.Regular [thread])
    (merged : List HeapObject) : (s.advance merged thread).Regular [] := by
  have hbegin (next : ExitThread) (hheap : thread.heap = []) (hremove : thread ≠ .removeBody)
      (hnext : next.heap = []) (hholds : next.holds s.pid = false) (hwf : next.WellFormed s.pid)
      (hnext' : next ≠ .removeBody) : (s.start next).Regular [] :=
    ((h.finish hheap hremove).begin next hnext hholds hwf hnext').start
  cases thread with
  | runProcess =>
    rw [BodySystem.advance]
    split
    next => exact hbegin .takeRunnable rfl (by simp) rfl rfl trivial (by simp)
    next => exact h.finish rfl (by simp)
  | takeRunnable => exact h.takeRunnable
  | slice process => exact h.start
  | checkTombstone process outcome => exact h.checkTombstone
  | storeRunnable process next => exact h.storeRunnable merged
  | cleanupIfTombstoned =>
    rw [BodySystem.advance]
    split
    next => exact hbegin .cleanupExited rfl (by simp) rfl rfl trivial (by simp)
    next => exact h.finish rfl (by simp)
  | cleanupExited => exact (hbegin .finalize rfl (by simp) rfl rfl trivial (by simp)).mark true
  | finalize => exact h.finalize
  | removeBody => exact h.removeBody

theorem Regular.step (h : s.Regular []) (a : BodyAction) : (s.step a).Regular [] := by
  cases a with
  | advance thread merged =>
    rw [BodySystem.step]
    split
    next hmem => exact (h.erase hmem).advance merged
    next => exact h
  | allocate process objects =>
    rw [BodySystem.step]
    split
    next hmem => exact ((h.erase hmem).allocate objects).start
    next => exact h
  | collect process dead =>
    rw [BodySystem.step]
    split
    next hmem => exact ((h.erase hmem).collect dead).start
    next => exact h
  | endSlice process how =>
    rw [BodySystem.step]
    split
    next hmem => exact (h.erase hmem).endSlice how
    next => exact h
  | schedule => exact (h.begin .runProcess rfl rfl trivial (by simp)).start
  | exitSignal => exact h.receiveExit .cleanupExited rfl rfl trivial (by simp) false
  | processExitSignal => exact h.receiveExit .finalize rfl rfl trivial (by simp) true
  | terminateProcess =>
    rw [BodySystem.step]
    split
    next => exact h
    next => exact (h.begin .cleanupExited rfl rfl trivial (by simp)).start
  | evictTombstone => exact h.mark false

theorem regular_spawn {pid : ℕ} (hpid : pid ≠ placeholderPid) : (spawn pid).Regular [] where
  pid := hpid
  nodup := List.nodup_nil
  balance _ := rfl
  threads _ h := absurd h List.not_mem_nil
  slotPid process h := by
    obtain rfl := BodySlot.present.inj (Option.some.inj h)
    rfl
  exclusive := Nat.le_refl _
  removed h := by cases h
  removal h := by cases h
  token h := absurd h List.not_mem_nil
  finalized := rfl
  closed _ h := absurd h List.not_mem_nil

/-! ## Lost bodies -/

/-- As long as nothing is lost, what was allocated is accounted for. -/
theorem Regular.disposedOnce_iff (h : s.Regular []) : s.DisposedOnce ↔ s.lost = [] := by
  have hcount (object : HeapObject) : s.released.count object + s.lost.count object +
      s.live.count object = s.allocated.count object := by
    rw [live, List.count_append, ← Nat.add_assoc]
    exact h.balance object
  have hone (object : HeapObject) : s.allocated.count object ≤ 1 :=
    List.nodup_iff_count_le_one.mp h.nodup object
  constructor
  · intro hdisposed
    refine List.eq_nil_iff_forall_not_mem.mpr fun object hlost => ?_
    have hlostCount := List.count_pos_iff.mpr hlost
    have hobject := hcount object
    have hle := hone object
    rcases hdisposed.kept object (List.count_pos_iff.mp (by omega)) with hmem | hmem
    · have hpos := List.count_pos_iff.mpr hmem
      omega
    · have hpos := List.count_pos_iff.mpr hmem
      omega
  · intro hlost
    have hbalance (object : HeapObject) :
        s.released.count object + s.live.count object = s.allocated.count object := by
      have hobject := hcount object
      rwa [hlost, List.count_nil, Nat.add_zero] at hobject
    refine ⟨fun object => ?_, fun object hobject => ?_, h.closed, h.finalized, ?_⟩
    · have hobject := hbalance object
      have hle := hone object
      omega
    · have hpos := List.count_pos_iff.mpr hobject
      have hsum := hbalance object
      by_cases hreleased : object ∈ s.released
      · exact .inl hreleased
      · rw [List.count_eq_zero_of_not_mem hreleased] at hsum
        exact .inr (List.count_pos_iff.mp (by omega))
    · intro hthreads hdead object hobject
      have hslot : s.slot = none := by
        refine (h.removal hdead).resolve_right ?_
        rw [hthreads]
        exact List.not_mem_nil
      have hlive : s.live = [] := by
        rw [live, hthreads, hslot]
        rfl
      have hsum := hbalance object
      rwa [hlive, List.count_nil, Nat.add_zero, List.count_eq_one_of_mem h.nodup hobject] at hsum

theorem lost_storeBody {process : HeapBody} {after : AfterStore}
    (h : s.Regular [.storeRunnable process after]) (merged : List HeapObject) :
    (s.storeBody process merged).lost = s.lost := by
  rw [storeBody]
  split
  next hpid =>
    cases hslot : s.slot with
    | none =>
      dsimp only
      split <;> rfl
    | some slot =>
      cases slot with
      | executing => rfl
      | present old =>
        have hholder : ExitThread.holds s.pid (.storeRunnable process after) = true :=
          decide_eq_true hpid
        have hexclusive := h.exclusive
        rw [List.cons_append, List.countP_cons, hslot, hholder] at hexclusive
        simp [BodySlot.isPresent] at hexclusive
  next => rfl

/-- What a thread loses in its next step. -/
def loses (s : BodySystem) : ExitThread → List HeapObject
  | .checkTombstone _ outcome =>
    if s.tombstone then (outcome.process?.map (·.heap)).getD [] else []
  | _ => []

theorem lost_advance {thread : ExitThread} (h : s.Regular [thread]) (merged : List HeapObject) :
    (s.advance merged thread).lost = s.lost ++ s.loses thread := by
  cases thread with
  | runProcess => rw [advance]; split <;> exact (List.append_nil _).symm
  | takeRunnable =>
    rw [advance, takeRunnable]
    split <;> exact (List.append_nil _).symm
  | slice process => exact (List.append_nil _).symm
  | checkTombstone process outcome =>
    have hwf := h.threads _ (List.mem_cons_self ..)
    rw [ExitThread.WellFormed.eq_def] at hwf
    rw [advance, checkTombstone, loses]
    cases hcarried : outcome.process? with
    | none => cases s.tombstone <;> exact (List.append_nil _).symm
    | some carried =>
      simp only [hcarried] at hwf
      obtain ⟨rfl, -⟩ := hwf
      cases s.tombstone <;> rfl
  | storeRunnable process next =>
    have hlost := lost_storeBody h merged
    cases next <;> exact hlost.trans (List.append_nil _).symm
  | cleanupIfTombstoned => rw [advance]; split <;> exact (List.append_nil _).symm
  | cleanupExited => exact (List.append_nil _).symm
  | finalize => rw [advance]; split <;> exact (List.append_nil _).symm
  | removeBody =>
    rw [advance, removeBody]
    split <;> exact (List.append_nil _).symm

/-- Only a worker that finds a tombstone loses anything. -/
theorem lost_step_iff (h : s.Regular []) (hlost : s.lost = []) (a : BodyAction) :
    (s.step a).lost = [] ↔ s.HandsOver a := by
  cases a with
  | advance thread merged =>
    rw [step]
    split
    next hmem =>
      rw [lost_advance (h.erase hmem) merged, hlost, List.nil_append]
      cases thread with
      | checkTombstone process outcome =>
        rw [HandsOver, imp_iff_right hmem, loses]
        cases hcarried : outcome.process? with
        | none => simp
        | some carried => simp
      | _ => exact iff_of_true rfl trivial
    next hmem =>
      refine iff_of_true hlost ?_
      cases thread with
      | checkTombstone process outcome => exact fun h => absurd h hmem
      | _ => trivial
  | allocate process objects =>
    refine iff_of_true ?_ trivial
    rw [step]
    split <;> exact hlost
  | collect process dead =>
    refine iff_of_true ?_ trivial
    rw [step]
    split <;> exact hlost
  | endSlice process how =>
    refine iff_of_true ?_ trivial
    rw [step]
    split
    next => rcases how with _ | _ | _ | _ | _ <;> exact hlost
    next => exact hlost
  | schedule => exact iff_of_true hlost trivial
  | exitSignal =>
    refine iff_of_true ?_ trivial
    rw [step, receiveExit]
    split
    next => split <;> exact hlost
    next => exact hlost
    next => exact hlost
  | processExitSignal =>
    refine iff_of_true ?_ trivial
    rw [step, receiveExit]
    split
    next => split <;> exact hlost
    next => exact hlost
    next => exact hlost
  | terminateProcess =>
    refine iff_of_true ?_ trivial
    rw [step]
    split <;> exact hlost
  | evictTombstone => exact iff_of_true hlost trivial

/-- Every body is disposed of once all along a run exactly if no worker that finds a tombstone after
a slice lets an outcome go that carries a body with objects. -/
theorem bodies_disposed_once_iff (pid : ℕ) (hpid : pid ≠ placeholderPid)
    (actions : List BodyAction) :
    (∀ n, ((actions.take n).foldl step (spawn pid)).DisposedOnce) ↔
      Runs.Meets step HandsOver (spawn pid) actions := by
  have hregular : ∀ n, ((actions.take n).foldl step (spawn pid)).Regular [] := by
    intro n
    exact List.foldlRecOn (motive := fun s : BodySystem => s.Regular []) (actions.take n) _
      (regular_spawn hpid) fun _ hs a _ => hs.step a
  rw [← Runs.forall_take_iff (I := fun s => Regular s [] ∧ s.lost = []) ?_ ?_]
  · exact forall_congr' fun n =>
      (hregular n).disposedOnce_iff.trans (and_iff_right (hregular n)).symm
  · rintro s a ⟨hs, hlost⟩
    exact (and_iff_right (hs.step a)).trans (lost_step_iff hs hlost a)
  · exact ⟨regular_spawn hpid, rfl⟩

/-- A slice that opens a descriptor and waits, with an exit signal after its end. -/
theorem bodies_disposed_once_waiting :
    ([.schedule, .advance .runProcess [], .advance .takeRunnable [],
      .allocate ⟨1, false, []⟩ [⟨0, true⟩], .endSlice ⟨1, false, [⟨0, true⟩]⟩ .waiting,
      .advance (.checkTombstone .placeholder (.wait ⟨1, false, [⟨0, true⟩]⟩)) [],
      .exitSignal].foldl step (spawn 1)).DisposedOnce := by
  have hmeets : Runs.Meets step HandsOver (spawn 1)
      [.schedule, .advance .runProcess [], .advance .takeRunnable [],
        .allocate ⟨1, false, []⟩ [⟨0, true⟩], .endSlice ⟨1, false, [⟨0, true⟩]⟩ .waiting,
        .advance (.checkTombstone .placeholder (.wait ⟨1, false, [⟨0, true⟩]⟩)) [],
        .exitSignal] := by
    refine ⟨trivial, trivial, trivial, trivial, trivial, ?_, trivial, trivial⟩
    intro _ htombstone
    cases htombstone
  exact (bodies_disposed_once_iff 1 (by decide) _).mpr hmeets 7

/-- The same with the exit signal during the slice: the process is finalized, and the descriptor is
neither closed nor released. -/
theorem not_bodies_disposed_once :
    ¬ ([.schedule, .advance .runProcess [], .advance .takeRunnable [],
      .allocate ⟨1, false, []⟩ [⟨0, true⟩], .exitSignal,
      .endSlice ⟨1, false, [⟨0, true⟩]⟩ .waiting,
      .advance (.checkTombstone .placeholder (.wait ⟨1, false, [⟨0, true⟩]⟩)) [],
      .advance (.storeRunnable .placeholder .cleanup) [], .advance .cleanupExited [],
      .advance .finalize [], .advance .removeBody []].foldl step (spawn 1)).DisposedOnce := by
  intro h
  have hcount := h.disposed (by decide +kernel) (by decide +kernel) ⟨0, true⟩ (by decide +kernel)
  revert hcount
  decide +kernel

end BodySystem
end Beamr.Scheduler
