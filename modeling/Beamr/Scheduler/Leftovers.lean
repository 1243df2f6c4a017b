import Beamr.Lib.Runs
import Beamr.Lib.Sweep

/-!
# What a dead process leaves behind

The entries of one pid in the maps of the scheduler that are keyed by pids, the parties that insert
and remove them step by step, and the finalizer that sweeps each map once, when the pid leaves the
process table. Pids are never reused, so nobody sweeps a map a second time.
-/
namespace Beamr.Scheduler

inductive PidMap
  | processBodies
  | waiting
  | woken
  | expiredReceiveTimers
  | suspensions
  | suspensionResults
  | pendingResumes
  | fileIoResults
  deriving DecidableEq

/-- The arms of `run_process`. -/
inductive SliceArm
  | requeue
  | wait
  | suspended
  | exited
  deriving DecidableEq

/-- The parties at work on the pid, each with what it does next. -/
inductive PidThread
  | materializeSpawn
  | pushWoken
  | runProcess
  | takeRunnable
  | slice
  | checkTombstone (arm : SliceArm)
  | storeRunnable (arm : SliceArm) (tombstoned : Bool)
  | reinsertBody (arm : SliceArm) (tombstoned : Bool)
  | checkAfterStore (arm : SliceArm)
  | registerWait
  | selfWake
  | registerSuspended
  | recheckSuspended
  | insertEntry (map : PidMap)
  | recheckTable (map : PidMap)
  | withdraw (map : PidMap)
  | wake (again : Bool)
  | cleanup
  | finalize
  | sweep (left : List (List PidMap))
  deriving DecidableEq

/-- The maps a thread will still clear of a pid that is not in the process table. -/
def PidThread.watches : PidThread → PidMap → Prop
  | .recheckTable map, other => other = map
  | .withdraw map, other => other = map
  | .sweep left, other => ∃ maps ∈ left, other ∈ maps
  | _, _ => False

/-- A thread that watches no map. -/
def PidThread.idle : PidThread → Bool
  | .recheckTable _ => false
  | .withdraw _ => false
  | .sweep _ => false
  | _ => true

theorem PidThread.not_watches (thread : PidThread) (hidle : thread.idle = true) (map : PidMap) :
    ¬ thread.watches map := by
  cases thread with
  | recheckTable _ => cases hidle
  | withdraw _ => cases hidle
  | sweep _ => cases hidle
  | _ => exact not_false

/-- The maps in the order in which `finalize_exited_process` sweeps them, those under one lock
together. -/
def sweepOrder : List (List PidMap) :=
  [[.processBodies], [.waiting, .woken], [.expiredReceiveTimers], [.suspensions],
    [.suspensionResults], [.pendingResumes], [.fileIoResults]]

structure PidSystem where
  /-- The request is still in an injection queue, or its spawner has not built the process. -/
  injected : Bool
  inTable : Bool
  tombstone : Bool
  executing : Bool
  standardIo : Bool
  entry : PidMap → Bool
  threads : List PidThread

namespace PidSystem

variable (s : PidSystem)

/-- A pid that has just been put into the process table. -/
def new (standardIo : Bool) : PidSystem :=
  ⟨true, true, false, false, standardIo, fun _ => false, []⟩

def insert (map : PidMap) : PidSystem := { s with entry := Function.update s.entry map true }

def remove (maps : List PidMap) : PidSystem :=
  { s with entry := fun map => s.entry map && !maps.contains map }

def start (thread : PidThread) : PidSystem := { s with threads := thread :: s.threads }

/-- From the waiting map to the woken list, in one critical section. -/
def moveToWoken : PidSystem :=
  if s.entry .waiting then (s.remove [.waiting]).insert .woken else s

/-- What the arm of an outcome does once the body is back in its slot. -/
def enterArm : SliceArm → PidSystem
  | .requeue => s
  | .wait => s.start .registerWait
  | .suspended => s.start .registerSuspended
  | .exited => s.start .cleanup

/-- After `store_runnable_process`. -/
def stored (arm : SliceArm) (tombstoned : Bool) : PidSystem :=
  if tombstoned || decide (arm = .exited) then s.start .cleanup else s.start (.checkAfterStore arm)

/-- One step of a thread. The flag settles what depends on data other than the entries: whether a
spawn goes through the woken list, whether a newer result is in place, whether an event is there
that makes a wake worth it. -/
def run : PidThread → Bool → PidSystem
  | .materializeSpawn, throughWoken =>
    let s := { s.insert .processBodies with executing := false }
    if throughWoken then s.start .pushWoken else s
  | .pushWoken, _ => s.insert .woken
  | .runProcess, _ => if s.inTable then s.start .takeRunnable else s
  | .takeRunnable, _ =>
    if s.entry .processBodies && !s.executing then
      { s with executing := true }.start .slice
    else s
  | .slice, _ => s.start .slice
  | .checkTombstone arm, _ => s.start (.storeRunnable arm s.tombstone)
  | .storeRunnable arm tombstoned, _ =>
    if s.entry .processBodies then { s with executing := false }.stored arm tombstoned
    else if s.inTable then s.start (.reinsertBody arm tombstoned)
    else s.stored arm tombstoned
  | .reinsertBody arm tombstoned, _ =>
    { s.insert .processBodies with executing := false }.stored arm tombstoned
  | .checkAfterStore arm, _ => if s.tombstone then s.start .cleanup else s.enterArm arm
  | .registerWait, _ => (s.insert .waiting).start (.recheckTable .waiting)
  | .selfWake, wakeWorthy => if wakeWorthy then s.remove [.waiting] else s
  | .registerSuspended, _ => (s.insert .waiting).start .recheckSuspended
  | .recheckSuspended, hasEvent => if hasEvent then s.start (.wake true) else s
  | .insertEntry map, newerInPlace =>
    if map = .suspensionResults ∧ s.entry map = true ∧ newerInPlace = true then s
    else (s.insert map).start (.recheckTable map)
  | .recheckTable map, _ =>
    if s.inTable then
      if map = .waiting then s.start .selfWake
      else if map = .suspensionResults then s
      else s.start (.wake false)
    else s.start (.withdraw map)
  | .withdraw map, _ => s.remove [map]
  | .wake again, moves =>
    let t := if moves then s.moveToWoken else s
    if again && !(moves && s.entry .waiting) then t.start (.wake false) else t
  | .cleanup, _ => { s with tombstone := true }.start .finalize
  | .finalize, _ => if s.inTable then { s with inTable := false }.start (.sweep sweepOrder) else s
  | .sweep [], _ => s
  | .sweep (maps :: left), _ => (s.remove maps).start (.sweep left)

/-- What a slice does to the entries of its process. -/
inductive SliceStep
  | registerSuspensionMirror
  | trackSubmittedFileIo
  | consume (map : PidMap)
  | finish (arm : SliceArm)
  deriving DecidableEq

/-- The maps from which a slice takes the entries of its process. -/
def consumable : List PidMap :=
  [.suspensions, .suspensionResults, .pendingResumes, .fileIoResults, .expiredReceiveTimers]

/-- A step of a running slice. A file operation is found complete at its submission. -/
def runSlice : SliceStep → PidSystem
  | .registerSuspensionMirror => s.insert .suspensions
  | .trackSubmittedFileIo => (s.insert .fileIoResults).start (.wake false)
  | .consume map => if map ∈ consumable then s.remove [map] else s
  | .finish arm => { s with threads := s.threads.erase .slice }.start (.checkTombstone arm)

inductive PidAction
  | advance (thread : PidThread) (choice : Bool)
  | slice (step : SliceStep)
  | drainInjected
  | drainWoken
  | schedule
  | terminateProcess
  | cascade
  | evictTombstone
  | publishSuspensionResult
  | resumeProcess
  | deliverFileIoResult
  | markFiredReceiveTimer
  | wakeProcess
  | sendIoMessage
  deriving DecidableEq

/-- Publishes for the suspension the mirror names, if there is a mirror. -/
def publishSuspensionResult : PidSystem :=
  if s.entry .suspensions then s.start (.insertEntry .suspensionResults) else s

def resumeProcess : PidSystem := s.start (.insertEntry .pendingResumes)

def deliverFileIoResult : PidSystem := s.start (.insertEntry .fileIoResults)

/-- `expire_timers` looks for the pid in the process table first. -/
def markFiredReceiveTimer : PidSystem :=
  if s.inTable then s.start (.insertEntry .expiredReceiveTimers) else s

/-- The standard I/O server is put on the woken list whether it waits or not. -/
def sendIoMessage : PidSystem :=
  if s.entry .processBodies then s.start (if s.standardIo then .pushWoken else .wake false) else s

def step (s : PidSystem) : PidAction → PidSystem
  | .advance thread choice =>
    if thread ∈ s.threads then
      { s with threads := s.threads.erase thread }.run thread choice
    else s
  | .slice sliceStep => if .slice ∈ s.threads then s.runSlice sliceStep else s
  | .drainInjected => if s.injected then { s with injected := false }.start .materializeSpawn else s
  | .drainWoken => s.remove [.woken]
  | .schedule => s.start .runProcess
  | .terminateProcess => if s.tombstone then s else s.start .cleanup
  | .cascade => s.start .finalize
  | .evictTombstone => { s with tombstone := false }
  | .publishSuspensionResult => s.publishSuspensionResult
  | .resumeProcess => s.resumeProcess
  | .deliverFileIoResult => s.deliverFileIoResult
  | .markFiredReceiveTimer => s.markFiredReceiveTimer
  | .wakeProcess => s.start (.wake false)
  | .sendIoMessage => s.sendIoMessage

/-- The map into which a step of a thread inserts without a look at the process table after it. -/
def uncheckedInsert : PidThread → Bool → Option PidMap
  | .materializeSpawn, _ => some .processBodies
  | .pushWoken, _ => some .woken
  | .reinsertBody _ _, _ => some .processBodies
  | .registerSuspended, _ => some .waiting
  | .wake _, moves => if moves && s.entry .waiting then some .woken else none
  | _, _ => none

/-- The map into which an action inserts without a look at the process table after it. -/
def unchecked : PidAction → Option PidMap
  | .advance thread choice => if thread ∈ s.threads then s.uncheckedInsert thread choice else none
  | .slice .registerSuspensionMirror => if .slice ∈ s.threads then some .suspensions else none
  | .slice .trackSubmittedFileIo => if .slice ∈ s.threads then some .fileIoResults else none
  | _ => none

/-- The pid is in the process table, or a finalizer or a recheck of the map is still to come. -/
def Watched (map : PidMap) : Prop := Sweep.Watched PidThread.watches s.inTable s.threads map

/-- An insertion that nobody checks afterwards goes into a map that is still watched. -/
def InsertsWatched (action : PidAction) : Prop :=
  ∀ map, s.unchecked action = some map → s.Watched map

def Covered : Prop := Sweep.Covered PidThread.watches s.inTable s.entry s.threads

/-- Entries of a pid that is not in the process table are on their way out, and with no step in
progress there are none. -/
structure LeavesNothing : Prop where
  covered : ∀ map, s.entry map = true → s.inTable = true ∨ ∃ thread ∈ s.threads, thread.watches map
  quiet : s.threads = [] → s.inTable = false → ∀ map, s.entry map = false

variable {s} {thread : PidThread} {map : PidMap}

theorem covered_start_of_idle (hidle : thread.idle = true) :
    (s.start thread).Covered ↔ s.Covered :=
  Sweep.covered_cons_of_not (thread.not_watches hidle)

theorem watched_start_of_idle (hidle : ¬ thread.watches map) :
    (s.start thread).Watched map ↔ s.Watched map :=
  Sweep.watched_cons_of_not hidle

theorem Covered.start (h : s.Covered) (thread : PidThread) : (s.start thread).Covered :=
  h.cons thread

theorem covered_insert : (s.insert map).Covered ↔ s.Covered ∧ s.Watched map :=
  Sweep.covered_insert

theorem entry_of_remove {maps : List PidMap} (hentry : (s.remove maps).entry map = true) :
    s.entry map = true ∧ map ∉ maps := by
  simpa [remove] using hentry

theorem Covered.remove (h : s.Covered) (maps : List PidMap) : (s.remove maps).Covered :=
  h.subset fun _ hentry => (entry_of_remove hentry).1

theorem covered_moveToWoken (h : s.Covered) :
    s.moveToWoken.Covered ↔ (s.entry .waiting = true → s.Watched .woken) := by
  unfold moveToWoken
  split
  next hwaiting =>
    rw [covered_insert, and_iff_right (h.remove _)]
    exact (imp_iff_right hwaiting).symm
  next hwaiting => exact iff_of_true h fun hentry => absurd hentry hwaiting

theorem Covered.enterArm (h : s.Covered) (arm : SliceArm) : (s.enterArm arm).Covered := by
  cases arm with
  | requeue => exact h
  | wait => exact h.start _
  | suspended => exact h.start _
  | exited => exact h.start _

theorem covered_stored (arm : SliceArm) (tombstoned : Bool) :
    (s.stored arm tombstoned).Covered ↔ s.Covered := by
  unfold PidSystem.stored
  split
  · exact covered_start_of_idle rfl
  · exact covered_start_of_idle rfl

/-- Every map is among those the finalizer sweeps. -/
theorem watches_sweepOrder (map : PidMap) : (PidThread.sweep sweepOrder).watches map := by
  cases map <;> simp [PidThread.watches, sweepOrder]

theorem covered_wake (h : s.Covered) (again moves : Bool) :
    (s.run (.wake again) moves).Covered ↔
      ((moves && s.entry .waiting) = true → s.Watched .woken) := by
  have hmoved : (if moves then s.moveToWoken else s).Covered ↔
      ((moves && s.entry .waiting) = true → s.Watched .woken) := by
    cases moves with
    | false => exact iff_of_true h fun hmoves => absurd hmoves Bool.false_ne_true
    | true => exact covered_moveToWoken h
  rw [← hmoved]
  dsimp only [run]
  split
  · exact covered_start_of_idle rfl
  · exact Iff.rfl

theorem watches_recheckTable (map : PidMap) : (PidThread.recheckTable map).watches map := rfl

/-- A thread that looks once more after its insertion. -/
theorem Covered.insertChecked (h : s.Covered) (map : PidMap) :
    ((s.insert map).start (.recheckTable map)).Covered := by
  have hwatched : (s.start (.recheckTable map)).Watched map :=
    Sweep.watched_cons.mpr (.inl (watches_recheckTable map))
  exact covered_insert.mpr ⟨h.start _, hwatched⟩

theorem Covered.insertEntry (h : s.Covered) (map : PidMap) (newerInPlace : Bool) :
    (s.run (.insertEntry map) newerInPlace).Covered := by
  dsimp only [run]
  split
  · exact h
  · exact h.insertChecked map

theorem Covered.recheckTable (h : (s.start (.recheckTable map)).Covered) (choice : Bool) :
    (s.run (.recheckTable map) choice).Covered := by
  have hlive : s.inTable = true → s.Covered := fun hin _ _ => .inl hin
  dsimp only [run]
  split
  next hin =>
    split
    · exact (hlive hin).start _
    · split
      · exact hlive hin
      · exact (hlive hin).start _
  next => exact Sweep.Covered.remove h (fun _ hentry => hentry) fun _ _ hwatches => hwatches

theorem Covered.withdraw (h : (s.start (.withdraw map)).Covered) (choice : Bool) :
    (s.run (.withdraw map) choice).Covered := by
  intro other hother
  obtain ⟨hentry, hne⟩ := entry_of_remove hother
  have hidle : ¬ (PidThread.withdraw map).watches other := by
    rintro rfl
    exact hne (List.mem_singleton_self _)
  exact (watched_start_of_idle hidle).mp (h other hentry)

theorem Covered.sweep {left : List (List PidMap)} (h : (s.start (.sweep left)).Covered)
    (choice : Bool) : (s.run (.sweep left) choice).Covered := by
  cases left with
  | nil =>
    intro map hentry
    refine (watched_start_of_idle ?_).mp (h map hentry)
    rintro ⟨maps, hmem, _⟩
    cases hmem
  | cons maps left =>
    refine Sweep.Covered.remove h (fun _ hentry => (entry_of_remove hentry).1) ?_
    intro other hother hwatches
    obtain ⟨swept, hmem, hin⟩ := hwatches
    rcases List.mem_cons.mp hmem with rfl | hleft
    · exact absurd hin (entry_of_remove hother).2
    · exact ⟨swept, hleft, hin⟩

/-- A step that inserts nothing unchecked. -/
theorem covered_run_of_none {choice : Bool} {P : PidMap → Prop}
    (hrun : (s.run thread choice).Covered) (hnone : s.uncheckedInsert thread choice = none) :
    (s.run thread choice).Covered ↔
      ∀ map, s.uncheckedInsert thread choice = some map → P map := by
  refine iff_of_true hrun fun map hmap => ?_
  rw [hnone] at hmap
  cases hmap

/-- A step whose insertion nobody checks afterwards. -/
theorem covered_run_of_some {choice : Bool} (hs : s.Covered)
    (hrun : (s.run thread choice).Covered ↔ (s.insert map).Covered)
    (hsome : s.uncheckedInsert thread choice = some map) :
    (s.run thread choice).Covered ↔
      ∀ map, s.uncheckedInsert thread choice = some map → s.Watched map := by
  rw [hrun, covered_insert, and_iff_right hs, hsome]
  simp only [Option.some.injEq, forall_eq']

/-- A thread that watches no map keeps every entry watched exactly if what it inserts unchecked is
watched. -/
theorem covered_run_of_idle (hs : s.Covered) (hidle : thread.idle = true) (choice : Bool) :
    (s.run thread choice).Covered ↔
      ∀ map, s.uncheckedInsert thread choice = some map → s.Watched map := by
  cases thread with
  | recheckTable map => cases hidle
  | withdraw map => cases hidle
  | sweep left => cases hidle
  | materializeSpawn =>
    refine covered_run_of_some hs ?_ rfl
    cases choice with
    | false => exact Iff.rfl
    | true => exact covered_start_of_idle rfl
  | pushWoken => exact covered_run_of_some hs Iff.rfl rfl
  | reinsertBody arm tombstoned =>
    exact covered_run_of_some hs (covered_stored arm tombstoned) rfl
  | registerSuspended => exact covered_run_of_some hs (covered_start_of_idle rfl) rfl
  | wake again =>
    rw [covered_wake hs, uncheckedInsert]
    cases choice && s.entry .waiting with
    | false => simp
    | true => simp
  | insertEntry map => exact covered_run_of_none (hs.insertEntry map choice) rfl
  | runProcess =>
    refine covered_run_of_none ?_ rfl
    dsimp only [run]
    split
    · exact hs.start _
    · exact hs
  | takeRunnable =>
    refine covered_run_of_none ?_ rfl
    dsimp only [run]
    split
    · exact Covered.start (s := { s with executing := true }) hs _
    · exact hs
  | slice => exact covered_run_of_none (hs.start _) rfl
  | checkTombstone arm => exact covered_run_of_none (hs.start _) rfl
  | storeRunnable arm tombstoned =>
    refine covered_run_of_none ?_ rfl
    dsimp only [run]
    split
    · exact (covered_stored arm tombstoned).mpr hs
    · split
      · exact hs.start _
      · exact (covered_stored arm tombstoned).mpr hs
  | checkAfterStore arm =>
    refine covered_run_of_none ?_ rfl
    dsimp only [run]
    split
    · exact hs.start _
    · exact hs.enterArm arm
  | registerWait => exact covered_run_of_none (hs.insertChecked .waiting) rfl
  | selfWake =>
    refine covered_run_of_none ?_ rfl
    dsimp only [run]
    split
    · exact hs.remove _
    · exact hs
  | recheckSuspended =>
    refine covered_run_of_none ?_ rfl
    dsimp only [run]
    split
    · exact hs.start _
    · exact hs
  | cleanup => exact covered_run_of_none (hs.start _) rfl
  | finalize =>
    refine covered_run_of_none ?_ rfl
    dsimp only [run]
    split
    · exact Sweep.covered_of_sweeper watches_sweepOrder
    · exact hs

/-- A step of a thread keeps every entry watched exactly if what it inserts unchecked is watched. -/
theorem covered_run_iff (h : (s.start thread).Covered) (choice : Bool) :
    (s.run thread choice).Covered ↔
      ∀ map, s.uncheckedInsert thread choice = some map → (s.start thread).Watched map := by
  cases hidle : thread.idle with
  | true =>
    have hs : s.Covered := (covered_start_of_idle hidle).mp h
    refine (covered_run_of_idle hs hidle choice).trans ?_
    exact forall_congr' fun map => imp_congr_right fun _ =>
      (watched_start_of_idle (thread.not_watches hidle map)).symm
  | false =>
    cases thread with
    | recheckTable map => exact covered_run_of_none (h.recheckTable choice) rfl
    | withdraw map => exact covered_run_of_none (h.withdraw choice) rfl
    | sweep left => exact covered_run_of_none (h.sweep choice) rfl
    | _ => cases hidle

theorem covered_advance_iff (h : s.Covered) (thread : PidThread) (choice : Bool) :
    (s.step (.advance thread choice)).Covered ↔ s.InsertsWatched (.advance thread choice) := by
  by_cases hmem : thread ∈ s.threads
  · have hperm := List.perm_cons_erase hmem
    have htaken : ({ s with threads := s.threads.erase thread }.start thread).Covered :=
      (Sweep.covered_perm hperm).mp h
    have hwatched : ∀ map, ({ s with threads := s.threads.erase thread }.start thread).Watched map ↔
        s.Watched map := fun _ => (Sweep.watched_perm hperm).symm
    simp only [step, InsertsWatched, unchecked, if_pos hmem, covered_run_iff htaken, hwatched]
    exact Iff.rfl
  · simp only [step, InsertsWatched, unchecked, if_neg hmem, h]
    exact iff_of_true trivial fun _ hmap => by cases hmap

/-- An action that inserts nothing unchecked. -/
theorem insertsWatched_of_none {action : PidAction} (hnone : s.unchecked action = none) :
    s.InsertsWatched action := by
  intro map hmap
  rw [hnone] at hmap
  cases hmap

/-- An insertion by a slice, which nobody checks afterwards. -/
theorem insertsWatched_of_some {action : PidAction} (hsome : s.unchecked action = some map) :
    s.InsertsWatched action ↔ s.Watched map := by
  simp only [InsertsWatched, hsome, Option.some.injEq, forall_eq']

theorem covered_slice_iff (h : s.Covered) (sliceStep : SliceStep) :
    (s.step (.slice sliceStep)).Covered ↔ s.InsertsWatched (.slice sliceStep) := by
  by_cases hmem : PidThread.slice ∈ s.threads
  · rw [step, if_pos hmem]
    cases sliceStep with
    | registerSuspensionMirror =>
      have hsome : s.unchecked (.slice .registerSuspensionMirror) = some .suspensions :=
        if_pos hmem
      rw [insertsWatched_of_some hsome]
      exact covered_insert.trans (and_iff_right h)
    | trackSubmittedFileIo =>
      have hsome : s.unchecked (.slice .trackSubmittedFileIo) = some .fileIoResults := if_pos hmem
      rw [insertsWatched_of_some hsome]
      exact (covered_start_of_idle rfl).trans (covered_insert.trans (and_iff_right h))
    | consume map =>
      refine iff_of_true ?_ (insertsWatched_of_none rfl)
      dsimp only [runSlice]
      split
      · exact h.remove _
      · exact h
    | finish arm =>
      have htaken : ({ s with threads := s.threads.erase .slice }.start .slice).Covered :=
        (Sweep.covered_perm (List.perm_cons_erase hmem)).mp h
      have hrest : ({ s with threads := s.threads.erase .slice }).Covered :=
        (covered_start_of_idle rfl).mp htaken
      exact iff_of_true (hrest.start _) (insertsWatched_of_none rfl)
  · rw [step, if_neg hmem]
    refine iff_of_true h (insertsWatched_of_none ?_)
    cases sliceStep with
    | registerSuspensionMirror => exact if_neg hmem
    | trackSubmittedFileIo => exact if_neg hmem
    | consume map => rfl
    | finish arm => rfl

/-- A step keeps every entry watched exactly if what it inserts unchecked is watched. -/
theorem covered_step_iff (h : s.Covered) (action : PidAction) :
    (s.step action).Covered ↔ s.InsertsWatched action := by
  have hstart : ∀ {condition : Prop} [Decidable condition] {thread : PidThread},
      (if condition then s.start thread else s).Covered := by
    intro condition _ thread
    split
    · exact h.start _
    · exact h
  cases action with
  | advance thread choice => exact covered_advance_iff h thread choice
  | slice sliceStep => exact covered_slice_iff h sliceStep
  | drainInjected =>
    refine iff_of_true ?_ (insertsWatched_of_none rfl)
    dsimp only [step]
    split
    · exact Covered.start (s := { s with injected := false }) h _
    · exact h
  | drainWoken => exact iff_of_true (h.remove _) (insertsWatched_of_none rfl)
  | schedule => exact iff_of_true (h.start _) (insertsWatched_of_none rfl)
  | terminateProcess =>
    refine iff_of_true ?_ (insertsWatched_of_none rfl)
    dsimp only [step]
    split
    · exact h
    · exact h.start _
  | cascade => exact iff_of_true (h.start _) (insertsWatched_of_none rfl)
  | evictTombstone => exact iff_of_true h (insertsWatched_of_none rfl)
  | publishSuspensionResult => exact iff_of_true hstart (insertsWatched_of_none rfl)
  | resumeProcess => exact iff_of_true (h.start _) (insertsWatched_of_none rfl)
  | deliverFileIoResult => exact iff_of_true (h.start _) (insertsWatched_of_none rfl)
  | markFiredReceiveTimer => exact iff_of_true hstart (insertsWatched_of_none rfl)
  | wakeProcess => exact iff_of_true (h.start _) (insertsWatched_of_none rfl)
  | sendIoMessage => exact iff_of_true hstart (insertsWatched_of_none rfl)

theorem leavesNothing_iff : s.LeavesNothing ↔ s.Covered := by
  constructor
  · exact LeavesNothing.covered
  · intro h
    refine ⟨h, fun hthreads hdead => ?_⟩
    rw [Covered, hthreads, hdead] at h
    exact h.empty

theorem covered_new (standardIo : Bool) : (new standardIo).Covered :=
  fun _ hentry => absurd hentry Bool.false_ne_true

/-- All along a run a dead pid leaves nothing behind exactly if every insertion that nobody checks
afterwards is made for a pid in the process table, or before the sweep of its map is over. -/
theorem leaves_nothing_iff (standardIo : Bool) (actions : List PidAction) :
    (∀ n, ((actions.take n).foldl step (new standardIo)).LeavesNothing) ↔
      Runs.Meets step InsertsWatched (new standardIo) actions := by
  simp only [leavesNothing_iff]
  exact Runs.forall_take_iff (I := Covered) (fun _ action h => covered_step_iff h action)
    (covered_new standardIo) actions

/-- A process is killed after its body is stored and before it is put into the waiting map by the
arm of a suspension, which does not look at the process table again. -/
theorem not_leaves_nothing :
    ¬ ([.drainInjected, .advance .materializeSpawn false, .schedule, .advance .runProcess false,
      .advance .takeRunnable false, .slice .registerSuspensionMirror, .slice (.finish .suspended),
      .advance (.checkTombstone .suspended) false,
      .advance (.storeRunnable .suspended false) false,
      .advance (.checkAfterStore .suspended) false, .terminateProcess, .advance .cleanup false,
      .advance .finalize false, .advance (.sweep sweepOrder) false,
      .advance (.sweep (sweepOrder.drop 1)) false, .advance (.sweep (sweepOrder.drop 2)) false,
      .advance (.sweep (sweepOrder.drop 3)) false, .advance (.sweep (sweepOrder.drop 4)) false,
      .advance (.sweep (sweepOrder.drop 5)) false, .advance (.sweep (sweepOrder.drop 6)) false,
      .advance (.sweep []) false, .advance .registerSuspended false,
      .advance .recheckSuspended false].foldl step (new false)).LeavesNothing := by
  intro h
  have hwaiting := h.quiet (by decide +kernel) (by decide +kernel) .waiting
  revert hwaiting
  decide +kernel

end PidSystem
end Beamr.Scheduler
