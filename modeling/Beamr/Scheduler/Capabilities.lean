import Beamr.Lib.Checkout
import Beamr.Lib.Runs
import Mathlib.Logic.Relation

/-!
# Capabilities along spawns

Every spawn of the scheduler reads the capabilities of its caller off the caller's slot, unless
its options ask for a set. A slice has the process attached; a dirty native runs on another thread
without it, and may outlive it. A process may be finalized at any time.
-/
namespace Beamr.Scheduler

open Checkout (Entry Slot)

inductive Capability
  | pure
  | processLocal
  | clock
  | entropy
  | externalIo
  | spawn
  deriving DecidableEq

structure CapabilitySet where
  grants : List Capability
  deriving DecidableEq

namespace CapabilitySet

/-- Repeated capabilities are kept once. -/
def fromSlice (capabilities : List Capability) : CapabilitySet :=
  ⟨capabilities.foldl (fun grants c => if c ∈ grants then grants else grants ++ [c]) []⟩

def all : CapabilitySet :=
  fromSlice [.pure, .processLocal, .clock, .entropy, .externalIo, .spawn]

def contains (set : CapabilitySet) (capability : Capability) : Bool := capability ∈ set.grants

def isSubsetOf (set other : CapabilitySet) : Bool := set.grants.all other.contains

theorem isSubsetOf_iff {set other : CapabilitySet} :
    set.isSubsetOf other ↔ ∀ c ∈ set.grants, c ∈ other.grants := by
  simp [isSubsetOf, contains]

theorem isSubsetOf_refl (set : CapabilitySet) : set.isSubsetOf set :=
  isSubsetOf_iff.mpr fun _ h => h

theorem isSubsetOf_trans {a b c : CapabilitySet} (h : a.isSubsetOf b) (h' : b.isSubsetOf c) :
    a.isSubsetOf c :=
  isSubsetOf_iff.mpr fun x hx => isSubsetOf_iff.mp h' x (isSubsetOf_iff.mp h x hx)

theorem isSubsetOf_all (set : CapabilitySet) : set.isSubsetOf all :=
  isSubsetOf_iff.mpr fun c _ => by cases c <;> decide

end CapabilitySet

inductive Sandbox
  | pure
  | worker
  | supervisor
  | unrestricted

def Sandbox.capabilities : Sandbox → CapabilitySet
  | .pure => .fromSlice []
  | .worker => .fromSlice [.externalIo]
  | .supervisor => .fromSlice [.processLocal, .spawn]
  | .unrestricted => .all

/-- The capabilities that the options ask for, checked against the attached process if there is
one. -/
def attenuateSpawnOptions (capabilities : Option CapabilitySet) (process : Option CapabilitySet) :
    Option (Option CapabilitySet) :=
  match capabilities with
  | none => some none
  | some requested =>
    match process with
    | none => if requested.isSubsetOf .all then some (some requested) else none
    | some held => if requested.isSubsetOf held then some (some requested) else none

/-- Bodies and slot metadata as far as their capabilities go, the pids of the dirty natives that
run, and for each process the set it was created with and who created it. -/
structure CapabilitySystem where
  bodies : ℕ → Entry CapabilitySet CapabilitySet
  nextPid : ℕ
  dirty : List ℕ
  granted : ℕ → Option CapabilitySet
  parent : ℕ → Option ℕ

/-- A process spawns from its slice or from a dirty native on its behalf, by any of the spawn
operations; only those with options name capabilities. -/
inductive CapabilityAction
  | spawnRoot
  | takeRunnable (pid : ℕ)
  | storeRunnable (pid : ℕ)
  | finalize (pid : ℕ)
  | submitDirty (pid : ℕ)
  | finishDirty (pid : ℕ)
  | spawn (pid : ℕ) (capabilities : Option CapabilitySet)
  | dirtySpawn (pid : ℕ) (capabilities : Option CapabilitySet)

namespace CapabilitySystem

def new : CapabilitySystem := ⟨fun _ => .empty, 1, [], fun _ => none, fun _ => none⟩

variable (s : CapabilitySystem)

/-- What the slot of a process says; nothing once the process is finalized. -/
def slotCapabilities (pid : ℕ) : Option CapabilitySet := (s.bodies pid).value id id

def callerCapabilities (pid : ℕ) : CapabilitySet := (s.slotCapabilities pid).getD .all

def insertChild (parent : Option ℕ) (capabilities : CapabilitySet) : CapabilitySystem :=
  { s with
    bodies := Function.update s.bodies s.nextPid (.insert capabilities)
    nextPid := s.nextPid + 1
    granted := Function.update s.granted s.nextPid (some capabilities)
    parent := Function.update s.parent s.nextPid parent }

/-- A spawn by `caller` with the attached process or without one. -/
def spawnChild (caller : ℕ) (process : Option CapabilitySet)
    (capabilities : Option CapabilitySet) : CapabilitySystem :=
  match attenuateSpawnOptions capabilities process with
  | none => s
  | some capabilities =>
    s.insertChild (some caller) (capabilities.getD (s.callerCapabilities caller))

def modifyEntry (pid : ℕ)
    (f : Entry CapabilitySet CapabilitySet → Entry CapabilitySet CapabilitySet) :
    CapabilitySystem :=
  { s with bodies := Function.update s.bodies pid (f (s.bodies pid)) }

def step (s : CapabilitySystem) : CapabilityAction → CapabilitySystem
  | .spawnRoot => s.insertChild none .all
  | .takeRunnable pid => s.modifyEntry pid (Entry.take id)
  | .storeRunnable pid => s.modifyEntry pid (Entry.store fun _ metadata => metadata)
  | .finalize pid => s.modifyEntry pid Entry.remove
  | .submitDirty pid =>
    match (s.bodies pid).held with
    | none => s
    | some _ => { s with dirty := pid :: s.dirty }
  | .finishDirty pid => { s with dirty := s.dirty.erase pid }
  | .spawn pid capabilities =>
    match (s.bodies pid).held with
    | none => s
    | some process => s.spawnChild pid (some process) capabilities
  | .dirtySpawn pid capabilities =>
    if pid ∈ s.dirty then s.spawnChild pid none capabilities else s

/-- A set that a spawn asks for comes from a slice or is within the caller's own set, and a spawn
that asks for none finds the caller's slot, unless the caller has every capability. -/
def Attenuates (s : CapabilitySystem) : CapabilityAction → Prop
  | .spawn pid none => ∀ process, (s.bodies pid).held = some process →
      (s.slotCapabilities pid).isSome ∨ CapabilitySet.all.isSubsetOf process
  | .dirtySpawn pid capabilities => pid ∈ s.dirty → ∀ set, s.granted pid = some set →
      match capabilities with
      | some requested => requested.isSubsetOf set
      | none => (s.slotCapabilities pid).isSome ∨ CapabilitySet.all.isSubsetOf set
  | _ => True

/-- No child has more than its parent was created with. -/
def Confined : Prop :=
  ∀ child parent c p, s.parent child = some parent → s.granted child = some c →
    s.granted parent = some p → c.isSubsetOf p

/-- The slots and bodies agree with the sets the processes were created with. -/
structure Tracked : Prop where
  sound : ∀ pid, (s.bodies pid).Sound
  slot : ∀ pid c, s.slotCapabilities pid = some c → s.granted pid = some c
  held : ∀ pid c, (s.bodies pid).held = some c → s.granted pid = some c
  dirty : ∀ pid ∈ s.dirty, (s.granted pid).isSome
  parent : ∀ child parent, s.parent child = some parent → (s.granted parent).isSome
  fresh : ∀ pid, (s.granted pid).isSome → pid < s.nextPid

variable {s}

theorem tracked_new : new.Tracked where
  sound _ := Entry.sound_empty
  slot _ _ h := by cases h
  held _ _ h := by cases h
  dirty _ h := absurd h List.not_mem_nil
  parent _ _ h := by cases h
  fresh _ h := by cases h

theorem granted_insertChild (parent : Option ℕ) (capabilities : CapabilitySet) (pid : ℕ) :
    (s.insertChild parent capabilities).granted pid =
      if pid = s.nextPid then some capabilities else s.granted pid :=
  Function.update_apply ..

theorem parent_insertChild (parent : Option ℕ) (capabilities : CapabilitySet) (pid : ℕ) :
    (s.insertChild parent capabilities).parent pid =
      if pid = s.nextPid then parent else s.parent pid :=
  Function.update_apply ..

theorem bodies_insertChild (parent : Option ℕ) (capabilities : CapabilitySet) (pid : ℕ) :
    (s.insertChild parent capabilities).bodies pid =
      if pid = s.nextPid then .insert capabilities else s.bodies pid :=
  Function.update_apply ..

theorem bodies_modifyEntry (pid other : ℕ)
    (f : Entry CapabilitySet CapabilitySet → Entry CapabilitySet CapabilitySet) :
    (s.modifyEntry pid f).bodies other =
      if other = pid then f (s.bodies pid) else s.bodies other :=
  Function.update_apply ..

namespace Tracked

/-- A process that is known keeps its set when another one is created. -/
theorem granted_insertChild (h : s.Tracked) {pid : ℕ} (hpid : (s.granted pid).isSome)
    (parent : Option ℕ) (capabilities : CapabilitySet) :
    (s.insertChild parent capabilities).granted pid = s.granted pid := by
  rw [CapabilitySystem.granted_insertChild, if_neg (Nat.ne_of_lt (h.fresh pid hpid))]

theorem insertChild (h : s.Tracked) {parent : Option ℕ} (capabilities : CapabilitySet)
    (hparent : ∀ p, parent = some p → (s.granted p).isSome) :
    (s.insertChild parent capabilities).Tracked where
  sound pid := by
    rw [bodies_insertChild]
    split
    next => exact Entry.sound_insert _
    next => exact h.sound pid
  slot pid c hc := by
    rw [slotCapabilities, bodies_insertChild] at hc
    rw [CapabilitySystem.granted_insertChild]
    split at hc
    next heq =>
      rw [if_pos heq]
      exact hc
    next hne =>
      rw [if_neg hne]
      exact h.slot pid c hc
  held pid c hc := by
    rw [bodies_insertChild] at hc
    rw [CapabilitySystem.granted_insertChild]
    split at hc
    next => cases hc
    next hne =>
      rw [if_neg hne]
      exact h.held pid c hc
  dirty pid hpid := by
    rw [h.granted_insertChild (h.dirty pid hpid)]
    exact h.dirty pid hpid
  parent child p hp := by
    have hknown : (s.granted p).isSome := by
      rw [parent_insertChild] at hp
      split at hp
      next => exact hparent p hp
      next => exact h.parent child p hp
    rw [h.granted_insertChild hknown]
    exact hknown
  fresh pid hpid := by
    have hlt : pid < s.nextPid + 1 := by
      rw [CapabilitySystem.granted_insertChild] at hpid
      split at hpid
      next heq => exact heq ▸ Nat.lt_succ_self _
      next => exact Nat.lt_succ_of_lt (h.fresh pid hpid)
    exact hlt

/-- A step of the slot protocol that keeps the capabilities. -/
theorem modifyEntry (h : s.Tracked) {pid : ℕ}
    {f : Entry CapabilitySet CapabilitySet → Entry CapabilitySet CapabilitySet}
    (hsound : (f (s.bodies pid)).Sound)
    (hslot : ∀ c, (f (s.bodies pid)).value id id = some c → s.granted pid = some c)
    (hheld : ∀ c, (f (s.bodies pid)).held = some c → s.granted pid = some c) :
    (s.modifyEntry pid f).Tracked where
  sound other := by
    rw [bodies_modifyEntry]
    split
    next => exact hsound
    next => exact h.sound other
  slot other c hc := by
    rw [slotCapabilities, bodies_modifyEntry] at hc
    split at hc
    next heq => exact heq ▸ hslot c hc
    next => exact h.slot other c hc
  held other c hc := by
    rw [bodies_modifyEntry] at hc
    split at hc
    next heq => exact heq ▸ hheld c hc
    next => exact h.held other c hc
  dirty := h.dirty
  parent := h.parent
  fresh := h.fresh

theorem takeRunnable (h : s.Tracked) (pid : ℕ) : (s.step (.takeRunnable pid)).Tracked := by
  have hvalue : ((s.bodies pid).take id).value id id = s.slotCapabilities pid :=
    Entry.value_take fun _ => rfl
  refine h.modifyEntry ((h.sound pid).take _) (fun c hc => ?_) fun c hc => ?_
  · exact h.slot pid c (hvalue ▸ hc)
  · rw [Entry.take] at hc
    split at hc
    next body hslot =>
      refine h.slot pid c ?_
      rw [slotCapabilities, Entry.value, hslot]
      exact hc
    next => exact h.held pid c hc

theorem storeRunnable (h : s.Tracked) (pid : ℕ) : (s.step (.storeRunnable pid)).Tracked := by
  have hvalue : ((s.bodies pid).store fun _ metadata => metadata).value id id =
      s.slotCapabilities pid := Entry.value_store (fun _ _ => rfl) (h.sound pid)
  refine h.modifyEntry ((h.sound pid).store _) (fun c hc => ?_) fun c hc => ?_
  · exact h.slot pid c (hvalue ▸ hc)
  · rw [Entry.store] at hc
    split at hc
    next hnone =>
      rw [hnone] at hc
      cases hc
    next => split at hc <;> cases hc

theorem finalize (h : s.Tracked) (pid : ℕ) : (s.step (.finalize pid)).Tracked :=
  h.modifyEntry (Entry.sound_remove _) (fun _ hc => by cases hc) fun c hc => h.held pid c hc

theorem spawnChild (h : s.Tracked) {caller : ℕ} (hcaller : (s.granted caller).isSome)
    (process capabilities : Option CapabilitySet) :
    (s.spawnChild caller process capabilities).Tracked := by
  rw [CapabilitySystem.spawnChild]
  split
  next => exact h
  next =>
    refine h.insertChild _ fun p hp => ?_
    obtain rfl := Option.some.inj hp
    exact hcaller

theorem step (h : s.Tracked) (a : CapabilityAction) : (s.step a).Tracked := by
  cases a with
  | spawnRoot => exact h.insertChild _ fun _ hp => by cases hp
  | takeRunnable pid => exact h.takeRunnable pid
  | storeRunnable pid => exact h.storeRunnable pid
  | finalize pid => exact h.finalize pid
  | submitDirty pid =>
    rw [CapabilitySystem.step]
    split
    next => exact h
    next process hprocess =>
      refine ⟨h.sound, h.slot, h.held, fun other hother => ?_, h.parent, h.fresh⟩
      rcases List.mem_cons.mp hother with rfl | hother
      · exact Option.isSome_of_eq_some (h.held _ process hprocess)
      · exact h.dirty other hother
  | finishDirty pid =>
    exact ⟨h.sound, h.slot, h.held, fun other hother => h.dirty other (List.mem_of_mem_erase hother),
      h.parent, h.fresh⟩
  | spawn pid capabilities =>
    rw [CapabilitySystem.step]
    split
    next => exact h
    next process hprocess =>
      exact h.spawnChild (Option.isSome_of_eq_some (h.held pid process hprocess)) _ _
  | dirtySpawn pid capabilities =>
    rw [CapabilitySystem.step]
    split
    next hpid => exact h.spawnChild (h.dirty pid hpid) _ _
    next => exact h

end Tracked

/-- A new child is confined when its set is within its parent's. -/
theorem confined_insertChild (h : s.Tracked) (hs : s.Confined) {parent : ℕ} {set : CapabilitySet}
    (hparent : s.granted parent = some set) (capabilities : CapabilitySet) :
    (s.insertChild (some parent) capabilities).Confined ↔ capabilities.isSubsetOf set := by
  have hparent' : (s.insertChild (some parent) capabilities).granted parent = some set := by
    rw [h.granted_insertChild (Option.isSome_of_eq_some hparent), hparent]
  constructor
  · intro hall
    refine hall s.nextPid parent capabilities set ?_ ?_ hparent'
    · rw [parent_insertChild, if_pos rfl]
    · rw [granted_insertChild, if_pos rfl]
  · intro hsubset child p c c' hp hc hc'
    rw [parent_insertChild] at hp
    rw [granted_insertChild] at hc
    by_cases heq : child = s.nextPid
    · rw [if_pos heq] at hp hc
      obtain rfl := Option.some.inj hp
      obtain rfl := Option.some.inj hc
      obtain rfl := Option.some.inj (hparent'.symm.trans hc')
      exact hsubset
    · rw [if_neg heq] at hp hc
      rw [h.granted_insertChild (h.parent child p hp)] at hc'
      exact hs child p c c' hp hc hc'

theorem confined_insertRoot (h : s.Tracked) (hs : s.Confined) (capabilities : CapabilitySet) :
    (s.insertChild none capabilities).Confined := by
  intro child p c c' hp hc hc'
  rw [parent_insertChild] at hp
  rw [granted_insertChild] at hc
  by_cases heq : child = s.nextPid
  · rw [if_pos heq] at hp
    cases hp
  · rw [if_neg heq] at hp hc
    rw [h.granted_insertChild (h.parent child p hp)] at hc'
    exact hs child p c c' hp hc hc'

/-- What the caller's slot says is the caller's set, and without a slot it is everything. -/
theorem callerCapabilities_isSubsetOf_iff (h : s.Tracked) {pid : ℕ} {set : CapabilitySet}
    (hset : s.granted pid = some set) :
    (s.callerCapabilities pid).isSubsetOf set ↔
      (s.slotCapabilities pid).isSome ∨ CapabilitySet.all.isSubsetOf set := by
  rw [callerCapabilities]
  cases hslot : s.slotCapabilities pid with
  | none => simp
  | some c =>
    obtain rfl := Option.some.inj ((h.slot pid c hslot).symm.trans hset)
    simp [CapabilitySet.isSubsetOf_refl]

theorem step_confined_iff (h : s.Tracked) (hs : s.Confined) (a : CapabilityAction) :
    (s.step a).Confined ↔ s.Attenuates a := by
  cases a with
  | spawnRoot => exact iff_of_true (confined_insertRoot h hs _) trivial
  | takeRunnable pid => exact iff_of_true hs trivial
  | storeRunnable pid => exact iff_of_true hs trivial
  | finalize pid => exact iff_of_true hs trivial
  | submitDirty pid =>
    rw [step]
    split <;> exact iff_of_true hs trivial
  | finishDirty pid => exact iff_of_true hs trivial
  | spawn pid capabilities =>
    rw [step]
    split
    next hnone =>
      refine iff_of_true hs ?_
      cases capabilities with
      | none => exact fun process hprocess => by simp [hnone] at hprocess
      | some requested => trivial
    next process hprocess =>
      have hset := h.held pid process hprocess
      cases capabilities with
      | none =>
        rw [spawnChild, attenuateSpawnOptions]
        dsimp only
        rw [Option.getD_none, confined_insertChild h hs hset,
          callerCapabilities_isSubsetOf_iff h hset]
        constructor
        · intro hcases other hother
          obtain rfl := Option.some.inj (hprocess.symm.trans hother)
          exact hcases
        · intro hcases
          exact hcases process hprocess
      | some requested =>
        refine iff_of_true ?_ trivial
        rw [spawnChild, attenuateSpawnOptions]
        by_cases hsubset : requested.isSubsetOf process
        · rw [if_pos hsubset]
          exact (confined_insertChild h hs hset _).mpr hsubset
        · rw [if_neg hsubset]
          exact hs
  | dirtySpawn pid capabilities =>
    rw [step]
    split
    next hpid =>
      obtain ⟨set, hset⟩ := Option.isSome_iff_exists.mp (h.dirty pid hpid)
      have hcondition : s.Attenuates (.dirtySpawn pid capabilities) ↔
          match capabilities with
          | some requested => requested.isSubsetOf set
          | none => (s.slotCapabilities pid).isSome ∨ CapabilitySet.all.isSubsetOf set := by
        constructor
        · exact fun hall => hall hpid set hset
        · intro hcases _ other hother
          obtain rfl := Option.some.inj (hset.symm.trans hother)
          exact hcases
      rw [hcondition]
      cases capabilities with
      | none =>
        rw [spawnChild, attenuateSpawnOptions]
        dsimp only
        rw [Option.getD_none, confined_insertChild h hs hset,
          callerCapabilities_isSubsetOf_iff h hset]
      | some requested =>
        rw [spawnChild, attenuateSpawnOptions]
        dsimp only
        rw [if_pos requested.isSubsetOf_all]
        exact confined_insertChild h hs hset _
    next hpid => exact iff_of_true hs fun hmem => absurd hmem hpid

/-- The first process was created by the second one or by a descendant of it. -/
def Descends (s : CapabilitySystem) : ℕ → ℕ → Prop :=
  Relation.TransGen fun child parent => s.parent child = some parent

/-- Confinement of the children is confinement of all descendants. -/
theorem confined_iff_descends (h : s.Tracked) :
    s.Confined ↔ ∀ d a c p, s.Descends d a → s.granted d = some c → s.granted a = some p →
      c.isSubsetOf p := by
  constructor
  · intro hs d a c p hdescends hc
    induction hdescends generalizing p with
    | single hparent => exact hs d _ c p hparent hc
    | @tail b a hdescends hparent ih =>
      intro hp
      obtain ⟨last, -, hlast⟩ := Relation.TransGen.tail'_iff.mp hdescends
      obtain ⟨middle, hmiddle⟩ := Option.isSome_iff_exists.mp (h.parent last b hlast)
      exact CapabilitySet.isSubsetOf_trans (ih middle hmiddle) (hs b _ middle p hparent hmiddle hp)
  · intro hall child parent c p hparent
    exact hall child parent c p (.single hparent)

end CapabilitySystem

open CapabilitySystem in
/-- In every state of a run the descendants of every process are confined to its set, exactly when
the spawns of the run attenuate. -/
theorem capabilities_confined_iff (actions : List CapabilityAction) :
    (∀ k d a c p, let s := (actions.take k).foldl step new
      s.Descends d a → s.granted d = some c → s.granted a = some p → c.isSubsetOf p) ↔
      Runs.Meets step Attenuates new actions := by
  have htracked : ∀ k, ((actions.take k).foldl step new).Tracked := fun k =>
    List.foldlRecOn (actions.take k) _ tracked_new fun _ hs a _ => hs.step a
  have hconfined : new.Confined := fun _ _ _ _ hparent => by cases hparent
  rw [← Runs.forall_take_iff (I := fun s => s.Tracked ∧ s.Confined)
    (fun s a hs => ⟨fun h => (step_confined_iff hs.1 hs.2 a).mp h.2,
      fun h => ⟨hs.1.step a, (step_confined_iff hs.1 hs.2 a).mpr h⟩⟩) ⟨tracked_new, hconfined⟩]
  constructor
  · intro h k
    exact ⟨htracked k, (confined_iff_descends (htracked k)).mpr (h k)⟩
  · intro h k
    exact (confined_iff_descends (htracked k)).mp (h k).2

open CapabilitySystem in
/-- A process in the supervisor sandbox is finalized while a dirty native runs on its behalf. The
native spawns, and the child has every capability. -/
theorem not_capabilities_confined :
    ¬ ∀ (actions : List CapabilityAction) (k d a : ℕ) (c p : CapabilitySet),
      let s := (actions.take k).foldl step new
      s.Descends d a → s.granted d = some c → s.granted a = some p → c.isSubsetOf p := by
  intro h
  have hsubset := h [.spawnRoot, .takeRunnable 1, .spawn 1 (some Sandbox.supervisor.capabilities),
    .takeRunnable 2, .submitDirty 2, .storeRunnable 2, .finalize 2, .dirtySpawn 2 none]
    8 3 2 .all Sandbox.supervisor.capabilities (.single rfl) rfl rfl
  revert hsubset
  decide

end Beamr.Scheduler
