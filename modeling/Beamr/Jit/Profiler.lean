import Beamr.Jit.Operands
import Beamr.Lib.Entries
import Beamr.Lib.Runs

/-!
# The hotness profiler

Every operation on a profile runs under the guard of its map entry, so a run is a sequence of
operations in any order; `remove_module` takes the guards of the map's shards one after the other.
An incarnation of a profile begins when `record_call` mints an epoch for it and ends when the
profile is removed or stamped anew.
-/
namespace Beamr.Jit

open Entries

structure MfaKey where
  module : Atom
  function : Atom
  arity : UInt8
  deriving DecidableEq

inductive ProfileState
  | interpreting | pending | compiled | unsupported
  deriving DecidableEq

structure FunctionProfile where
  counter : UInt32
  state : ProfileState
  generation : UInt64
  epoch : UInt64

def FunctionProfile.new (generation epoch : UInt64) : FunctionProfile :=
  ⟨0, .interpreting, generation, epoch⟩

inductive RecordResult
  | continue
  | compileNow (epoch : UInt64)
  deriving DecidableEq

structure JitProfiler where
  threshold : UInt32
  profiles : List (MfaKey × FunctionProfile)
  nextEpoch : UInt64

namespace JitProfiler

def new (threshold : UInt32) : JitProfiler := ⟨max threshold 1, [], 1⟩

def profile? (p : JitProfiler) (key : MfaKey) : Option FunctionProfile :=
  get (· == ·) p.profiles key

def store (p : JitProfiler) (key : MfaKey) (profile : FunctionProfile) : JitProfiler :=
  { p with profiles := put (· == ·) key profile p.profiles }

/-- The source of epochs; `fetch_add` wraps around. -/
def mint (p : JitProfiler) : UInt64 × JitProfiler :=
  (p.nextEpoch, { p with nextEpoch := p.nextEpoch + 1 })

/-- The profile of the function, made when there is none. -/
def entry (p : JitProfiler) (key : MfaKey) (generation : UInt64) : FunctionProfile × JitProfiler :=
  match p.profile? key with
  | some profile => (profile, p)
  | none =>
    let (epoch, p) := p.mint
    let profile := FunctionProfile.new generation epoch
    (profile, p.store key profile)

/-- A call from a newer generation starts the profile anew. -/
def restamp (p : JitProfiler) (profile : FunctionProfile) (generation : UInt64) :
    FunctionProfile × JitProfiler :=
  if generation > profile.generation then
    let (epoch, p) := p.mint
    ({ profile with generation, epoch, state := .interpreting, counter := 0 }, p)
  else (profile, p)

def saturatingSucc (count : UInt32) : UInt32 := if count = 0xFFFFFFFF then count else count + 1

/-- The rest of `record_call`: an interpreted function counts, and is pending once it is hot. -/
def count (p : JitProfiler) (key : MfaKey) (profile : FunctionProfile) :
    RecordResult × JitProfiler :=
  if profile.state ≠ .interpreting then (.continue, p.store key profile)
  else
    let newCount := saturatingSucc profile.counter
    let profile := { profile with counter := newCount }
    if newCount < p.threshold then (.continue, p.store key profile)
    else (.compileNow profile.epoch, p.store key { profile with state := .pending })

def recordCall (p : JitProfiler) (key : MfaKey) (generation : UInt64) :
    RecordResult × JitProfiler :=
  let (profile, p) := p.entry key generation
  if generation < profile.generation then (.continue, p)
  else
    let (profile, p) := p.restamp profile generation
    p.count key profile

/-- A completion applies only to the profile with its generation and its epoch. -/
def complete (p : JitProfiler) (key : MfaKey) (generation epoch : UInt64)
    (apply : FunctionProfile → FunctionProfile) : Bool × JitProfiler :=
  match p.profile? key with
  | none => (false, p)
  | some profile =>
    if profile.generation ≠ generation || profile.epoch ≠ epoch then (false, p)
    else (true, p.store key (apply profile))

def setState (p : JitProfiler) (key : MfaKey) (generation epoch : UInt64) (state : ProfileState) :
    Bool × JitProfiler :=
  p.complete key generation epoch fun profile => { profile with state }

def markCompiled (p : JitProfiler) (key : MfaKey) (generation epoch : UInt64) :
    Bool × JitProfiler := p.setState key generation epoch .compiled

def markUnsupported (p : JitProfiler) (key : MfaKey) (generation epoch : UInt64) :
    Bool × JitProfiler := p.setState key generation epoch .unsupported

def resetCounter (p : JitProfiler) (key : MfaKey) (generation epoch : UInt64) :
    Bool × JitProfiler :=
  p.complete key generation epoch fun profile => { profile with counter := 0, state := .interpreting }

/-- `retain` on one shard of the map. -/
def removeModuleIn (p : JitProfiler) (shard : MfaKey → Bool) (module : Atom) : JitProfiler :=
  { p with profiles := p.profiles.filter fun e => !(shard e.1 && e.1.module == module) }

end JitProfiler

/-! ## Compilation jobs -/

/-- What the compiler returns for a job. -/
inductive CompileResult (Code : Type)
  | native (code : Code)
  | error (error : JitError)
  | craneliftError

/-- The profiler, and the native code of the cache by function and generation. -/
structure JitTier (Code : Type) where
  profiler : JitProfiler
  cache : List ((MfaKey × UInt64) × Code)

namespace JitTier

variable {Code : Type}

/-- The cache insert runs under the guard, before the state is stored. -/
def publishCompiled (t : JitTier Code) (key : MfaKey) (generation epoch : UInt64) (code : Code) :
    Bool × JitTier Code :=
  match t.profiler.setState key generation epoch .compiled with
  | (true, profiler) => (true, ⟨profiler, put (· == ·) (key, generation) code t.cache⟩)
  | (false, _) => (false, t)

/-- The end of `CompilationJob::run`. -/
def finishJob (t : JitTier Code) (key : MfaKey) (generation epoch : UInt64) :
    CompileResult Code → Bool × JitTier Code
  | .native code => t.publishCompiled key generation epoch code
  | .error .emptyFunction | .craneliftError =>
    (t.profiler.resetCounter key generation epoch).map id fun profiler => { t with profiler }
  | .error .unsupportedOpcode | .error .unsupportedOperand | .error (.unknownLabel _) =>
    (t.profiler.markUnsupported key generation epoch).map id fun profiler => { t with profiler }

/-- What ends a compile request: a job, a refused submission, or the ahead-of-time compiler. -/
inductive Completion (Code : Type)
  | job (result : CompileResult Code)
  | refused
  | markCompiled

def complete (t : JitTier Code) (key : MfaKey) (generation epoch : UInt64) :
    Completion Code → Bool × JitTier Code
  | .job result => t.finishJob key generation epoch result
  | .refused =>
    (t.profiler.resetCounter key generation epoch).map id fun profiler => { t with profiler }
  | .markCompiled =>
    (t.profiler.markCompiled key generation epoch).map id fun profiler => { t with profiler }

/-! ## Runs -/

inductive Action (Code : Type)
  | recordCall (key : MfaKey) (generation : UInt64)
  | complete (key : MfaKey) (generation epoch : UInt64) (completion : Completion Code)
  | removeModule (shard : MfaKey → Bool) (module : Atom)
  | storeThreshold (threshold : UInt32)

def step (t : JitTier Code) : Action Code → JitTier Code
  | .recordCall key generation => { t with profiler := (t.profiler.recordCall key generation).2 }
  | .complete key generation epoch completion => (t.complete key generation epoch completion).2
  | .removeModule shard module => { t with profiler := t.profiler.removeModuleIn shard module }
  | .storeThreshold threshold => { t with profiler := { t.profiler with threshold } }

def start (threshold : UInt32) : JitTier Code := ⟨.new threshold, []⟩

def run (threshold : UInt32) (actions : List (Action Code)) : JitTier Code :=
  actions.foldl step (start threshold)

/-- The epoch that the action mints. -/
def minted (t : JitTier Code) : Action Code → Option UInt64
  | .recordCall key generation =>
    match t.profiler.profile? key with
    | none => some t.profiler.nextEpoch
    | some profile => if profile.generation < generation then some t.profiler.nextEpoch else none
  | _ => none

/-- The action ends the incarnation of the function's profile. -/
def Ends (t : JitTier Code) (key : MfaKey) : Action Code → Prop
  | .recordCall key' generation =>
    key' = key ∧ ∃ profile, t.profiler.profile? key = some profile ∧ profile.generation < generation
  | .removeModule shard module => shard key = true ∧ key.module = module
  | _ => False

/-- The completions that go through `reset_counter`. -/
def Completion.resets : Completion Code → Bool
  | .refused | .job .craneliftError | .job (.error .emptyFunction) => true
  | _ => false

/-- The action is a `reset_counter` of the function that takes effect. -/
def Resets (t : JitTier Code) (key : MfaKey) : Action Code → Prop
  | .complete key' generation epoch completion =>
    key' = key ∧ completion.resets = true ∧ (t.complete key generation epoch completion).1 = true
  | _ => False

/-! ## One call -/

end JitTier

namespace JitProfiler

theorem profile?_store_self (p : JitProfiler) (key : MfaKey) (profile : FunctionProfile) :
    (p.store key profile).profile? key = some profile := get_put_self _ _ _

theorem profile?_store_of_ne (p : JitProfiler) {key key' : MfaKey} (h : key ≠ key')
    (profile : FunctionProfile) : (p.store key profile).profile? key' = p.profile? key' :=
  get_put_of_ne _ h _

/-- The profile that a call counts in, with the epoch it is given. -/
inductive Stamped (p : JitProfiler) (key : MfaKey) (generation : UInt64) : FunctionProfile →
    JitProfiler → Prop
  | created (h : p.profile? key = none) : Stamped p key generation
      (.new generation p.nextEpoch) (p.mint.2.store key (.new generation p.nextEpoch))
  | restamped (old : FunctionProfile) (h : p.profile? key = some old)
      (hlt : old.generation < generation) :
      Stamped p key generation (.new generation p.nextEpoch) p.mint.2
  | same (old : FunctionProfile) (h : p.profile? key = some old)
      (heq : old.generation = generation) : Stamped p key generation old p

/-- A call from an older generation changes nothing; any other counts in the stamped profile. -/
theorem recordCall_cases (p : JitProfiler) (key : MfaKey) (generation : UInt64) :
    (∃ old, p.profile? key = some old ∧ generation < old.generation ∧
      p.recordCall key generation = (.continue, p)) ∨
    ∃ profile p', Stamped p key generation profile p' ∧
      p.recordCall key generation = p'.count key profile := by
  have hirrefl : ¬ generation < generation := UInt64.lt_irrefl _
  cases hold : p.profile? key with
  | none =>
    refine .inr ⟨_, _, .created hold, ?_⟩
    simp [recordCall, entry, restamp, hold, FunctionProfile.new, mint]
  | some old =>
    by_cases hlt : generation < old.generation
    · refine .inl ⟨old, rfl, hlt, ?_⟩
      simp [recordCall, entry, hold, hlt]
    · right
      by_cases hgt : old.generation < generation
      · refine ⟨_, _, .restamped old hold hgt, ?_⟩
        simp [recordCall, entry, restamp, hold, hlt, hgt, FunctionProfile.new, mint]
      · have heq : old.generation = generation :=
          UInt64.le_antisymm (UInt64.not_lt.mp hlt) (UInt64.not_lt.mp hgt)
        refine ⟨_, _, .same old hold heq, ?_⟩
        simp [recordCall, entry, restamp, hold, hlt, hgt]

/-- Counting keeps the stamps; a function that is not interpreted stays as it is, and a compile
request makes it pending. -/
theorem count_spec (p : JitProfiler) (key : MfaKey) (profile : FunctionProfile) :
    ∃ profile', (p.count key profile).2 = p.store key profile' ∧
      profile'.generation = profile.generation ∧ profile'.epoch = profile.epoch ∧
      (profile.state ≠ .interpreting →
        profile'.state = profile.state ∧ (p.count key profile).1 = .continue) ∧
      ∀ epoch, (p.count key profile).1 = .compileNow epoch →
        epoch = profile.epoch ∧ profile'.state = .pending := by
  rw [count]
  split
  next hstate =>
    refine ⟨profile, rfl, rfl, rfl, fun _ => ⟨rfl, rfl⟩, ?_⟩
    intro epoch h
    cases h
  next hstate =>
    dsimp only
    split
    next =>
      refine ⟨_, rfl, rfl, rfl, fun h => absurd h hstate, ?_⟩
      intro epoch h
      cases h
    next =>
      refine ⟨_, rfl, rfl, rfl, fun h => absurd h hstate, ?_⟩
      intro epoch h
      cases h
      exact ⟨rfl, rfl⟩

theorem Stamped.profile?_of_ne {p p' : JitProfiler} {key key' : MfaKey} {generation : UInt64}
    {profile : FunctionProfile} (h : Stamped p key generation profile p') (hne : key ≠ key') :
    p'.profile? key' = p.profile? key' := by
  cases h with
  | created => exact profile?_store_of_ne _ hne _
  | restamped => rfl
  | same => rfl

/-- The profiles of the other functions are left alone. -/
theorem profile?_recordCall_of_ne (p : JitProfiler) {key key' : MfaKey} (generation : UInt64)
    (h : key ≠ key') : (p.recordCall key generation).2.profile? key' = p.profile? key' := by
  rcases p.recordCall_cases key generation with ⟨old, -, -, heq⟩ | ⟨profile, p', hstamped, heq⟩
  · rw [heq]
  · obtain ⟨profile', hstore, -⟩ := count_spec p' key profile
    rw [heq, hstore, profile?_store_of_ne _ h, hstamped.profile?_of_ne h]

theorem complete_false {p : JitProfiler} {key : MfaKey} {generation epoch : UInt64}
    {apply : FunctionProfile → FunctionProfile}
    (h : (p.complete key generation epoch apply).1 = false) :
    (p.complete key generation epoch apply).2 = p := by
  rw [complete] at h ⊢
  cases hprofile : p.profile? key with
  | none => rfl
  | some profile =>
    simp only [hprofile] at h ⊢
    split at h
    next hmismatch => rw [if_pos hmismatch]
    next => cases h

/-- A completion takes effect exactly when the profile has both its stamps. -/
theorem complete_true_iff (p : JitProfiler) (key : MfaKey) (generation epoch : UInt64)
    (apply : FunctionProfile → FunctionProfile) :
    (p.complete key generation epoch apply).1 = true ↔
      ∃ profile, p.profile? key = some profile ∧ profile.generation = generation ∧
        profile.epoch = epoch := by
  rw [complete]
  cases p.profile? key with
  | none => simp
  | some profile =>
    simp only [Option.some.injEq, exists_eq_left']
    split
    next h => simpa [← not_and_or] using h
    next h => simpa using h

theorem complete_eq {p : JitProfiler} {key : MfaKey} {profile : FunctionProfile}
    (apply : FunctionProfile → FunctionProfile) (h : p.profile? key = some profile) :
    p.complete key profile.generation profile.epoch apply = (true, p.store key (apply profile)) := by
  simp [complete, h]

theorem profile?_removeModuleIn (p : JitProfiler) (shard : MfaKey → Bool) (module : Atom)
    (key : MfaKey) : (p.removeModuleIn shard module).profile? key =
      if shard key = true ∧ key.module = module then none else p.profile? key := by
  have hfilter := get_filter p.profiles key fun k => !(shard k && k.module == module)
  rw [profile?, removeModuleIn, hfilter]
  by_cases h : shard key = true ∧ key.module = module
  · simp [h]
  · rw [if_neg h, if_pos]
    · rfl
    · rw [Bool.not_eq_true', Bool.and_eq_false_iff]
      by_cases hshard : shard key = true
      · exact .inr (by simpa using fun hmodule => h ⟨hshard, hmodule⟩)
      · exact .inl (by simpa using hshard)

end JitProfiler

namespace JitTier

variable {Code : Type}

/-- What the completion does to the profile it applies to. -/
def Completion.apply (completion : Completion Code) (profile : FunctionProfile) : FunctionProfile :=
  match completion with
  | .markCompiled | .job (.native _) => { profile with state := .compiled }
  | .job (.error .unsupportedOpcode) | .job (.error .unsupportedOperand)
  | .job (.error (.unknownLabel _)) => { profile with state := .unsupported }
  | .refused | .job .craneliftError | .job (.error .emptyFunction) =>
    { profile with counter := 0, state := .interpreting }

theorem Completion.apply_generation (completion : Completion Code) (profile : FunctionProfile) :
    (completion.apply profile).generation = profile.generation := by
  unfold Completion.apply
  split <;> rfl

theorem Completion.apply_epoch (completion : Completion Code) (profile : FunctionProfile) :
    (completion.apply profile).epoch = profile.epoch := by
  unfold Completion.apply
  split <;> rfl

theorem Completion.apply_state {completion : Completion Code} (h : completion.resets = false)
    (profile : FunctionProfile) : (completion.apply profile).state ≠ .interpreting := by
  unfold Completion.apply Completion.resets at *
  split at h
  · cases h
  · cases h
  · cases h
  · split <;> simp_all

theorem complete_eq (t : JitTier Code) (key : MfaKey) (generation epoch : UInt64)
    (completion : Completion Code) :
    (t.complete key generation epoch completion).1 =
        (t.profiler.complete key generation epoch completion.apply).1 ∧
      (t.complete key generation epoch completion).2.profiler =
        (t.profiler.complete key generation epoch completion.apply).2 := by
  cases completion with
  | refused => exact ⟨rfl, rfl⟩
  | markCompiled => exact ⟨rfl, rfl⟩
  | job result =>
    cases result with
    | craneliftError => exact ⟨rfl, rfl⟩
    | error e => cases e <;> exact ⟨rfl, rfl⟩
    | native code =>
      have hset : t.profiler.complete key generation epoch (Completion.job (.native code)).apply =
          t.profiler.setState key generation epoch .compiled := rfl
      rw [complete, finishJob, publishCompiled, hset]
      cases hresult : t.profiler.setState key generation epoch .compiled with
      | mk applied profiler =>
        cases applied with
        | true => exact ⟨rfl, rfl⟩
        | false =>
          have hsame := JitProfiler.complete_false (congrArg Prod.fst hresult)
          rw [← JitProfiler.setState, hresult] at hsame
          exact ⟨rfl, hsame.symm⟩

/-- A completion takes effect exactly when the profile has both its stamps. -/
theorem complete_true_iff (t : JitTier Code) (key : MfaKey) (generation epoch : UInt64)
    (completion : Completion Code) :
    (t.complete key generation epoch completion).1 = true ↔
      ∃ profile, t.profiler.profile? key = some profile ∧ profile.generation = generation ∧
        profile.epoch = epoch := by
  rw [(complete_eq t key generation epoch completion).1]
  exact JitProfiler.complete_true_iff _ _ _ _ _

/-- A completion that does not take effect changes nothing, the cache included. -/
theorem complete_false (t : JitTier Code) (key : MfaKey) (generation epoch : UInt64)
    (completion : Completion Code) (h : (t.complete key generation epoch completion).1 = false) :
    (t.complete key generation epoch completion).2 = t := by
  have hprofiler := (complete_eq t key generation epoch completion)
  rw [h] at hprofiler
  have hsame := JitProfiler.complete_false hprofiler.1.symm
  rw [hsame] at hprofiler
  cases completion with
  | refused => exact congrArg (fun profiler => (⟨profiler, t.cache⟩ : JitTier Code)) hprofiler.2
  | markCompiled => exact congrArg (fun profiler => (⟨profiler, t.cache⟩ : JitTier Code)) hprofiler.2
  | job result =>
    cases result with
    | craneliftError =>
      exact congrArg (fun profiler => (⟨profiler, t.cache⟩ : JitTier Code)) hprofiler.2
    | error e =>
      cases e <;> exact congrArg (fun profiler => (⟨profiler, t.cache⟩ : JitTier Code)) hprofiler.2
    | native code =>
      rw [complete, finishJob, publishCompiled] at h ⊢
      split at h
      · cases h
      next => rfl

/-- What a completion does to the profile of a function. -/
theorem profile?_complete (t : JitTier Code) (key : MfaKey) (generation epoch : UInt64)
    (completion : Completion Code) (key' : MfaKey) :
    (t.complete key generation epoch completion).2.profiler.profile? key' =
      if key = key' ∧ (t.complete key generation epoch completion).1 = true then
        (t.profiler.profile? key').map completion.apply
      else t.profiler.profile? key' := by
  cases hresult : (t.complete key generation epoch completion).1 with
  | false => rw [complete_false _ _ _ _ _ hresult, if_neg (by simp)]
  | true =>
    obtain ⟨profile, hprofile, rfl, rfl⟩ := (complete_true_iff _ _ _ _ _).mp hresult
    rw [(complete_eq t key _ _ completion).2, JitProfiler.complete_eq _ hprofile]
    by_cases hkey : key = key'
    · subst hkey
      rw [if_pos ⟨rfl, rfl⟩, hprofile, JitProfiler.profile?_store_self, Option.map_some]
    · rw [if_neg (fun h => hkey h.1), JitProfiler.profile?_store_of_ne _ hkey]

theorem nextEpoch_complete (t : JitTier Code) (key : MfaKey) (generation epoch : UInt64)
    (completion : Completion Code) :
    (t.complete key generation epoch completion).2.profiler.nextEpoch = t.profiler.nextEpoch := by
  rw [(complete_eq t key generation epoch completion).2, JitProfiler.complete]
  split
  · rfl
  · split <;> rfl

/-! ## One step -/

/-- A call mints the next epoch, or the stamps of the profile stay. -/
theorem recordCall_minted (t : JitTier Code) (key : MfaKey) (generation : UInt64) :
    ∃ profile', (t.step (.recordCall key generation)).profiler.profile? key = some profile' ∧
      (t.minted (.recordCall key generation) = some t.profiler.nextEpoch ∧
        profile'.epoch = t.profiler.nextEpoch ∧ profile'.generation = generation ∧
        (t.step (.recordCall key generation)).profiler.nextEpoch = t.profiler.nextEpoch + 1 ∨
      t.minted (.recordCall key generation) = none ∧
        (∃ profile, t.profiler.profile? key = some profile ∧ profile'.epoch = profile.epoch ∧
          profile'.generation = profile.generation ∧ ¬ profile.generation < generation ∧
          (profile.state ≠ .interpreting → profile'.state = profile.state ∧
            (t.profiler.recordCall key generation).1 = .continue)) ∧
        (t.step (.recordCall key generation)).profiler.nextEpoch = t.profiler.nextEpoch) ∧
      ∀ epoch, (t.profiler.recordCall key generation).1 = .compileNow epoch →
        profile'.epoch = epoch ∧ profile'.generation = generation ∧ profile'.state = .pending := by
  simp only [step, minted]
  rcases t.profiler.recordCall_cases key generation with
    ⟨old, hold, hlt, heq⟩ | ⟨profile, p', hstamped, heq⟩
  · have hnot : ¬ old.generation < generation := UInt64.lt_asymm hlt
    rw [heq]
    refine ⟨old, hold, .inr ⟨?_, ⟨old, hold, rfl, rfl, hnot, fun _ => ⟨rfl, rfl⟩⟩, rfl⟩, ?_⟩
    · rw [hold]
      exact if_neg hnot
    · intro epoch h
      cases h
  · obtain ⟨profile', hstore, hgeneration, hepoch, hstate, hnow⟩ :=
      JitProfiler.count_spec p' key profile
    rw [heq, hstore]
    refine ⟨profile', JitProfiler.profile?_store_self _ _ _, ?_, ?_⟩
    · cases hstamped with
      | created hold =>
        refine .inl ⟨?_, hepoch, hgeneration, rfl⟩
        rw [hold]
      | restamped old hold hlt =>
        refine .inl ⟨?_, hepoch, hgeneration, rfl⟩
        rw [hold]
        exact if_pos hlt
      | same _ hold hsame =>
        have hnot : ¬ profile.generation < generation := hsame ▸ UInt64.lt_irrefl _
        refine .inr ⟨?_, ⟨profile, hold, hepoch, hgeneration, hnot, hstate⟩, rfl⟩
        rw [hold]
        exact if_neg hnot
    · intro epoch h
      obtain ⟨rfl, hpending⟩ := hnow epoch h
      refine ⟨hepoch, hgeneration.trans ?_, hpending⟩
      cases hstamped with
      | created => rfl
      | restamped => rfl
      | same old hold hsame => exact hsame

/-- A call to another function leaves the profile alone. -/
theorem profile?_step_of_ne (t : JitTier Code) {key key' : MfaKey} (h : key' ≠ key)
    (generation : UInt64) :
    (t.step (.recordCall key' generation)).profiler.profile? key = t.profiler.profile? key :=
  JitProfiler.profile?_recordCall_of_ne _ _ h

/-- While its incarnation lasts, a profile keeps its stamps; unless it is reset, it does not go
back to being interpreted. -/
theorem step_keeps {t : JitTier Code} {action : Action Code} {key : MfaKey}
    {profile : FunctionProfile} (h : t.profiler.profile? key = some profile)
    (hends : ¬ t.Ends key action) :
    ∃ profile', (t.step action).profiler.profile? key = some profile' ∧
      profile'.generation = profile.generation ∧ profile'.epoch = profile.epoch ∧
      (profile.state ≠ .interpreting → ¬ t.Resets key action → profile'.state ≠ .interpreting) := by
  cases action with
  | recordCall key' generation =>
    by_cases hkey : key' = key
    · subst hkey
      obtain ⟨profile', hprofile', hcases, -⟩ := recordCall_minted t key' generation
      have hnot : ¬ profile.generation < generation := fun hlt => hends ⟨rfl, profile, h, hlt⟩
      rcases hcases with ⟨hminted, -⟩ | ⟨-, ⟨old, hold, hepoch, hgeneration, -, hstate⟩, -⟩
      · simp only [minted, h, if_neg hnot] at hminted
        cases hminted
      · rw [h] at hold
        cases hold
        exact ⟨profile', hprofile', hgeneration, hepoch, fun hne _ => (hstate hne).1 ▸ hne⟩
    · refine ⟨profile, ?_, rfl, rfl, fun hne _ => hne⟩
      rw [profile?_step_of_ne t hkey, h]
  | complete key' generation epoch completion =>
    rw [step, profile?_complete]
    split
    next happlies =>
      obtain ⟨rfl, hresult⟩ := happlies
      refine ⟨completion.apply profile, by rw [h, Option.map_some], completion.apply_generation _,
        completion.apply_epoch _, fun hne hreset => ?_⟩
      refine Completion.apply_state ?_ profile
      rw [Bool.eq_false_iff]
      exact fun hresets => hreset ⟨rfl, hresets, hresult⟩
    next => exact ⟨profile, h, rfl, rfl, fun hne _ => hne⟩
  | removeModule shard module =>
    have hkept : ¬ (shard key = true ∧ key.module = module) := hends
    refine ⟨profile, ?_, rfl, rfl, fun hne _ => hne⟩
    rw [step, JitProfiler.profile?_removeModuleIn, if_neg hkept, h]
  | storeThreshold => exact ⟨profile, h, rfl, rfl, fun hne _ => hne⟩

/-- The profile after a step is the one before it, or its epoch has just been minted. -/
theorem step_epoch {t : JitTier Code} {action : Action Code} {key : MfaKey}
    {profile' : FunctionProfile} (h : (t.step action).profiler.profile? key = some profile') :
    (¬ t.Ends key action ∧ ∃ profile, t.profiler.profile? key = some profile ∧
        profile'.epoch = profile.epoch ∧ profile'.generation = profile.generation) ∨
      t.minted action = some profile'.epoch ∧ ∀ profile, t.profiler.profile? key = some profile →
        profile.generation ≤ profile'.generation := by
  by_cases hends : t.Ends key action
  · cases action with
    | recordCall key' generation =>
      obtain ⟨rfl, old, hold, hlt⟩ := hends
      obtain ⟨profile, hprofile, hcases, -⟩ := recordCall_minted t key' generation
      rw [hprofile] at h
      cases h
      rcases hcases with ⟨hminted, hepoch, hgeneration, -⟩ | ⟨hminted, -⟩
      · refine .inr ⟨by rw [hminted, hepoch], ?_⟩
        intro profile hprofile
        rw [hold] at hprofile
        cases hprofile
        rw [hgeneration]
        exact UInt64.le_of_lt hlt
      · simp only [minted, hold, if_pos hlt] at hminted
        cases hminted
    | removeModule shard module =>
      have hremoved : shard key = true ∧ key.module = module := hends
      rw [step, JitProfiler.profile?_removeModuleIn, if_pos hremoved] at h
      cases h
    | complete => exact hends.elim
    | storeThreshold => exact hends.elim
  · cases hbefore : t.profiler.profile? key with
    | some profile =>
      obtain ⟨after, hafter, hgeneration, hepoch, -⟩ := step_keeps hbefore hends
      rw [h] at hafter
      cases hafter
      exact .inl ⟨hends, profile, rfl, hepoch, hgeneration⟩
    | none =>
      right
      refine ⟨?_, fun _ hprofile => by cases hprofile⟩
      cases action with
      | recordCall key' generation =>
        by_cases hkey : key' = key
        · subst hkey
          obtain ⟨profile, hprofile, hcases, -⟩ := recordCall_minted t key' generation
          rw [hprofile] at h
          cases h
          rcases hcases with ⟨hminted, hepoch, -⟩ | ⟨-, ⟨old, hold, -⟩, -⟩
          · rw [hminted, hepoch]
          · rw [hbefore] at hold
            cases hold
        · rw [profile?_step_of_ne t hkey, hbefore] at h
          cases h
      | complete key' generation epoch completion =>
        rw [step, profile?_complete, hbefore] at h
        split at h <;> cases h
      | removeModule shard module =>
        rw [step, JitProfiler.profile?_removeModuleIn, hbefore] at h
        split at h <;> cases h
      | storeThreshold =>
        have hnone : t.profiler.profile? key = some profile' := h
        rw [hbefore] at hnone
        cases hnone

theorem step_generation_le {t : JitTier Code} {action : Action Code} {key : MfaKey}
    {profile profile' : FunctionProfile} (h : t.profiler.profile? key = some profile)
    (h' : (t.step action).profiler.profile? key = some profile') :
    profile.generation ≤ profile'.generation := by
  rcases step_epoch h' with ⟨-, old, hold, -, hgeneration⟩ | ⟨-, hle⟩
  · rw [h] at hold
    cases hold
    rw [hgeneration]
    exact UInt64.le_refl _
  · exact hle profile h

/-- The counter of epochs goes up by one for each that is minted. -/
theorem nextEpoch_step (t : JitTier Code) (action : Action Code) :
    t.minted action = none ∧ (t.step action).profiler.nextEpoch = t.profiler.nextEpoch ∨
      t.minted action = some t.profiler.nextEpoch ∧
        (t.step action).profiler.nextEpoch = t.profiler.nextEpoch + 1 := by
  cases action with
  | recordCall key generation =>
    obtain ⟨-, -, ⟨hminted, -, -, hnext⟩ | ⟨hminted, -, hnext⟩, -⟩ :=
      recordCall_minted t key generation
    · exact .inr ⟨hminted, hnext⟩
    · exact .inl ⟨hminted, hnext⟩
  | complete key generation epoch completion =>
    exact .inl ⟨rfl, nextEpoch_complete t key generation epoch completion⟩
  | removeModule => exact .inl ⟨rfl, rfl⟩
  | storeThreshold => exact .inl ⟨rfl, rfl⟩

/-! ## Epochs along a run -/

/-- How many epochs the actions mint. -/
def mints (t : JitTier Code) : List (Action Code) → ℕ
  | [] => 0
  | action :: rest => (if (t.minted action).isSome then 1 else 0) + mints (t.step action) rest

theorem mints_append (t : JitTier Code) (actions more : List (Action Code)) :
    t.mints (actions ++ more) = t.mints actions + (actions.foldl step t).mints more := by
  induction actions generalizing t with
  | nil => simp [mints]
  | cons action rest ih =>
    simp only [List.cons_append, mints, ih, List.foldl_cons]
    omega

theorem mints_le_append (t : JitTier Code) (actions more : List (Action Code)) :
    t.mints actions ≤ t.mints (actions ++ more) := by
  rw [mints_append]
  exact Nat.le_add_right _ _

variable (threshold : UInt32) (actions more : List (Action Code))

theorem run_append : run threshold (actions ++ more) = more.foldl step (run threshold actions) := by
  simp [run]

theorem run_concat (action : Action Code) :
    run threshold (actions ++ [action]) = (run threshold actions).step action := by simp [run]

/-- The epochs in the order in which a run mints them. -/
def epochAt (number : ℕ) : UInt64 := UInt64.ofNat (1 + number)

theorem epochAt_succ (number : ℕ) : epochAt (number + 1) = epochAt number + 1 := by
  apply UInt64.toNat_inj.mp
  simp only [epochAt, UInt64.toNat_ofNat', UInt64.toNat_add]
  have hone : (1 : UInt64).toNat = 1 := rfl
  omega

theorem epochAt_ne {number number' : ℕ} (hlt : number < number') (hbound : number' < 2 ^ 64) :
    epochAt number ≠ epochAt number' := by
  intro h
  have htoNat := congrArg UInt64.toNat h
  simp only [epochAt, UInt64.toNat_ofNat'] at htoNat
  omega

/-- How many epochs the run has minted. -/
def mintCount : ℕ := (start threshold : JitTier Code).mints actions

theorem mintCount_append : mintCount threshold (actions ++ more) =
    mintCount threshold actions + (run threshold actions).mints more := mints_append _ _ _

theorem mintCount_le_append : mintCount threshold actions ≤ mintCount threshold (actions ++ more) :=
  mints_le_append _ _ _

theorem nextEpoch_run :
    (run threshold actions).profiler.nextEpoch = epochAt (mintCount threshold actions) := by
  induction actions using List.reverseRecOn with
  | nil => rfl
  | append_singleton actions action ih =>
    rw [run_concat, mintCount_append]
    rcases nextEpoch_step (run threshold actions) action with ⟨hnone, hnext⟩ | ⟨hsome, hnext⟩
    · rw [hnext, ih, mints, hnone]
      rfl
    · rw [hnext, ih, mints, hsome]
      exact (epochAt_succ _).symm

theorem minted_eq {threshold : UInt32} {actions : List (Action Code)} {action : Action Code}
    {epoch : UInt64} (h : (run threshold actions).minted action = some epoch) :
    epoch = epochAt (mintCount threshold actions) ∧
      mintCount threshold (actions ++ [action]) = mintCount threshold actions + 1 := by
  rcases nextEpoch_step (run threshold actions) action with ⟨hnone, -⟩ | ⟨hsome, -⟩
  · rw [hnone] at h
    cases h
  · rw [hsome] at h
    cases h
    refine ⟨nextEpoch_run threshold actions, ?_⟩
    rw [mintCount_append, mints, hsome]
    rfl

/-- The epoch of the function's profile was minted since the run had minted that many. -/
def BornSince (key : MfaKey) (number : ℕ) : Prop :=
  ∀ profile, (run threshold actions).profiler.profile? key = some profile →
    ∃ n, number ≤ n ∧ n < mintCount threshold actions ∧ profile.epoch = epochAt n

variable {threshold actions more} {key : MfaKey}

theorem BornSince.concat {number : ℕ} (h : BornSince threshold actions key number)
    (hle : number ≤ mintCount threshold actions) (action : Action Code) :
    BornSince threshold (actions ++ [action]) key number := by
  intro profile hprofile
  rw [run_concat] at hprofile
  rcases step_epoch hprofile with ⟨-, old, hold, hepoch, -⟩ | ⟨hminted, -⟩
  · obtain ⟨n, hfrom, hto, heq⟩ := h old hold
    have hmore := mintCount_le_append threshold actions [action]
    exact ⟨n, hfrom, by omega, hepoch.trans heq⟩
  · obtain ⟨hepoch, hcount⟩ := minted_eq hminted
    exact ⟨mintCount threshold actions, hle, by omega, hepoch⟩

theorem BornSince.append {number : ℕ} (h : BornSince threshold actions key number)
    (hle : number ≤ mintCount threshold actions) :
    BornSince threshold (actions ++ more) key number := by
  induction more using List.reverseRecOn with
  | nil => rwa [List.append_nil]
  | append_singleton more action ih =>
    rw [← List.append_assoc]
    exact ih.concat (hle.trans (mintCount_le_append threshold actions more)) action

theorem bornSince_zero : BornSince threshold actions key 0 := by
  have hstart : BornSince threshold ([] : List (Action Code)) key 0 := by
    intro profile hprofile
    cases hprofile
  exact hstart.append (Nat.zero_le _)

/-- When an incarnation ends, a profile that the function has later is a new one. -/
theorem bornSince_of_ends {action : Action Code} (h : (run threshold actions).Ends key action) :
    BornSince threshold (actions ++ [action]) key (mintCount threshold actions) := by
  intro profile hprofile
  rw [run_concat] at hprofile
  rcases step_epoch hprofile with ⟨hends, -⟩ | ⟨hminted, -⟩
  · exact absurd h hends
  · obtain ⟨hepoch, hcount⟩ := minted_eq hminted
    exact ⟨mintCount threshold actions, Nat.le_refl _, by omega, hepoch⟩

/-- The profile of the function has these stamps. -/
def Stands (t : JitTier Code) (key : MfaKey) (generation epoch : UInt64) : Prop :=
  ∃ profile, t.profiler.profile? key = some profile ∧ profile.generation = generation ∧
    profile.epoch = epoch

/-- A profile that still has its epoch is of the same incarnation. -/
theorem live_of_epoch {old profile : FunctionProfile}
    (hold : (run threshold actions).profiler.profile? key = some old)
    (hcount : mintCount threshold (actions ++ more) ≤ 2 ^ 64)
    (hprofile : (run threshold (actions ++ more)).profiler.profile? key = some profile)
    (hepoch : profile.epoch = old.epoch) :
    Runs.Meets step (fun t action => ¬ t.Ends key action) (run threshold actions) more := by
  by_contra hends
  obtain ⟨before, action, after, rfl, -, hend⟩ := Runs.Meets.exists_not hends
  rw [← run_append, not_not] at hend
  -- the profile of now was born after the one of then
  obtain ⟨m, -, hm, hmEpoch⟩ := bornSince_zero old hold
  have hsplit : actions ++ (before ++ action :: after) =
      (actions ++ before ++ [action]) ++ after := by simp
  rw [hsplit] at hprofile hcount
  have hborn : BornSince threshold (actions ++ before ++ [action] ++ after) key
      (mintCount threshold (actions ++ before)) :=
    (bornSince_of_ends hend).append (mintCount_le_append threshold _ _)
  obtain ⟨n, hn, hbound, hnEpoch⟩ := hborn profile hprofile
  have hle := mintCount_le_append threshold actions before
  refine epochAt_ne (show m < n by omega) (by omega) ?_
  rw [← hmEpoch, ← hnEpoch, hepoch]

/-- While no action has ended its incarnation, and only then, a profile has the stamps it had. -/
theorem stands_iff_live {generation epoch : UInt64}
    (hstands : (run threshold actions).Stands key generation epoch)
    (hcount : mintCount threshold (actions ++ more) ≤ 2 ^ 64) :
    (run threshold (actions ++ more)).Stands key generation epoch ↔
      Runs.Meets step (fun t action => ¬ t.Ends key action) (run threshold actions) more := by
  constructor
  · rintro ⟨profile, hprofile, -, hepoch⟩
    obtain ⟨old, hold, -, holdEpoch⟩ := hstands
    exact live_of_epoch hold hcount hprofile (hepoch.trans holdEpoch.symm)
  · intro hlive
    rw [run_append]
    refine Runs.Meets.invariant (I := fun t => t.Stands key generation epoch) ?_ hlive hstands
    rintro t action ⟨profile, hprofile, rfl, rfl⟩ hends
    obtain ⟨profile', hprofile', hgeneration, hepoch, -⟩ := step_keeps hprofile hends
    exact ⟨profile', hprofile', hgeneration, hepoch⟩

/-- A compile request comes from a profile with the stamps that it carries, which is pending. -/
theorem profile?_of_compileNow {generation epoch : UInt64}
    (h : ((run threshold actions).profiler.recordCall key generation).1 = .compileNow epoch) :
    ∃ profile, (run threshold (actions ++ [.recordCall key generation])).profiler.profile? key =
        some profile ∧
      profile.generation = generation ∧ profile.epoch = epoch ∧ profile.state = .pending := by
  obtain ⟨profile', hprofile', -, hnow⟩ := recordCall_minted (run threshold actions) key generation
  obtain ⟨hepoch, hgeneration, hpending⟩ := hnow epoch h
  rw [run_concat]
  exact ⟨profile', hprofile', hgeneration, hepoch, hpending⟩

/-- A function that is not interpreted is not requested by a call that leaves its incarnation. -/
theorem recordCall_continue {t : JitTier Code} {profile : FunctionProfile} {generation : UInt64}
    (hprofile : t.profiler.profile? key = some profile) (hstate : profile.state ≠ .interpreting)
    (hends : ¬ t.Ends key (.recordCall key generation)) :
    (t.profiler.recordCall key generation).1 = .continue := by
  obtain ⟨profile', -, hcases, -⟩ := recordCall_minted t key generation
  have hnot : ¬ profile.generation < generation := fun hlt => hends ⟨rfl, profile, hprofile, hlt⟩
  rcases hcases with ⟨hminted, -⟩ | ⟨-, ⟨old, hold, -, -, -, hkeeps⟩, -⟩
  · simp only [minted, hprofile, if_neg hnot] at hminted
    cases hminted
  · rw [hprofile] at hold
    cases hold
    exact (hkeeps hstate).2

/-- A function that is not interpreted is requested again only after a reset, as long as its
incarnation lasts. -/
theorem not_interpreting_of_no_reset {profile : FunctionProfile} {t : JitTier Code}
    (hprofile : t.profiler.profile? key = some profile) (hstate : profile.state ≠ .interpreting)
    (hlive : Runs.Meets step (fun t action => ¬ t.Ends key action) t more)
    (hreset : Runs.Meets step (fun t action => ¬ t.Resets key action) t more) :
    ∃ profile', (more.foldl step t).profiler.profile? key = some profile' ∧
      profile'.state ≠ .interpreting := by
  induction more generalizing t profile with
  | nil => exact ⟨profile, hprofile, hstate⟩
  | cons action rest ih =>
    obtain ⟨profile', hprofile', -, -, hkeeps⟩ := step_keeps hprofile hlive.1
    exact ih hprofile' (hkeeps hstate hreset.1) hlive.2 hreset.2

/-! ## The protocol -/

/-- What the epochs are for, along a run. -/
structure Protocol (threshold : UInt32) (actions : List (Action Code)) : Prop where
  /-- An epoch is minted once. -/
  epochs_distinct : ∀ before first between second after,
    actions = before ++ first :: between ++ second :: after → ∀ epoch,
    (run threshold before).minted first = some epoch →
    (run threshold (before ++ first :: between)).minted second ≠ some epoch
  /-- The generation of a profile does not go down as long as it is in the map. -/
  generation_le : ∀ before between after, actions = before ++ between ++ after →
    ∀ key profile profile',
    Runs.Meets step (fun t action => ((t.step action).profiler.profile? key).isSome)
      (run threshold before) between →
    (run threshold before).profiler.profile? key = some profile →
    (run threshold (before ++ between)).profiler.profile? key = some profile' →
    profile.generation ≤ profile'.generation
  /-- A completion takes effect exactly when no action has ended the incarnation that its request
  came from, and changes nothing otherwise. -/
  completes_iff : ∀ before key generation between after,
    actions = before ++ .recordCall key generation :: between ++ after → ∀ epoch,
    ((run threshold before).profiler.recordCall key generation).1 = .compileNow epoch →
    ∀ completion,
      (((run threshold (before ++ .recordCall key generation :: between)).complete
        key generation epoch completion).1 = true ↔
        Runs.Meets step (fun t action => ¬ t.Ends key action)
          (run threshold (before ++ [.recordCall key generation])) between) ∧
      (((run threshold (before ++ .recordCall key generation :: between)).complete
        key generation epoch completion).1 = false →
        ((run threshold (before ++ .recordCall key generation :: between)).complete
          key generation epoch completion).2 =
          run threshold (before ++ .recordCall key generation :: between))
  /-- Between two requests with one epoch the function has been reset. -/
  reset_between : ∀ before key generation between generation' after,
    actions = before ++ .recordCall key generation :: between ++
      .recordCall key generation' :: after → ∀ epoch,
    ((run threshold before).profiler.recordCall key generation).1 = .compileNow epoch →
    ((run threshold (before ++ .recordCall key generation :: between)).profiler.recordCall
      key generation').1 = .compileNow epoch →
    ∃ earlier reset later, between = earlier ++ reset :: later ∧
      (run threshold (before ++ .recordCall key generation :: earlier)).Resets key reset

theorem epochs_distinct_of_mints (before between after : List (Action Code))
    (first second : Action Code)
    (hcount : mintCount threshold (before ++ first :: between ++ second :: after) ≤ 2 ^ 64)
    {epoch : UInt64} (h : (run threshold before).minted first = some epoch) :
    (run threshold (before ++ first :: between)).minted second ≠ some epoch := by
  intro hagain
  obtain ⟨hepoch, hfirst⟩ := minted_eq h
  obtain ⟨hepoch', hsecond⟩ := minted_eq hagain
  have hle := mintCount_le_append threshold (before ++ [first]) between
  have hbound := mintCount_le_append threshold (before ++ first :: between ++ [second]) after
  simp only [List.append_assoc, List.cons_append, List.nil_append] at *
  exact epochAt_ne (show mintCount threshold before < mintCount threshold (before ++ first :: between)
    by omega) (by omega) (hepoch.symm.trans hepoch')

theorem generation_le_of_meets {t : JitTier Code} {between : List (Action Code)}
    {profile profile' : FunctionProfile}
    (hlife : Runs.Meets step (fun t action => ((t.step action).profiler.profile? key).isSome) t
      between)
    (h : t.profiler.profile? key = some profile)
    (h' : (between.foldl step t).profiler.profile? key = some profile') :
    profile.generation ≤ profile'.generation := by
  induction between generalizing t profile with
  | nil =>
    have heq : t.profiler.profile? key = some profile' := h'
    rw [h] at heq
    cases heq
    exact UInt64.le_refl _
  | cons action rest ih =>
    obtain ⟨middle, hmiddle⟩ := Option.isSome_iff_exists.mp hlife.1
    exact UInt64.le_trans (step_generation_le h hmiddle) (ih hlife.2 hmiddle h')

theorem reset_between_of_mints {before between after : List (Action Code)}
    {generation generation' epoch : UInt64}
    (hcount : mintCount threshold (before ++ .recordCall key generation :: between ++
      .recordCall key generation' :: after) ≤ 2 ^ 64)
    (hfirst : ((run threshold before).profiler.recordCall key generation).1 = .compileNow epoch)
    (hsecond : ((run threshold (before ++ .recordCall key generation :: between)).profiler.recordCall
      key generation').1 = .compileNow epoch) :
    ∃ earlier reset later, between = earlier ++ reset :: later ∧
      (run threshold (before ++ .recordCall key generation :: earlier)).Resets key reset := by
  by_contra hnone
  have hcons : ∀ l, before ++ .recordCall key generation :: l =
      before ++ [.recordCall key generation] ++ l := fun l => by simp
  obtain ⟨first, hprofile, -, hepoch, hpending⟩ := profile?_of_compileNow hfirst
  obtain ⟨second, hprofile', -, hepoch', -⟩ := profile?_of_compileNow hsecond
  have hnoReset : Runs.Meets step (fun t action => ¬ t.Resets key action)
      (run threshold (before ++ [.recordCall key generation])) between := by
    by_contra hreset
    obtain ⟨earlier, action, later, rfl, -, hresets⟩ := Runs.Meets.exists_not hreset
    refine hnone ⟨earlier, action, later, rfl, ?_⟩
    rw [hcons, run_append]
    exact not_not.mp hresets
  -- the second request is from the incarnation of the first
  have hlive : Runs.Meets step (fun t action => ¬ t.Ends key action)
      (run threshold (before ++ [.recordCall key generation]))
      (between ++ [.recordCall key generation']) := by
    refine live_of_epoch hprofile (Nat.le_trans ?_ hcount) ?_ (hepoch'.trans hepoch.symm)
    · have hsplit : before ++ .recordCall key generation :: between ++
          .recordCall key generation' :: after = before ++ [.recordCall key generation] ++
          (between ++ [.recordCall key generation']) ++ after := by simp
      rw [hsplit]
      exact mintCount_le_append threshold _ _
    · rw [← List.append_assoc, ← hcons]
      exact hprofile'
  obtain ⟨hlive, hends⟩ := Runs.Meets.concat.mp hlive
  have hstate : first.state ≠ .interpreting := by
    rw [hpending]
    decide
  obtain ⟨profile, hnow, hnowState⟩ := not_interpreting_of_no_reset hprofile hstate hlive hnoReset
  rw [hcons, run_append, recordCall_continue hnow hnowState hends] at hsecond
  cases hsecond

def someKey : MfaKey := ⟨0, 0, 0⟩

/-- A function that is called, and its module removed, over and over. -/
def rounds : ℕ → List (Action Unit)
  | 0 => []
  | n + 1 => rounds n ++ [.recordCall someKey 0, .removeModule (fun _ => true) 0]

theorem rounds_succ (n : ℕ) : ∃ rest, rounds (n + 1) = .recordCall someKey 0 :: rest := by
  induction n with
  | zero => exact ⟨_, rfl⟩
  | succ n ih =>
    obtain ⟨rest, hrest⟩ := ih
    exact ⟨rest ++ [.recordCall someKey 0, .removeModule (fun _ => true) 0], by
      rw [rounds, hrest, List.cons_append]⟩

theorem run_rounds (n : ℕ) : (run 1 (rounds n)).profiler.profile? someKey = none ∧
    (run 1 (rounds n)).profiler.nextEpoch = epochAt n := by
  induction n with
  | zero => exact ⟨rfl, rfl⟩
  | succ n ih =>
    have hminted : (run 1 (rounds n)).minted (.recordCall someKey 0) = some (epochAt n) := by
      rw [minted, ih.1, ih.2]
    have hnext := nextEpoch_step (run 1 (rounds n)) (.recordCall someKey 0)
    rw [hminted, ih.2] at hnext
    rw [rounds, run_append]
    refine ⟨JitProfiler.profile?_removeModuleIn _ _ _ _, ?_⟩
    rcases hnext with ⟨hnone, -⟩ | ⟨-, hnext⟩
    · cases hnone
    · rw [epochAt_succ]
      exact hnext

theorem minted_rounds (n : ℕ) :
    (run 1 (rounds n)).minted (.recordCall someKey 0) = some (epochAt n) := by
  rw [minted, (run_rounds n).1, (run_rounds n).2]

end JitTier

end Beamr.Jit
