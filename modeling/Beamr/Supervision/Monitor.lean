import Beamr.Lib.Runs
import Beamr.Scheduler.Delivery
import Mathlib

/-!
# Monitors

The registry of monitors keeps a list of monitors and an index of their references by target.
A watcher is told once when a target exits.
-/
namespace Beamr.Supervision

open Scheduler (ExitReason)

structure Monitor where
  reference : ℕ
  watcher : ℕ
  target : ℕ
  deriving DecidableEq

structure MonitorSet where
  nextReference : ℕ
  monitors : List Monitor
  byTarget : ℕ → Option (List ℕ)
  dead : ℕ → Option ExitReason

namespace MonitorSet

def new : MonitorSet := ⟨0, [], fun _ => none, fun _ => none⟩

def recordDead (s : MonitorSet) (pid : ℕ) (reason : ExitReason) : MonitorSet :=
  { s with dead := Function.update s.dead pid (some reason) }

/-- The counter saturates. -/
def allocateReference (s : MonitorSet) : ℕ × MonitorSet :=
  (s.nextReference, { s with nextReference := min (s.nextReference + 1) (2 ^ 64 - 1) })

/-- Both structures get the monitor at the end. -/
def push (s : MonitorSet) (monitor : Monitor) (target : ℕ) : MonitorSet :=
  { s with
    monitors := s.monitors ++ [monitor]
    byTarget := Function.update s.byTarget target
      (some ((s.byTarget target).getD [] ++ [monitor.reference])) }

def monitor (s : MonitorSet) (watcher target : ℕ) : ℕ × MonitorSet :=
  let (reference, s) := s.allocateReference
  (reference, s.push ⟨reference, watcher, target⟩ target)

/-- A monitor of a process that is known to be dead is told at once and not kept. -/
def monitorPid (s : MonitorSet) (watcher target : ℕ) : ℕ × MonitorSet :=
  let (reference, s) := s.allocateReference
  match s.dead target with
  | some _ => (reference, s)
  | none => (reference, s.push ⟨reference, watcher, target⟩ target)

def getMonitor (s : MonitorSet) (reference : ℕ) : Option Monitor :=
  s.monitors.find? (·.reference = reference)

def removeMonitorEntry (s : MonitorSet) (reference : ℕ) : Option Monitor × MonitorSet :=
  (s.getMonitor reference, { s with monitors := s.monitors.eraseP (·.reference = reference) })

/-- An index entry that becomes empty is removed. -/
def removeReference (s : MonitorSet) (target reference : ℕ) : MonitorSet :=
  match s.byTarget target with
  | none => s
  | some references =>
    let kept := references.filter (· ≠ reference)
    { s with byTarget := Function.update s.byTarget target (if kept = [] then none else some kept) }

def removeMonitor (s : MonitorSet) (reference : ℕ) : MonitorSet :=
  match s.removeMonitorEntry reference with
  | (some monitor, s) => s.removeReference monitor.target reference
  | (none, s) => s

def demonitor (s : MonitorSet) (reference : ℕ) : Option Monitor × MonitorSet :=
  match s.removeMonitorEntry reference with
  | (some monitor, s) => (some monitor, s.removeReference monitor.target reference)
  | (none, s) => (none, s)

def registerMonitor (s : MonitorSet) (reference : ℕ) (monitor : Monitor) (target : ℕ) :
    MonitorSet :=
  let s := if (s.getMonitor reference).isSome then s.removeMonitor reference else s
  { s with
    monitors := s.monitors ++ [monitor]
    byTarget := Function.update s.byTarget target
      (some ((s.byTarget target).getD [] ++ [reference])) }

/-- The loop over the references of a target that has exited. -/
def removeEntries (s : MonitorSet) : List ℕ → List Monitor × MonitorSet
  | [] => ([], s)
  | reference :: rest =>
    match s.removeMonitorEntry reference with
    | (some monitor, s) => ((removeEntries s rest).1.cons monitor, (removeEntries s rest).2)
    | (none, s) => removeEntries s rest

/-- The monitors of a target that has exited leave the set, in the order of the index. -/
def takeTarget (s : MonitorSet) (target : ℕ) (reason : ExitReason) : List Monitor × MonitorSet :=
  let s := s.recordDead target reason
  { s with byTarget := Function.update s.byTarget target none }.removeEntries
    ((s.byTarget target).getD [])

/-- The monitors whose watchers get a DOWN message: the watcher is among the processes and has
room for it. -/
def processExited (s : MonitorSet) (target : ℕ) (reason : ExitReason) (processes : List ℕ)
    (room : Monitor → Bool) : List Monitor × MonitorSet :=
  let (taken, s) := s.takeTarget target reason
  (taken.filter fun m => m.watcher ∈ processes ∧ room m, s)

def collectWatchersAndRemove (s : MonitorSet) (target : ℕ) (reason : ExitReason) :
    List (ℕ × ℕ) × MonitorSet :=
  let (taken, s) := s.takeTarget target reason
  (taken.map fun m => (m.watcher, m.reference), s)

/-! ## The list and the index describe the same monitors -/

/-- Each live reference is once in the list and once in the index, under its own target, and no
index entry is empty. -/
structure Indexed (s : MonitorSet) : Prop where
  nodup : (s.monitors.map (·.reference)).Nodup
  allocated : ∀ m ∈ s.monitors, m.reference < s.nextReference
  nonempty : ∀ t, s.byTarget t ≠ some []
  references_nodup : ∀ t, ((s.byTarget t).getD []).Nodup
  index : ∀ t r, r ∈ (s.byTarget t).getD [] ↔ ∃ m ∈ s.monitors, m.reference = r ∧ m.target = t

theorem indexed_new : Indexed new :=
  ⟨List.nodup_nil, nofun, nofun, fun _ => List.nodup_nil, by simp [new]⟩

variable {s : MonitorSet}

theorem Indexed.push (h : Indexed s) {m : Monitor} (hnew : m.reference ∉ s.monitors.map (·.reference))
    (hallocated : m.reference < s.nextReference) : Indexed (s.push m m.target) := by
  obtain ⟨hnodup, hold, hnonempty, hreferences, hindex⟩ := h
  have hfresh : ∀ t, m.reference ∉ (s.byTarget t).getD [] := by
    intro t hin
    obtain ⟨m', hm', href, -⟩ := (hindex t _).mp hin
    exact hnew (List.mem_map.mpr ⟨m', hm', href⟩)
  refine ⟨?_, ?_, ?_, ?_, ?_⟩
  · simp only [MonitorSet.push, List.map_append]
    refine List.nodup_append'.mpr ⟨hnodup, List.nodup_singleton _, ?_⟩
    simpa using hnew
  · intro m' hm'
    rcases List.mem_append.mp hm' with hm' | hm'
    · exact hold m' hm'
    · rw [List.mem_singleton.mp hm']
      exact hallocated
  · intro t
    simp only [MonitorSet.push, Function.update_apply]
    split
    next => simp
    next => exact hnonempty t
  · intro t
    simp only [MonitorSet.push, Function.update_apply]
    split
    next =>
      refine List.nodup_append'.mpr ⟨hreferences _, List.nodup_singleton _, ?_⟩
      simpa using hfresh m.target
    next => exact hreferences t
  · intro t r
    simp only [MonitorSet.push, Function.update_apply]
    by_cases ht : t = m.target
    · subst ht
      simp [hindex, or_and_right, exists_or, eq_comm]
    · simp [ht, Ne.symm ht, hindex, or_and_right, exists_or]

/-! ### Removing one monitor -/

theorem eraseP_eq_filter {ms : List Monitor} (h : (ms.map (·.reference)).Nodup) (r : ℕ) :
    ms.eraseP (·.reference = r) = ms.filter (·.reference ≠ r) := by
  induction ms with
  | nil => rfl
  | cons m rest ih =>
    rw [List.map_cons, List.nodup_cons] at h
    by_cases hm : m.reference = r
    · have hrest : rest.filter (·.reference ≠ r) = rest := by
        rw [List.filter_eq_self]
        intro m' hm'
        simp only [decide_eq_true_eq]
        intro heq
        exact h.1 (List.mem_map.mpr ⟨m', hm', heq.trans hm.symm⟩)
      simp only [hm, decide_true, List.eraseP_cons_of_pos, ne_eq, not_true_eq_false, decide_false,
        Bool.false_eq_true, not_false_eq_true, List.filter_cons_of_neg]
      exact hrest.symm
    · simp only [hm, decide_false, Bool.false_eq_true, not_false_eq_true, List.eraseP_cons_of_neg,
        ne_eq, decide_true, List.filter_cons_of_pos]
      exact congrArg _ (ih h.2)

theorem toList_find?_eq_filter {ms : List Monitor} (h : (ms.map (·.reference)).Nodup) (r : ℕ) :
    (ms.find? (·.reference = r)).toList = ms.filter (·.reference = r) := by
  induction ms with
  | nil => rfl
  | cons m rest ih =>
    rw [List.map_cons, List.nodup_cons] at h
    by_cases hm : m.reference = r
    · have hrest : rest.filter (·.reference = r) = [] := by
        rw [List.filter_eq_nil_iff]
        intro m' hm'
        simp only [decide_eq_true_eq]
        intro heq
        exact h.1 (List.mem_map.mpr ⟨m', hm', heq.trans hm.symm⟩)
      rw [List.filter_cons_of_pos (by simpa using hm), hrest, List.find?_cons_of_pos (by simpa using hm)]
      rfl
    · rw [List.filter_cons_of_neg (by simpa using hm), List.find?_cons_of_neg (by simpa using hm)]
      exact ih h.2

/-- The set without one reference. -/
structure Without (s : MonitorSet) (r : ℕ) (s' : MonitorSet) : Prop where
  indexed : Indexed s'
  monitors : s'.monitors = s.monitors.filter (·.reference ≠ r)
  nextReference : s'.nextReference = s.nextReference
  dead : s'.dead = s.dead

theorem Indexed.removeMonitor (h : Indexed s) (r : ℕ) : Without s r (s.removeMonitor r) := by
  obtain ⟨hnodup, hallocated, hnonempty, hreferences, hindex⟩ := h
  have hkept := eraseP_eq_filter hnodup r
  unfold MonitorSet.removeMonitor
  split
  next m s' hentry =>
    obtain ⟨hget, rfl⟩ := Prod.mk.inj hentry
    have hm : m ∈ s.monitors := List.mem_of_find?_eq_some hget
    have href : m.reference = r := by simpa using List.find?_some hget
    -- The reference stands under the target of its monitor, and nowhere else.
    have hunder : ∀ t, r ∈ (s.byTarget t).getD [] → t = m.target := by
      intro t hin
      obtain ⟨m', hm', href', ht⟩ := (hindex t r).mp hin
      have hsame : m' = m := List.inj_on_of_nodup_map hnodup hm' hm (href'.trans href.symm)
      rw [← ht, hsame]
    obtain ⟨references, hreferencesAt⟩ : ∃ references, s.byTarget m.target = some references := by
      have hin := (hindex m.target r).mpr ⟨m, hm, href, rfl⟩
      cases hat : s.byTarget m.target with
      | none => simp [hat] at hin
      | some references => exact ⟨references, rfl⟩
    have hafter : ∀ t, (({ s with monitors := s.monitors.eraseP (·.reference = r) } :
        MonitorSet).removeReference m.target r).byTarget t =
        if t = m.target then
          (if references.filter (· ≠ r) = [] then none else some (references.filter (· ≠ r)))
        else s.byTarget t := by
      intro t
      simp [removeReference, hreferencesAt, Function.update_apply]
    have hgetD : ∀ t, ((({ s with monitors := s.monitors.eraseP (·.reference = r) } :
        MonitorSet).removeReference m.target r).byTarget t).getD [] =
        ((s.byTarget t).getD []).filter (· ≠ r) := by
      intro t
      rw [hafter]
      by_cases ht : t = m.target
      · rw [if_pos ht, ht, hreferencesAt]
        split
        next hnil => exact hnil.symm
        next => rfl
      · rw [if_neg ht]
        refine (List.filter_eq_self.mpr ?_).symm
        intro r' hr'
        simp only [decide_eq_true_eq]
        rintro rfl
        exact ht (hunder t hr')
    have hmonitors : (({ s with monitors := s.monitors.eraseP (·.reference = r) } :
        MonitorSet).removeReference m.target r).monitors = s.monitors.filter (·.reference ≠ r) := by
      simp [removeReference, hreferencesAt, hkept]
    have hnext : (({ s with monitors := s.monitors.eraseP (·.reference = r) } :
        MonitorSet).removeReference m.target r).nextReference = s.nextReference := by
      simp [removeReference, hreferencesAt]
    refine ⟨⟨?_, ?_, ?_, ?_, ?_⟩, hmonitors, hnext, by simp [removeReference, hreferencesAt]⟩
    · rw [hmonitors]
      exact hnodup.sublist ((List.filter_sublist ..).map _)
    · intro m' hm'
      rw [hmonitors] at hm'
      rw [hnext]
      exact hallocated m' (List.mem_of_mem_filter hm')
    · intro t
      rw [hafter]
      split
      next =>
        split
        next => exact nofun
        next hne => exact fun heq => hne (Option.some.inj heq)
      next => exact hnonempty t
    · intro t
      rw [hgetD]
      exact (hreferences t).filter _
    · intro t r'
      rw [hgetD, hmonitors, List.mem_filter, hindex]
      simp only [decide_eq_true_eq, List.mem_filter]
      constructor
      · rintro ⟨⟨m', hm', rfl, ht⟩, hne⟩
        exact ⟨m', ⟨hm', hne⟩, rfl, ht⟩
      · rintro ⟨m', ⟨hm', hne⟩, rfl, ht⟩
        exact ⟨⟨m', hm', rfl, ht⟩, hne⟩
  next s' hentry =>
    obtain ⟨hget, rfl⟩ := Prod.mk.inj hentry
    have hnone : s.monitors.filter (·.reference ≠ r) = s.monitors := by
      rw [List.filter_eq_self]
      intro m hm
      have := List.find?_eq_none.mp hget m hm
      simpa using this
    rw [hkept, hnone]
    exact ⟨⟨hnodup, hallocated, hnonempty, hreferences, hindex⟩, hnone.symm, rfl, rfl⟩

theorem removeMonitor_of_none {r : ℕ} (h : s.getMonitor r = none) : s.removeMonitor r = s := by
  have hkept : s.monitors.eraseP (·.reference = r) = s.monitors :=
    List.eraseP_of_forall_not (List.find?_eq_none.mp h)
  rw [removeMonitor, removeMonitorEntry, h, hkept]

theorem demonitor_eq (s : MonitorSet) (r : ℕ) :
    s.demonitor r = (s.getMonitor r, s.removeMonitor r) := by
  cases h : s.getMonitor r with
  | none => simp [demonitor, removeMonitor, removeMonitorEntry, h]
  | some m => simp [demonitor, removeMonitor, removeMonitorEntry, h]

/-! ### Removing the monitors of a target -/

theorem removeEntries_cons (s : MonitorSet) (r : ℕ) (rest : List ℕ) :
    s.removeEntries (r :: rest) =
      ((s.getMonitor r).toList ++ ((s.removeMonitorEntry r).2.removeEntries rest).1,
        ((s.removeMonitorEntry r).2.removeEntries rest).2) := by
  rw [removeEntries]
  split
  next m s' hentry =>
    obtain ⟨hget, rfl⟩ := Prod.mk.inj hentry
    rw [hget]
    rfl
  next s' hentry =>
    obtain ⟨hget, rfl⟩ := Prod.mk.inj hentry
    rw [hget]
    rfl

theorem removeEntries_spec (references : List ℕ) : ∀ {s : MonitorSet},
    (s.monitors.map (·.reference)).Nodup → references.Nodup →
    (s.removeEntries references).1.Perm (s.monitors.filter (·.reference ∈ references)) ∧
      (s.removeEntries references).2 =
        { s with monitors := s.monitors.filter (·.reference ∉ references) } := by
  induction references with
  | nil =>
    intro s _ _
    simp [removeEntries]
  | cons r rest ih =>
    intro s hnodup hreferences
    rw [List.nodup_cons] at hreferences
    have hkept : (s.removeMonitorEntry r).2 =
        { s with monitors := s.monitors.filter (·.reference ≠ r) } := by
      rw [removeMonitorEntry, eraseP_eq_filter hnodup r]
    have hnodup' : ((s.removeMonitorEntry r).2.monitors.map (·.reference)).Nodup := by
      rw [hkept]
      exact hnodup.sublist ((List.filter_sublist ..).map _)
    obtain ⟨htaken, hrest⟩ := ih hnodup' hreferences.2
    rw [removeEntries_cons, hrest, hkept, getMonitor, toList_find?_eq_filter hnodup r]
    refine ⟨?_, ?_⟩
    · rw [hkept] at htaken
      refine (htaken.append_left _).trans ?_
      rw [List.filter_filter]
      have hsplit := List.filter_append_perm (fun m : Monitor => m.reference = r)
        (s.monitors.filter (·.reference ∈ r :: rest))
      rw [List.filter_filter, List.filter_filter] at hsplit
      refine List.Perm.trans (List.Perm.of_eq ?_) hsplit
      congr 1
      · apply List.filter_congr
        intro m _
        by_cases hm : m.reference = r <;> simp [hm]
      · apply List.filter_congr
        intro m _
        by_cases hm : m.reference = r
        · simp [hm, hreferences.1]
        · simp [hm]
    · rw [List.filter_filter]
      congr 1
      apply List.filter_congr
      intro m _
      by_cases hm : m.reference = r <;> simp [hm]

/-- Exactly the live monitors of the target are taken, and the others stay indexed. -/
theorem Indexed.takeTarget (h : Indexed s) (t : ℕ) (reason : ExitReason) :
    (s.takeTarget t reason).1.Perm (s.monitors.filter (·.target = t)) ∧
      Indexed (s.takeTarget t reason).2 ∧
      (s.takeTarget t reason).2.monitors = s.monitors.filter (·.target ≠ t) ∧
      (s.takeTarget t reason).2.nextReference = s.nextReference := by
  obtain ⟨hnodup, hallocated, hnonempty, hreferences, hindex⟩ := h
  have hmem : ∀ m ∈ s.monitors, m.reference ∈ (s.byTarget t).getD [] ↔ m.target = t := by
    intro m hm
    rw [hindex]
    constructor
    · rintro ⟨m', hm', href, ht⟩
      rwa [List.inj_on_of_nodup_map hnodup hm hm' href.symm]
    · intro ht
      exact ⟨m, hm, rfl, ht⟩
  obtain ⟨htaken, hrest⟩ := removeEntries_spec ((s.byTarget t).getD [])
    (s := { s.recordDead t reason with byTarget := Function.update s.byTarget t none }) hnodup
    (hreferences t)
  have hstay : s.monitors.filter (·.reference ∉ (s.byTarget t).getD []) =
      s.monitors.filter (·.target ≠ t) := by
    apply List.filter_congr
    intro m hm
    simp [hmem m hm]
  have hafter : (s.takeTarget t reason).2 = { s.recordDead t reason with
      byTarget := Function.update s.byTarget t none
      monitors := s.monitors.filter (·.target ≠ t) } := by
    rw [← hstay]
    exact hrest
  refine ⟨?_, ?_, ?_, ?_⟩
  · refine htaken.trans (List.Perm.of_eq ?_)
    apply List.filter_congr
    intro m hm
    simp [hmem m hm]
  · rw [hafter]
    refine ⟨?_, ?_, ?_, ?_, ?_⟩
    · exact hnodup.sublist ((List.filter_sublist ..).map _)
    · intro m hm
      exact hallocated m (List.mem_of_mem_filter hm)
    · intro t'
      simp only [Function.update_apply]
      split
      next => exact nofun
      next => exact hnonempty t'
    · intro t'
      simp only [Function.update_apply]
      split
      next => exact List.nodup_nil
      next => exact hreferences t'
    · intro t' r
      simp only [Function.update_apply, List.mem_filter, decide_eq_true_eq]
      split
      next ht =>
        simp only [Option.getD_none, List.not_mem_nil, false_iff]
        rintro ⟨m, ⟨-, hne⟩, -, heq⟩
        exact hne (heq.trans ht)
      next ht =>
        rw [hindex]
        constructor
        · rintro ⟨m, hm, href, heq⟩
          exact ⟨m, ⟨hm, fun hmt => ht (heq.symm.trans hmt)⟩, href, heq⟩
        · rintro ⟨m, ⟨hm, -⟩, href, heq⟩
          exact ⟨m, hm, href, heq⟩
  · rw [hafter]
  · rw [hafter]
    rfl

end MonitorSet

/-! ## Runs -/

inductive Operation
  | recordDead (pid : ℕ) (reason : ExitReason)
  | allocateReference
  | monitor (watcher target : ℕ)
  /-- `room` says whether the watcher has room for a DOWN message. -/
  | monitorPid (watcher target : ℕ) (room : Bool)
  | registerMonitor (reference watcher target : ℕ)
  | demonitor (reference : ℕ)
  | removeMonitor (reference : ℕ)
  | processExited (target : ℕ) (reason : ExitReason) (processes : List ℕ) (room : Monitor → Bool)
  | collectWatchersAndRemove (target : ℕ) (reason : ExitReason)

/-- The set with what became of the monitors: all that were registered, those removed before
their target exited, those reported to their watchers, and those that found no watcher. -/
structure Ledger where
  set : MonitorSet
  registered : List Monitor
  removed : List Monitor
  reported : List Monitor
  dropped : List Monitor

namespace Ledger

def start : Ledger := ⟨.new, [], [], [], []⟩

/-- The monitors of a target that has exited, told to those watchers that can be told. -/
def exit (l : Ledger) (target : ℕ) (reason : ExitReason) (told : Monitor → Bool) : Ledger :=
  { l with
    set := (l.set.takeTarget target reason).2
    reported := l.reported ++ (l.set.takeTarget target reason).1.filter told
    dropped := l.dropped ++ (l.set.takeTarget target reason).1.filter fun m => !told m }

def remove (l : Ledger) (reference : ℕ) : Ledger :=
  { l with
    set := l.set.removeMonitor reference
    removed := l.removed ++ (l.set.getMonitor reference).toList }

def register (l : Ledger) (m : Monitor) : Ledger :=
  { l with
    set := l.set.push m m.target
    registered := l.registered ++ [m] }

def step (l : Ledger) : Operation → Ledger
  | .recordDead pid reason => { l with set := l.set.recordDead pid reason }
  | .allocateReference => { l with set := l.set.allocateReference.2 }
  | .monitor watcher target =>
    { l with
      set := (l.set.monitor watcher target).2
      registered := l.registered ++ [⟨(l.set.monitor watcher target).1, watcher, target⟩] }
  | .monitorPid watcher target room =>
    let m : Monitor := ⟨(l.set.monitorPid watcher target).1, watcher, target⟩
    { l with
      set := (l.set.monitorPid watcher target).2
      registered := l.registered ++ [m]
      reported := l.reported ++ if (l.set.dead target).isSome && room then [m] else []
      dropped := l.dropped ++ if (l.set.dead target).isSome && !room then [m] else [] }
  | .registerMonitor reference watcher target =>
    { l with
      set := l.set.registerMonitor reference ⟨reference, watcher, target⟩ target
      registered := l.registered ++ [⟨reference, watcher, target⟩]
      removed := l.removed ++ (l.set.getMonitor reference).toList }
  | .demonitor reference =>
    { l with
      set := (l.set.demonitor reference).2
      removed := l.removed ++ (l.set.demonitor reference).1.toList }
  | .removeMonitor reference => l.remove reference
  | .processExited target reason processes room =>
    l.exit target reason fun m => m.watcher ∈ processes ∧ room m
  | .collectWatchersAndRemove target reason => l.exit target reason fun _ => true

/-- A new reference is below saturation, and a monitor is registered under a reference that was
allocated. -/
def Allowed (l : Ledger) : Operation → Prop
  | .allocateReference => l.set.nextReference < 2 ^ 64 - 1
  | .monitor _ _ => l.set.nextReference < 2 ^ 64 - 1
  | .monitorPid _ _ _ => l.set.nextReference < 2 ^ 64 - 1
  | .registerMonitor reference _ _ => reference < l.set.nextReference
  | _ => True

/-- Each registration is live, removed, reported or dropped, once. -/
def Conserved (l : Ledger) : Prop :=
  l.registered.Perm (l.set.monitors ++ l.removed ++ l.reported ++ l.dropped)

structure Sound (l : Ledger) : Prop where
  indexed : l.set.Indexed
  conserved : l.Conserved

namespace Sound

variable {l : Ledger}

theorem conserved_iff (l : Ledger) : l.Conserved ↔ ∀ m, l.registered.count m =
    l.set.monitors.count m + l.removed.count m + l.reported.count m + l.dropped.count m := by
  simp only [Conserved, List.perm_iff_count, List.count_append]

theorem register (h : l.Sound) {m : Monitor} (hnew : m.reference ∉ l.set.monitors.map (·.reference))
    (hallocated : m.reference < l.set.nextReference) : (l.register m).Sound := by
  refine ⟨h.indexed.push hnew hallocated, (conserved_iff _).mpr ?_⟩
  intro m'
  have hbefore := (conserved_iff l).mp h.conserved m'
  simp only [Ledger.register, MonitorSet.push, List.count_append]
  omega

theorem remove (h : l.Sound) (reference : ℕ) : (l.remove reference).Sound := by
  have hwithout := h.indexed.removeMonitor reference
  refine ⟨hwithout.indexed, (conserved_iff _).mpr ?_⟩
  intro m
  have hbefore := (conserved_iff l).mp h.conserved m
  have hsplit := (List.filter_append_perm (fun m : Monitor => m.reference = reference)
    l.set.monitors).count_eq m
  have hother : ∀ m : Monitor, (!decide (m.reference = reference)) = decide (m.reference ≠ reference) :=
    fun m => (decide_not).symm
  simp only [hother, List.count_append] at hsplit
  simp only [Ledger.remove, hwithout.monitors, MonitorSet.getMonitor,
    MonitorSet.toList_find?_eq_filter h.indexed.nodup, List.count_append]
  omega

theorem exit (h : l.Sound) (target : ℕ) (reason : ExitReason) (told : Monitor → Bool) :
    (l.exit target reason told).Sound := by
  obtain ⟨htaken, hindexed, hmonitors, -⟩ := h.indexed.takeTarget target reason
  refine ⟨hindexed, (conserved_iff _).mpr ?_⟩
  intro m
  have hbefore := (conserved_iff l).mp h.conserved m
  have hsplit := (List.filter_append_perm (fun m : Monitor => m.target = target)
    l.set.monitors).count_eq m
  have hother : ∀ m : Monitor, (!decide (m.target = target)) = decide (m.target ≠ target) :=
    fun m => (decide_not).symm
  have htold := (List.filter_append_perm told (l.set.takeTarget target reason).1).count_eq m
  simp only [hother, List.count_append] at hsplit
  simp only [List.count_append] at htold
  simp only [Ledger.exit, hmonitors, List.count_append]
  rw [htaken.count_eq m] at htold
  omega

/-- A reference that was just allocated is new. -/
theorem allocate (h : l.Sound) (hbelow : l.set.nextReference < 2 ^ 64 - 1) :
    Sound { l with set := l.set.allocateReference.2 } ∧
      l.set.nextReference ∉ l.set.monitors.map (·.reference) ∧
      l.set.nextReference < l.set.allocateReference.2.nextReference := by
  have hnext : l.set.allocateReference.2.nextReference = l.set.nextReference + 1 := by
    simp only [MonitorSet.allocateReference]
    omega
  obtain ⟨hnodup, hallocated, hnonempty, hreferences, hindex⟩ := h.indexed
  refine ⟨⟨⟨hnodup, ?_, hnonempty, hreferences, hindex⟩, h.conserved⟩, ?_, by omega⟩
  · intro m hm
    have := hallocated m hm
    change m.reference < l.set.allocateReference.2.nextReference
    omega
  · intro hin
    obtain ⟨m, hm, href⟩ := List.mem_map.mp hin
    have := hallocated m hm
    omega

theorem step (h : l.Sound) (operation : Operation) (hallowed : l.Allowed operation) :
    (l.step operation).Sound := by
  cases operation with
  | recordDead pid reason =>
    obtain ⟨hnodup, hallocated, hnonempty, hreferences, hindex⟩ := h.indexed
    exact ⟨⟨hnodup, hallocated, hnonempty, hreferences, hindex⟩, h.conserved⟩
  | allocateReference => exact (h.allocate hallowed).1
  | monitor watcher target =>
    obtain ⟨hsound, hnew, hlt⟩ := h.allocate hallowed
    exact hsound.register (m := ⟨l.set.nextReference, watcher, target⟩) hnew hlt
  | monitorPid watcher target room =>
    obtain ⟨hsound, hnew, hlt⟩ := h.allocate hallowed
    cases hdead : l.set.dead target with
    | none =>
      have hregistered :=
        hsound.register (m := ⟨l.set.nextReference, watcher, target⟩) hnew hlt
      simpa [Ledger.step, MonitorSet.monitorPid, MonitorSet.allocateReference, hdead,
        Ledger.register] using hregistered
    | some reason =>
      have hset : (l.set.monitorPid watcher target).2 = l.set.allocateReference.2 := by
        simp [MonitorSet.monitorPid, MonitorSet.allocateReference, hdead]
      refine ⟨?_, (conserved_iff _).mpr ?_⟩
      · simp only [Ledger.step, hset]
        exact hsound.indexed
      · intro m
        have hbefore := (conserved_iff l).mp h.conserved m
        have hsame : l.set.allocateReference.2.monitors = l.set.monitors := rfl
        simp only [Ledger.step, hset, hsame, hdead, List.count_append]
        cases room with
        | true => simp; omega
        | false => simp; omega
  | registerMonitor reference watcher target =>
    have hremoved := h.remove reference
    have hwithout := h.indexed.removeMonitor reference
    have hnew : reference ∉ (l.remove reference).set.monitors.map (·.reference) := by
      simp only [Ledger.remove, hwithout.monitors]
      intro hin
      obtain ⟨m, hm, href⟩ := List.mem_map.mp hin
      simpa [href] using List.of_mem_filter hm
    have hlt : reference < (l.remove reference).set.nextReference := by
      simp only [Ledger.remove, hwithout.nextReference]
      exact hallowed
    have hset : (if (l.set.getMonitor reference).isSome then l.set.removeMonitor reference
        else l.set) = l.set.removeMonitor reference := by
      split
      next => rfl
      next hnone => exact (MonitorSet.removeMonitor_of_none (by simpa using hnone)).symm
    have hregistered := hremoved.register (m := ⟨reference, watcher, target⟩) hnew hlt
    simpa [Ledger.step, MonitorSet.registerMonitor, hset, Ledger.register, Ledger.remove,
      MonitorSet.push] using hregistered
  | demonitor reference =>
    have hsame : l.step (.demonitor reference) = l.remove reference := by
      simp only [Ledger.step, Ledger.remove, MonitorSet.demonitor_eq]
    rw [hsame]
    exact h.remove reference
  | removeMonitor reference => exact h.remove reference
  | processExited target reason processes room => exact h.exit target reason _
  | collectWatchersAndRemove target reason => exact h.exit target reason _

end Sound

end Ledger

/-- In every state of a run whose references are allocated below saturation, the list and the
index describe the same monitors, each registration is live, removed, reported or dropped, once,
and an exit of a target takes exactly its live monitors: all of them are reported by a
collection, and by the other path those whose watcher is there and has room. -/
theorem run_sound (operations : List Operation)
    (h : Runs.Meets Ledger.step Ledger.Allowed .start operations) :
    let l := operations.foldl Ledger.step .start
    l.set.Indexed ∧ l.Conserved ∧
      (∀ target reason, (l.set.collectWatchersAndRemove target reason).1.Perm
        ((l.set.monitors.filter (·.target = target)).map fun m => (m.watcher, m.reference))) ∧
      ∀ target reason processes room, (l.set.processExited target reason processes room).1.Perm
        ((l.set.monitors.filter (·.target = target)).filter fun m =>
          m.watcher ∈ processes ∧ room m) := by
  intro l
  have hstart : Ledger.start.Sound := ⟨MonitorSet.indexed_new, List.Perm.refl _⟩
  have hsound : l.Sound := h.invariant (fun _ operation hl => hl.step operation) hstart
  refine ⟨hsound.indexed, hsound.conserved, ?_, ?_⟩
  · intro target reason
    exact (hsound.indexed.takeTarget target reason).1.map _
  · intro target reason processes room
    exact (hsound.indexed.takeTarget target reason).1.filter _

/-- Two watchers of one target, a monitor of itself, and a removal. -/
theorem run_sound_pair :
    let l := [.monitor 1 2, .monitor 1 2, .monitorPid 2 2 true, .registerMonitor 0 3 2,
      .demonitor 1].foldl Ledger.step .start
    (l.set.collectWatchersAndRemove 2 .error).1.Perm [(2, 2), (3, 0)] :=
  (run_sound [.monitor 1 2, .monitor 1 2, .monitorPid 2 2 true, .registerMonitor 0 3 2,
    .demonitor 1] ⟨show 0 < 2 ^ 64 - 1 by decide, show 1 < 2 ^ 64 - 1 by decide,
      show 2 < 2 ^ 64 - 1 by decide, show 0 < 3 by decide, trivial, trivial⟩).2.2.1 2 .error

/-- A reference that is registered again is reported again, and a monitor whose watcher is not
among the processes is not reported. -/
theorem not_run_reported_once :
    (([.monitorPid 1 2 true, .collectWatchersAndRemove 2 .error, .registerMonitor 0 1 3,
        .collectWatchersAndRemove 3 .error].foldl Ledger.step .start).reported.map
          fun m => (m.watcher, m.reference)) = [(1, 0), (1, 0)] ∧
      let l := Ledger.step .start (.monitorPid 1 2 true)
      (⟨0, 1, 2⟩ : Monitor) ∈ l.set.monitors ∧
        (l.set.processExited 2 .error [2] fun _ => true).1 = [] := by
  decide

end Beamr.Supervision
