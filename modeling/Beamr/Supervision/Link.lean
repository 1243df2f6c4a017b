import Beamr.Scheduler.Delivery
import Mathlib

/-!
# Links

A process that exits signals its links. The signal ends a linked process, which then signals its
own links, unless the process traps exits and gets a message instead.
-/
namespace Beamr.Supervision

open Scheduler (ExitReason terminalReason shouldDie)

/-- The part of a process that links use. -/
structure Process where
  pid : ℕ
  links : List ℕ
  trapExit : Bool
  exited : Option ExitReason
  exitMessages : List (ℕ × ExitReason)
  deriving DecidableEq

namespace Process

def removeLink (p : Process) (pid : ℕ) : Process :=
  { p with links := p.links.filter (· ≠ pid) }

def terminate (p : Process) (reason : ExitReason) : Process :=
  { p with exited := some reason, exitMessages := [] }

end Process

/-- Exit messages hold the source and the reason others see. -/
abbrev Signal := ℕ × ℕ × ExitReason

/-- The processes, the reasons remembered for the dead, and the signals still to deliver. -/
structure Cascade where
  processes : List Process
  dead : ℕ → Option ExitReason
  signals : List Signal

def find (processes : List Process) (pid : ℕ) : Option Process :=
  processes.find? (·.pid = pid)

/-- Writes a process back to its place. -/
def store (target : Process) : List Process → List Process
  | [] => []
  | p :: rest => if p.pid = target.pid then target :: rest else p :: store target rest

/-- The process with its links taken, and the signals to them except to the source. -/
def markExited (p : Process) (reason : ExitReason) (source : Option ℕ) : Process × List Signal :=
  ({ p with links := [] }.terminate (terminalReason reason),
    (p.links.filter (some · ≠ source)).map fun linked => (p.pid, linked, terminalReason reason))

/-- An exit signal that does not end its target: a message if it traps exits, and without room
for the message the end after all. -/
def deliverExitSignal (room : ℕ → ℕ → Bool) (source : ℕ) (target : Process)
    (reason : ExitReason) : Process :=
  -- A status set here for a target that is to end is set again when it is marked.
  if shouldDie reason target.trapExit then target
  else if target.trapExit then
    if room source target.pid then
      { target with exitMessages := target.exitMessages ++ [(source, terminalReason reason)] }
    else target.terminate .error
  else target

namespace Cascade

/-- One turn of the loop, after its signal was taken off. -/
def deliver (room : ℕ → ℕ → Bool) (c : Cascade) (source linked : ℕ) (reason : ExitReason) :
    Cascade :=
  match find c.processes linked with
  | none => c
  | some target =>
    let target := target.removeLink source
    let dies := shouldDie reason target.trapExit
    let failed := !dies && target.trapExit && !room source target.pid
    let target := deliverExitSignal room source target reason
    if dies then
      let target :=
        if terminalReason reason = .killed then { target with trapExit := false } else target
      let (target, signals) := markExited target (terminalReason reason) (some source)
      ⟨store target c.processes,
        Function.update c.dead target.pid (some (terminalReason (terminalReason reason))),
        c.signals ++ signals⟩
    else
      ⟨store target c.processes,
        if failed then Function.update c.dead target.pid (some .error) else c.dead, c.signals⟩

/-- The loop; no result when the fuel runs out. -/
def run (room : ℕ → ℕ → Bool) : ℕ → Cascade → Option Cascade
  | 0, c => if c.signals = [] then some c else none
  | fuel + 1, c =>
    match c.signals with
    | [] => some c
    | (source, linked, reason) :: rest =>
      run room fuel (({ c with signals := rest } : Cascade).deliver room source linked reason)

end Cascade

/-- The exiting process and the cascade through the others. -/
def processExited (room : ℕ → ℕ → Bool) (dead : ℕ → Option ExitReason) (fuel : ℕ)
    (process : Process) (processes : List Process) (reason : ExitReason) :
    Option (Process × Cascade) :=
  let (process, signals) := markExited process reason none
  (Cascade.run room fuel ⟨processes,
    Function.update dead process.pid (some (terminalReason reason)), signals⟩).map
      fun c => (process, c)

/-! ## The processes by pid -/

theorem find_store (processes : List Process) (target : Process) (pid : ℕ) :
    find (store target processes) pid =
      if pid = target.pid then (find processes pid).map fun _ => target else find processes pid := by
  induction processes with
  | nil => simp [store, find]
  | cons p rest ih =>
    unfold find at ih ⊢
    rw [store]
    by_cases hp : p.pid = target.pid
    · rw [if_pos hp]
      by_cases hpid : pid = target.pid
      · subst hpid
        simp [hp]
      · simp [hpid, hp, Ne.symm hpid]
    · rw [if_neg hp]
      by_cases hfirst : p.pid = pid
      · have hpid : pid ≠ target.pid := fun heq => hp (hfirst.trans heq)
        simp [hfirst, hpid]
      · rw [List.find?_cons_of_neg (by simpa using hfirst),
          List.find?_cons_of_neg (by simpa using hfirst)]
        exact ih

theorem find_pid {processes : List Process} {pid : ℕ} {p : Process}
    (h : find processes pid = some p) : p.pid = pid := by
  simpa using List.find?_some h

theorem find_of_mem {processes : List Process} (hdistinct : (processes.map (·.pid)).Nodup)
    {p : Process} (hp : p ∈ processes) : find processes p.pid = some p := by
  induction processes with
  | nil => cases hp
  | cons q rest ih =>
    rw [List.map_cons, List.nodup_cons] at hdistinct
    unfold find at ih ⊢
    rcases List.mem_cons.1 hp with rfl | hrest
    · simp
    · have hne : q.pid ≠ p.pid := by
        intro heq
        exact hdistinct.1 (heq ▸ List.mem_map_of_mem hrest)
      rw [List.find?_cons_of_neg (by simpa using hne)]
      exact ih hdistinct.2 hrest

theorem exists_of_find {processes others : List Process} {pid : ℕ} {p : Process}
    (h : find processes pid = some p)
    (hpids : processes.map (·.pid) = others.map (·.pid)) : ∃ q ∈ others, q.pid = pid := by
  have hmem : pid ∈ processes.map (·.pid) := by
    rw [← find_pid h]
    exact List.mem_map_of_mem (List.mem_of_find?_eq_some h)
  rw [hpids] at hmem
  simpa using hmem

theorem store_of_find {processes : List Process} {p : Process}
    (h : find processes p.pid = some p) : store p processes = processes := by
  induction processes with
  | nil => rfl
  | cons q rest ih =>
    unfold find at h ih
    rw [store]
    by_cases hq : q.pid = p.pid
    · rw [List.find?_cons_of_pos (by simpa using hq)] at h
      cases h
      rw [if_pos rfl]
    · rw [List.find?_cons_of_neg (by simpa using hq)] at h
      rw [if_neg hq, ih h]

theorem map_pid_store (target : Process) (processes : List Process) :
    (store target processes).map (·.pid) = processes.map (·.pid) := by
  induction processes with
  | nil => rfl
  | cons p rest ih =>
    rw [store]
    by_cases hp : p.pid = target.pid
    · rw [if_pos hp, List.map_cons, List.map_cons, hp]
    · rw [if_neg hp, List.map_cons, List.map_cons, ih]

/-- Links still held by the processes. -/
def linkCount (processes : List Process) : ℕ := (processes.map (·.links.length)).sum

theorem linkCount_store {processes : List Process} {pid : ℕ} {p target : Process}
    (h : find processes pid = some p) (hpid : target.pid = pid) :
    linkCount (store target processes) + p.links.length =
      linkCount processes + target.links.length := by
  induction processes with
  | nil => cases h
  | cons q rest ih =>
    unfold find at h ih
    rw [store]
    by_cases hq : q.pid = pid
    · rw [List.find?_cons_of_pos (by simpa using hq)] at h
      cases h
      rw [if_pos (hq.trans hpid.symm)]
      simp only [linkCount, List.map_cons, List.sum_cons]
      omega
    · rw [List.find?_cons_of_neg (by simpa using hq)] at h
      rw [if_neg (fun heq => hq (heq.trans hpid))]
      have hrest := ih h
      simp only [linkCount, List.map_cons, List.sum_cons] at hrest ⊢
      omega

/-! ## One turn of the loop -/

theorem terminalReason_terminalReason (reason : ExitReason) :
    terminalReason (terminalReason reason) = terminalReason reason := by
  cases reason <;> rfl

theorem shouldDie_terminalReason (reason : ExitReason) (trapExit : Bool) :
    shouldDie (terminalReason reason) trapExit =
      (decide (terminalReason reason ≠ .normal) && !trapExit) := by
  cases reason <;> simp [shouldDie, terminalReason]

namespace Cascade

variable {room : ℕ → ℕ → Bool} {c : Cascade} {source linked : ℕ} {reason : ExitReason}
  {target : Process}

theorem deliver_of_none (h : find c.processes linked = none) :
    c.deliver room source linked reason = c := by
  rw [deliver, h]

/-- The target ends: its links become signals. -/
theorem deliver_of_dies (h : find c.processes linked = some target)
    (hdies : shouldDie reason target.trapExit = true) :
    c.deliver room source linked reason =
      ⟨store ⟨linked, [], if terminalReason reason = .killed then false else target.trapExit,
          some (terminalReason reason), []⟩ c.processes,
        Function.update c.dead linked (some (terminalReason reason)),
        c.signals ++ (target.links.filter (· ≠ source)).map fun l =>
          (linked, l, terminalReason reason)⟩ := by
  have hpid := find_pid h
  have hdies' : shouldDie reason (target.removeLink source).trapExit = true := hdies
  have hkept : deliverExitSignal room source (target.removeLink source) reason =
      target.removeLink source := by
    rw [deliverExitSignal, if_pos hdies']
  rw [deliver, h]
  simp only [hdies', hkept, if_true, terminalReason_terminalReason, markExited]
  subst hpid
  generalize terminalReason reason = terminal
  by_cases hkilled : terminal = .killed
  · simp [hkilled, Process.removeLink, Process.terminate, List.filter_filter]
  · simp [hkilled, Process.removeLink, Process.terminate, List.filter_filter]

/-- The target goes on, or ends for want of room, without the link. -/
theorem deliver_of_spared (room : ℕ → ℕ → Bool) (source : ℕ) (h : find c.processes linked = some target)
    (hspared : shouldDie reason target.trapExit = false) :
    ∃ target' dead, c.deliver room source linked reason =
        ⟨store target' c.processes, dead, c.signals⟩ ∧ target'.pid = linked ∧
      target'.links = target.links.filter (· ≠ source) ∧ target'.trapExit = target.trapExit ∧
      (target.trapExit = false →
        target'.exited = target.exited ∧ target'.exitMessages = target.exitMessages) ∧
      (target.trapExit = true → room source linked = true →
        target'.exited = target.exited ∧
          target'.exitMessages = target.exitMessages ++ [(source, terminalReason reason)]) ∧
      (target.trapExit = true → room source linked = false → target'.exited = some .error) := by
  have hpid := find_pid h
  have hspared' : shouldDie reason (target.removeLink source).trapExit = false := hspared
  rw [deliver, h]
  simp only [hspared', Bool.false_eq_true, if_false]
  refine ⟨_, _, rfl, ?_⟩
  rw [deliverExitSignal, if_neg (by simp [hspared'])]
  subst hpid
  by_cases htrap : target.trapExit = true
  · by_cases hroom : room source target.pid = true
    · simp [Process.removeLink, htrap, hroom]
    · simp [Process.removeLink, Process.terminate, htrap, hroom]
  · simp [Process.removeLink, htrap]

end Cascade

/-! ## Termination -/

/-- Every signal still to come is queued or stands for a link still held. -/
def Cascade.size (c : Cascade) : ℕ := c.signals.length + linkCount c.processes

theorem Cascade.size_deliver_le (room : ℕ → ℕ → Bool) (c : Cascade) (source linked : ℕ)
    (reason : ExitReason) : (c.deliver room source linked reason).size ≤ c.size := by
  rcases htarget : find c.processes linked with _ | target
  · exact Nat.le_of_eq (congrArg Cascade.size (deliver_of_none htarget))
  · have hfewer : (target.links.filter (· ≠ source)).length ≤ target.links.length :=
      List.length_filter_le ..
    cases hdies : shouldDie reason target.trapExit with
    | true =>
      -- The links of the target become signals.
      have hstored := linkCount_store htarget (Eq.refl (Process.pid ⟨linked, [],
        if terminalReason reason = .killed then false else target.trapExit,
        some (terminalReason reason), []⟩))
      rw [deliver_of_dies htarget hdies, Cascade.size, List.length_append, List.length_map]
      rw [List.length_nil] at hstored
      simp only [Cascade.size]
      omega
    | false =>
      obtain ⟨target', dead, hdeliver, hpid, hlinks, -⟩ :=
        deliver_of_spared room source htarget hdies
      have hstored := linkCount_store htarget hpid
      rw [hdeliver]
      rw [hlinks] at hstored
      simp only [Cascade.size]
      omega

/-- With fuel for its size a cascade ends, and more fuel changes nothing. -/
theorem Cascade.run_induction (room : ℕ → ℕ → Bool) {P : Cascade → Prop}
    (hstep : ∀ c source linked reason rest, P c → c.signals = (source, linked, reason) :: rest →
      P (({ c with signals := rest } : Cascade).deliver room source linked reason)) (n : ℕ) :
    ∀ c : Cascade, P c → c.size ≤ n →
      ∃ c', P c' ∧ c'.signals = [] ∧ ∀ fuel ≥ n, Cascade.run room fuel c = some c' := by
  induction n with
  | zero =>
    intro c hc hsize
    have hnil : c.signals = [] := by
      rw [Cascade.size] at hsize
      exact List.eq_nil_of_length_eq_zero (by omega)
    refine ⟨c, hc, hnil, ?_⟩
    intro fuel _
    cases fuel with
    | zero => simp [Cascade.run, hnil]
    | succ fuel => simp [Cascade.run, hnil]
  | succ n ih =>
    intro c hc hsize
    rcases hsignals : c.signals with _ | ⟨⟨source, linked, reason⟩, rest⟩
    · refine ⟨c, hc, hsignals, ?_⟩
      intro fuel _
      cases fuel with
      | zero => simp [Cascade.run, hsignals]
      | succ fuel => simp [Cascade.run, hsignals]
    · have hless : ({ c with signals := rest } : Cascade).size ≤ n := by
        simp only [Cascade.size, hsignals, List.length_cons] at hsize ⊢
        omega
      have hdelivered := Cascade.size_deliver_le room { c with signals := rest } source linked reason
      obtain ⟨c', hc', hnil, hrun⟩ :=
        ih _ (hstep c source linked reason rest hc hsignals) (Nat.le_trans hdelivered hless)
      refine ⟨c', hc', hnil, ?_⟩
      intro fuel hfuel
      obtain ⟨fuel, rfl⟩ : ∃ k, fuel = k + 1 := ⟨fuel - 1, by omega⟩
      rw [Cascade.run, hsignals]
      exact hrun fuel (by omega)

/-! ## The right set -/

/-- Processes with symmetric links, before the first of them exits. -/
structure LinkGraph where
  process : Process
  processes : List Process
  distinct : ((process :: processes).map (·.pid)).Nodup
  symmetric : ∀ p ∈ process :: processes, ∀ q ∈ process :: processes,
    q.pid ∈ p.links → p.pid ∈ q.links
  links_nodup : ∀ p ∈ process :: processes, p.links.Nodup
  alive : ∀ p ∈ process :: processes, p.exited = none

namespace LinkGraph

/-- The exit of `s` ends `t`: they are linked, the signal is abnormal and `t` does not trap. -/
def Spreads (g : LinkGraph) (reason : ExitReason) (s t : ℕ) : Prop :=
  terminalReason reason ≠ .normal ∧
    ∃ q ∈ g.processes, q.pid = t ∧ s ∈ q.links ∧ q.trapExit = false

def Doomed (g : LinkGraph) (reason : ExitReason) (pid : ℕ) : Prop :=
  Relation.ReflTransGen (g.Spreads reason) g.process.pid pid

theorem trapExit_of_doomed {g : LinkGraph} {reason : ExitReason} {p : Process}
    (hp : p ∈ g.processes) (h : g.Doomed reason p.pid) : p.trapExit = false := by
  have hdistinct := g.distinct
  rw [List.map_cons, List.nodup_cons] at hdistinct
  rcases h.cases_tail with heq | ⟨s, -, -, q, hq, hpid, -, htrap⟩
  · exact absurd (heq ▸ List.mem_map_of_mem hp) hdistinct.1
  · rwa [← List.inj_on_of_nodup_map hdistinct.2 hq hp hpid]

end LinkGraph

/-- A process the signals from some of its links did not end: the links are gone, and if it traps
exits there is a message for each of them, or the end for want of room. -/
structure Signalled (sent : ℕ → Prop) [DecidablePred sent] (room : ℕ → ℕ → Bool)
    (reason : ExitReason) (p p' : Process) : Prop where
  trapExit : p'.trapExit = p.trapExit
  links : p'.links = p.links.filter fun s => ¬ sent s
  exited : p'.exited =
    if p.trapExit = true ∧ ∃ s ∈ p.links, sent s ∧ room s p.pid = false then some .error else none
  exitMessages : p'.exited = none → List.Perm p'.exitMessages (p.exitMessages ++
    if p.trapExit = true then (p.links.filter fun s => sent s).map (·, terminalReason reason)
    else [])

namespace Signalled

variable {sent sent' : ℕ → Prop} [DecidablePred sent] [DecidablePred sent']
  {room : ℕ → ℕ → Bool} {reason : ExitReason} {p p' p'' : Process}

theorem congr (h : Signalled sent room reason p p') (hsent : ∀ s ∈ p.links, sent s ↔ sent' s) :
    Signalled sent' room reason p p' := by
  have hfilter : (p.links.filter fun s => sent s) = p.links.filter fun s => sent' s :=
    List.filter_congr fun s hs => decide_eq_decide.2 (hsent s hs)
  have hfilter' : (p.links.filter fun s => ¬ sent s) = p.links.filter fun s => ¬ sent' s :=
    List.filter_congr fun s hs => decide_eq_decide.2 (not_congr (hsent s hs))
  have hany : (∃ s ∈ p.links, sent s ∧ room s p.pid = false) ↔
      ∃ s ∈ p.links, sent' s ∧ room s p.pid = false := by
    constructor
    · rintro ⟨s, hs, hsent', hroom⟩
      exact ⟨s, hs, (hsent s hs).1 hsent', hroom⟩
    · rintro ⟨s, hs, hsent', hroom⟩
      exact ⟨s, hs, (hsent s hs).2 hsent', hroom⟩
  refine ⟨h.trapExit, hfilter' ▸ h.links, ?_, hfilter ▸ h.exitMessages⟩
  rw [h.exited]
  simp only [hany]

/-- Nothing was sent yet. -/
theorem refl (hsent : ∀ s ∈ p.links, ¬ sent s) (halive : p.exited = none) :
    Signalled sent room reason p p := by
  have hnone : (p.links.filter fun s => sent s) = [] := by
    rw [List.filter_eq_nil_iff]
    intro s hs
    simp [hsent s hs]
  refine ⟨rfl, ?_, ?_, fun _ => ?_⟩
  · exact (List.filter_eq_self.2 fun s hs => by simp [hsent s hs]).symm
  · rw [halive, if_neg]
    rintro ⟨-, s, hs, hsent', -⟩
    exact hsent s hs hsent'
  · simp [hnone]

end Signalled

/-- One element more passes a filter. -/
theorem filter_insert_perm {links : List ℕ} (hnodup : links.Nodup) {sent : ℕ → Prop}
    [DecidablePred sent] {s : ℕ} (hs : s ∈ links) (hsent : ¬ sent s) :
    List.Perm (links.filter fun x => sent x ∨ x = s) ((links.filter fun x => sent x) ++ [s]) := by
  rw [List.perm_ext_iff_of_nodup (hnodup.filter _)]
  · intro x
    by_cases hx : x = s
    · subst hx
      simp [hs]
    · simp [hx]
  · rw [List.nodup_append]
    refine ⟨hnodup.filter _, List.nodup_singleton s, ?_⟩
    intro x hx y hy
    rw [List.mem_singleton.1 hy]
    rintro rfl
    simp [hsent] at hx

/-- One more signal that does not end its target. -/
theorem Signalled.next {sent : ℕ → Prop} [DecidablePred sent] {room : ℕ → ℕ → Bool}
    {reason : ExitReason} {p p' p'' : Process} {s : ℕ} (h : Signalled sent room reason p p')
    (hnodup : p.links.Nodup) (hs : s ∈ p.links) (hsent : ¬ sent s)
    (htrap : p''.trapExit = p'.trapExit) (hlinks : p''.links = p'.links.filter (· ≠ s))
    (hkept : p'.trapExit = false →
      p''.exited = p'.exited ∧ p''.exitMessages = p'.exitMessages)
    (hroom : p'.trapExit = true → room s p.pid = true →
      p''.exited = p'.exited ∧
        p''.exitMessages = p'.exitMessages ++ [(s, terminalReason reason)])
    (hfull : p'.trapExit = true → room s p.pid = false → p''.exited = some .error) :
    Signalled (fun x => sent x ∨ x = s) room reason p p'' := by
  have hfewer : p''.links = p.links.filter fun x => ¬ (sent x ∨ x = s) := by
    rw [hlinks, h.links, List.filter_filter]
    apply List.filter_congr
    intro x _
    by_cases hx : x = s <;> simp [hx]
  rw [h.trapExit] at hkept hroom hfull
  refine ⟨htrap.trans h.trapExit, hfewer, ?_, ?_⟩
  · cases htrapping : p.trapExit with
    | false =>
      rw [(hkept htrapping).1, h.exited]
      simp [htrapping]
    | true =>
      cases hspace : room s p.pid with
      | false =>
        rw [hfull htrapping hspace, if_pos]
        exact ⟨rfl, s, hs, .inr rfl, hspace⟩
      | true =>
        have hany : (∃ x ∈ p.links, (sent x ∨ x = s) ∧ room x p.pid = false) ↔
            ∃ x ∈ p.links, sent x ∧ room x p.pid = false := by
          constructor
          · rintro ⟨x, hx, hsent' | rfl, hnone⟩
            · exact ⟨x, hx, hsent', hnone⟩
            · exact absurd (hspace.symm.trans hnone) (by simp)
          · rintro ⟨x, hx, hsent', hnone⟩
            exact ⟨x, hx, .inl hsent', hnone⟩
        rw [(hroom htrapping hspace).1, h.exited]
        simp only [htrapping, hany]
  · intro halive
    cases htrapping : p.trapExit with
    | false =>
      rw [(hkept htrapping).2]
      rw [(hkept htrapping).1] at halive
      simpa [htrapping] using h.exitMessages halive
    | true =>
      have hspace : room s p.pid = true := by
        by_contra hnone
        rw [hfull htrapping (by simpa using hnone)] at halive
        cases halive
      rw [(hroom htrapping hspace).2]
      rw [(hroom htrapping hspace).1] at halive
      have hmessages := h.exitMessages halive
      rw [if_pos htrapping] at hmessages
      rw [if_pos rfl]
      calc List.Perm _ (p.exitMessages ++ (p.links.filter fun x => sent x).map
              (·, terminalReason reason) ++ [(s, terminalReason reason)]) :=
            hmessages.append_right _
        _ = p.exitMessages ++ ((p.links.filter fun x => sent x) ++ [s]).map
              (·, terminalReason reason) := by simp
        List.Perm _ _ :=
          ((filter_insert_perm hnodup hs hsent).symm.map _).append_left p.exitMessages

/-! ## The cascade reaches it -/

/-- The signal from `s` to `p` has left the queue. -/
def Sent (D : ℕ → Prop) (reason : ExitReason) (c : Cascade) (p : Process) (s : ℕ) : Prop :=
  D s ∧ (s, p.pid, terminalReason reason) ∉ c.signals

open Classical in
/-- How far the cascade is when the processes of `D` have exited. -/
structure Progress (g : LinkGraph) (reason : ExitReason) (room : ℕ → ℕ → Bool) (D : ℕ → Prop)
    (c : Cascade) : Prop where
  first : D g.process.pid
  doomed : ∀ s, D s → g.Doomed reason s
  nodup : c.signals.Nodup
  signals : ∀ x ∈ c.signals, D x.1 ∧ x.2.2 = terminalReason reason ∧
    ∀ p ∈ g.processes, p.pid = x.2.1 → x.1 ∈ p.links
  pids : c.processes.map (·.pid) = g.processes.map (·.pid)
  ended : ∀ p ∈ g.processes, D p.pid → terminalReason reason ≠ .normal ∧
    find c.processes p.pid = some ⟨p.pid, [], false, some (terminalReason reason), []⟩
  spared : ∀ p ∈ g.processes, ¬ D p.pid → ∀ s ∈ p.links, Sent D reason c p s →
    shouldDie (terminalReason reason) p.trapExit = false
  signalled : ∀ p ∈ g.processes, ¬ D p.pid → ∃ p', find c.processes p.pid = some p' ∧
    Signalled (Sent D reason c p) room reason p p'

namespace Progress

variable {g : LinkGraph} {reason : ExitReason} {room : ℕ → ℕ → Bool} {D : ℕ → Prop}
  {c : Cascade} {s t : ℕ} {rest : List Signal}

theorem sent_of_ne (hsignals : c.signals = (s, t, terminalReason reason) :: rest) {p : Process}
    (hp : p.pid ≠ t) (x : ℕ) :
    Sent D reason ⟨c.processes, c.dead, rest⟩ p x ↔ Sent D reason c p x := by
  simp [Sent, hsignals, hp]

theorem sent_insert (h : Progress g reason room D c)
    (hsignals : c.signals = (s, t, terminalReason reason) :: rest) {p : Process}
    (hp : p.pid = t) (x : ℕ) :
    Sent D reason ⟨c.processes, c.dead, rest⟩ p x ↔ Sent D reason c p x ∨ x = s := by
  have hnodup := h.nodup
  rw [hsignals, List.nodup_cons] at hnodup
  have hs : D s := (h.signals (s, t, terminalReason reason) (by simp [hsignals])).1
  by_cases hx : x = s
  · subst hx hp
    simpa [Sent, hs] using hnodup.1
  · simp [Sent, hsignals, hx]

/-- The rest of the queue, after a signal that changed nothing. -/
theorem of_rest (h : Progress g reason room D c)
    (hsignals : c.signals = (s, t, terminalReason reason) :: rest)
    (hpast : ∀ p ∈ g.processes, p.pid = t → D p.pid) (dead : ℕ → Option ExitReason) :
    Progress g reason room D ⟨c.processes, dead, rest⟩ := by
  classical
  have hnodup := h.nodup
  rw [hsignals, List.nodup_cons] at hnodup
  have hsent : ∀ p ∈ g.processes, ¬ D p.pid → ∀ x,
      Sent D reason ⟨c.processes, c.dead, rest⟩ p x ↔ Sent D reason c p x := by
    intro p hp hliving x
    exact sent_of_ne hsignals (fun heq => hliving (hpast p hp heq)) x
  refine ⟨h.first, h.doomed, hnodup.2, ?_, h.pids, h.ended, ?_, ?_⟩
  · intro x hx
    exact h.signals x (hsignals ▸ List.mem_cons_of_mem _ hx)
  · intro p hp hliving x hx hsent'
    exact h.spared p hp hliving x hx ((hsent p hp hliving x).1 hsent')
  · intro p hp hliving
    obtain ⟨p', hfind, hp'⟩ := h.signalled p hp hliving
    exact ⟨p', hfind, hp'.congr fun x _ => (hsent p hp hliving x).symm⟩

/-- The target lives on, or ends for want of room. -/
theorem of_spared (h : Progress g reason room D c)
    (hsignals : c.signals = (s, t, terminalReason reason) :: rest) {p p' p'' : Process}
    {dead : ℕ → Option ExitReason} (hp : p ∈ g.processes) (hpid : p.pid = t)
    (hliving : ¬ D p.pid) (hfind : find c.processes t = some p')
    (hspared : shouldDie (terminalReason reason) p.trapExit = false) (hpid'' : p''.pid = t)
    (hnext : ∀ sent [DecidablePred sent], Signalled sent room reason p p' → ¬ sent s →
      Signalled (fun x => sent x ∨ x = s) room reason p p'') :
    Progress g reason room D ⟨store p'' c.processes, dead, rest⟩ := by
  classical
  have hnodup := h.nodup
  rw [hsignals, List.nodup_cons] at hnodup
  have hdistinct := g.distinct
  rw [List.map_cons, List.nodup_cons] at hdistinct
  refine ⟨h.first, h.doomed, hnodup.2, ?_, ?_, ?_, ?_, ?_⟩
  · intro x hx
    exact h.signals x (hsignals ▸ List.mem_cons_of_mem _ hx)
  · rw [map_pid_store]
    exact h.pids
  · intro q hq hended
    obtain ⟨hnormal, hq'⟩ := h.ended q hq hended
    have hne : q.pid ≠ t := fun heq => hliving (hpid ▸ heq ▸ hended)
    refine ⟨hnormal, ?_⟩
    rw [find_store, hpid'', if_neg hne]
    exact hq'
  · intro q hq hq' x hx hsent
    by_cases hqt : q.pid = t
    · have heq : q = p := List.inj_on_of_nodup_map hdistinct.2 hq hp (hqt.trans hpid.symm)
      rw [heq]
      exact hspared
    · exact h.spared q hq hq' x hx ((sent_of_ne hsignals hqt x).1 hsent)
  · intro q hq hq'
    obtain ⟨q', hfindq, hq''⟩ := h.signalled q hq hq'
    by_cases hqt : q.pid = t
    · have heq : q = p := List.inj_on_of_nodup_map hdistinct.2 hq hp (hqt.trans hpid.symm)
      subst heq
      refine ⟨p'', ?_, ?_⟩
      · rw [find_store, hqt, if_pos hpid''.symm, hfind]
        rfl
      · have hnot : ¬ Sent D reason c q s := by
          rintro ⟨-, hsent⟩
          exact hsent (by simp [hsignals, hqt])
        have heq : p' = q' := by
          rw [hqt, hfind] at hfindq
          exact Option.some.inj hfindq
        exact (hnext _ (heq ▸ hq'') hnot).congr fun x _ => (h.sent_insert hsignals hqt x).symm
    · refine ⟨q', ?_, ?_⟩
      · rw [find_store, hpid'', if_neg hqt]
        exact hfindq
      · exact hq''.congr fun x _ => (sent_of_ne hsignals hqt x).symm

/-- The target exits and its own links are queued. -/
theorem of_dies (h : Progress g reason room D c)
    (hsignals : c.signals = (s, t, terminalReason reason) :: rest) {p p' : Process}
    {dead : ℕ → Option ExitReason} (hp : p ∈ g.processes) (hpid : p.pid = t)
    (hliving : ¬ D p.pid) (hfind : find c.processes t = some p')
    (hnormal : terminalReason reason ≠ .normal) (htrap : p.trapExit = false) :
    Progress g reason room (fun x => D x ∨ x = t)
      ⟨store ⟨t, [], false, some (terminalReason reason), []⟩ c.processes, dead,
        rest ++ (p'.links.filter (· ≠ s)).map fun l => (t, l, terminalReason reason)⟩ := by
  classical
  have hnodup := h.nodup
  rw [hsignals, List.nodup_cons] at hnodup
  have hdistinct := g.distinct
  rw [List.map_cons, List.nodup_cons] at hdistinct
  obtain ⟨hs, -, hlinked⟩ := h.signals (s, t, terminalReason reason) (by simp [hsignals])
  obtain ⟨p₁, hfind', hp'⟩ := h.signalled p hp hliving
  rw [hpid, hfind] at hfind'
  cases hfind'
  subst hpid
  have hold : ∀ x ∈ rest, D x.1 := by
    intro x hx
    exact (h.signals x (hsignals ▸ List.mem_cons_of_mem _ hx)).1
  -- For the others nothing is sent: the new signals to them are queued.
  have hsent : ∀ q ∈ g.processes, ¬ (D q.pid ∨ q.pid = p.pid) → ∀ x ∈ q.links,
      Sent (fun x => D x ∨ x = p.pid) reason
        ⟨store ⟨p.pid, [], false, some (terminalReason reason), []⟩ c.processes, dead,
          rest ++ (p'.links.filter (· ≠ s)).map fun l => (p.pid, l, terminalReason reason)⟩ q x ↔
        Sent D reason c q x := by
    intro q hq hq' x hx
    rw [not_or] at hq'
    by_cases hxp : x = p.pid
    · subst hxp
      have hback : q.pid ∈ p.links :=
        g.symmetric q (.tail _ hq) p (.tail _ hp) hx
      have hkept : q.pid ∈ p'.links.filter (· ≠ s) := by
        have hqs : q.pid ≠ s := by
          rintro rfl
          exact hq'.1 hs
        simp [hp'.links, Sent, hback, hq'.1, hqs]
      constructor
      · rintro ⟨-, hnot⟩
        exact absurd (List.mem_append_right _ (List.mem_map.2 ⟨q.pid, hkept, rfl⟩)) hnot
      · rintro ⟨hD, -⟩
        exact absurd hD hliving
    · simp [Sent, hsignals, hxp, hq'.2, Ne.symm hxp]
  refine ⟨.inl h.first, ?_, ?_, ?_, ?_, ?_, ?_, ?_⟩
  · rintro x (hx | rfl)
    · exact h.doomed x hx
    · exact (h.doomed s hs).tail ⟨hnormal, p, hp, rfl, hlinked p hp rfl, htrap⟩
  · rw [List.nodup_append]
    refine ⟨hnodup.2, ?_, ?_⟩
    · rw [hp'.links]
      apply List.Nodup.map
      · intro x y hxy
        simpa using hxy
      · exact ((g.links_nodup p (.tail _ hp)).filter _).filter _
    · intro x hx y hy
      obtain ⟨l, -, rfl⟩ := List.mem_map.1 hy
      rintro rfl
      exact hliving (hold _ hx)
  · intro x hx
    rcases List.mem_append.1 hx with hx | hx
    · obtain ⟨hD, hrest⟩ := h.signals x (hsignals ▸ List.mem_cons_of_mem _ hx)
      exact ⟨.inl hD, hrest⟩
    · obtain ⟨l, hl, rfl⟩ := List.mem_map.1 hx
      refine ⟨.inr rfl, rfl, ?_⟩
      intro q hq hql
      have hmem : l ∈ p.links := by
        rw [hp'.links] at hl
        exact List.mem_of_mem_filter (List.mem_of_mem_filter hl)
      exact g.symmetric p (.tail _ hp) q (.tail _ hq) (hql ▸ hmem)
  · rw [map_pid_store]
    exact h.pids
  · intro q hq hended
    refine ⟨hnormal, ?_⟩
    rw [find_store]
    by_cases hqp : q.pid = p.pid
    · rw [if_pos hqp, hqp, hfind]
      rfl
    · rw [if_neg hqp]
      exact (h.ended q hq (hended.resolve_right hqp)).2
  · intro q hq hq' x hx hsent'
    exact h.spared q hq (fun hD => hq' (.inl hD)) x hx ((hsent q hq hq' x hx).1 hsent')
  · intro q hq hq'
    obtain ⟨q', hfindq, hq''⟩ := h.signalled q hq (fun hD => hq' (.inl hD))
    refine ⟨q', ?_, hq''.congr fun x hx => (hsent q hq hq' x hx).symm⟩
    rw [find_store, if_neg (fun heq => hq' (.inr heq))]
    exact hfindq

/-- One turn of the loop. -/
theorem deliver (h : Progress g reason room D c) {source linked : ℕ} {signal : ExitReason}
    (hsignals : c.signals = (source, linked, signal) :: rest) :
    ∃ D', Progress g reason room D'
      (({ c with signals := rest } : Cascade).deliver room source linked signal) := by
  classical
  obtain ⟨-, hreason, hlinked⟩ := h.signals (source, linked, signal) (by simp [hsignals])
  subst hreason
  rcases hfind : find c.processes linked with _ | p'
  · rw [Cascade.deliver_of_none (c := { c with signals := rest }) hfind]
    refine ⟨D, h.of_rest hsignals ?_ _⟩
    intro p hp hpid
    by_contra hliving
    obtain ⟨p', hfind', -⟩ := h.signalled p hp hliving
    rw [hpid, hfind] at hfind'
    cases hfind'
  · obtain ⟨p, hp, hpid⟩ := exists_of_find hfind h.pids
    by_cases hended : D p.pid
    · -- The target exited before: marking it again finds no links and changes nothing.
      obtain ⟨hnormal, hfound⟩ := h.ended p hp hended
      rw [hpid] at hfound
      have hdies : shouldDie (terminalReason reason) false = true := by
        rw [shouldDie_terminalReason]
        simpa using hnormal
      rw [Cascade.deliver_of_dies (c := { c with signals := rest }) hfound hdies,
        terminalReason_terminalReason, ite_self, List.filter_nil, List.map_nil, List.append_nil,
        store_of_find hfound]
      refine ⟨D, h.of_rest hsignals ?_ _⟩
      intro q _ hq
      rw [hq, ← hpid]
      exact hended
    · obtain ⟨p₁, hfind', hp'⟩ := h.signalled p hp hended
      rw [hpid, hfind] at hfind'
      cases hfind'
      cases hdies : shouldDie (terminalReason reason) p'.trapExit with
      | true =>
        rw [Cascade.deliver_of_dies (c := { c with signals := rest }) hfind hdies,
          terminalReason_terminalReason]
        rw [shouldDie_terminalReason, hp'.trapExit] at hdies
        obtain ⟨hnormal, htrap⟩ : terminalReason reason ≠ .normal ∧ p.trapExit = false := by
          simpa using hdies
        rw [hp'.trapExit, htrap, ite_self]
        exact ⟨_, h.of_dies hsignals hp hpid hended hfind hnormal htrap⟩
      | false =>
        obtain ⟨p'', dead, hdeliver, hpid'', hlinks, htrap, hkept, hroom, hfull⟩ :=
          Cascade.deliver_of_spared room source (c := { c with signals := rest }) hfind hdies
        rw [hdeliver]
        rw [terminalReason_terminalReason] at hroom
        refine ⟨D, h.of_spared hsignals hp hpid hended hfind (hp'.trapExit ▸ hdies) hpid'' ?_⟩
        intro sent _ hsignalled hnot
        subst hpid
        exact hsignalled.next (g.links_nodup p (.tail _ hp)) (hlinked p hp rfl) hnot htrap hlinks
          hkept hroom hfull

/-- The cascade begins with the first process exited and its links queued. -/
theorem start (g : LinkGraph) (reason : ExitReason) (room : ℕ → ℕ → Bool)
    (dead : ℕ → Option ExitReason) :
    Progress g reason room (· = g.process.pid) ⟨g.processes, dead,
      (markExited g.process reason none).2⟩ := by
  classical
  have hdistinct := g.distinct
  rw [List.map_cons, List.nodup_cons] at hdistinct
  have hother : ∀ p ∈ g.processes, p.pid ≠ g.process.pid := by
    intro p hp heq
    exact hdistinct.1 (heq ▸ List.mem_map_of_mem hp)
  have hqueued : (markExited g.process reason none).2 =
      g.process.links.map fun l => (g.process.pid, l, terminalReason reason) := by
    simp [markExited]
  have hsent : ∀ p ∈ g.processes, ∀ s ∈ p.links, ¬ Sent (· = g.process.pid) reason
      ⟨g.processes, dead, (markExited g.process reason none).2⟩ p s := by
    rintro p hp s hs ⟨rfl, hnot⟩
    have hback := g.symmetric p (.tail _ hp) g.process (.head _) hs
    rw [hqueued] at hnot
    exact hnot (List.mem_map.2 ⟨p.pid, hback, rfl⟩)
  refine ⟨rfl, ?_, ?_, ?_, rfl, ?_, ?_, ?_⟩
  · rintro s rfl
    exact .refl
  · rw [hqueued]
    apply List.Nodup.map
    · intro x y hxy
      simpa using hxy
    · exact g.links_nodup g.process (.head _)
  · intro x hx
    rw [hqueued] at hx
    obtain ⟨l, hl, rfl⟩ := List.mem_map.1 hx
    refine ⟨rfl, rfl, ?_⟩
    rintro p hp rfl
    exact g.symmetric g.process (.head _) p (.tail _ hp) hl
  · intro p hp hended
    exact absurd hended (hother p hp)
  · intro p hp _ s hs hsent'
    exact absurd hsent' (hsent p hp s hs)
  · intro p hp _
    exact ⟨p, find_of_mem hdistinct.2 hp, .refl (hsent p hp) (g.alive p (.tail _ hp))⟩

/-- With the queue empty every process that should exit has. -/
theorem doomed_iff (h : Progress g reason room D c) (hnil : c.signals = []) (s : ℕ) :
    g.Doomed reason s ↔ D s := by
  constructor
  · intro hdoomed
    induction hdoomed with
    | refl => exact h.first
    | tail _ hstep ih =>
      obtain ⟨hnormal, q, hq, rfl, hlinked, htrap⟩ := hstep
      by_contra hliving
      have hspared := h.spared q hq hliving _ hlinked ⟨ih, by simp [hnil]⟩
      rw [shouldDie_terminalReason, htrap] at hspared
      simp [hnormal] at hspared
  · exact h.doomed s

end Progress

open Classical in
/-- What an exit leaves behind. -/
structure Propagated (g : LinkGraph) (reason : ExitReason) (room : ℕ → ℕ → Bool)
    (process : Process) (c : Cascade) : Prop where
  first : process = ⟨g.process.pid, [], g.process.trapExit, some (terminalReason reason), []⟩
  pids : c.processes.map (·.pid) = g.processes.map (·.pid)
  ended : ∀ p ∈ g.processes, g.Doomed reason p.pid → find c.processes p.pid =
    some ⟨p.pid, [], p.trapExit, some (terminalReason reason), []⟩
  signalled : ∀ p ∈ g.processes, ¬ g.Doomed reason p.pid →
    ∃ p', find c.processes p.pid = some p' ∧ Signalled (g.Doomed reason) room reason p p'

/-- The propagation of an exit terminates and reaches exactly the processes it should. -/
theorem processExited_propagated (g : LinkGraph) (reason : ExitReason) (room : ℕ → ℕ → Bool)
    (dead : ℕ → Option ExitReason) :
    ∃ process c, Propagated g reason room process c ∧
      ∀ fuel ≥ g.process.links.length + linkCount g.processes,
        processExited room dead fuel g.process g.processes reason = some (process, c) := by
  classical
  have hstart := Progress.start g reason room
    (Function.update dead g.process.pid (some (terminalReason reason)))
  obtain ⟨c, ⟨D, hc⟩, hnil, hrun⟩ := Cascade.run_induction room
    (P := fun c => ∃ D, Progress g reason room D c)
    (fun c source linked reason rest hc hsignals => hc.elim fun D hD => hD.deliver hsignals)
    (g.process.links.length + linkCount g.processes) _ ⟨_, hstart⟩ (by
      simp [Cascade.size, markExited])
  have hdoomed := hc.doomed_iff hnil
  refine ⟨_, c, ⟨rfl, hc.pids, ?_, ?_⟩, ?_⟩
  · intro p hp hended
    rw [LinkGraph.trapExit_of_doomed hp hended]
    exact (hc.ended p hp ((hdoomed p.pid).1 hended)).2
  · intro p hp hspared
    obtain ⟨p', hfind, hp'⟩ := hc.signalled p hp (fun hD => hspared ((hdoomed p.pid).2 hD))
    refine ⟨p', hfind, hp'.congr ?_⟩
    intro s _
    rw [hdoomed s]
    simp [Sent, hnil]
  · intro fuel hfuel
    have hended := hrun fuel hfuel
    simp only [processExited, markExited, Process.terminate] at hended ⊢
    rw [hended]
    rfl

/-- A trapping process without room for the message ends although it traps. -/
theorem not_processExited_exactly_doomed : ¬ ∀ (g : LinkGraph) (reason : ExitReason)
    (room : ℕ → ℕ → Bool) (dead : ℕ → Option ExitReason), ∃ fuel process c,
      processExited room dead fuel g.process g.processes reason = some (process, c) ∧
      ∀ p ∈ g.processes, ∀ p', find c.processes p.pid = some p' →
        (p'.exited ≠ none ↔ g.Doomed reason p.pid) := by
  intro hall
  let g : LinkGraph := ⟨⟨1, [2], false, none, []⟩, [⟨2, [1], true, none, []⟩], by decide,
    by decide, by decide, by decide⟩
  obtain ⟨fuel, process, c, hrun, hexact⟩ := hall g .error (fun _ _ => false) (fun _ => none)
  cases fuel with
  | zero => cases hrun
  | succ fuel =>
    have hc : c.processes = [⟨2, [], true, some .error, []⟩] := by
      cases fuel <;> cases hrun <;> rfl
    have hdoomed := (hexact ⟨2, [1], true, none, []⟩ (by simp [g]) _
      (by rw [hc]; rfl)).1 (by simp)
    exact absurd (LinkGraph.trapExit_of_doomed (p := ⟨2, [1], true, none, []⟩) (by simp [g])
      hdoomed) (by simp)

end Beamr.Supervision
