import Beamr.Lib.Checkout
import Beamr.Lib.Runs
import Mathlib.Algebra.Group.Nat.Even

/-!
# Logical clocks

Slices, local sends and deliveries of any number of processes, as far as clocks and mailboxes are
concerned. A worker ticks the clock of the process it has checked out. The slot keeps a copy from
the start of the slice, which is put back at its end.
-/
namespace Beamr.Scheduler

open Checkout (Entry Slot)

/-- The greatest value of a clock. -/
def maxClock : ℕ := 2 ^ 64 - 1

def saturatingSucc (clock : ℕ) : ℕ := if clock < maxClock then clock + 1 else clock

structure ClockedBody (M : Type) where
  logicalClock : ℕ
  mailbox : List M

structure ClockedMetadata (M : Type) where
  logicalClock : ℕ
  pendingLocalMessages : List M

namespace ClockedBody

variable {M : Type}

def tickLogicalClock (p : ClockedBody M) : ClockedBody M :=
  { p with logicalClock := saturatingSucc p.logicalClock }

def observeMessageClock (p : ClockedBody M) (senderClock : ℕ) : ClockedBody M :=
  { p with logicalClock := saturatingSucc (max p.logicalClock senderClock) }

/-- The copy into the mailbox may fail; the message is dropped then. -/
def push (p : ClockedBody M) (message : M) (copied : Bool) : ClockedBody M :=
  if copied then { p with mailbox := p.mailbox ++ [message] } else p

def snapshot (p : ClockedBody M) : ClockedMetadata M := ⟨p.logicalClock, []⟩

def merge (decodes : M → Bool) (p : ClockedBody M) (m : ClockedMetadata M) : ClockedBody M :=
  ⟨m.logicalClock, p.mailbox ++ m.pendingLocalMessages.filter decodes⟩

end ClockedBody

/-- The processes, the next pid, and the clocks each process has attached to its sends. -/
structure ClockSystem (M : Type) where
  bodies : ℕ → Entry (ClockedBody M) (ClockedMetadata M)
  nextPid : ℕ
  sent : ℕ → List ℕ

/-- `copied` and `decodes` say which messages make it into the mailbox. A rejected send is one
that replay refuses; the `send/2` function does not undo its tick. -/
inductive ClockAction (M : Type)
  | spawn
  | takeRunnable (pid : ℕ)
  | storeRunnable (pid : ℕ) (decodes : M → Bool)
  | finalize (pid : ℕ)
  | sendLocal (sender target : ℕ) (message : M) (copied : Bool)
  | sendToSelf (pid : ℕ) (message : M) (copied : Bool)
  | sendToAttachedSelf (pid : ℕ) (message : M)
  | sendRejected (sender : ℕ) (undone : Bool)

namespace ClockSystem

variable {M : Type}

def new : ClockSystem M := ⟨fun _ => .empty, 1, fun _ => []⟩

variable (s : ClockSystem M)

def modifyEntry (pid : ℕ)
    (f : Entry (ClockedBody M) (ClockedMetadata M) → Entry (ClockedBody M) (ClockedMetadata M)) :
    ClockSystem M :=
  { s with bodies := Function.update s.bodies pid (f (s.bodies pid)) }

/-- The sender ticks and attaches its clock. -/
def attach (pid : ℕ) (sender : ClockedBody M) : ClockSystem M :=
  { s.modifyEntry pid (Entry.edit ClockedBody.tickLogicalClock) with
    sent := Function.update s.sent pid
      (s.sent pid ++ [saturatingSucc sender.logicalClock]) }

/-- A stored receiver observes the clock. For one that is executing the message waits. -/
def deliver (target : ℕ) (message : M) (senderClock : ℕ) (copied : Bool) : ClockSystem M :=
  s.modifyEntry target (Entry.modify
    (fun p => (p.observeMessageClock senderClock).push message copied)
    fun m => { m with
      pendingLocalMessages := m.pendingLocalMessages ++ if copied then [message] else [] })

def step (s : ClockSystem M) : ClockAction M → ClockSystem M
  | .spawn =>
    { s.modifyEntry s.nextPid fun _ => .insert ⟨0, []⟩ with nextPid := s.nextPid + 1 }
  | .takeRunnable pid => s.modifyEntry pid (Entry.take ClockedBody.snapshot)
  | .storeRunnable pid decodes => s.modifyEntry pid (Entry.store (ClockedBody.merge decodes))
  | .finalize pid => s.modifyEntry pid Entry.remove
  | .sendLocal sender target message copied =>
    match (s.bodies sender).held with
    | none => s
    | some p =>
      (s.attach sender p).deliver target message (saturatingSucc p.logicalClock) copied
  | .sendToSelf pid message copied =>
    match (s.bodies pid).held with
    | none => s
    | some p =>
      (s.attach pid p).modifyEntry pid (Entry.edit fun p =>
        (p.observeMessageClock p.logicalClock).push message copied)
  | .sendToAttachedSelf pid message => s.modifyEntry pid (Entry.edit fun p => p.push message true)
  | .sendRejected sender undone =>
    if undone then s else s.modifyEntry sender (Entry.edit ClockedBody.tickLogicalClock)

/-- The clock of a process, which is on the body wherever that is. -/
def clock? (pid : ℕ) : Option ℕ := (s.bodies pid).body?.map (·.logicalClock)

/-! ## Clocks of one entry -/

theorem le_saturatingSucc (clock : ℕ) : clock ≤ saturatingSucc clock := by
  rw [saturatingSucc]
  split <;> omega

theorem saturatingSucc_le {clock : ℕ} (h : clock ≤ maxClock) :
    saturatingSucc clock ≤ maxClock := by
  rw [saturatingSucc]
  split <;> omega

theorem lt_saturatingSucc {clock : ℕ} (h : clock < maxClock) : clock < saturatingSucc clock := by
  rw [saturatingSucc, if_pos h]
  exact Nat.lt_succ_self clock

/-- The clocks of an entry are in range, and the copy in the slot is not ahead. -/
structure Regular (e : Entry (ClockedBody M) (ClockedMetadata M)) : Prop where
  sound : e.Sound
  range : ∀ p, e.body? = some p → p.logicalClock ≤ maxClock
  view : ∀ m p, e.slot = .executing m → e.held = some p → m.logicalClock ≤ p.logicalClock

/-- The second entry has the same process with a clock that did not decrease. -/
def Follows (e e' : Entry (ClockedBody M) (ClockedMetadata M)) : Prop :=
  ∀ p', e'.body? = some p' → ∃ p, e.body? = some p ∧ p.logicalClock ≤ p'.logicalClock

section Entry

variable {e : Entry (ClockedBody M) (ClockedMetadata M)}

theorem Follows.refl (e : Entry (ClockedBody M) (ClockedMetadata M)) : Follows e e :=
  fun p hp => ⟨p, hp, Nat.le_refl _⟩

theorem Follows.trans {e' e'' : Entry (ClockedBody M) (ClockedMetadata M)} (h : Follows e e')
    (h' : Follows e' e'') : Follows e e'' := by
  intro p hp
  obtain ⟨p', hp', hle'⟩ := h' p hp
  obtain ⟨p'', hp'', hle⟩ := h p' hp'
  exact ⟨p'', hp'', Nat.le_trans hle hle'⟩

theorem regular_empty : Regular (.empty : Entry (ClockedBody M) (ClockedMetadata M)) where
  sound := Entry.sound_empty
  range _ hp := by cases hp
  view _ _ hm := by cases hm

theorem regular_insert : Regular (.insert ⟨0, []⟩ : Entry (ClockedBody M) (ClockedMetadata M)) where
  sound := Entry.sound_insert _
  range p hp := by
    obtain rfl := Option.some.inj hp
    exact Nat.zero_le _
  view m p hm := by cases hm

theorem Regular.take (h : Regular e) : Regular (e.take ClockedBody.snapshot) where
  sound := h.sound.take _
  range p hp := h.range p (Entry.body?_take h.sound _ ▸ hp)
  view m p hm hp := by
    rw [Entry.take] at hm hp
    split at hm
    next body hslot =>
      simp only [hslot] at hp
      obtain rfl := Option.some.inj hp
      cases hm
      exact Nat.le_refl _
    next hslot =>
      split at hp
      next body hpresent => exact absurd hpresent (hslot body)
      next => exact h.view m p hm hp

theorem Regular.store (h : Regular e) (decodes : M → Bool) :
    Regular (e.store (ClockedBody.merge decodes)) where
  sound := h.sound.store _
  range p hp := by
    obtain ⟨old, hold, rfl | ⟨m, hm, hheld, rfl⟩⟩ := Entry.body?_store hp
    · exact h.range _ hold
    · exact Nat.le_trans (h.view m old hm hheld) (h.range old hold)
  view m p hm hp := by
    rw [Entry.store] at hm hp
    split at hm
    next hheld =>
      simp only [hheld] at hp
      cases hp
    next => split at hm <;> cases hm

theorem Regular.edit (h : Regular e) {f : ClockedBody M → ClockedBody M}
    (hrange : ∀ p, p.logicalClock ≤ maxClock → (f p).logicalClock ≤ maxClock)
    (hle : ∀ p, p.logicalClock ≤ (f p).logicalClock) : Regular (e.edit f) where
  sound := h.sound.edit f
  range p hp := by
    obtain ⟨old, hold, rfl | rfl⟩ := Entry.body?_edit hp
    · exact h.range _ hold
    · exact hrange _ (h.range _ hold)
  view m p hm hp := by
    obtain ⟨old, hold, rfl⟩ := Option.map_eq_some_iff.mp hp
    exact Nat.le_trans (h.view m old hm hold) (hle old)

theorem Regular.remove (h : Regular e) : Regular e.remove where
  sound := Entry.sound_remove e
  range p hp := h.range p (Entry.body?_remove hp)
  view m p hm := by cases hm

theorem Regular.modify (h : Regular e) {f : ClockedBody M → ClockedBody M}
    {g : ClockedMetadata M → ClockedMetadata M}
    (hrange : ∀ p, p.logicalClock ≤ maxClock → (f p).logicalClock ≤ maxClock)
    (hclock : ∀ m, (g m).logicalClock = m.logicalClock) : Regular (e.modify f g) where
  sound := h.sound.modify f g
  range p hp := by
    obtain ⟨old, hold, rfl | rfl⟩ := Entry.body?_modify hp
    · exact h.range _ hold
    · exact hrange _ (h.range _ hold)
  view m p hm hp := by
    rw [Entry.modify] at hm hp
    cases hslot : e.slot with
    | absent =>
      simp only [hslot] at hm
      cases hm
    | present body =>
      simp only [hslot] at hm
      cases hm
    | executing metadata =>
      simp only [hslot] at hm hp
      obtain rfl := Slot.executing.inj hm
      rw [hclock]
      exact h.view metadata p hslot hp

theorem follows_take (h : e.Sound) : Follows e (e.take ClockedBody.snapshot) :=
  fun p hp => ⟨p, Entry.body?_take h _ ▸ hp, Nat.le_refl _⟩

theorem follows_edit {f : ClockedBody M → ClockedBody M}
    (hle : ∀ p, p.logicalClock ≤ (f p).logicalClock) : Follows e (e.edit f) := by
  intro p hp
  obtain ⟨old, hold, rfl | rfl⟩ := Entry.body?_edit hp
  · exact ⟨_, hold, Nat.le_refl _⟩
  · exact ⟨_, hold, hle old⟩

theorem follows_modify {f : ClockedBody M → ClockedBody M}
    {g : ClockedMetadata M → ClockedMetadata M}
    (hle : ∀ p, p.logicalClock ≤ (f p).logicalClock) : Follows e (e.modify f g) := by
  intro p hp
  obtain ⟨old, hold, rfl | rfl⟩ := Entry.body?_modify hp
  · exact ⟨_, hold, Nat.le_refl _⟩
  · exact ⟨_, hold, hle old⟩

theorem follows_remove : Follows e e.remove :=
  fun p hp => ⟨p, Entry.body?_remove hp, Nat.le_refl _⟩

/-- At the end of a slice the clock is that of its start. -/
theorem follows_store (decodes : M → Bool)
    (h : ∀ p m, e.held = some p → e.slot = .executing m → p.logicalClock = m.logicalClock) :
    Follows e (e.store (ClockedBody.merge decodes)) := by
  intro p hp
  obtain ⟨old, hold, rfl | ⟨m, hm, hheld, rfl⟩⟩ := Entry.body?_store hp
  · exact ⟨_, hold, Nat.le_refl _⟩
  · exact ⟨old, hold, Nat.le_of_eq (h old m hheld hm)⟩

end Entry

/-! ## The law -/

/-- A slice that is stored back has not ticked, and no message with the greatest clock is put into
the mailbox of a stored receiver. -/
def InStep (s : ClockSystem M) : ClockAction M → Prop
  | .storeRunnable pid _ => ∀ p m, (s.bodies pid).held = some p →
      (s.bodies pid).slot = .executing m → p.logicalClock = m.logicalClock
  | .sendLocal sender target _ copied => copied → ∀ p r, (s.bodies sender).held = some p →
      (s.bodies target).slot = .present r → saturatingSucc p.logicalClock < maxClock
  | _ => True

/-- The clock of no process decreases, and a stored receiver is past the clock of the message. -/
structure LawfulStep (s : ClockSystem M) (a : ClockAction M) : Prop where
  monotone : ∀ pid c c', s.clock? pid = some c → (s.step a).clock? pid = some c' → c ≤ c'
  delivered : ∀ sender target message p r, a = .sendLocal sender target message true →
    (s.bodies sender).held = some p → (s.bodies target).slot = .present r →
      ∃ r', ((s.step a).bodies target).slot = .present r' ∧ r'.mailbox = r.mailbox ++ [message] ∧
        saturatingSucc p.logicalClock < r'.logicalClock

/-- The clocks attached to the sends of a process increase below saturation. -/
def Increasing (clocks : List ℕ) : Prop := clocks.Pairwise fun c c' => c < maxClock → c < c'

structure Tracked (s : ClockSystem M) : Prop where
  regular : ∀ pid, Regular (s.bodies pid)
  fresh : ∀ pid, s.nextPid ≤ pid → s.bodies pid = .empty ∧ s.sent pid = []

section System

variable {s : ClockSystem M}

theorem tracked_new : (new : ClockSystem M).Tracked where
  regular _ := regular_empty
  fresh _ _ := ⟨rfl, rfl⟩

theorem bodies_modifyEntry (pid q : ℕ)
    (f : Entry (ClockedBody M) (ClockedMetadata M) → Entry (ClockedBody M) (ClockedMetadata M)) :
    (s.modifyEntry pid f).bodies q = if q = pid then f (s.bodies pid) else s.bodies q :=
  Function.update_apply ..

/-- A change of one entry that an empty entry does not take part in. -/
theorem Tracked.modifyEntry (h : s.Tracked) (pid : ℕ)
    {f : Entry (ClockedBody M) (ClockedMetadata M) → Entry (ClockedBody M) (ClockedMetadata M)}
    (hf : Regular (f (s.bodies pid))) (hempty : f .empty = .empty) :
    (s.modifyEntry pid f).Tracked where
  regular q := by
    rw [bodies_modifyEntry]
    split
    next => exact hf
    next => exact h.regular q
  fresh q hq := by
    obtain ⟨hbody, hsent⟩ := h.fresh q hq
    rw [bodies_modifyEntry]
    split
    next heq =>
      subst heq
      exact ⟨by rw [hbody, hempty], hsent⟩
    next => exact ⟨hbody, hsent⟩

theorem clock?_le {s' : ClockSystem M} {pid c c' : ℕ} (h : Follows (s.bodies pid) (s'.bodies pid))
    (hc : s.clock? pid = some c) (hc' : s'.clock? pid = some c') : c ≤ c' := by
  obtain ⟨p', hp', rfl⟩ := Option.map_eq_some_iff.mp hc'
  obtain ⟨p, hp, hle⟩ := h p' hp'
  rw [clock?, hp] at hc
  exact Option.some.inj hc ▸ hle

/-- What the clocks attached so far have to do with the clocks of the processes. -/
structure Lawful (s : ClockSystem M) : Prop where
  tracked : s.Tracked
  increasing : ∀ pid, Increasing (s.sent pid)
  behind : ∀ pid, ∀ c ∈ s.sent pid, ∀ p, (s.bodies pid).body? = some p → c ≤ p.logicalClock

theorem lawful_new : (new : ClockSystem M).Lawful where
  tracked := tracked_new
  increasing _ := .nil
  behind _ _ hc := absurd hc List.not_mem_nil

/-- A lawful system that another one, without a new process, comes from. -/
structure Advanced (s s' : ClockSystem M) : Prop where
  lawful : s'.Lawful
  follows : ∀ pid, Follows (s.bodies pid) (s'.bodies pid)

theorem Lawful.refl (h : s.Lawful) : Advanced s s := ⟨h, fun _ => .refl _⟩

theorem Lawful.modifyEntry (h : s.Lawful) (pid : ℕ)
    {f : Entry (ClockedBody M) (ClockedMetadata M) → Entry (ClockedBody M) (ClockedMetadata M)}
    (hf : Regular (f (s.bodies pid))) (hempty : f .empty = .empty)
    (hfollows : Follows (s.bodies pid) (f (s.bodies pid))) : Advanced s (s.modifyEntry pid f) := by
  have hall : ∀ q, Follows (s.bodies q) ((s.modifyEntry pid f).bodies q) := by
    intro q
    rw [bodies_modifyEntry]
    split
    next heq => exact heq ▸ hfollows
    next => exact .refl _
  refine ⟨⟨h.tracked.modifyEntry pid hf hempty, h.increasing, fun q c hc p hp => ?_⟩, hall⟩
  obtain ⟨old, hold, hle⟩ := hall q p hp
  exact Nat.le_trans (h.behind q c hc old hold) hle

theorem Regular.tick {e : Entry (ClockedBody M) (ClockedMetadata M)} (h : Regular e) :
    Regular (e.edit ClockedBody.tickLogicalClock) :=
  h.edit (fun _ => saturatingSucc_le) fun p => le_saturatingSucc p.logicalClock

theorem Lawful.tick (h : s.Lawful) (pid : ℕ) :
    Advanced s (s.modifyEntry pid (Entry.edit ClockedBody.tickLogicalClock)) :=
  h.modifyEntry pid (h.tracked.regular pid).tick rfl
    (follows_edit fun p => le_saturatingSucc p.logicalClock)

theorem sent_attach (pid q : ℕ) (p : ClockedBody M) :
    (s.attach pid p).sent q =
      if q = pid then s.sent pid ++ [saturatingSucc p.logicalClock] else s.sent q :=
  Function.update_apply ..

theorem Lawful.attach (h : s.Lawful) {pid : ℕ} {p : ClockedBody M}
    (hp : (s.bodies pid).held = some p) : Advanced s (s.attach pid p) := by
  have hold : ∀ c ∈ s.sent pid, c ≤ p.logicalClock := by
    intro c hc
    exact h.behind pid c hc p (by rw [Entry.body?, hp])
  obtain ⟨hticked, hfollows⟩ := h.tick pid
  refine ⟨⟨⟨hticked.tracked.regular, fun q hq => ?_⟩, fun q => ?_, fun q c hc p' hp' => ?_⟩,
    hfollows⟩
  · refine ⟨(hticked.tracked.fresh q hq).1, ?_⟩
    obtain ⟨hempty, hsent⟩ := h.tracked.fresh q hq
    rw [sent_attach]
    split
    next heq =>
      rw [← heq, hempty] at hp
      cases hp
    next => exact hsent
  · rw [sent_attach]
    split
    next heq =>
      refine List.pairwise_append.mpr ⟨h.increasing pid, List.pairwise_singleton _ _, ?_⟩
      intro c hc c' hc' hlt
      rw [List.mem_singleton.mp hc', saturatingSucc]
      have := hold c hc
      split <;> omega
    next => exact h.increasing q
  · rw [sent_attach] at hc
    split at hc
    next heq =>
      subst heq
      rcases List.mem_append.mp hc with hc | hc
      · exact hticked.behind q c hc p' hp'
      · have hbody := bodies_modifyEntry (s := s) q q (Entry.edit ClockedBody.tickLogicalClock)
        rw [if_pos rfl] at hbody
        rw [ClockSystem.attach, hbody, Entry.edit, Entry.body?, hp] at hp'
        rw [List.mem_singleton.mp hc, ← Option.some.inj hp']
        exact Nat.le_refl _
    next => exact hticked.behind q c hc p' hp'

theorem logicalClock_push (p : ClockedBody M) (message : M) (copied : Bool) :
    (p.push message copied).logicalClock = p.logicalClock := by
  rw [ClockedBody.push]
  split <;> rfl

theorem Lawful.deliver (h : s.Lawful) (target : ℕ) (message : M) {senderClock : ℕ} (copied : Bool)
    (hclock : senderClock ≤ maxClock) :
    Advanced s (s.deliver target message senderClock copied) := by
  refine h.modifyEntry target ((h.tracked.regular target).modify ?_ fun _ => rfl) rfl
    (follows_modify ?_)
  · intro p hp
    rw [logicalClock_push]
    exact saturatingSucc_le (Nat.max_le.mpr ⟨hp, hclock⟩)
  · intro p
    rw [logicalClock_push]
    exact Nat.le_trans (Nat.le_max_left ..) (le_saturatingSucc _)

theorem Lawful.spawn (h : s.Lawful) : (s.step .spawn).Lawful := by
  have hbodies : ∀ q, (s.step .spawn).bodies q =
      if q = s.nextPid then .insert ⟨0, []⟩ else s.bodies q :=
    fun _ => Function.update_apply ..
  refine ⟨⟨fun q => ?_, fun q hq => ?_⟩, h.increasing, fun q c hc p hp => ?_⟩
  · rw [hbodies]
    split
    next => exact regular_insert
    next => exact h.tracked.regular q
  · have hlt : s.nextPid < q := hq
    rw [hbodies, if_neg (Nat.ne_of_gt hlt)]
    exact h.tracked.fresh q (Nat.le_of_lt hlt)
  · have hsent : c ∈ s.sent q := hc
    rw [hbodies] at hp
    split at hp
    next heq =>
      subst heq
      rw [(h.tracked.fresh _ (Nat.le_refl _)).2] at hsent
      exact absurd hsent List.not_mem_nil
    next => exact h.behind q c hsent p hp

theorem Advanced.trans {s' s'' : ClockSystem M} (h : Advanced s s') (h' : Advanced s' s'') :
    Advanced s s'' :=
  ⟨h'.lawful, fun pid => (h.follows pid).trans (h'.follows pid)⟩

theorem Lawful.step (h : s.Lawful) {a : ClockAction M} (ha : s.InStep a) :
    (s.step a).Lawful ∧ (a ≠ .spawn → Advanced s (s.step a)) := by
  suffices hother : a ≠ .spawn → Advanced s (s.step a) by
    refine ⟨?_, hother⟩
    by_cases hspawn : a = .spawn
    · exact hspawn ▸ h.spawn
    · exact (hother hspawn).lawful
  intro hspawn
  have hregular := h.tracked.regular
  cases a with
  | spawn => exact absurd rfl hspawn
  | takeRunnable pid =>
    exact h.modifyEntry pid (hregular pid).take rfl (follows_take (hregular pid).sound)
  | storeRunnable pid decodes =>
    exact h.modifyEntry pid ((hregular pid).store decodes) rfl (follows_store decodes ha)
  | finalize pid => exact h.modifyEntry pid (hregular pid).remove rfl follows_remove
  | sendLocal sender target message copied =>
    rw [ClockSystem.step]
    split
    next => exact h.refl
    next p hp =>
      have hattached := h.attach hp
      refine hattached.trans (hattached.lawful.deliver target message copied (saturatingSucc_le ?_))
      exact (hregular sender).range p (by rw [Entry.body?, hp])
  | sendToSelf pid message copied =>
    rw [ClockSystem.step]
    split
    next => exact h.refl
    next p hp =>
      have hattached := h.attach hp
      have hpush : ∀ p : ClockedBody M,
          ((p.observeMessageClock p.logicalClock).push message copied).logicalClock =
            saturatingSucc p.logicalClock := by
        intro p
        rw [logicalClock_push, ClockedBody.observeMessageClock, Nat.max_self]
      refine hattached.trans (hattached.lawful.modifyEntry pid
        ((hattached.lawful.tracked.regular pid).edit ?_ ?_) rfl (follows_edit ?_))
      · intro p hp
        rw [hpush]
        exact saturatingSucc_le hp
      · intro p
        rw [hpush]
        exact le_saturatingSucc _
      · intro p
        rw [hpush]
        exact le_saturatingSucc _
  | sendToAttachedSelf pid message =>
    refine h.modifyEntry pid ((hregular pid).edit ?_ ?_) rfl (follows_edit ?_)
    · exact fun _ hp => hp
    · exact fun _ => Nat.le_refl _
    · exact fun _ => Nat.le_refl _
  | sendRejected sender undone =>
    rw [ClockSystem.step]
    split
    next => exact h.refl
    next => exact h.tick sender

/-- A receiver that is stored has the message and observes its clock. -/
theorem slot_sendLocal (h : s.Tracked) {sender target : ℕ} {message : M} {p r : ClockedBody M}
    (hp : (s.bodies sender).held = some p) (hr : (s.bodies target).slot = .present r) :
    ((s.step (.sendLocal sender target message true)).bodies target).slot =
      .present ((r.observeMessageClock (saturatingSucc p.logicalClock)).push message true) := by
  have hne : target ≠ sender := by
    rintro rfl
    have hsound := (h.regular target).sound
    rw [Entry.Sound, hr] at hsound
    rw [hp] at hsound
    cases hsound
  have hattached : (s.attach sender p).bodies target = s.bodies target :=
    (bodies_modifyEntry sender target _).trans (if_neg hne)
  rw [step, hp]
  simp only [deliver]
  rw [bodies_modifyEntry, if_pos rfl, hattached, Entry.modify, hr]

theorem Lawful.lawfulStep (h : s.Lawful) {a : ClockAction M} (ha : s.InStep a) :
    s.LawfulStep a where
  monotone pid c c' hc hc' := by
    by_cases hspawn : a = .spawn
    · subst hspawn
      have hbody : (s.step .spawn).bodies pid =
          if pid = s.nextPid then .insert ⟨0, []⟩ else s.bodies pid := Function.update_apply ..
      rw [clock?, hbody] at hc'
      split at hc'
      next heq =>
        rw [clock?, heq, (h.tracked.fresh _ (Nat.le_refl _)).1] at hc
        cases hc
      next =>
        rw [clock?] at hc
        rw [hc] at hc'
        exact Nat.le_of_eq (Option.some.inj hc')
    · exact clock?_le (((h.step ha).2 hspawn).follows pid) hc hc'
  delivered sender target message p r heq hp hr := by
    subst heq
    refine ⟨_, slot_sendLocal h.tracked hp hr, rfl, ?_⟩
    have hlt : saturatingSucc p.logicalClock < maxClock := ha rfl p r hp hr
    rw [logicalClock_push, ClockedBody.observeMessageClock]
    by_cases hmax : max r.logicalClock (saturatingSucc p.logicalClock) < maxClock
    · exact Nat.lt_of_le_of_lt (Nat.le_max_right ..) (lt_saturatingSucc hmax)
    · exact Nat.lt_of_lt_of_le (Nat.lt_of_lt_of_le hlt (Nat.not_lt.mp hmax)) (le_saturatingSucc _)

/-- A step that does not keep in step breaks the law. -/
theorem Lawful.inStep (h : s.Lawful) {a : ClockAction M} (ha : s.LawfulStep a) : s.InStep a := by
  have hregular := h.tracked.regular
  cases a with
  | storeRunnable pid decodes =>
    intro p m hp hm
    have hbefore : s.clock? pid = some p.logicalClock := by
      rw [clock?, Entry.body?, hp]
      rfl
    have hafter : (s.step (.storeRunnable pid decodes)).clock? pid = some m.logicalClock := by
      rw [clock?, ClockSystem.step, bodies_modifyEntry, if_pos rfl, Entry.store, hp, hm]
      rfl
    exact Nat.le_antisymm (ha.monotone pid _ _ hbefore hafter) ((hregular pid).view m p hm hp)
  | sendLocal sender target message copied =>
    intro hcopied p r hp hr
    obtain rfl : copied = true := hcopied
    obtain ⟨r', hr', -, hlt⟩ := ha.delivered sender target message p r rfl hp hr
    rw [slot_sendLocal h.tracked hp hr] at hr'
    obtain rfl := Slot.present.inj hr'
    refine Nat.lt_of_lt_of_le hlt ?_
    rw [logicalClock_push, ClockedBody.observeMessageClock]
    refine saturatingSucc_le (Nat.max_le.mpr ⟨?_, saturatingSucc_le ?_⟩)
    · refine (hregular target).range r ?_
      have hsound := (hregular target).sound
      rw [Entry.Sound, hr] at hsound
      rw [Entry.body?, hsound, hr]
    · exact (hregular sender).range p (by rw [Entry.body?, hp])
  | spawn => trivial
  | takeRunnable pid => trivial
  | finalize pid => trivial
  | sendToSelf pid message copied => trivial
  | sendToAttachedSelf pid message => trivial
  | sendRejected sender undone => trivial

end System

end ClockSystem

open ClockSystem in
/-- Every step of a run keeps the clocks lawful, and the clocks attached to the sends of each
process increase, exactly when every slice that is stored back has not ticked and no message with
the greatest clock is put into the mailbox of a stored receiver. -/
theorem logical_clocks_iff {M : Type} (actions : List (ClockAction M)) :
    Runs.Meets step InStep new actions ↔
      (∀ k a, actions[k]? = some a → LawfulStep ((actions.take k).foldl step new) a) ∧
        ∀ k pid, Increasing (((actions.take k).foldl step new).sent pid) := by
  have hrun : ∀ first rest, actions = first ++ rest → Runs.Meets step InStep new actions →
      (first.foldl step new : ClockSystem M).Lawful := by
    intro first rest heq hmeets
    rw [heq, Runs.Meets.append] at hmeets
    exact hmeets.1.invariant (fun s a hs ha => (hs.step ha).1) lawful_new
  constructor
  · intro h
    refine ⟨fun k a hk => ?_, fun k pid => ?_⟩
    · have hlawful := hrun (actions.take k) (actions.drop k) (List.take_append_drop ..).symm h
      exact hlawful.lawfulStep (Runs.meets_iff_getElem?.mp h k a hk)
    · exact (hrun (actions.take k) (actions.drop k) (List.take_append_drop ..).symm h).increasing pid
  · rintro ⟨hsteps, -⟩
    by_contra hnot
    obtain ⟨before, a, after, rfl, hbefore, ha⟩ := Runs.Meets.exists_not hnot
    have hlawful : (before.foldl step new : ClockSystem M).Lawful :=
      hbefore.invariant (fun s a hs ha => (hs.step ha).1) lawful_new
    have hstep := hsteps before.length a (List.getElem?_append_right (Nat.le_refl _) |>.trans (by simp))
    rw [List.take_left'] at hstep
    · exact ha (hlawful.inStep hstep)
    · rfl

open ClockSystem in
/-- A process sends a message in each of two slices. Its clock goes back at the end of the first
one, and both messages carry the same clock. -/
theorem not_logical_clocks :
    ¬ ∀ actions : List (ClockAction Unit),
      (∀ k a, actions[k]? = some a → LawfulStep ((actions.take k).foldl step new) a) ∧
        ∀ k pid, Increasing (((actions.take k).foldl step new).sent pid) := by
  intro h
  obtain ⟨-, hsent⟩ := h [.spawn, .spawn, .takeRunnable 1, .sendLocal 1 2 () true,
    .storeRunnable 1 fun _ => true, .takeRunnable 1, .sendLocal 1 2 () true]
  have hpair : Increasing [1, 1] := hsent 7 1
  rw [Increasing, List.pairwise_pair] at hpair
  exact absurd (hpair (by decide)) (Nat.lt_irrefl 1)

end Beamr.Scheduler
