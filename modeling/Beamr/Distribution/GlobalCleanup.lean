import Beamr.Distribution.Global
import Beamr.Lib.Identities
import Beamr.Lib.Runs

/-!
# Cleanup of global names

`remove_node`, `remove_pid`, `unregister` and `take_notifications` beside merges. Each operation on
one of the two maps is a step. A removal first collects the names of its owner and then removes
them one by one, whoever holds them by then. Notifications are kept by a part of the identity of
the loser, and are read in one step and cleared in another.
-/
namespace Beamr.Distribution

/-- The loss of a registration, with its number among all losses. -/
structure Notice where
  number : ℕ
  notification : GlobalNameNotification

/-- The key of `notifications`. -/
def GlobalNameNotification.key (n : GlobalNameNotification) : Atom × UInt64 × UInt64 :=
  (n.name, n.loser.pidNumber, n.loser.serial)

def Notice.key (n : Notice) : Atom × UInt64 × UInt64 := n.notification.key

/-- Whose registrations are removed. -/
inductive Owner
  | node (node : Atom)
  | pid (pid : GlobalPid)
  deriving DecidableEq

def Owner.owns (owner : Owner) (entry : GlobalNameEntry) : Bool :=
  match owner with
  | .node name => entry.pid.node == name
  | .pid number => entry.pid == number

/-- A call of `remove_node` or `remove_pid`: the names still to remove, and what it has removed. -/
structure Removal where
  owner : Owner
  names : List Atom
  removed : List GlobalNameEntry

/-- The registry with what its callers hold. `recording` are notifications of merges that hold the
lock of the entry and have not yet recorded the loss, `taken` what calls of `take_notifications`
have read, and `clearing` the number of those that have not cleared the map yet. -/
structure Cleanup where
  atoms : AtomTable
  entries : List GlobalNameEntry
  pending : List Notice
  losses : List Notice
  recording : List Notice
  taken : List (List Notice)
  clearing : ℕ
  removals : List Removal

inductive CleanupStep
  | merge (incoming : GlobalNameEntry)
  | record (number : ℕ)
  | unregister (name : Atom) (pid : GlobalPid)
  /-- The names come in any order. -/
  | collect (owner : Owner) (names : List Atom)
  | removeNext (removal : ℕ)
  | readNotifications
  | clearNotifications

namespace Cleanup

variable (s : Cleanup)

def new (atoms : AtomTable) : Cleanup where
  atoms := atoms
  entries := []
  pending := []
  losses := []
  recording := []
  taken := []
  clearing := 0
  removals := []

/-- The entry is locked until its merge has recorded the loss. -/
def locked (name : Atom) : Bool := s.recording.any (·.notification.name == name)

def whereis (name : Atom) : Option GlobalNameEntry := s.entries.find? (·.name = name)

def remove (name : Atom) : Cleanup := { s with entries := s.entries.filter (·.name ≠ name) }

def insert (entry : GlobalNameEntry) : Cleanup :=
  { s with entries := entry :: (s.remove entry.name).entries }

def lose (notification : GlobalNameNotification) : Cleanup :=
  let notice := ⟨s.losses.length + 1, notification⟩
  { s with losses := notice :: s.losses, recording := notice :: s.recording }

/-- `merge_entry` up to `record_notification`. -/
def mergeEntry (incoming : GlobalNameEntry) : Cleanup :=
  match s.whereis incoming.name with
  | none => s.insert incoming
  | some existing =>
    if sameEntry existing incoming then s
    else if !entryWins s.atoms incoming existing then
      s.lose (loserNotification existing incoming)
    else
      (s.insert incoming).lose (loserNotification incoming existing)

def recordNotification (number : ℕ) : Cleanup :=
  match s.recording.find? (·.number = number) with
  | none => s
  | some notice => { s with
      recording := s.recording.filter (·.number ≠ number)
      pending := notice :: s.pending.filter (·.key ≠ notice.key) }

def unregister (name : Atom) (pid : GlobalPid) : Cleanup :=
  match s.whereis name with
  | none => s
  | some entry => if entry.pid = pid then s.remove name else s

/-- One name of a removal. -/
def removeName (index : ℕ) (removal : Removal) (name : Atom) (rest : List Atom) : Cleanup :=
  { s.remove name with
    removals := s.removals.set index
      { removal with names := rest, removed := removal.removed ++ (s.whereis name).toList } }

def removeNext (index : ℕ) : Cleanup :=
  match s.removals[index]? with
  | none => s
  | some removal =>
    match removal.names with
    | [] => s
    | name :: rest => if s.locked name then s else s.removeName index removal name rest

/-- The names of the entries of the owner, which the iteration yields in any order. -/
def ownedNames (owner : Owner) : List Atom := (s.entries.filter owner.owns).map (·.name)

def collect (owner : Owner) (names : List Atom) : Cleanup :=
  if names.isPerm (s.ownedNames owner) then
    { s with removals := s.removals ++ [⟨owner, names, []⟩] }
  else s

def readNotifications : Cleanup :=
  { s with taken := s.taken ++ [s.pending], clearing := s.clearing + 1 }

def clearNotifications : Cleanup :=
  if s.clearing = 0 then s else { s with pending := [], clearing := s.clearing - 1 }

def step : CleanupStep → Cleanup
  | .merge incoming => if s.locked incoming.name then s else s.mergeEntry incoming
  | .record number => s.recordNotification number
  | .unregister name pid => if s.locked name then s else s.unregister name pid
  | .collect owner names => s.collect owner names
  | .removeNext index => s.removeNext index
  | .readNotifications => s.readNotifications
  | .clearNotifications => s.clearNotifications

/-! ## What must not be lost -/

/-- What a removal has removed was of its owner. -/
def Owned : Prop := ∀ removal ∈ s.removals, ∀ entry ∈ removal.removed,
  removal.owner.owns entry = true

instance : Decidable s.Owned := inferInstanceAs (Decidable (∀ removal ∈ s.removals,
  ∀ entry ∈ removal.removed, removal.owner.owns entry = true))

/-- Every loss is about to be recorded, pending or taken, and none is taken twice. -/
def Accounted : Prop :=
  s.taken.flatten.Nodup ∧
    ∀ n ∈ s.losses, n ∈ s.recording ∨ n ∈ s.pending ∨ n ∈ s.taken.flatten

/-- A step that neither removes what is not the owner's, nor replaces, clears or reads again a
notification at the wrong time. -/
def Careful : CleanupStep → Prop
  | .record number => ∀ n ∈ s.recording, n.number = number →
      ∀ p ∈ s.pending, p.key = n.key → p ∈ s.taken.flatten
  | .removeNext index => ∀ removal, s.removals[index]? = some removal →
      ∀ name ∈ removal.names.head?, s.locked name = false →
        ∀ entry, s.whereis name = some entry → removal.owner.owns entry = true
  | .readNotifications => ∀ p ∈ s.pending, p ∉ s.taken.flatten
  | .clearNotifications => s.clearing ≠ 0 → ∀ p ∈ s.pending, p ∈ s.taken.flatten
  | _ => True

/-- Losses have numbers of their own, and one that is about to be recorded is nowhere else. -/
structure Tracked : Prop where
  issued : Identities.Issued s.losses.length (s.losses.map Notice.number)
  known : ∀ n, n ∈ s.recording ∨ n ∈ s.pending ∨ n ∈ s.taken.flatten → n ∈ s.losses
  nodup : (s.recording ++ s.pending).Nodup
  fresh : ∀ n ∈ s.recording, n ∉ s.taken.flatten

variable {s} {s' : Cleanup}

/-- The notifications and what has become of them are the same. -/
structure SameNotices (s s' : Cleanup) : Prop where
  pending : s'.pending = s.pending
  losses : s'.losses = s.losses
  recording : s'.recording = s.recording
  taken : s'.taken = s.taken

theorem SameNotices.refl (s : Cleanup) : SameNotices s s := ⟨rfl, rfl, rfl, rfl⟩

theorem SameNotices.tracked (h : SameNotices s s') (hs : s.Tracked) : s'.Tracked := by
  obtain ⟨hissued, hknown, hnodup, hfresh⟩ := hs
  constructor
  · rw [h.losses]
    exact hissued
  · rw [h.recording, h.pending, h.taken, h.losses]
    exact hknown
  · rw [h.recording, h.pending]
    exact hnodup
  · rw [h.recording, h.taken]
    exact hfresh

theorem SameNotices.accounted (h : SameNotices s s') (hs : s.Accounted) : s'.Accounted := by
  rw [Accounted, h.taken, h.losses, h.recording, h.pending]
  exact hs

theorem Tracked.eq_of_number (h : s.Tracked) {n n' : Notice} (hn : n ∈ s.losses)
    (hn' : n' ∈ s.losses) (hnumber : n.number = n'.number) : n = n' :=
  List.inj_on_of_nodup_map h.issued.nodup hn hn' hnumber

/-! ### Merges -/

theorem not_mem_losses_of_tracked (h : s.Tracked) (notification : GlobalNameNotification) :
    ⟨s.losses.length + 1, notification⟩ ∉ s.losses := by
  intro hmem
  have hle : s.losses.length + 1 ≤ s.losses.length :=
    h.issued.le_last _ (List.mem_map_of_mem hmem)
  omega

theorem tracked_lose (h : s.Tracked) (notification : GlobalNameNotification) :
    (s.lose notification).Tracked := by
  have hnew := not_mem_losses_of_tracked h notification
  constructor
  · exact h.issued.next
  · rintro n hn
    rcases hn with hn | hn
    · rcases List.mem_cons.1 hn with rfl | hn
      · exact List.mem_cons_self ..
      · exact List.mem_cons_of_mem _ (h.known n (.inl hn))
    · exact List.mem_cons_of_mem _ (h.known n (.inr hn))
  · refine List.nodup_cons.2 ⟨fun hmem => hnew (h.known _ ?_), h.nodup⟩
    rcases List.mem_append.1 hmem with hmem | hmem
    · exact .inl hmem
    · exact .inr (.inl hmem)
  · intro n hn
    rcases List.mem_cons.1 hn with rfl | hn
    · exact fun htaken => hnew (h.known _ (.inr (.inr htaken)))
    · exact h.fresh n hn

theorem accounted_lose (h : s.Accounted) (notification : GlobalNameNotification) :
    (s.lose notification).Accounted := by
  refine ⟨h.1, fun n hn => ?_⟩
  rcases List.mem_cons.1 hn with rfl | hn
  · exact .inl (List.mem_cons_self ..)
  · exact (h.2 n hn).imp_left (List.mem_cons_of_mem _)

/-- A merge stores an entry, records a loss, or both. -/
theorem mergeEntry_cases (incoming : GlobalNameEntry) :
    (s.mergeEntry incoming).removals = s.removals ∧
      (SameNotices s (s.mergeEntry incoming) ∨
        ∃ s₁ notification, SameNotices s s₁ ∧ s.mergeEntry incoming = s₁.lose notification) := by
  rw [mergeEntry]
  split
  · exact ⟨rfl, .inl ⟨rfl, rfl, rfl, rfl⟩⟩
  · split
    · exact ⟨rfl, .inl (.refl s)⟩
    · split
      · exact ⟨rfl, .inr ⟨s, _, .refl s, rfl⟩⟩
      · exact ⟨rfl, .inr ⟨s.insert incoming, _, ⟨rfl, rfl, rfl, rfl⟩, rfl⟩⟩

/-! ### Notifications -/

theorem recordNotification_cases (number : ℕ) :
    (s.recordNotification number = s ∧ ∀ n ∈ s.recording, n.number ≠ number) ∨
      ∃ n ∈ s.recording, n.number = number ∧
        s.recordNotification number = { s with
          recording := s.recording.filter (·.number ≠ number)
          pending := n :: s.pending.filter (·.key ≠ n.key) } := by
  rw [recordNotification]
  split
  next hnone =>
    refine .inl ⟨rfl, fun n hn => ?_⟩
    simpa using List.find?_eq_none.1 hnone n hn
  next n hsome =>
    have hnumber : n.number = number := by simpa using List.find?_some hsome
    exact .inr ⟨n, List.mem_of_find?_eq_some hsome, hnumber, rfl⟩

theorem tracked_recordNotification (h : s.Tracked) (number : ℕ) :
    (s.recordNotification number).Tracked := by
  rcases recordNotification_cases (s := s) number with ⟨hsame, -⟩ | ⟨n, hn, hnumber, hrecord⟩
  · rw [hsame]
    exact h
  · rw [hrecord]
    constructor
    · exact h.issued
    · rintro m (hm | hm | hm)
      · exact h.known m (.inl (List.mem_filter.1 hm).1)
      · rcases List.mem_cons.1 hm with rfl | hm
        · exact h.known m (.inl hn)
        · exact h.known m (.inr (.inl (List.mem_filter.1 hm).1))
      · exact h.known m (.inr (.inr hm))
    · have hpending : n ∉ s.pending := fun hmem => List.disjoint_of_nodup_append h.nodup hn hmem
      rw [List.nodup_middle, List.nodup_cons, List.mem_append]
      refine ⟨?_, h.nodup.sublist (List.filter_sublist.append List.filter_sublist)⟩
      rintro (hmem | hmem)
      · simp [hnumber] at hmem
      · exact hpending (List.mem_filter.1 hmem).1
    · intro m hm
      exact h.fresh m (List.mem_filter.1 hm).1

/-- A notification takes the place of those with its key, which are lost unless they are taken. -/
theorem accounted_recordNotification_iff (h : s.Tracked) (hs : s.Accounted) (number : ℕ) :
    (s.recordNotification number).Accounted ↔ s.Careful (.record number) := by
  rcases recordNotification_cases (s := s) number with ⟨hsame, hnone⟩ | ⟨n, hn, hnumber, hrecord⟩
  · rw [hsame]
    exact iff_of_true hs fun m hm hmnumber => absurd hmnumber (hnone m hm)
  · rw [hrecord]
    constructor
    · intro hafter m hm hmnumber p hp hkey
      obtain rfl := h.eq_of_number (h.known m (.inl hm)) (h.known n (.inl hn))
        (hmnumber.trans hnumber.symm)
      have hne : p ≠ m := fun he => List.disjoint_of_nodup_append h.nodup hm (he ▸ hp)
      rcases hafter.2 p (h.known p (.inr (.inl hp))) with hrecording | hpending | htaken
      · have hboth := (List.mem_filter.1 hrecording).1
        exact absurd hp (List.disjoint_of_nodup_append h.nodup hboth)
      · rcases List.mem_cons.1 hpending with he | hleft
        · exact absurd he hne
        · simp [hkey] at hleft
      · exact htaken
    · intro hcareful
      refine ⟨hs.1, fun m hm => ?_⟩
      rcases hs.2 m hm with hrecording | hpending | htaken
      · by_cases hmnumber : m.number = number
        · obtain rfl := h.eq_of_number hm (h.known n (.inl hn)) (hmnumber.trans hnumber.symm)
          exact .inr (.inl (List.mem_cons_self ..))
        · exact .inl (List.mem_filter.2 ⟨hrecording, by simpa using hmnumber⟩)
      · by_cases hkey : m.key = n.key
        · exact .inr (.inr (hcareful n hn hnumber m hpending hkey))
        · refine .inr (.inl (List.mem_cons_of_mem _ (List.mem_filter.2 ⟨hpending, ?_⟩)))
          simpa using hkey
      · exact .inr (.inr htaken)

theorem flatten_readNotifications :
    s.readNotifications.taken.flatten = s.taken.flatten ++ s.pending := by
  simp [readNotifications]

theorem tracked_readNotifications (h : s.Tracked) : s.readNotifications.Tracked := by
  constructor
  · exact h.issued
  · intro n hn
    rw [flatten_readNotifications, List.mem_append] at hn
    rcases hn with hn | hn | hn | hn
    · exact h.known n (.inl hn)
    · exact h.known n (.inr (.inl hn))
    · exact h.known n (.inr (.inr hn))
    · exact h.known n (.inr (.inl hn))
  · exact h.nodup
  · intro n hn
    rw [flatten_readNotifications, List.mem_append]
    rintro (htaken | hpending)
    · exact h.fresh n hn htaken
    · exact List.disjoint_of_nodup_append h.nodup hn hpending

theorem accounted_readNotifications_iff (h : s.Tracked) (hs : s.Accounted) :
    s.readNotifications.Accounted ↔ s.Careful .readNotifications := by
  rw [Accounted, flatten_readNotifications, List.nodup_append']
  constructor
  · rintro ⟨⟨-, -, hdisjoint⟩, -⟩ p hp htaken
    exact hdisjoint htaken hp
  · intro hcareful
    refine ⟨⟨hs.1, h.nodup.of_append_right, fun p htaken hp => hcareful p hp htaken⟩,
      fun n hn => ?_⟩
    rcases hs.2 n hn with hrecording | hpending | htaken
    · exact .inl hrecording
    · exact .inr (.inl hpending)
    · exact .inr (.inr (List.mem_append_left _ htaken))

theorem tracked_clearNotifications (h : s.Tracked) : s.clearNotifications.Tracked := by
  rw [clearNotifications]
  split
  · exact h
  · constructor
    · exact h.issued
    · rintro n (hn | hn | hn)
      · exact h.known n (.inl hn)
      · cases hn
      · exact h.known n (.inr (.inr hn))
    · rw [List.append_nil]
      exact h.nodup.of_append_left
    · exact h.fresh

theorem accounted_clearNotifications_iff (h : s.Tracked) (hs : s.Accounted) :
    s.clearNotifications.Accounted ↔ s.Careful .clearNotifications := by
  rw [clearNotifications]
  split
  next hidle => exact iff_of_true hs fun hne => absurd hidle hne
  next hclearing =>
    constructor
    · intro hafter _ p hp
      rcases hafter.2 p (h.known p (.inr (.inl hp))) with hrecording | hnone | htaken
      · exact absurd hp (List.disjoint_of_nodup_append h.nodup hrecording)
      · cases hnone
      · exact htaken
    · intro hcareful
      refine ⟨hs.1, fun n hn => ?_⟩
      rcases hs.2 n hn with hrecording | hpending | htaken
      · exact .inl hrecording
      · exact .inr (.inr (hcareful hclearing n hpending))
      · exact .inr (.inr htaken)

/-! ### Removals -/

theorem unregister_frame (name : Atom) (pid : GlobalPid) :
    (s.unregister name pid).removals = s.removals ∧ SameNotices s (s.unregister name pid) := by
  rw [unregister]
  split
  · exact ⟨rfl, .refl s⟩
  · split
    · exact ⟨rfl, ⟨rfl, rfl, rfl, rfl⟩⟩
    · exact ⟨rfl, .refl s⟩

theorem sameNotices_collect (owner : Owner) (names : List Atom) :
    SameNotices s (s.collect owner names) := by
  rw [collect]
  split
  · exact ⟨rfl, rfl, rfl, rfl⟩
  · exact .refl s

theorem owned_collect (h : s.Owned) (owner : Owner) (names : List Atom) :
    (s.collect owner names).Owned := by
  rw [collect]
  split
  · intro removal hremoval
    rcases List.mem_append.1 hremoval with hremoval | hremoval
    · exact h removal hremoval
    · obtain rfl := List.mem_singleton.1 hremoval
      intro entry hentry
      cases hentry
  · exact h

theorem sameNotices_removeNext (index : ℕ) : SameNotices s (s.removeNext index) := by
  rw [removeNext]
  split
  · exact .refl s
  · split
    · exact .refl s
    · split
      · exact .refl s
      · exact ⟨rfl, rfl, rfl, rfl⟩

theorem owned_removeName_iff (h : s.Owned) {index : ℕ} {removal : Removal}
    (hindex : s.removals[index]? = some removal) (name : Atom) (rest : List Atom) :
    (s.removeName index removal name rest).Owned ↔
      ∀ entry, s.whereis name = some entry → removal.owner.owns entry = true := by
  have hlt := (List.getElem?_eq_some_iff.1 hindex).1
  have hmem := List.mem_of_getElem? hindex
  constructor
  · intro hafter entry hentry
    have hset := List.mem_set hlt
      (⟨removal.owner, rest, removal.removed ++ (s.whereis name).toList⟩ : Removal)
    refine hafter _ hset entry (List.mem_append_right _ ?_)
    rw [hentry]
    exact List.mem_singleton_self entry
  · intro howner r hr entry hentry
    rcases List.mem_or_eq_of_mem_set hr with hr | rfl
    · exact h r hr entry hentry
    · rcases List.mem_append.1 hentry with hentry | hentry
      · exact h removal hmem entry hentry
      · exact howner entry (Option.mem_toList.1 hentry)

/-- A name that was collected is removed with whatever entry it has by now. -/
theorem owned_removeNext_iff (h : s.Owned) (index : ℕ) :
    (s.removeNext index).Owned ↔ s.Careful (.removeNext index) := by
  rw [removeNext, Careful]
  split
  next hnone =>
    refine iff_of_true h fun removal hremoval => ?_
    rw [hnone] at hremoval
    cases hremoval
  next removal hsome =>
    split
    next hnames =>
      refine iff_of_true h fun r hr name hname => ?_
      obtain rfl := Option.some.inj (hsome.symm.trans hr)
      rw [hnames] at hname
      cases hname
    next name rest hnames =>
      have hhead : ∀ r, s.removals[index]? = some r → ∀ m ∈ r.names.head?,
          r = removal ∧ m = name := by
        intro r hr m hm
        obtain rfl := Option.some.inj (hsome.symm.trans hr)
        rw [hnames] at hm
        exact ⟨rfl, (Option.some.inj hm).symm⟩
      split
      next hlocked =>
        refine iff_of_true h fun r hr m hm hfree => ?_
        obtain ⟨rfl, rfl⟩ := hhead r hr m hm
        rw [hlocked] at hfree
        cases hfree
      next hfree =>
        rw [owned_removeName_iff h hsome]
        constructor
        · intro howner r hr m hm _
          obtain ⟨rfl, rfl⟩ := hhead r hr m hm
          exact howner
        · intro hcareful
          refine hcareful removal hsome name ?_ (by simpa using hfree)
          rw [hnames]
          rfl

/-! ### Runs -/

theorem Tracked.step (h : s.Tracked) (a : CleanupStep) : (s.step a).Tracked := by
  cases a with
  | merge incoming =>
    rw [Cleanup.step]
    split
    · exact h
    · rcases mergeEntry_cases (s := s) incoming with ⟨-, hsame | ⟨s₁, notification, hsame, hlose⟩⟩
      · exact hsame.tracked h
      · rw [hlose]
        exact tracked_lose (hsame.tracked h) notification
  | record number => exact tracked_recordNotification h number
  | unregister name pid =>
    rw [Cleanup.step]
    split
    · exact h
    · exact (unregister_frame name pid).2.tracked h
  | collect owner names => exact (sameNotices_collect owner names).tracked h
  | removeNext index => exact (sameNotices_removeNext index).tracked h
  | readNotifications => exact tracked_readNotifications h
  | clearNotifications => exact tracked_clearNotifications h

theorem owned_of_removals (h : s.Owned) (hremovals : s'.removals = s.removals) : s'.Owned := by
  rw [Owned, hremovals]
  exact h

/-- One step keeps the registry right exactly when it is careful. -/
theorem step_keeps_iff (howned : s.Owned) (haccounted : s.Accounted) (h : s.Tracked)
    (a : CleanupStep) : (s.step a).Owned ∧ (s.step a).Accounted ↔ s.Careful a := by
  cases a with
  | merge incoming =>
    refine iff_of_true ?_ trivial
    rw [step]
    split
    · exact ⟨howned, haccounted⟩
    · rcases mergeEntry_cases (s := s) incoming with
        ⟨hremovals, hsame | ⟨s₁, notification, hsame, hlose⟩⟩
      · exact ⟨owned_of_removals howned hremovals, hsame.accounted haccounted⟩
      · refine ⟨owned_of_removals howned hremovals, ?_⟩
        rw [hlose]
        exact accounted_lose (hsame.accounted haccounted) notification
  | record number =>
    rw [← accounted_recordNotification_iff h haccounted number]
    refine and_iff_right (owned_of_removals howned ?_)
    rcases recordNotification_cases (s := s) number with ⟨hsame, -⟩ | ⟨n, -, -, hrecord⟩
    · rw [step, hsame]
    · rw [step, hrecord]
  | unregister name pid =>
    refine iff_of_true ?_ trivial
    rw [step]
    split
    · exact ⟨howned, haccounted⟩
    · obtain ⟨hremovals, hsame⟩ := unregister_frame (s := s) name pid
      exact ⟨owned_of_removals howned hremovals, hsame.accounted haccounted⟩
  | collect owner names =>
    exact iff_of_true ⟨owned_collect howned owner names,
      (sameNotices_collect owner names).accounted haccounted⟩ trivial
  | removeNext index =>
    rw [← owned_removeNext_iff howned index]
    exact and_iff_left ((sameNotices_removeNext index).accounted haccounted)
  | readNotifications =>
    rw [← accounted_readNotifications_iff h haccounted]
    exact and_iff_right (owned_of_removals howned rfl)
  | clearNotifications =>
    rw [← accounted_clearNotifications_iff h haccounted]
    refine and_iff_right (owned_of_removals howned ?_)
    rw [step, clearNotifications]
    split
    · rfl
    · rfl

theorem tracked_new (atoms : AtomTable) : (new atoms).Tracked where
  issued := Identities.issued_nil 0
  known := by simp [new]
  nodup := List.nodup_nil
  fresh := by simp [new]

theorem tracked_run (atoms : AtomTable) (steps : List CleanupStep) :
    (steps.foldl step (new atoms)).Tracked := by
  suffices h : ∀ s : Cleanup, s.Tracked → (steps.foldl step s).Tracked from h _ (tracked_new atoms)
  induction steps with
  | nil => exact fun s hs => hs
  | cons a rest ih => exact fun s hs => ih (s.step a) (hs.step a)

/-- Removals take only what is their owner's, and each loss is reported once or still pending, all
along a run exactly when every step is careful. -/
theorem cleanup_loses_nothing_iff (atoms : AtomTable) (steps : List CleanupStep) :
    (∀ n, ((steps.take n).foldl step (new atoms)).Owned ∧
        ((steps.take n).foldl step (new atoms)).Accounted) ↔
      Runs.Meets step Careful (new atoms) steps := by
  have hstep : ∀ (s : Cleanup) a, (s.Owned ∧ s.Accounted) ∧ s.Tracked →
      (((s.step a).Owned ∧ (s.step a).Accounted) ∧ (s.step a).Tracked ↔ s.Careful a) := by
    rintro s a ⟨⟨howned, haccounted⟩, h⟩
    rw [step_keeps_iff howned haccounted h a]
    exact and_iff_left (h.step a)
  have hnew : (new atoms).Owned ∧ (new atoms).Accounted := by simp [Owned, Accounted, new]
  rw [← Runs.forall_take_iff hstep ⟨hnew, tracked_new atoms⟩]
  exact forall_congr' fun n => (and_iff_left (tracked_run atoms _)).symm

/-! ## Merges at once -/

/-- The maps hold what the registry holds, with the notifications that are on the way, which are of
different names. -/
structure Represents (s : Cleanup) (r : GlobalNameRegistry) : Prop where
  whereis : ∀ name, s.whereis name = r.whereis name
  notifications : ∀ key, ((s.recording ++ s.pending).find? (·.key = key)).map Notice.notification =
    Entries.get (· == ·) r.notifications key
  apart : (s.recording.map (·.notification.name)).Nodup

/-- A filter that keeps what is looked for changes nothing. -/
theorem find?_filter_of {α : Type} {p q : α → Bool} {l : List α}
    (h : ∀ a ∈ l, q a = true → p a = true) : (l.filter p).find? q = l.find? q := by
  rw [List.find?_filter]
  refine List.find?_congr fun a ha => ?_
  cases hq : q a with
  | false => simp
  | true => simp [h a ha hq]

theorem whereis_insert (entry : GlobalNameEntry) (name : Atom) :
    (s.insert entry).whereis name = if entry.name = name then some entry else s.whereis name := by
  rw [Cleanup.whereis, insert, remove]
  by_cases hname : entry.name = name
  · simp [hname]
  · rw [if_neg hname, List.find?_cons_of_neg (by simpa using hname), Cleanup.whereis]
    refine find?_filter_of fun e _ he => ?_
    have he := of_decide_eq_true he
    simpa [he] using Ne.symm hname

theorem represents_insert {r : GlobalNameRegistry} (h : s.Represents r) (entry : GlobalNameEntry) :
    (s.insert entry).Represents (r.insert entry) := by
  refine ⟨fun name => ?_, h.notifications, h.apart⟩
  rw [whereis_insert, GlobalNameRegistry.whereis_insert, h.whereis]

theorem represents_lose {r : GlobalNameRegistry} (h : s.Represents r)
    {notification : GlobalNameNotification} (hfree : s.locked notification.name = false) :
    (s.lose notification).Represents (r.recordNotification notification) := by
  refine ⟨h.whereis, fun key => ?_, List.nodup_cons.mpr ⟨?_, h.apart⟩⟩
  · have hget : Entries.get (· == ·) (r.recordNotification notification).notifications key =
        if notification.key == key then some notification
        else Entries.get (· == ·) r.notifications key :=
      Entries.get_put Entries.sameOn_univ (Entries.over_univ _) trivial trivial _
    have hfirst : (⟨s.losses.length + 1, notification⟩ : Notice).key = notification.key := rfl
    rw [hget, ← h.notifications key, lose]
    by_cases hkey : notification.key = key <;> simp [hfirst, hkey]
  · simpa [locked] using hfree

/-- Recording a loss changes nothing for the registry: while it is on the way the name is locked. -/
theorem represents_record {r : GlobalNameRegistry} (h : s.Represents r) (htracked : s.Tracked)
    (number : ℕ) : (s.recordNotification number).Represents r := by
  rcases recordNotification_cases (s := s) number with ⟨hsame, -⟩ | ⟨n, hn, hnumber, hrecord⟩
  · rwa [hsame]
  rw [hrecord]
  refine ⟨h.whereis, fun key => ?_, h.apart.sublist (List.filter_sublist.map _)⟩
  rw [← h.notifications key]
  congr 1
  have honly : ∀ n' ∈ s.recording, n'.key = n.key → n' = n := fun n' hn' hkey =>
    List.inj_on_of_nodup_map h.apart hn' hn (congrArg Prod.fst hkey)
  have hnumbers : ∀ n' ∈ s.recording, n'.number = number → n' = n := fun n' hn' heq =>
    htracked.eq_of_number (htracked.known n' (.inl hn')) (htracked.known n (.inl hn))
      (heq.trans hnumber.symm)
  rw [List.find?_append, List.find?_append]
  by_cases hkey : n.key = key
  · have hgone : (s.recording.filter (·.number ≠ number)).find? (·.key = key) = none := by
      refine List.find?_eq_none.mpr fun n' hn' hkey' => ?_
      obtain ⟨hmem, hother⟩ := List.mem_filter.mp hn'
      obtain rfl := honly n' hmem ((of_decide_eq_true hkey').trans hkey.symm)
      exact of_decide_eq_true hother hnumber
    have hfound : s.recording.find? (·.key = key) = some n := by
      obtain ⟨n', hn'⟩ := Option.isSome_iff_exists.mp
        (List.find?_isSome (p := (·.key = key)).mpr ⟨n, hn, decide_eq_true hkey⟩)
      have hkey' : n'.key = key := of_decide_eq_true (List.find?_some hn' :)
      rw [hn', honly n' (List.mem_of_find?_eq_some hn') (hkey'.trans hkey.symm)]
    rw [hgone, hfound]
    simp [hkey]
  · have hrecording : (s.recording.filter (·.number ≠ number)).find? (·.key = key) =
        s.recording.find? (·.key = key) := find?_filter_of fun n' hn' hkey' =>
      decide_eq_true fun heq => hkey (hnumbers n' hn' heq ▸ of_decide_eq_true hkey')
    rw [hrecording, List.find?_cons_of_neg (by simpa using hkey)]
    exact congrArg _ (find?_filter_of fun n' _ hkey' => decide_eq_true fun heq =>
      hkey (heq.symm.trans (of_decide_eq_true hkey')))

/-- A merge is the registry's, with its notification on the way. -/
theorem represents_merge {r : GlobalNameRegistry} (h : s.Represents r)
    (incoming : GlobalNameEntry) (hfree : s.locked incoming.name = false) :
    (s.mergeEntry incoming).Represents (r.mergeEntry s.atoms incoming).2 := by
  rw [mergeEntry, GlobalNameRegistry.mergeEntry, ← h.whereis]
  cases hfound : s.whereis incoming.name with
  | none => exact represents_insert h incoming
  | some existing =>
    have hname : existing.name = incoming.name := by simpa using List.find?_some hfound
    dsimp only
    by_cases hsame : sameEntry existing incoming = true
    · rwa [if_pos hsame, if_pos hsame]
    · rw [if_neg hsame, if_neg hsame]
      by_cases hwins : entryWins s.atoms incoming existing = true
      · simp only [hwins, Bool.not_true, Bool.false_eq_true, if_false]
        exact represents_lose (represents_insert h incoming) hfree
      · simp only [hwins, Bool.not_false, if_true]
        exact represents_lose h (by rwa [loserNotification, hname])

/-- A run of merges, each with the number of its loss recorded at some later step. -/
def runMerges (s : Cleanup) (steps : List (GlobalNameEntry ⊕ ℕ)) : Cleanup :=
  (steps.map (Sum.elim .merge .record)).foldl step s

/-- The merges of a run that do not wait for a lock, in order. -/
def merged (s : Cleanup) : List (GlobalNameEntry ⊕ ℕ) → List GlobalNameEntry
  | [] => []
  | .inl incoming :: rest =>
    if s.locked incoming.name then s.merged rest
    else incoming :: (s.mergeEntry incoming).merged rest
  | .inr number :: rest => (s.recordNotification number).merged rest

theorem atoms_mergeEntry (incoming : GlobalNameEntry) :
    (s.mergeEntry incoming).atoms = s.atoms := by
  unfold mergeEntry
  repeat' split
  all_goals rfl

theorem represents_runMerges {r : GlobalNameRegistry} (h : s.Represents r) (htracked : s.Tracked)
    (steps : List (GlobalNameEntry ⊕ ℕ)) : (s.runMerges steps).Represents
      ((s.merged steps).foldl (fun r incoming => (r.mergeEntry s.atoms incoming).2) r) := by
  induction steps generalizing s r with
  | nil => exact h
  | cons a rest ih =>
    cases a with
    | inl incoming =>
      have hnext := htracked.step (.merge incoming)
      rw [runMerges, List.map_cons, List.foldl_cons, ← runMerges, Sum.elim_inl, merged]
      rw [Cleanup.step] at hnext ⊢
      by_cases hlocked : s.locked incoming.name = true
      · rw [if_pos hlocked, if_pos hlocked]
        exact ih h htracked
      · rw [if_neg hlocked] at hnext
        rw [if_neg hlocked, if_neg hlocked]
        have hlater := ih (represents_merge h incoming (by simpa using hlocked)) hnext
        rwa [atoms_mergeEntry] at hlater
    | inr number =>
      have hatoms : (s.recordNotification number).atoms = s.atoms := by
        rw [recordNotification]
        split <;> rfl
      have hlater := ih (represents_record h htracked number) (htracked.step (.record number))
      rwa [hatoms] at hlater

/-- However merges of several threads and their notifications interleave, the maps hold what the
registry holds that makes the merges one after the other. -/
theorem merges_at_once (atoms : AtomTable) (steps : List (GlobalNameEntry ⊕ ℕ)) :
    ((new atoms).runMerges steps).Represents
      (((new atoms).merged steps).foldl (fun r incoming => (r.mergeEntry atoms incoming).2) .new) :=
  represents_runMerges (s := new atoms) ⟨fun _ => rfl, fun _ => rfl, List.nodup_nil⟩
    (tracked_new atoms) steps

/-! ## Registrations that slip in between -/

/-- An entry under the name `ok`. -/
def entryOf (node : Atom) (pidNumber : UInt64) : GlobalNameEntry := ⟨0, ⟨node, pidNumber, 0⟩, none⟩

/-- Between the two steps of a removal the name passes to another process. -/
def takenOver : List CleanupStep :=
  [.merge (entryOf 0 1), .collect (.pid ⟨0, 1, 0⟩) [0], .unregister 0 ⟨0, 1, 0⟩,
    .merge (entryOf 0 2), .removeNext 0]

/-- Two nodes lose the name with processes of one number. -/
def lostTwice : List CleanupStep :=
  [.merge (entryOf 1 1), .merge (entryOf 0 5), .record 1, .merge (entryOf 2 5), .record 2]

/-- A loss is recorded after the notifications were read and before they are cleared. -/
def lateLoss : List CleanupStep :=
  [.merge (entryOf 0 1), .merge (entryOf 0 2), .readNotifications, .record 1, .clearNotifications]

/-- The numbers of the losses, and where they are. -/
def whereLost (s : Cleanup) : List ℕ × List ℕ × List ℕ × List ℕ :=
  (s.losses.map Notice.number, s.recording.map Notice.number, s.pending.map Notice.number,
    s.taken.flatten.map Notice.number)

theorem not_accounted_of_number (number : ℕ) {losses recording pending taken : List ℕ}
    (h : s.whereLost = (losses, recording, pending, taken)) (hlost : number ∈ losses)
    (hrecording : number ∉ recording) (hpending : number ∉ pending) (htaken : number ∉ taken) :
    ¬ s.Accounted := by
  simp only [whereLost, Prod.mk.injEq] at h
  obtain ⟨rfl, rfl, rfl, rfl⟩ := h
  obtain ⟨n, hn, rfl⟩ := List.mem_map.1 hlost
  intro haccounted
  rcases haccounted.2 n hn with hmem | hmem | hmem
  · exact hrecording (List.mem_map_of_mem hmem)
  · exact hpending (List.mem_map_of_mem hmem)
  · exact htaken (List.mem_map_of_mem hmem)

theorem not_cleanup_loses_nothing :
    ¬ (takenOver.foldl step (new .withCommonAtoms)).Owned ∧
      ¬ (lostTwice.foldl step (new .withCommonAtoms)).Accounted ∧
      ¬ (lateLoss.foldl step (new .withCommonAtoms)).Accounted := by
  refine ⟨by decide +kernel, ?_, ?_⟩
  · have h : (lostTwice.foldl step (new .withCommonAtoms)).whereLost = ([2, 1], [], [2], []) := by
      decide +kernel
    exact not_accounted_of_number 1 h (by simp) (by simp) (by simp) (by simp)
  · have h : (lateLoss.foldl step (new .withCommonAtoms)).whereLost = ([1], [], [], []) := by
      decide +kernel
    exact not_accounted_of_number 1 h (by simp) (by simp) (by simp) (by simp)

end Cleanup

end Beamr.Distribution
