import Beamr.Distribution.ConnectionTable
import Beamr.Lib.Identities

/-!
# Dials in flight

`ConnectingGuard`, `connect` and `decide_inbound_status` of the connection manager. A dial marks its
peer in the `connecting` map before the handshake and clears the mark when it returns, and an
inbound handshake with the same peer settles by that mark which of the two links survives. The map
has one entry for a peer, whoever made it.
-/
namespace Beamr.Distribution

/-- A node name as it comes from the resolver or from a peer. -/
structure NodeName where
  bytes : List UInt8
  valid : utf8Valid bytes = true

/-- The number of an `Arc<AtomicBool>`. -/
abbrev AbortFlag := ℕ

structure ConnectingGuard where
  peer : Atom
  abort : AbortFlag
  deriving DecidableEq

inductive SimultaneousDecision
  | continue_
  | continueSimultaneous
  | reject
  deriving DecidableEq

/-- How the handshake of a dial ends. -/
inductive DialOutcome
  | accepted (remoteName : List UInt8)
  | badStatus (nok : Bool)
  | error
  | timeout
  deriving DecidableEq

/-- What `connect` goes on with: it registers the link of the named node, or returns an error. -/
inductive ConnectResult
  | register (remoteName : List UInt8)
  | simultaneousAbort
  | io
  deriving DecidableEq

/-- A call of `connect` that holds its guard, with its result once the handshake is over. -/
structure Dial where
  guard : ConnectingGuard
  result : Option ConnectResult
  deriving DecidableEq

/-- The part of the manager that dials and inbound handshakes share. A responder that has decided
against the dial of this node holds the flag it is about to set. -/
structure Dialing where
  atoms : AtomTable
  localNodeName : List UInt8
  connecting : Atom → Option AbortFlag
  aborted : AbortFlag → Bool
  lastFlag : AbortFlag
  dials : List Dial
  responders : List AbortFlag

inductive DialStep
  | connect (nodeName : NodeName)
  | handshake (abort : AbortFlag) (outcome : DialOutcome)
  | drop (abort : AbortFlag)
  | inbound (peerName : NodeName)
  | retire (abort : AbortFlag)
  | disconnectEntry (peer : Atom)

namespace Dialing

variable (s : Dialing)

def new (atoms : AtomTable) (localNodeName : List UInt8) : Dialing where
  atoms := atoms
  localNodeName := localNodeName
  connecting := fun _ => none
  aborted := fun _ => false
  lastFlag := 0
  dials := []
  responders := []

def setAborted (abort : AbortFlag) : Dialing :=
  { s with aborted := Function.update s.aborted abort true }

/-- `ConnectingGuard::new`. The entry of an earlier dial is replaced. -/
def newGuard (nodeName : NodeName) : Dialing :=
  let (peer, atoms) := s.atoms.intern nodeName.bytes nodeName.valid
  let abort := s.lastFlag + 1
  { s with
    atoms := atoms
    connecting := Function.update s.connecting peer (some abort)
    lastFlag := abort
    dials := ⟨⟨peer, abort⟩, none⟩ :: s.dials }

/-- The result of a dial whose handshake is over. -/
def connectResult (aborted : Bool) : DialOutcome → ConnectResult
  | .accepted remoteName => if aborted then .simultaneousAbort else .register remoteName
  | .badStatus nok => if nok then .simultaneousAbort else .io
  | .error => .io
  | .timeout => .io

def finishHandshake (abort : AbortFlag) (outcome : DialOutcome) : Dialing :=
  { s with dials := s.dials.map fun d =>
      if d.guard.abort = abort then
        { d with result := some (connectResult (s.aborted abort) outcome) }
      else d }

/-- The drop of a guard: at the end of `connect`, or when the call is cancelled. The entry of the
peer goes, whichever dial it is of. -/
def dropGuard (abort : AbortFlag) : Dialing :=
  match s.dials.find? (·.guard.abort = abort) with
  | none => s
  | some d => { s with
      connecting := Function.update s.connecting d.guard.peer none
      dials := s.dials.filter (·.guard.abort ≠ abort) }

/-- The status for an inbound handshake, and the flag to set for it. -/
def decideInboundStatus (peerName : NodeName) : SimultaneousDecision × Option AbortFlag :=
  match s.connecting (s.atoms.intern peerName.bytes peerName.valid).1 with
  | none => (.continue_, none)
  | some abort =>
    match compare peerName.bytes s.localNodeName with
    | .gt => (.continueSimultaneous, some abort)
    | .lt => (.reject, none)
    | .eq => (.continue_, none)

def answerInbound (peerName : NodeName) : Dialing :=
  { s with
    atoms := (s.atoms.intern peerName.bytes peerName.valid).2
    responders := (s.decideInboundStatus peerName).2.toList ++ s.responders }

def retire (abort : AbortFlag) : Dialing :=
  if abort ∈ s.responders then
    { s.setAborted abort with responders := s.responders.erase abort }
  else s

/-- One entry that `disconnect_all` visits. -/
def disconnectEntry (peer : Atom) : Dialing :=
  match s.connecting peer with
  | none => s
  | some abort => s.setAborted abort

def step : DialStep → Dialing
  | .connect nodeName => s.newGuard nodeName
  | .handshake abort outcome => s.finishHandshake abort outcome
  | .drop abort => s.dropGuard abort
  | .inbound peerName => s.answerInbound peerName
  | .retire abort => s.retire abort
  | .disconnectEntry peer => s.disconnectEntry peer

/-! ## Marks -/

/-- The guards of the dials in flight. -/
def guards : List ConnectingGuard := s.dials.map Dial.guard

/-- Each peer that is being dialed has an entry, with the flag of a dial of that peer. -/
def Marked : Prop :=
  ∀ g ∈ s.guards, ∃ abort, s.connecting g.peer = some abort ∧ ⟨g.peer, abort⟩ ∈ s.guards

/-- A guard is dropped only when its dial is the only one of its peer. -/
def Alone : DialStep → Prop
  | .drop abort => ∀ g ∈ s.guards, g.abort = abort →
      ∀ g' ∈ s.guards, g'.peer = g.peer → g'.abort = abort
  | _ => True

/-- Every guard has a flag of its own. -/
def OwnFlags : Prop := Identities.Issued s.lastFlag (s.guards.map ConnectingGuard.abort)

variable {s}

theorem OwnFlags.eq (h : s.OwnFlags) {g g' : ConnectingGuard} (hg : g ∈ s.guards)
    (hg' : g' ∈ s.guards) (habort : g.abort = g'.abort) : g = g' :=
  List.inj_on_of_nodup_map h.nodup hg hg' habort

theorem marked_new (atoms : AtomTable) (localNodeName : List UInt8) :
    (new atoms localNodeName).Marked := by
  intro g hg
  cases hg

theorem ownFlags_new (atoms : AtomTable) (localNodeName : List UInt8) :
    (new atoms localNodeName).OwnFlags := Identities.issued_nil 0

theorem guards_finishHandshake (abort : AbortFlag) (outcome : DialOutcome) :
    (s.finishHandshake abort outcome).guards = s.guards := by
  rw [guards, finishHandshake, List.map_map]
  refine List.map_congr_left fun d _ => ?_
  by_cases h : d.guard.abort = abort
  · simp [h]
  · simp [h]

/-- What a drop leaves, if there is a guard with the flag. -/
theorem dropGuard_cases (abort : AbortFlag) :
    (s.dropGuard abort = s ∧ ∀ g ∈ s.guards, g.abort ≠ abort) ∨
      ∃ g ∈ s.guards, g.abort = abort ∧
        (s.dropGuard abort).connecting = Function.update s.connecting g.peer none ∧
        (s.dropGuard abort).guards = s.guards.filter (·.abort ≠ abort) ∧
        (s.dropGuard abort).lastFlag = s.lastFlag := by
  rw [dropGuard]
  split
  next hnone =>
    refine .inl ⟨rfl, fun g hg => ?_⟩
    obtain ⟨d, hd, rfl⟩ := List.mem_map.1 hg
    simpa using List.find?_eq_none.1 hnone d hd
  next d hsome =>
    have hmem := List.mem_of_find?_eq_some hsome
    have habort : d.guard.abort = abort := by simpa using List.find?_some hsome
    refine .inr ⟨d.guard, List.mem_map_of_mem hmem, habort, rfl, ?_, rfl⟩
    rw [guards, guards, List.filter_map]
    rfl

/-- The entries and the guards stay in every step that neither makes a guard nor drops one. -/
theorem step_keeps (a : DialStep) :
    (∃ nodeName, a = .connect nodeName) ∨ (∃ abort, a = .drop abort) ∨
      s.Alone a ∧ (s.step a).connecting = s.connecting ∧ (s.step a).guards = s.guards ∧
        (s.step a).lastFlag = s.lastFlag := by
  cases a with
  | connect nodeName => exact .inl ⟨nodeName, rfl⟩
  | handshake abort outcome =>
    exact .inr (.inr ⟨trivial, rfl, guards_finishHandshake abort outcome, rfl⟩)
  | drop abort => exact .inr (.inl ⟨abort, rfl⟩)
  | inbound peerName => exact .inr (.inr ⟨trivial, rfl, rfl, rfl⟩)
  | retire abort =>
    refine .inr (.inr ⟨trivial, ?_⟩)
    rw [step, retire]
    split
    · exact ⟨rfl, rfl, rfl⟩
    · exact ⟨rfl, rfl, rfl⟩
  | disconnectEntry peer =>
    refine .inr (.inr ⟨trivial, ?_⟩)
    rw [step, disconnectEntry]
    split
    · exact ⟨rfl, rfl, rfl⟩
    · exact ⟨rfl, rfl, rfl⟩

theorem OwnFlags.step (h : s.OwnFlags) (a : DialStep) : (s.step a).OwnFlags := by
  rcases step_keeps (s := s) a with ⟨nodeName, rfl⟩ | ⟨abort, rfl⟩ | ⟨-, -, hguards, hlast⟩
  · exact h.next
  · rcases dropGuard_cases (s := s) abort with ⟨hsame, -⟩ | ⟨g, -, -, -, hguards, hlast⟩
    · rw [OwnFlags, Dialing.step, hsame]
      exact h
    · rw [OwnFlags, Dialing.step, hguards, hlast]
      exact h.subperm (List.filter_sublist.map _).subperm
  · rw [OwnFlags, hguards, hlast]
    exact h

/-- The peer a guard is made for. -/
def peerOf (s : Dialing) (nodeName : NodeName) : Atom :=
  (s.atoms.intern nodeName.bytes nodeName.valid).1

theorem guards_newGuard (nodeName : NodeName) : (s.newGuard nodeName).guards =
    ⟨s.peerOf nodeName, s.lastFlag + 1⟩ :: s.guards := rfl

theorem connecting_newGuard (nodeName : NodeName) : (s.newGuard nodeName).connecting =
    Function.update s.connecting (s.peerOf nodeName) (some (s.lastFlag + 1)) := rfl

theorem marked_newGuard (h : s.Marked) (nodeName : NodeName) : (s.newGuard nodeName).Marked := by
  intro g hg
  rw [guards_newGuard, connecting_newGuard]
  by_cases hsame : g.peer = s.peerOf nodeName
  · refine ⟨s.lastFlag + 1, ?_, ?_⟩
    · rw [hsame, Function.update_self]
    · rw [hsame]
      exact List.mem_cons_self ..
  · rw [guards_newGuard] at hg
    rcases List.mem_cons.1 hg with rfl | hg
    · exact absurd rfl hsame
    · obtain ⟨abort, hentry, hmem⟩ := h g hg
      refine ⟨abort, ?_, List.mem_cons_of_mem _ hmem⟩
      rw [Function.update_of_ne hsame, hentry]

/-- A drop clears the mark of every other dial of the same peer, and leaves those of the others. -/
theorem marked_dropGuard_iff (h : s.Marked) (hown : s.OwnFlags) (abort : AbortFlag) :
    (s.dropGuard abort).Marked ↔ s.Alone (.drop abort) := by
  rcases dropGuard_cases (s := s) abort with ⟨hsame, hnone⟩ | ⟨g, hg, habort, hentries, hguards, -⟩
  · rw [hsame]
    exact iff_of_true h fun g hg habort => absurd habort (hnone g hg)
  · have hremains : ∀ g' ∈ s.guards, g'.peer ≠ g.peer → g' ∈ (s.dropGuard abort).guards := by
      intro g' hg' hpeer
      rw [hguards, List.mem_filter]
      refine ⟨hg', ?_⟩
      have hne : g'.abort ≠ abort := fun he =>
        hpeer (congrArg ConnectingGuard.peer (hown.eq hg' hg (he.trans habort.symm)))
      simpa using hne
    constructor
    · intro hmarked g₁ hg₁ habort₁ g' hg' hpeer
      obtain rfl := hown.eq hg₁ hg (habort₁.trans habort.symm)
      by_contra hne
      have hleft : g' ∈ (s.dropGuard abort).guards := by
        rw [hguards, List.mem_filter]
        exact ⟨hg', by simpa using hne⟩
      obtain ⟨flag, hentry, -⟩ := hmarked g' hleft
      rw [hentries, hpeer, Function.update_self] at hentry
      cases hentry
    · intro halone g' hg'
      rw [hguards, List.mem_filter] at hg'
      have hne : g'.abort ≠ abort := by simpa using hg'.2
      have hpeer : g'.peer ≠ g.peer := fun he => hne (halone g hg habort g' hg'.1 he)
      obtain ⟨flag, hentry, hmem⟩ := h g' hg'.1
      refine ⟨flag, ?_, hremains _ hmem hpeer⟩
      rw [hentries, Function.update_of_ne hpeer, hentry]

theorem marked_step_iff (h : s.Marked) (hown : s.OwnFlags) (a : DialStep) :
    (s.step a).Marked ↔ s.Alone a := by
  rcases step_keeps (s := s) a with ⟨nodeName, rfl⟩ | ⟨abort, rfl⟩ | ⟨halone, hentries, hguards, -⟩
  · exact iff_of_true (marked_newGuard h nodeName) trivial
  · exact marked_dropGuard_iff h hown abort
  · refine iff_of_true ?_ halone
    rw [Marked, hentries, hguards]
    exact h

/-- An entry is of a dial in flight, also where dials overlap. -/
def Genuine (s : Dialing) : Prop :=
  ∀ peer abort, s.connecting peer = some abort → ⟨peer, abort⟩ ∈ s.guards

theorem Genuine.step (h : s.Genuine) (hown : s.OwnFlags) (a : DialStep) : (s.step a).Genuine := by
  rcases step_keeps (s := s) a with ⟨nodeName, rfl⟩ | ⟨abort, rfl⟩ | ⟨-, hentries, hguards, -⟩
  · intro peer abort hentry
    rw [Dialing.step, connecting_newGuard] at hentry
    rw [Dialing.step, guards_newGuard]
    by_cases hsame : peer = s.peerOf nodeName
    · rw [hsame, Function.update_self] at hentry
      obtain rfl := Option.some.inj hentry
      rw [hsame]
      exact List.mem_cons_self ..
    · rw [Function.update_of_ne hsame] at hentry
      exact List.mem_cons_of_mem _ (h peer abort hentry)
  · rcases dropGuard_cases (s := s) abort with ⟨hsame, -⟩ | ⟨g, hg, habort, hentries, hguards, -⟩
    · rw [Dialing.step, hsame]
      exact h
    · intro peer flag hentry
      change (s.dropGuard abort).connecting peer = _ at hentry
      rw [hentries] at hentry
      have hpeer : peer ≠ g.peer := by
        rintro rfl
        rw [Function.update_self] at hentry
        cases hentry
      rw [Function.update_of_ne hpeer] at hentry
      change _ ∈ (s.dropGuard abort).guards
      rw [hguards, List.mem_filter]
      refine ⟨h peer flag hentry, ?_⟩
      have hne : flag ≠ abort := fun he =>
        hpeer (congrArg ConnectingGuard.peer
          (hown.eq (h peer flag hentry) hg (he.trans habort.symm)))
      simpa using hne
  · rw [Genuine, hentries, hguards]
    exact h

theorem run_genuine (atoms : AtomTable) (localNodeName : List UInt8) (steps : List DialStep) :
    (steps.foldl step (new atoms localNodeName)).Genuine ∧
      (steps.foldl step (new atoms localNodeName)).OwnFlags := by
  suffices h : ∀ s : Dialing, s.Genuine ∧ s.OwnFlags →
      (steps.foldl step s).Genuine ∧ (steps.foldl step s).OwnFlags from
    h _ ⟨fun _ _ hentry => (by cases hentry), ownFlags_new atoms localNodeName⟩
  induction steps with
  | nil => exact fun s hs => hs
  | cons a rest ih => exact fun s hs => ih (s.step a) ⟨hs.1.step hs.2 a, hs.2.step a⟩

/-- The marks are right all along a run exactly when no dial ends while another one to the same
peer is in flight. -/
theorem dials_marked_iff (atoms : AtomTable) (localNodeName : List UInt8) (steps : List DialStep) :
    (∀ n, ((steps.take n).foldl step (new atoms localNodeName)).Marked) ↔
      Runs.Meets step Alone (new atoms localNodeName) steps := by
  have hstep : ∀ (s : Dialing) a, s.Marked ∧ s.OwnFlags →
      ((s.step a).Marked ∧ (s.step a).OwnFlags ↔ s.Alone a) := by
    rintro s a ⟨hmarked, hown⟩
    rw [marked_step_iff hmarked hown a]
    exact and_iff_left (hown.step a)
  rw [← Runs.forall_take_iff hstep ⟨marked_new atoms localNodeName, ownFlags_new _ _⟩]
  exact forall_congr' fun n => (and_iff_left (run_genuine atoms localNodeName _).2).symm

/-! ## Two dials of one peer -/

def peerNode : NodeName := ⟨[98, 64, 104, 111, 115, 116], by decide +kernel⟩

/-- Two callers dial one peer, and the first one is through. -/
def overlapping : List DialStep :=
  [.connect peerNode, .connect peerNode,
    .handshake 1 (.accepted peerNode.bytes), .drop 1]

/-- The second dial is in flight and has no mark, so that a handshake from its peer goes on as if
there were no dial. -/
theorem not_dials_marked :
    let s := overlapping.foldl step (new .withCommonAtoms (AtomTable.ascii "a@host"))
    s.guards.length = 1 ∧ ¬ s.Marked ∧ s.decideInboundStatus peerNode = (.continue_, none) := by
  intro s
  have hguards : s.guards = [⟨78, 2⟩] := by decide +kernel
  have hnone : s.connecting 78 = none := by decide +kernel
  have hdecide : s.decideInboundStatus peerNode = (.continue_, none) := by decide +kernel
  refine ⟨by rw [hguards]; rfl, fun h => ?_, hdecide⟩
  obtain ⟨abort, hentry, -⟩ := h ⟨78, 2⟩ (by rw [hguards]; exact List.mem_singleton_self _)
  rw [hnone] at hentry
  cases hentry

end Dialing

end Beamr.Distribution
