import Beamr.Atom
import Beamr.Lib.Runs
import Beamr.Lib.Sessions

/-!
# The connection table

`register_connection`, `mark_down` and `connection_down` of the connection manager. Each critical
section of an entry of the table is one step. A connection that is marked down stays in the table
until its own thread gets to the entry, and a registration may come first.
-/
namespace Beamr.Distribution

open Sessions (Change)

inductive LinkDirection
  | inbound
  | outbound
  deriving DecidableEq

inductive ConnectionDownReason
  | peerClosed
  | readError
  | writeError
  | writeTimeout
  | manualDisconnect
  | heartbeatTimeout
  | controlOverflow
  deriving DecidableEq

structure NodeUp where
  node : Atom
  generation : ℕ
  peerCreation : UInt32
  deriving DecidableEq

structure NodeDown where
  node : Atom
  generation : ℕ
  reason : ConnectionDownReason
  deriving DecidableEq

inductive ConnectionEvent
  | up (up : NodeUp)
  | down (down : NodeDown)
  deriving DecidableEq

def ConnectionEvent.node : ConnectionEvent → Atom
  | .up e => e.node
  | .down e => e.node

def ConnectionEvent.change : ConnectionEvent → Change
  | .up e => .up e.generation
  | .down e => .down e.generation

/-- The part of a connection that does not change. The number tells connections apart. -/
structure DistConnection where
  id : ℕ
  node : Atom
  direction : LinkDirection
  generation : ℕ
  peerCreation : UInt32
  deriving DecidableEq

/-- The table, the connections that were ever built, why each of them is down if it is, the last
generation of each node, the events in the order they are enqueued in, and the threads that marked
a connection down and have not come to its entry yet. -/
structure ConnectionManager where
  table : Atom → Option DistConnection
  built : List DistConnection
  downReason : ℕ → Option ConnectionDownReason
  generations : Atom → ℕ
  enqueued : List ConnectionEvent
  reaping : List (DistConnection × ConnectionDownReason)

namespace ConnectionManager

def new : ConnectionManager := ⟨fun _ => none, [], fun _ => none, fun _ => 0, [], []⟩

def canonicalDirection (atoms : AtomTable) (localNodeName : List UInt8) (peer : Atom) :
    LinkDirection :=
  match atoms.resolve peer with
  | none => .inbound
  | some peerName => if compare localNodeName peerName = .gt then .outbound else .inbound

variable (m : ConnectionManager)

def isDown (c : DistConnection) : Bool := (m.downReason c.id).isSome

def enqueue (e : ConnectionEvent) : ConnectionManager := { m with enqueued := m.enqueued ++ [e] }

def nextGeneration (node : Atom) : ℕ × ConnectionManager :=
  (m.generations node + 1,
    { m with generations := Function.update m.generations node (m.generations node + 1) })

/-- Builds a connection and puts it into the table. -/
def install (node : Atom) (direction : LinkDirection) (generation : ℕ) (peerCreation : UInt32) :
    ConnectionManager :=
  let connection : DistConnection := ⟨m.built.length, node, direction, generation, peerCreation⟩
  { m with
    table := Function.update m.table node (some connection)
    built := m.built ++ [connection] }

/-- A new session of the node. -/
def openSession (node : Atom) (direction : LinkDirection) (peerCreation : UInt32) :
    ConnectionManager :=
  let (generation, m) := m.nextGeneration node
  (m.install node direction generation peerCreation).enqueue (.up ⟨node, generation, peerCreation⟩)

def creationMismatch (incumbent : DistConnection) (peerCreation : UInt32) : Bool :=
  incumbent.peerCreation != 0 && peerCreation != 0 && incumbent.peerCreation != peerCreation

/-- The critical section of `register_connection`. -/
def register (canonical : LinkDirection) (node : Atom) (direction : LinkDirection)
    (peerCreation : UInt32) : ConnectionManager :=
  match m.table node with
  | none => m.openSession node direction peerCreation
  | some incumbent =>
    if !m.isDown incumbent && incumbent.direction == canonical &&
        !creationMismatch incumbent peerCreation then m
    else if m.isDown incumbent then
      (m.enqueue (.down ⟨node, incumbent.generation,
        (m.downReason incumbent.id).getD .readError⟩)).openSession node direction peerCreation
    else if creationMismatch incumbent peerCreation then
      (m.enqueue (.down ⟨node, incumbent.generation, .readError⟩)).openSession
        node direction peerCreation
    else m.install node direction incumbent.generation peerCreation

/-- The first to mark a connection down goes on to its entry. -/
def markDown (connection : DistConnection) (reason : ConnectionDownReason) : ConnectionManager :=
  if m.isDown connection then m
  else { m with
    downReason := Function.update m.downReason connection.id (some reason)
    reaping := m.reaping ++ [(connection, reason)] }

/-- The critical section of `connection_down`: the entry may hold another connection by now. -/
def connectionDown (connection : DistConnection) (reason : ConnectionDownReason) :
    ConnectionManager :=
  if (m.table connection.node).any (·.id == connection.id) then
    { m.enqueue (.down ⟨connection.node, connection.generation, reason⟩) with
      table := Function.update m.table connection.node none }
  else m

end ConnectionManager

inductive ConnectionAction
  | register (node : Atom) (direction : LinkDirection) (peerCreation : UInt32)
  | markDown (i : ℕ) (reason : ConnectionDownReason)
  | connectionDown (i : ℕ)
  deriving DecidableEq

/-- One step of some thread of the node with this name. -/
def ConnectionManager.step (atoms : AtomTable) (localNodeName : List UInt8)
    (m : ConnectionManager) : ConnectionAction → ConnectionManager
  | .register node direction peerCreation =>
    m.register (canonicalDirection atoms localNodeName node) node direction peerCreation
  | .markDown i reason =>
    match m.built[i]? with
    | none => m
    | some connection => m.markDown connection reason
  | .connectionDown i =>
    match m.reaping[i]? with
    | none => m
    | some (connection, reason) =>
      { m with reaping := m.reaping.eraseIdx i }.connectionDown connection reason

/-! ## Sessions -/

/-- The changes of a node among the events. -/
def changes (node : Atom) (events : List ConnectionEvent) : List Change :=
  events.filterMap fun e => if e.node = node then some e.change else none

theorem changes_append (node : Atom) (events more : List ConnectionEvent) :
    changes node (events ++ more) = changes node events ++ changes node more :=
  List.filterMap_append

theorem changes_self (e : ConnectionEvent) : changes e.node [e] = [e.change] := by
  simp [changes]

theorem mem_changes_singleton {node : Atom} {e : ConnectionEvent} {c : Change} :
    c ∈ changes node [e] ↔ e.node = node ∧ c = e.change := by
  by_cases h : e.node = node
  · simp [changes, h]
  · simp [changes, h]

theorem changes_of_ne {node : Atom} {e : ConnectionEvent} (h : e.node ≠ node) :
    changes node [e] = [] := by
  simp [changes, h]

namespace ConnectionManager

/-- The events of each node follow its sessions, and the open one is that of the connection in the
table. -/
structure Tracks (m : ConnectionManager) : Prop where
  sessions : ∀ node, Sessions.Alternates 0 (changes node m.enqueued)
    ((m.table node).map (·.generation))
  bound : ∀ node, ∀ c ∈ changes node m.enqueued, c.generation ≤ m.generations node
  inTable : ∀ node c, m.table node = some c → c ∈ m.built ∧ c.node = node
  built : ∀ c ∈ m.built, c.generation ≤ m.generations c.node
  ids : ∀ c ∈ m.built, ∀ c' ∈ m.built, c.id = c'.id → c = c'
  fresh : ∀ c ∈ m.built, c.id < m.built.length
  reaping : ∀ p ∈ m.reaping, p.1 ∈ m.built

namespace Tracks

variable {m : ConnectionManager}

theorem new : Tracks .new where
  sessions _ := .none 0
  bound _ _ hc := absurd hc List.not_mem_nil
  inTable _ _ h := by cases h
  built _ hc := absurd hc List.not_mem_nil
  ids _ hc := absurd hc List.not_mem_nil
  fresh _ hc := absurd hc List.not_mem_nil
  reaping _ hp := absurd hp List.not_mem_nil

/-- One more event, which is of one node. -/
theorem changes_enqueue (e : ConnectionEvent) (node : Atom) :
    changes node (m.enqueue e).enqueued =
      if e.node = node then changes node m.enqueued ++ [e.change] else changes node m.enqueued := by
  rw [enqueue, changes_append]
  split
  next h => rw [← h, changes_self]
  next h => rw [changes_of_ne h, List.append_nil]

/-- The open session of a node is closed by its event. -/
theorem close (h : m.Tracks) {c : DistConnection} {node : Atom} (hc : m.table node = some c)
    (reason : ConnectionDownReason) :
    Tracks { m.enqueue (.down ⟨node, c.generation, reason⟩) with
      table := Function.update m.table node none } where
  sessions other := by
    have hother := h.sessions other
    dsimp only
    rw [changes_enqueue]
    split
    next hnode =>
      obtain rfl : node = other := hnode
      rw [hc] at hother
      rw [Function.update_self]
      exact hother.down
    next hnode =>
      have hne : other ≠ node := fun h => hnode h.symm
      rwa [Function.update_of_ne hne]
  bound other change hchange := by
    dsimp only at hchange
    rw [changes_enqueue] at hchange
    split at hchange
    next hnode =>
      obtain rfl : node = other := hnode
      rcases List.mem_append.mp hchange with hchange | hchange
      · exact h.bound node change hchange
      · obtain ⟨hbuilt, rfl⟩ := h.inTable node c hc
        rw [List.mem_singleton.mp hchange]
        exact h.built c hbuilt
    next => exact h.bound other change hchange
  inTable other c' hc' := by
    dsimp only at hc' ⊢
    by_cases hnode : other = node
    · subst hnode
      rw [Function.update_self] at hc'
      cases hc'
    · rw [Function.update_of_ne hnode] at hc'
      exact h.inTable other c' hc'
  built := h.built
  ids := h.ids
  fresh := h.fresh
  reaping := h.reaping

/-- A connection in the table, with the events of its session. -/
theorem install (h : m.Tracks) {node : Atom} {direction : LinkDirection} {generation : ℕ}
    {peerCreation : UInt32} {events : List ConnectionEvent}
    (hsessions : ∀ other, Sessions.Alternates 0 (changes other events)
      (if node = other then some generation else (m.table other).map (·.generation)))
    (hbound : ∀ other, ∀ c ∈ changes other events, c.generation ≤ m.generations other)
    (hgeneration : generation ≤ m.generations node) :
    Tracks { m.install node direction generation peerCreation with enqueued := events } where
  sessions other := by
    have hother := hsessions other
    rw [ConnectionManager.install]
    dsimp only
    split at hother
    next hnode =>
      subst hnode
      rwa [Function.update_self]
    next hnode => rwa [Function.update_of_ne (Ne.symm hnode)]
  bound := hbound
  inTable other c hc := by
    rw [ConnectionManager.install] at hc
    dsimp only at hc
    by_cases hnode : other = node
    · subst hnode
      rw [Function.update_self] at hc
      obtain rfl := Option.some.inj hc
      exact ⟨List.mem_append_right _ (List.mem_singleton_self _), rfl⟩
    · rw [Function.update_of_ne hnode] at hc
      obtain ⟨hbuilt, rfl⟩ := h.inTable other c hc
      exact ⟨List.mem_append_left _ hbuilt, rfl⟩
  built c hc := by
    rcases List.mem_append.mp hc with hc | hc
    · exact h.built c hc
    · rw [List.mem_singleton.mp hc]
      exact hgeneration
  ids c hc c' hc' hid := by
    rcases List.mem_append.mp hc with hc | hc <;> rcases List.mem_append.mp hc' with hc' | hc'
    · exact h.ids c hc c' hc' hid
    · rw [List.mem_singleton.mp hc'] at hid
      exact absurd (h.fresh c hc) (by rw [hid]; exact Nat.lt_irrefl _)
    · rw [List.mem_singleton.mp hc] at hid
      exact absurd (h.fresh c' hc') (by rw [← hid]; exact Nat.lt_irrefl _)
    · rw [List.mem_singleton.mp hc, List.mem_singleton.mp hc']
  fresh c hc := by
    rw [ConnectionManager.install] at hc ⊢
    dsimp only at hc ⊢
    rw [List.length_append, List.length_singleton]
    rcases List.mem_append.mp hc with hc | hc
    · exact Nat.lt_succ_of_lt (h.fresh c hc)
    · rw [List.mem_singleton.mp hc]
      exact Nat.lt_succ_self _
  reaping p hp := List.mem_append_left _ (h.reaping p hp)

/-- A new session, with no session of the node open. -/
theorem openSession (h : m.Tracks) {node : Atom} (hnone : m.table node = none)
    (direction : LinkDirection) (peerCreation : UInt32) :
    Tracks (m.openSession node direction peerCreation) := by
  have hnext : Tracks (m.nextGeneration node).2 := {
    h with
    bound := fun other change hchange => by
      have hbound := h.bound other change hchange
      rw [nextGeneration]
      dsimp only
      by_cases hnode : other = node
      · subst hnode
        rw [Function.update_self]
        exact Nat.le_succ_of_le hbound
      · rwa [Function.update_of_ne hnode]
    built := fun c hc => by
      have hbound := h.built c hc
      rw [nextGeneration]
      dsimp only
      by_cases hnode : c.node = node
      · rw [hnode, Function.update_self]
        rw [hnode] at hbound
        exact Nat.le_succ_of_le hbound
      · rwa [Function.update_of_ne hnode] }
  refine hnext.install ?_ ?_ ?_
  · intro other
    have hother := h.sessions other
    rw [changes_append]
    split
    next hnode =>
      subst hnode
      rw [hnone] at hother
      have hup := changes_self (.up ⟨node, m.generations node + 1, peerCreation⟩)
      exact hup ▸ hother.up (fun c hc => Nat.lt_succ_of_le (h.bound node c hc)) (Nat.succ_pos _)
    next hnode =>
      have hne : ConnectionEvent.node (.up ⟨node, m.generations node + 1, peerCreation⟩) ≠ other :=
        hnode
      rwa [changes_of_ne hne, List.append_nil]
  · intro other change hchange
    rw [changes_append, List.mem_append] at hchange
    rcases hchange with hchange | hchange
    · exact hnext.bound other change hchange
    · obtain ⟨hnode, rfl⟩ := mem_changes_singleton.mp hchange
      obtain rfl : node = other := hnode
      rw [nextGeneration]
      dsimp only
      rw [Function.update_self]
      exact Nat.le_refl _
  · rw [nextGeneration]
    dsimp only
    rw [Function.update_self]

theorem openSession_close (node : Atom) (e : ConnectionEvent) (direction : LinkDirection)
    (peerCreation : UInt32) :
    ConnectionManager.openSession { m.enqueue e with table := Function.update m.table node none }
        node direction peerCreation = (m.enqueue e).openSession node direction peerCreation := by
  simp [ConnectionManager.openSession, ConnectionManager.install, nextGeneration, enqueue]

theorem register (h : m.Tracks) (canonical : LinkDirection) (node : Atom)
    (direction : LinkDirection) (peerCreation : UInt32) :
    Tracks (m.register canonical node direction peerCreation) := by
  rw [ConnectionManager.register]
  split
  next hnone => exact h.openSession hnone direction peerCreation
  next incumbent hincumbent =>
    have hreopen : ∀ reason, Tracks ((m.enqueue (.down ⟨node, incumbent.generation, reason⟩)).openSession
        node direction peerCreation) := by
      intro reason
      rw [← openSession_close]
      exact (h.close hincumbent reason).openSession (Function.update_self ..) direction peerCreation
    split
    next => exact h
    next =>
      split
      next => exact hreopen _
      next =>
        split
        next => exact hreopen _
        next =>
          obtain ⟨hbuilt, rfl⟩ := h.inTable node incumbent hincumbent
          refine h.install ?_ h.bound (h.built incumbent hbuilt)
          intro other
          split
          next hnode =>
            subst hnode
            have hsessions := h.sessions incumbent.node
            rwa [hincumbent] at hsessions
          next => exact h.sessions other

theorem markDown (h : m.Tracks) {connection : DistConnection} (hbuilt : connection ∈ m.built)
    (reason : ConnectionDownReason) : Tracks (m.markDown connection reason) := by
  rw [ConnectionManager.markDown]
  split
  next => exact h
  next =>
    exact { h with
      reaping := fun p hp => by
        rcases List.mem_append.mp hp with hp | hp
        · exact h.reaping p hp
        · rw [List.mem_singleton.mp hp]
          exact hbuilt }

theorem connectionDown (h : m.Tracks) {connection : DistConnection} (hbuilt : connection ∈ m.built)
    (reason : ConnectionDownReason) : Tracks (m.connectionDown connection reason) := by
  rw [ConnectionManager.connectionDown]
  split
  next hentry =>
    cases hc : m.table connection.node with
    | none =>
      rw [hc] at hentry
      cases hentry
    | some c =>
      rw [hc] at hentry
      obtain rfl := h.ids c (h.inTable _ c hc).1 connection hbuilt (eq_of_beq hentry)
      exact h.close hc reason
  next => exact h

theorem step (h : m.Tracks) (atoms : AtomTable) (localNodeName : List UInt8)
    (a : ConnectionAction) : Tracks (m.step atoms localNodeName a) := by
  cases a with
  | register node direction peerCreation => exact h.register _ node direction peerCreation
  | markDown i reason =>
    rw [ConnectionManager.step]
    split
    next => exact h
    next connection hi => exact h.markDown (List.mem_of_getElem? hi) reason
  | connectionDown i =>
    rw [ConnectionManager.step]
    split
    next => exact h
    next connection reason hi =>
      have hrest : Tracks { m with reaping := m.reaping.eraseIdx i } :=
        { h with reaping := fun p hp => h.reaping p (List.mem_of_mem_eraseIdx hp) }
      exact hrest.connectionDown (h.reaping _ (List.mem_of_getElem? hi)) reason

end Tracks

/-! ## Connections that were marked down -/

/-- A step appends to the events, and an entry that goes out of the table leaves the event. -/
theorem step_enqueued (m : ConnectionManager) (atoms : AtomTable) (localNodeName : List UInt8)
    (a : ConnectionAction) :
    ∃ more, (m.step atoms localNodeName a).enqueued = m.enqueued ++ more ∧
      ∀ node, (m.table node).isSome → ((m.step atoms localNodeName a).table node).isSome ∨
        ∃ event, event.node = node ∧ ConnectionEvent.down event ∈ more := by
  have hupdate (m : ConnectionManager) (node other : Atom) (c : DistConnection)
      (h : (m.table other).isSome) : (Function.update m.table node (some c) other).isSome := by
    by_cases hnode : other = node
    · rw [hnode, Function.update_self]
      rfl
    · rwa [Function.update_of_ne hnode]
  cases a with
  | register node direction peerCreation =>
    rw [step, register]
    split
    next => exact ⟨[_], rfl, fun other h => .inl (hupdate m node other _ h)⟩
    next incumbent hincumbent =>
      split
      next => exact ⟨[], (List.append_nil _).symm, fun _ h => .inl h⟩
      next =>
        split
        next =>
          exact ⟨[_, _], List.append_assoc .., fun other h => .inl (hupdate m node other _ h)⟩
        next =>
          split
          next =>
            exact ⟨[_, _], List.append_assoc .., fun other h => .inl (hupdate m node other _ h)⟩
          next =>
            exact ⟨[], (List.append_nil _).symm, fun other h => .inl (hupdate m node other _ h)⟩
  | markDown i reason =>
    refine ⟨[], ?_, fun node h => .inl ?_⟩
    · rw [step, List.append_nil]
      split
      next => rfl
      next => rw [markDown]; split <;> rfl
    · rw [step]
      split
      next => exact h
      next => rw [markDown]; split <;> exact h
  | connectionDown i =>
    rw [step]
    split
    next => exact ⟨[], (List.append_nil _).symm, fun _ h => .inl h⟩
    next connection reason _ =>
      rw [connectionDown]
      split
      next =>
        refine ⟨[_], rfl, fun node h => ?_⟩
        by_cases hnode : node = connection.node
        · exact .inr ⟨_, hnode.symm, List.mem_singleton_self _⟩
        · left
          dsimp only
          rwa [Function.update_of_ne hnode]
      next => exact ⟨[], (List.append_nil _).symm, fun _ h => .inl h⟩

/-- A connection in the table that is marked down has a thread on its way to the entry. -/
structure Reaps (m : ConnectionManager) : Prop where
  down : ∀ node c, m.table node = some c → m.isDown c = true → ∃ reason, (c, reason) ∈ m.reaping
  fresh : ∀ i, m.built.length ≤ i → m.downReason i = none

namespace Reaps

variable {m : ConnectionManager}

theorem new : Reaps .new where
  down _ _ h := by cases h
  fresh _ _ := rfl

theorem install (h : m.Reaps) (node : Atom) (direction : LinkDirection) (generation : ℕ)
    (peerCreation : UInt32) : Reaps (m.install node direction generation peerCreation) where
  down other c hc hdown := by
    rw [ConnectionManager.install] at hc
    by_cases hnode : other = node
    · subst hnode
      dsimp only at hc
      rw [Function.update_self] at hc
      obtain rfl := Option.some.inj hc
      rw [isDown, ConnectionManager.install, h.fresh _ (Nat.le_refl _)] at hdown
      cases hdown
    · dsimp only at hc
      rw [Function.update_of_ne hnode] at hc
      exact h.down other c hc hdown
  fresh i hi := by
    rw [ConnectionManager.install] at hi
    dsimp only at hi
    rw [List.length_append] at hi
    exact h.fresh i (Nat.le_trans (Nat.le_add_right ..) hi)

theorem openSession (h : m.Reaps) (node : Atom) (direction : LinkDirection)
    (peerCreation : UInt32) : Reaps (m.openSession node direction peerCreation) := by
  have hnext : Reaps (m.nextGeneration node).2 := ⟨h.down, h.fresh⟩
  obtain ⟨hdown, hfresh⟩ := hnext.install node direction (m.nextGeneration node).1 peerCreation
  exact ⟨hdown, hfresh⟩

theorem register (h : m.Reaps) (canonical : LinkDirection) (node : Atom)
    (direction : LinkDirection) (peerCreation : UInt32) :
    Reaps (m.register canonical node direction peerCreation) := by
  have henqueue (e : ConnectionEvent) : Reaps (m.enqueue e) := ⟨h.down, h.fresh⟩
  rw [ConnectionManager.register]
  split
  next => exact h.openSession ..
  next =>
    split
    next => exact h
    next =>
      split
      next => exact (henqueue _).openSession ..
      next =>
        split
        next => exact (henqueue _).openSession ..
        next => exact h.install ..

theorem markDown (h : m.Reaps) {connection : DistConnection}
    (hfresh : connection.id < m.built.length) (hids : ∀ c, (∃ node, m.table node = some c) →
      c.id = connection.id → c = connection) (reason : ConnectionDownReason) :
    Reaps (m.markDown connection reason) := by
  rw [ConnectionManager.markDown]
  split
  next => exact h
  next =>
    refine ⟨fun node c hc hdown => ?_, fun i hi => ?_⟩
    · by_cases hid : c.id = connection.id
      · obtain rfl := hids c ⟨node, hc⟩ hid
        exact ⟨reason, List.mem_append_right _ (List.mem_singleton_self _)⟩
      · rw [isDown] at hdown
        dsimp only at hdown
        rw [Function.update_of_ne hid] at hdown
        obtain ⟨reason', hreason⟩ := h.down node c hc hdown
        exact ⟨reason', List.mem_append_left _ hreason⟩
    · dsimp only at hi ⊢
      rw [Function.update_of_ne (Nat.ne_of_gt (Nat.lt_of_lt_of_le hfresh hi))]
      exact h.fresh i hi

/-- The thread that is done with its entry was the only one on its way there. -/
theorem connectionDown (h : m.Reaps) {i : ℕ} {connection : DistConnection}
    {reason : ConnectionDownReason} (hi : m.reaping[i]? = some (connection, reason))
    (hnode : ∀ node c, m.table node = some c → c.node = node) :
    Reaps ({ m with reaping := m.reaping.eraseIdx i }.connectionDown connection reason) := by
  have hother (c : DistConnection) (hne : c ≠ connection)
      (hdown : ∃ reason, (c, reason) ∈ m.reaping) :
      ∃ reason, (c, reason) ∈ m.reaping.eraseIdx i := by
    obtain ⟨reason', hmem⟩ := hdown
    obtain ⟨k, hk⟩ := List.mem_iff_getElem?.mp hmem
    refine ⟨reason', List.mem_eraseIdx_iff_getElem?.mpr ⟨k, ?_, hk⟩⟩
    rintro rfl
    rw [hi] at hk
    exact hne (congrArg Prod.fst (Option.some.inj hk)).symm
  rw [ConnectionManager.connectionDown]
  split
  next =>
    refine ⟨fun node c hc hdown => ?_, h.fresh⟩
    dsimp only at hc
    by_cases hsame : node = connection.node
    · rw [hsame, Function.update_self] at hc
      cases hc
    · rw [Function.update_of_ne hsame] at hc
      refine hother c ?_ (h.down node c hc hdown)
      rintro rfl
      exact hsame (hnode node c hc).symm
  next hentry =>
    refine ⟨fun node c hc hdown => hother c ?_ (h.down node c hc hdown), h.fresh⟩
    rintro rfl
    dsimp only at hentry hc
    rw [hnode node c hc, hc] at hentry
    exact hentry (by simp)

theorem step (h : m.Reaps) (htracks : m.Tracks) (atoms : AtomTable) (localNodeName : List UInt8)
    (a : ConnectionAction) : Reaps (m.step atoms localNodeName a) := by
  cases a with
  | register node direction peerCreation => exact h.register ..
  | markDown i reason =>
    rw [ConnectionManager.step]
    split
    next => exact h
    next connection hi =>
      have hbuilt := List.mem_of_getElem? hi
      refine h.markDown (htracks.fresh _ hbuilt) ?_ reason
      rintro c ⟨node, hc⟩ hid
      exact htracks.ids c (htracks.inTable node c hc).1 connection hbuilt hid
  | connectionDown i =>
    rw [ConnectionManager.step]
    split
    next => exact h
    next connection reason hi =>
      exact h.connectionDown hi fun node c hc => (htracks.inTable node c hc).2

end Reaps

/-! ## Creations -/

/-- Connections of one session never carry different creations, 0 standing for none. -/
def OneCreation (m : ConnectionManager) : Prop :=
  ∀ c ∈ m.built, ∀ c' ∈ m.built, c.node = c'.node → c.generation = c'.generation →
    c.peerCreation ≠ 0 → c'.peerCreation ≠ 0 → c.peerCreation = c'.peerCreation

/-- The registration keeps the session of a live connection. -/
def TakesOver (m : ConnectionManager) (canonical : LinkDirection) (incumbent : DistConnection)
    (peerCreation : UInt32) : Prop :=
  m.isDown incumbent = false ∧ incumbent.direction ≠ canonical ∧
    creationMismatch incumbent peerCreation = false

/-- A registration with a creation keeps a session only if all its connections so far carry that
creation or none. -/
def KeepsCreation (atoms : AtomTable) (localNodeName : List UInt8) (m : ConnectionManager) :
    ConnectionAction → Prop
  | .register node _ peerCreation => ∀ incumbent, m.table node = some incumbent →
      TakesOver m (canonicalDirection atoms localNodeName node) incumbent peerCreation →
      peerCreation ≠ 0 → ∀ c ∈ m.built, c.node = node → c.generation = incumbent.generation →
        c.peerCreation ≠ 0 → c.peerCreation = peerCreation
  | _ => True

section Creations

variable {m m' : ConnectionManager}

theorem OneCreation.congr (h : m.OneCreation) (hbuilt : m'.built = m.built) : m'.OneCreation := by
  rw [OneCreation, hbuilt]
  exact h

/-- One more connection. -/
theorem OneCreation.append_iff (h : m.OneCreation) {c : DistConnection}
    (hbuilt : m'.built = m.built ++ [c]) : m'.OneCreation ↔ c.peerCreation ≠ 0 →
      ∀ c' ∈ m.built, c'.node = c.node → c'.generation = c.generation → c'.peerCreation ≠ 0 →
        c'.peerCreation = c.peerCreation := by
  rw [OneCreation, hbuilt]
  constructor
  · intro hall hcreation c' hc' hnode hgeneration hcreation'
    exact hall c' (List.mem_append_left _ hc') c (List.mem_append_right _ (List.mem_singleton_self c))
      hnode hgeneration hcreation' hcreation
  · intro hnew a ha b hb hnode hgeneration hcreation hcreation'
    rcases List.mem_append.mp ha with hold | hself <;>
      rcases List.mem_append.mp hb with hold' | hself'
    · exact h a hold b hold' hnode hgeneration hcreation hcreation'
    · obtain rfl := List.mem_singleton.mp hself'
      exact hnew hcreation' a hold hnode hgeneration hcreation
    · obtain rfl := List.mem_singleton.mp hself
      exact (hnew hcreation b hold' hnode.symm hgeneration.symm hcreation').symm
    · rw [List.mem_singleton.mp hself, List.mem_singleton.mp hself']

/-- A new session has no other connections. -/
theorem OneCreation.openSession (h : m.OneCreation) (htracks : m.Tracks) (node : Atom)
    (direction : LinkDirection) (peerCreation : UInt32) :
    (m.openSession node direction peerCreation).OneCreation := by
  refine (h.append_iff rfl).mpr ?_
  rintro - c hc hnode hgeneration
  have hbound := htracks.built c hc
  rw [hnode] at hbound
  exact absurd hbound (by rw [hgeneration]; exact Nat.not_succ_le_self _)

theorem oneCreation_register_iff (h : m.OneCreation) (htracks : m.Tracks)
    (canonical : LinkDirection) (node : Atom) (direction : LinkDirection) (peerCreation : UInt32) :
    (m.register canonical node direction peerCreation).OneCreation ↔
      ∀ incumbent, m.table node = some incumbent → TakesOver m canonical incumbent peerCreation →
        peerCreation ≠ 0 → ∀ c ∈ m.built, c.node = node → c.generation = incumbent.generation →
          c.peerCreation ≠ 0 → c.peerCreation = peerCreation := by
  rw [register]
  split
  next hnone =>
    refine iff_of_true (h.openSession htracks node direction peerCreation) ?_
    intro incumbent hincumbent
    rw [hnone] at hincumbent
    cases hincumbent
  next incumbent hincumbent =>
    have hreopen : ∀ e, ((m.enqueue e).openSession node direction peerCreation).OneCreation := by
      intro e
      exact (h.openSession htracks node direction peerCreation).congr rfl
    split
    next hdrop =>
      refine iff_of_true h ?_
      rintro _ hsome ⟨-, hdirection, -⟩
      obtain rfl := Option.some.inj (hincumbent.symm.trans hsome)
      simp only [Bool.and_eq_true, beq_iff_eq] at hdrop
      exact absurd hdrop.1.2 hdirection
    next hkeep =>
      split
      next hdown =>
        refine iff_of_true (hreopen _) ?_
        rintro _ hsome ⟨hlive, -, -⟩
        obtain rfl := Option.some.inj (hincumbent.symm.trans hsome)
        rw [hdown] at hlive
        cases hlive
      next hlive =>
        split
        next hmismatch =>
          refine iff_of_true (hreopen _) ?_
          rintro _ hsome ⟨-, -, hsame⟩
          obtain rfl := Option.some.inj (hincumbent.symm.trans hsome)
          rw [hmismatch] at hsame
          cases hsame
        next hsame =>
          have htakes : TakesOver m canonical incumbent peerCreation := by
            rw [Bool.not_eq_true] at hlive hsame
            refine ⟨hlive, ?_, hsame⟩
            rintro rfl
            simp [hlive, hsame] at hkeep
          refine (h.append_iff rfl).trans ⟨?_, ?_⟩
          · intro hnew other hother _
            obtain rfl := Option.some.inj (hincumbent.symm.trans hother)
            exact hnew
          · exact fun hall => hall incumbent hincumbent htakes

theorem oneCreation_step_iff (atoms : AtomTable) (localNodeName : List UInt8) (h : m.OneCreation)
    (htracks : m.Tracks) (a : ConnectionAction) :
    (m.step atoms localNodeName a).OneCreation ↔ KeepsCreation atoms localNodeName m a := by
  cases a with
  | register node direction peerCreation =>
    exact oneCreation_register_iff h htracks _ node direction peerCreation
  | markDown i reason =>
    refine iff_of_true (h.congr ?_) trivial
    rw [step]
    split
    next => rfl
    next =>
      rw [markDown]
      split <;> rfl
  | connectionDown i =>
    refine iff_of_true (h.congr ?_) trivial
    rw [step]
    split
    next => rfl
    next =>
      rw [connectionDown]
      split <;> rfl

end Creations

/-! ## Every run -/

/-- The events of each node are those of sessions with increasing generations, the last one being
open exactly if the table has its connection, and a session belongs to one incarnation of the
peer. -/
structure SessionEvents (m : ConnectionManager) : Prop where
  alternates : ∀ node, ∃ current, Sessions.Alternates 0 (changes node m.enqueued) current
  last : ∀ node generation, (changes node m.enqueued).getLast? = some (.up generation) ↔
    ∃ c, m.table node = some c ∧ c.generation = generation
  creations : m.OneCreation

theorem Tracks.sessionEvents_iff {m : ConnectionManager} (h : m.Tracks) :
    m.SessionEvents ↔ m.OneCreation := by
  refine ⟨SessionEvents.creations, fun hone => ⟨fun node => ⟨_, h.sessions node⟩, ?_, hone⟩⟩
  intro node generation
  rw [(h.sessions node).getLast?_eq_up, Option.map_eq_some_iff]

/-- The events are in order all along a run exactly if no registration with a creation keeps a
session in which another creation has been announced. -/
theorem connection_events_iff (atoms : AtomTable) (localNodeName : List UInt8)
    (actions : List ConnectionAction) :
    (∀ n, ((actions.take n).foldl (step atoms localNodeName) new).SessionEvents) ↔
      Runs.Meets (step atoms localNodeName) (KeepsCreation atoms localNodeName) new actions := by
  have htracks : ∀ n, ((actions.take n).foldl (step atoms localNodeName) new).Tracks := by
    intro n
    induction actions.take n using List.reverseRecOn with
    | nil => exact Tracks.new
    | append_singleton rest a ih =>
      rw [List.foldl_append]
      exact ih.step atoms localNodeName a
  rw [← Runs.forall_take_iff (I := fun m => m.Tracks ∧ m.OneCreation) ?_ ?_]
  · exact forall_congr' fun n =>
      (htracks n).sessionEvents_iff.trans (and_iff_right (htracks n)).symm
  · rintro m a ⟨hm, hone⟩
    exact (and_iff_right (hm.step atoms localNodeName a)).trans
      (oneCreation_step_iff atoms localNodeName hone hm a)
  · exact ⟨Tracks.new, fun c hc => absurd hc List.not_mem_nil⟩

/-- A peer that restarts behind a connection without a creation: one session with the creations 5
and 7. -/
theorem not_connection_events :
    ¬ ([.register 0 .inbound 5, .register 0 .inbound 0, .register 0 .inbound 7].foldl
      (step .withCommonAtoms (AtomTable.ascii "z")) new).SessionEvents := by
  intro h
  have hbuilt : ([.register 0 .inbound 5, .register 0 .inbound 0, .register 0 .inbound 7].foldl
      (step .withCommonAtoms (AtomTable.ascii "z")) new).built =
      [⟨0, 0, .inbound, 1, 5⟩, ⟨1, 0, .inbound, 1, 0⟩, ⟨2, 0, .inbound, 1, 7⟩] := by
    decide +kernel
  have hsame := h.creations ⟨0, 0, .inbound, 1, 5⟩ (by rw [hbuilt]; simp)
    ⟨2, 0, .inbound, 1, 7⟩ (by rw [hbuilt]; simp) rfl rfl (by decide) (by decide)
  exact absurd hsame (by decide)

end ConnectionManager

end Beamr.Distribution
