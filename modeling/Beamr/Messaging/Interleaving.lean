import Beamr.Messaging.Mailbox
import Mathlib.Data.List.Perm.Basic

/-!
# Interleavings of senders and the owner of a mailbox

Senders push to the arrival queue at any time. The owner drains it in a loop of single pops, so
pushes fall between the pops of one operation; what an operation does after its loop touches
only the owner's own data.
-/
namespace Beamr.Messaging

variable {K M : Type}

/-- A message with its sender; one that the owner made itself has none. -/
structure Message (M : Type) where
  sender : Option ℕ
  content : M
  deriving DecidableEq

/-- What the owner does with its mailbox. -/
inductive Operation (K M : Type)
  | drainArrival
  | currentMessage
  | advanceSavePointer
  | removeCurrentMessage
  | resetSavePointer
  | reserveSaveMarker
  | setSavePointer (marker : ℕ)
  | bindRecvMarker (key : K) (marker : ℕ)
  | useRecvMarker (key : K)
  | clearRecvMarker (key : K)
  | receive (accepts : List M → M → Bool)

namespace Operation

variable [BEq K]

/-- The message taken out, and the mailbox afterwards. -/
def apply (m : Mailbox K M) : Operation K M → Option M × Mailbox K M
  | .drainArrival => (none, m.drainArrival)
  | .currentMessage => (none, m.currentMessage.2)
  | .advanceSavePointer => (none, m.advanceSavePointer)
  | .removeCurrentMessage => m.removeCurrentMessage
  | .resetSavePointer => (none, m.resetSavePointer)
  | .reserveSaveMarker => (none, m.reserveSaveMarker.2)
  | .setSavePointer marker => (none, m.setSavePointer marker)
  | .bindRecvMarker key marker => (none, m.bindRecvMarker key marker)
  | .useRecvMarker key => (none, (m.useRecvMarker key).2)
  | .clearRecvMarker key => (none, m.clearRecvMarker key)
  | .receive accepts => m.receive accepts

/-- Whether an operation starts with the drain loop; a marker is looked up before. -/
def drains (m : Mailbox K M) : Operation K M → Bool
  | .advanceSavePointer => false
  | .resetSavePointer => false
  | .clearRecvMarker _ => false
  | .useRecvMarker key => m.recvMarker.any fun bound => bound.1 == key
  | _ => true

end Operation

/-! ## Steps -/

/-- A mailbox with the operation whose drain loop is running. The three lists record what was
put in the mailbox, what was put on the scan list and what was taken out, in order. -/
structure System (K M : Type) where
  mailbox : Mailbox K (Message M)
  running : Option (Operation K (Message M))
  sent : List (Message M)
  scanned : List (Message M)
  removed : List (Message M)

inductive Event (K M : Type)
  /-- A send that copies its message, or fails to. -/
  | send (sender : ℕ) (content : M) (copied : Bool)
  /-- The owner, or whoever holds its body, adds a message itself. -/
  | pushOwned (content : M)
  /-- The owner starts an operation. -/
  | call (operation : Operation K (Message M))
  /-- One turn of the drain loop; on an empty queue the operation goes on and ends. -/
  | pop

namespace System

variable [BEq K]

def start : System K M := ⟨.new, none, [], [], []⟩

def finish (s : System K M) (operation : Operation K (Message M)) : System K M :=
  let result := operation.apply s.mailbox
  { s with
    mailbox := result.2
    running := none
    removed := s.removed ++ result.1.toList }

def send (s : System K M) (sender : ℕ) (content : M) : System K M :=
  { s with
    mailbox := s.mailbox.enqueueCopied ⟨some sender, content⟩
    sent := s.sent ++ [⟨some sender, content⟩] }

def pushOwned (s : System K M) (content : M) : System K M :=
  { s with
    mailbox := s.mailbox.pushOwned ⟨none, content⟩
    sent := s.sent ++ [⟨none, content⟩]
    scanned := s.scanned ++ [⟨none, content⟩] }

def call (s : System K M) (operation : Operation K (Message M)) : System K M :=
  if operation.drains s.mailbox then { s with running := some operation }
  else s.finish operation

def pop (s : System K M) (operation : Operation K (Message M)) : System K M :=
  match s.mailbox.arrival with
  | message :: rest =>
    { s with
      mailbox := { s.mailbox with arrival := rest, scanList := s.mailbox.scanList ++ [message] }
      scanned := s.scanned ++ [message] }
  | [] => s.finish operation

def step (s : System K M) : Event K M → System K M
  | .send sender content copied => if copied then s.send sender content else s
  | .pushOwned content =>
    match s.running with
    | none => s.pushOwned content
    | some _ => s
  | .call operation =>
    match s.running with
    | none => s.call operation
    | some _ => s
  | .pop =>
    match s.running with
    | none => s
    | some operation => s.pop operation

end System

/-! ## What an operation does after its drain loop -/

theorem Mailbox.drainArrival_of_empty {m : Mailbox K M} (h : m.arrival = []) :
    m.drainArrival = m := by
  obtain ⟨arrival, scanList, savePointer, recvMarker⟩ := m
  subst h
  simp [drainArrival]

theorem firstMatch_lt {accepts : List M → M → Bool} {tested rest : List M} {i : ℕ}
    (h : Mailbox.firstMatch accepts tested rest = some i) : i < rest.length := by
  induction rest generalizing tested i with
  | nil => simp [Mailbox.firstMatch] at h
  | cons message rest ih =>
    rw [Mailbox.firstMatch] at h
    split at h
    · cases h
      simp
    · obtain ⟨j, hj, rfl⟩ := Option.map_eq_some_iff.mp h
      have := ih hj
      simp only [List.length_cons]
      omega

/-- At most one message leaves the scan list, and the save pointer stays within it. -/
structure Takes (m : Mailbox K M) (result : Option M × Mailbox K M) : Prop where
  arrival : result.2.arrival = m.arrival
  bound : result.2.savePointer ≤ result.2.scanList.length
  scanList : (result.1 = none ∧ result.2.scanList = m.scanList) ∨
    ∃ i message, m.scanList[i]? = some message ∧ result.1 = some message ∧
      result.2.scanList = m.scanList.eraseIdx i

namespace Takes

variable {m : Mailbox K M}

theorem removeCurrentMessage (h : m.arrival = []) (hbound : m.savePointer ≤ m.scanList.length) :
    Takes m m.removeCurrentMessage := by
  rw [Mailbox.removeCurrentMessage, Mailbox.drainArrival_of_empty h]
  split
  next message hmessage =>
    exact ⟨rfl, Nat.zero_le _, .inr ⟨m.savePointer, message, hmessage, rfl, rfl⟩⟩
  next => exact ⟨rfl, hbound, .inl ⟨rfl, rfl⟩⟩

theorem receive (h : m.arrival = []) (accepts : List M → M → Bool) :
    Takes m (m.receive accepts) := by
  rw [Mailbox.receive, Mailbox.drainArrival_of_empty h]
  split
  next offset hoffset =>
    have hlt := firstMatch_lt hoffset
    rw [List.length_drop] at hlt
    have hin : min m.savePointer m.scanList.length + offset < m.scanList.length := by omega
    have hmessage := List.getElem?_eq_getElem hin
    exact ⟨rfl, Nat.zero_le _, .inr ⟨_, _, hmessage, hmessage, rfl⟩⟩
  next => exact ⟨rfl, Nat.le_refl _, .inl ⟨rfl, rfl⟩⟩

variable [BEq K]

theorem apply (operation : Operation K M) (h : operation.drains m = false ∨ m.arrival = [])
    (hbound : m.savePointer ≤ m.scanList.length) : Takes m (operation.apply m) := by
  have hkept : ∀ m' : Mailbox K M, m'.arrival = m.arrival → m'.scanList = m.scanList →
      m'.savePointer ≤ m.scanList.length → Takes m (none, m') := by
    intro m' harrival hscan hle
    exact ⟨harrival, hscan ▸ hle, .inl ⟨rfl, hscan⟩⟩
  have hdrained : m.arrival = [] → m.drainArrival = m := Mailbox.drainArrival_of_empty
  cases operation with
  | drainArrival =>
    have hnil : m.arrival = [] := h.resolve_left nofun
    rw [Operation.apply, hdrained hnil]
    exact hkept m rfl rfl hbound
  | currentMessage =>
    have hnil : m.arrival = [] := h.resolve_left nofun
    rw [Operation.apply, Mailbox.currentMessage, hdrained hnil]
    exact hkept m rfl rfl hbound
  | advanceSavePointer => exact hkept _ rfl rfl (Nat.min_le_right _ _)
  | removeCurrentMessage => exact removeCurrentMessage (h.resolve_left nofun) hbound
  | resetSavePointer => exact hkept _ rfl rfl (Nat.zero_le _)
  | reserveSaveMarker =>
    have hnil : m.arrival = [] := h.resolve_left nofun
    rw [Operation.apply, Mailbox.reserveSaveMarker, hdrained hnil]
    exact hkept m rfl rfl hbound
  | setSavePointer marker =>
    have hnil : m.arrival = [] := h.resolve_left nofun
    rw [Operation.apply, Mailbox.setSavePointer, hdrained hnil]
    exact hkept _ rfl rfl (Nat.min_le_right _ _)
  | bindRecvMarker key marker =>
    have hnil : m.arrival = [] := h.resolve_left nofun
    rw [Operation.apply, Mailbox.bindRecvMarker, hdrained hnil]
    exact hkept _ rfl rfl hbound
  | useRecvMarker key =>
    rw [Operation.apply, Mailbox.useRecvMarker]
    split
    next => exact hkept m rfl rfl hbound
    next boundKey marker hmarker =>
      split
      next => exact hkept m rfl rfl hbound
      next heq =>
        have hnil : m.arrival = [] := by
          apply h.resolve_left
          simpa [Operation.drains, hmarker, bne] using heq
        rw [Mailbox.setSavePointer, hdrained hnil]
        exact hkept _ rfl rfl (Nat.min_le_right _ _)
  | clearRecvMarker key =>
    rw [Operation.apply, Mailbox.clearRecvMarker]
    split
    next => exact hkept _ rfl rfl hbound
    next => exact hkept _ rfl rfl hbound
  | receive accepts => exact receive (h.resolve_left nofun) accepts

end Takes

/-- Draining first changes nothing for an operation that drains. -/
theorem Operation.apply_drainArrival [BEq K] {m : Mailbox K M} {operation : Operation K M}
    (h : operation.drains m = true) : operation.apply m.drainArrival = operation.apply m := by
  have htwice : m.drainArrival.drainArrival = m.drainArrival :=
    Mailbox.drainArrival_of_empty rfl
  cases operation with
  | drainArrival => rw [apply, apply, htwice]
  | currentMessage => simp only [apply, Mailbox.currentMessage, htwice]
  | advanceSavePointer => cases h
  | removeCurrentMessage =>
    simp only [apply, Mailbox.removeCurrentMessage, htwice]
    rfl
  | resetSavePointer => cases h
  | reserveSaveMarker => simp only [apply, Mailbox.reserveSaveMarker, htwice]
  | setSavePointer marker => simp only [apply, Mailbox.setSavePointer, htwice]
  | bindRecvMarker key marker => simp only [apply, Mailbox.bindRecvMarker, htwice]
  | useRecvMarker key =>
    cases hmarker : m.recvMarker with
    | none => simp [drains, hmarker] at h
    | some bound =>
      have hkey : (bound.1 != key) = false := by simpa [drains, hmarker, bne] using h
      have hdrained : m.drainArrival.recvMarker = some bound := hmarker
      simp [apply, Mailbox.useRecvMarker, Mailbox.setSavePointer, hmarker, hdrained, htwice, hkey]
  | clearRecvMarker key => cases h
  | receive accepts =>
    simp only [apply, Mailbox.receive, htwice]
    rfl

/-- Every operation takes at most one message out of the scan list, drained or not. -/
theorem Operation.exists_takes [BEq K] (operation : Operation K M) {m : Mailbox K M}
    (hbound : m.savePointer ≤ m.scanList.length) :
    ∃ m', (m' = m ∨ m' = m.drainArrival) ∧ Takes m' (operation.apply m) := by
  cases hdrains : operation.drains m with
  | false => exact ⟨m, .inl rfl, Takes.apply operation (.inl hdrains) hbound⟩
  | true =>
    refine ⟨m.drainArrival, .inr rfl, ?_⟩
    rw [← Operation.apply_drainArrival hdrains]
    apply Takes.apply operation (.inr rfl)
    simp only [Mailbox.drainArrival, List.length_append]
    omega

/-! ## Conservation and order -/

/-- The messages of one sender. -/
def fromSender (p : ℕ) (messages : List (Message M)) : List (Message M) :=
  messages.filter fun m => m.sender = some p

@[simp] theorem fromSender_append (p : ℕ) (a b : List (Message M)) :
    fromSender p (a ++ b) = fromSender p a ++ fromSender p b := List.filter_append ..

/-- Nothing is lost, made up or reordered: each message that was put in the mailbox is in
exactly one of the arrival queue, the scan list and the messages taken out, the owner comes to
scan the messages of a sender in the order in which they were sent and keeps them in that order,
and the save pointer is within the scan list. -/
structure Delivered (s : System K M) : Prop where
  conserved : (s.mailbox.arrival ++ s.mailbox.scanList ++ s.removed).Perm s.sent
  ordered : ∀ p, fromSender p s.scanned ++ fromSender p s.mailbox.arrival = fromSender p s.sent
  kept : s.mailbox.scanList.Sublist s.scanned
  bound : s.mailbox.savePointer ≤ s.mailbox.scanList.length

namespace Delivered

variable {s : System K M}

theorem send (h : Delivered s) (sender : ℕ) (content : M) :
    Delivered (s.send sender content) := by
  obtain ⟨hconserved, hordered, hkept, hbound⟩ := h
  refine ⟨?_, ?_, hkept, hbound⟩
  · have hmove (message : Message M) : (s.mailbox.arrival ++ [message] ++ s.mailbox.scanList ++
        s.removed).Perm (s.mailbox.arrival ++ s.mailbox.scanList ++ s.removed ++ [message]) := by
      simp only [List.append_assoc]
      refine List.Perm.append_left _ ?_
      rw [← List.append_assoc s.mailbox.scanList]
      exact List.perm_append_comm
    exact (hmove _).trans (hconserved.append_right _)
  · intro p
    simp only [System.send, Mailbox.enqueueCopied, fromSender_append]
    rw [← List.append_assoc, hordered p]

theorem pushOwned (h : Delivered s) (content : M) : Delivered (s.pushOwned content) := by
  obtain ⟨hconserved, hordered, hkept, hbound⟩ := h
  refine ⟨?_, ?_, hkept.append_right _, ?_⟩
  · have hmove (message : Message M) : (s.mailbox.arrival ++ (s.mailbox.scanList ++ [message]) ++
        s.removed).Perm (s.mailbox.arrival ++ s.mailbox.scanList ++ s.removed ++ [message]) := by
      simp only [List.append_assoc]
      exact List.Perm.append_left _ (List.Perm.append_left _ List.perm_append_comm)
    exact (hmove _).trans (hconserved.append_right _)
  · intro p
    have hnone : fromSender p [(⟨none, content⟩ : Message M)] = [] := by simp [fromSender]
    simp only [System.pushOwned, Mailbox.pushOwned, fromSender_append, hnone, List.append_nil]
    exact hordered p
  · simp only [System.pushOwned, Mailbox.pushOwned, List.length_append]
    omega

variable [BEq K]

theorem finish (h : Delivered s) (operation : Operation K (Message M))
    (hdrained : operation.drains s.mailbox = false ∨ s.mailbox.arrival = []) :
    Delivered (s.finish operation) := by
  obtain ⟨hconserved, hordered, hkept, hbound⟩ := h
  obtain ⟨harrival, hpointer, hscan⟩ := Takes.apply operation hdrained hbound
  refine ⟨?_, ?_, ?_, hpointer⟩
  · rcases hscan with ⟨hnone, hsame⟩ | ⟨i, message, hmessage, hsome, herased⟩
    · simpa [System.finish, harrival, hnone, hsame] using hconserved
    · obtain ⟨hi, rfl⟩ := List.getElem?_eq_some_iff.mp hmessage
      simp only [System.finish, harrival, hsome, herased, Option.toList_some]
      have hback : (s.mailbox.scanList.eraseIdx i ++ (s.removed ++ [s.mailbox.scanList[i]])).Perm
          (s.mailbox.scanList ++ s.removed) := by
        refine List.perm_append_comm.trans ?_
        rw [List.append_assoc, List.singleton_append]
        exact ((List.getElem_cons_eraseIdx_perm hi).append_left _).trans List.perm_append_comm
      rw [List.append_assoc]
      refine (hback.append_left _).trans ?_
      rwa [← List.append_assoc]
  · intro p
    simpa [System.finish, harrival] using hordered p
  · rcases hscan with ⟨_, hsame⟩ | ⟨i, _, _, _, herased⟩
    · simpa [System.finish, hsame] using hkept
    · simp only [System.finish, herased]
      exact (List.eraseIdx_sublist _ _).trans hkept

theorem call (h : Delivered s) (operation : Operation K (Message M)) :
    Delivered (s.call operation) := by
  unfold System.call
  split
  next => exact ⟨h.conserved, h.ordered, h.kept, h.bound⟩
  next hdrains => exact h.finish operation (.inl (by simpa using hdrains))

theorem pop (h : Delivered s) (operation : Operation K (Message M)) :
    Delivered (s.pop operation) := by
  unfold System.pop
  split
  next message rest harrival =>
    obtain ⟨hconserved, hordered, hkept, hbound⟩ := h
    rw [harrival] at hconserved
    refine ⟨?_, ?_, hkept.append_right _, ?_⟩
    · have hmove : (rest ++ (s.mailbox.scanList ++ [message]) ++ s.removed).Perm
          (message :: rest ++ s.mailbox.scanList ++ s.removed) := by
        refine List.Perm.append_right _ ?_
        rw [← List.append_assoc, ← List.singleton_append (l := rest), List.append_assoc [message]]
        exact List.perm_append_comm
      exact hmove.trans hconserved
    · intro p
      have hp := hordered p
      rw [harrival, ← List.singleton_append, fromSender_append] at hp
      simpa using hp
    · simp only [List.length_append]
      omega
  next harrival => exact h.finish operation (.inr harrival)

theorem step (h : Delivered s) (event : Event K M) : Delivered (s.step event) := by
  cases event with
  | send sender content copied =>
    cases copied with
    | true => exact h.send sender content
    | false => exact h
  | pushOwned content =>
    simp only [System.step]
    split
    next => exact h.pushOwned content
    next => exact h
  | call operation =>
    simp only [System.step]
    split
    next => exact h.call operation
    next => exact h
  | pop =>
    simp only [System.step]
    split
    next => exact h
    next operation _ => exact h.pop operation

end Delivered

inductive Action (K M : Type)
  | enqueueCopied (message : M)
  | pushOwned (message : M)
  | perform (operation : Operation K M)

/-- One action on a mailbox, with the message it takes out. -/
def Mailbox.act [BEq K] (m : Mailbox K M) : Action K M → Option M × Mailbox K M
  | .enqueueCopied message => (none, m.enqueueCopied message)
  | .pushOwned message => (none, m.pushOwned message)
  | .perform operation => operation.apply m

/-- The messages that the actions take out, and the mailbox after them. -/
def Mailbox.acts [BEq K] (m : Mailbox K M) : List (Action K M) → List M × Mailbox K M
  | [] => ([], m)
  | a :: rest => (((m.act a).1.toList ++ ((m.act a).2.acts rest).1), ((m.act a).2.acts rest).2)

/-- The message that an action puts in. -/
def Action.message : Action K M → Option M
  | .enqueueCopied message => some message
  | .pushOwned message => some message
  | .perform _ => none

theorem Mailbox.acts_append [BEq K] (m : Mailbox K M) (first later : List (Action K M)) :
    m.acts (first ++ later) =
      ((m.acts first).1 ++ ((m.acts first).2.acts later).1, ((m.acts first).2.acts later).2) := by
  induction first generalizing m with
  | nil => rfl
  | cons a first ih => simp [acts, ih]

/-- The mailbox as it was when the running operation started, with the pushes since. -/
structure Begun [BEq K] (s : System K M) (m : Mailbox K (Message M)) : Prop where
  popped : ∃ popped, s.mailbox.scanList = m.scanList ++ popped ∧
    m.arrival = popped ++ s.mailbox.arrival ∧ (s.running = none → popped = [])
  savePointer : s.mailbox.savePointer = m.savePointer
  recvMarker : s.mailbox.recvMarker = m.recvMarker
  running : ∀ operation, s.running = some operation → operation.drains m = true

namespace Begun

variable [BEq K] {s : System K M} {m : Mailbox K (Message M)}

theorem mailbox_eq (h : Begun s m) (hidle : s.running = none) : s.mailbox = m := by
  obtain ⟨⟨popped, hscan, harrival, hnone⟩, hpointer, hmarker, -⟩ := h
  rw [hnone hidle] at hscan harrival
  cases hs : s.mailbox
  cases m
  simp_all

theorem of_idle {s : System K M} (hidle : s.running = none) : Begun s s.mailbox :=
  ⟨⟨[], by simp, rfl, fun _ => rfl⟩, rfl, rfl, by simp [hidle]⟩

theorem send (h : Begun s m) (sender : ℕ) (content : M) :
    Begun (s.send sender content) (m.enqueueCopied ⟨some sender, content⟩) := by
  obtain ⟨⟨popped, hscan, harrival, hnone⟩, hpointer, hmarker, hrunning⟩ := h
  refine ⟨⟨popped, hscan, ?_, hnone⟩, hpointer, hmarker, ?_⟩
  · simp [Mailbox.enqueueCopied, System.send, harrival]
  · intro operation hop
    have hdrains := hrunning operation hop
    cases operation <;> exact hdrains

/-- Nothing is put in or taken out besides what the actions say. -/
structure Matches (s t : System K M) (m : Mailbox K (Message M))
    (actions : List (Action K (Message M))) : Prop where
  begun : Begun t (m.acts actions).2
  removed : t.removed = s.removed ++ (m.acts actions).1
  sent : t.sent = s.sent ++ actions.filterMap Action.message

theorem Matches.idle (h : Begun s m) : Matches s s m [] := ⟨h, by simp [Mailbox.acts], by simp⟩

/-- The actions that match one event. -/
theorem step (h : Begun s m) (event : Event K M) :
    ∃ actions, Matches s (s.step event) m actions := by
  cases event with
  | send sender content copied =>
    cases copied with
    | true =>
      exact ⟨[.enqueueCopied ⟨some sender, content⟩], h.send sender content,
        by simp [Mailbox.acts, Mailbox.act, System.step, System.send], rfl⟩
    | false => exact ⟨[], .idle h⟩
  | pushOwned content =>
    cases hrunning : s.running with
    | some operation => exact ⟨[], by simpa [System.step, hrunning] using Matches.idle h⟩
    | none =>
      have hm := h.mailbox_eq hrunning
      subst hm
      simp only [System.step, hrunning]
      exact ⟨[.pushOwned ⟨none, content⟩], of_idle (s := s.pushOwned content) hrunning,
        by simp [Mailbox.acts, Mailbox.act, System.pushOwned], rfl⟩
  | call operation =>
    cases hrunning : s.running with
    | some other => exact ⟨[], by simpa [System.step, hrunning] using Matches.idle h⟩
    | none =>
      have hm := h.mailbox_eq hrunning
      subst hm
      simp only [System.step, hrunning, System.call]
      split
      next hdrains =>
        refine ⟨[], ⟨⟨[], by simp [Mailbox.acts], rfl, nofun⟩, rfl, rfl, ?_⟩,
          by simp [Mailbox.acts], by simp⟩
        intro other hother
        cases hother
        exact hdrains
      next =>
        exact ⟨[.perform operation], of_idle (s := s.finish operation) rfl,
          by simp [Mailbox.acts, Mailbox.act, System.finish],
          by simp [Action.message, System.finish]⟩
  | pop =>
    cases hrunning : s.running with
    | none => exact ⟨[], by simpa [System.step, hrunning] using Matches.idle h⟩
    | some operation =>
      obtain ⟨⟨popped, hscan, harrival, -⟩, hpointer, hmarker, hdrains⟩ := h
      simp only [System.step, hrunning, System.pop]
      split
      next message rest hqueue =>
        refine ⟨[], ⟨⟨popped ++ [message], ?_, ?_, by simp⟩, hpointer, hmarker, ?_⟩,
          by simp [Mailbox.acts], by simp⟩
        · simp [Mailbox.acts, hscan]
        · simp [Mailbox.acts, harrival, hqueue]
        · intro other hother
          exact hdrains other (hrunning ▸ hother)
      next hqueue =>
        -- The loop has moved everything: the mailbox is the drained one.
        have hdrained : m.drainArrival = s.mailbox := by
          rw [hqueue, List.append_nil] at harrival
          cases hs : s.mailbox
          cases m
          simp_all [Mailbox.drainArrival]
        have happly : operation.apply s.mailbox = operation.apply m := by
          rw [← hdrained]
          exact Operation.apply_drainArrival (hdrains operation hrunning)
        have hend := of_idle (s := s.finish operation) rfl
        exact ⟨[.perform operation], by simpa [System.finish, happly, Mailbox.act, Mailbox.acts]
          using hend, by simp [System.finish, happly, Mailbox.act, Mailbox.acts],
          by simp [System.finish, Action.message]⟩

end Begun

end Beamr.Messaging
