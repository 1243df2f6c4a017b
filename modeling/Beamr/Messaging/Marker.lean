import Beamr.Interpreter.Basic
import Beamr.Lib.Runs
import Beamr.Messaging.Interleaving
import Beamr.Term.Order

/-!
# Receive markers

A marker is reserved before a reference is made, bound to the reference, and used by the receive
that waits for an answer carrying the reference, so that messages from before the reference are
not scanned. It is a position of the scan list, and taking a message out shifts the positions
behind it.
-/
namespace Beamr.Messaging

open Interpreter Term

/-- Terms compare by exact equality. -/
instance : BEq Value := ⟨exactEq⟩

instance : ReflBEq Value := ⟨fun {v} => by
  change (exactCmp v v == .eq) = true
  rw [beq_iff_eq]
  exact exactCmp_preorderOn.refl trivial⟩

/-! ## Handlers -/

section

variable {M : Type}

def smallInt? (value : ℤ) : Option Value :=
  if h : -(2 ^ 60) ≤ value ∧ value < 2 ^ 60 then some (.number (.smallInt (.ofRange value h)))
  else none

def asSmallInt : Value → Option ℤ
  | .number (.smallInt n) => some n.value
  | _ => none

def okOrBadarg {α : Type} : Option α → Except ExecError α
  | some a => .ok a
  | none => .error .badarg

def recvMarkerReserve (m : Mailbox Value M) : Except ExecError (Value × Mailbox Value M) := do
  let (marker, m) := m.reserveSaveMarker
  let marker ← okOrBadarg (smallInt? marker)
  return (marker, m)

def markerPosition (marker : Value) : Except ExecError ℕ := do
  let value ← okOrBadarg (asSmallInt marker)
  if 0 ≤ value then return value.toNat
  else throw .badarg

def recvMarkerBind (m : Mailbox Value M) (marker reference : Value) :
    Except ExecError (Mailbox Value M) := do
  let position ← markerPosition marker
  return m.bindRecvMarker reference position

/-- A value that is not bound has to be a position itself. -/
def recvMarkerUse (m : Mailbox Value M) (value : Value) : Except ExecError (Mailbox Value M) :=
  match m.useRecvMarker value with
  | (true, m) => .ok m
  | (false, m) => (markerPosition value).map m.setSavePointer

end

/-! ## Runs with arrival numbers -/

/-- A message with the number of messages that came before it. -/
structure Arrived (M : Type) where
  number : ℕ
  content : M

structure Clocked (M : Type) where
  mailbox : Mailbox Value (Arrived M)
  clock : ℕ

/-- What happens to a mailbox between the marker instructions. -/
inductive Turn (M : Type)
  | arrive (content : M)
  | pushOwned (content : M)
  | perform (operation : Operation Value (Arrived M))

variable {M : Type}

namespace Turn

def action (clock : ℕ) : Turn M → Action Value (Arrived M)
  | .arrive content => .enqueueCopied ⟨clock, content⟩
  | .pushOwned content => .pushOwned ⟨clock, content⟩
  | .perform operation => .perform operation

def ticks : Turn M → ℕ
  | .perform _ => 0
  | _ => 1

/-- The turn neither binds a marker nor clears this one. -/
def keepsMarker (key : Value) : Turn M → Prop
  | .perform (.bindRecvMarker _ _) => False
  | .perform (.clearRecvMarker other) => (key == other) = false
  | _ => True

end Turn

namespace Clocked

def start (M : Type) : Clocked M := ⟨.new, 0⟩

def step (s : Clocked M) (turn : Turn M) : Clocked M :=
  ⟨(s.mailbox.act (turn.action s.clock)).2, s.clock + turn.ticks⟩

/-- A turn that takes out a message from before `r`. -/
def TakesEarlier (r : ℕ) (s : Clocked M) (turn : Turn M) : Prop :=
  ∃ x, (s.mailbox.act (turn.action s.clock)).1 = some x ∧ x.number < r

/-- No message from `r` on is in the mailbox. -/
def NoLater (r : ℕ) (s : Clocked M) : Prop :=
  ∀ x ∈ s.mailbox.scanList ++ s.mailbox.arrival, x.number < r

def earlierCount (r : ℕ) (s : Clocked M) : ℕ :=
  s.mailbox.scanList.countP fun x => x.number < r

end Clocked

/-! ## Messages from before and after the reserve -/

/-- The messages from before `r` come first, and all of them are on the scan list. -/
structure Divided (r : ℕ) (m : Mailbox Value (Arrived M)) : Prop where
  scanList : ∃ earlier later, m.scanList = earlier ++ later ∧ (∀ x ∈ earlier, x.number < r) ∧
    ∀ x ∈ later, r ≤ x.number
  arrival : ∀ x ∈ m.arrival, r ≤ x.number
  bound : m.savePointer ≤ m.scanList.length

namespace Divided

variable {r : ℕ} {m : Mailbox Value (Arrived M)}

theorem drainArrival (h : Divided r m) : Divided r m.drainArrival := by
  obtain ⟨⟨earlier, later, hscan, hearlier, hlater⟩, harrival, hbound⟩ := h
  refine ⟨⟨earlier, later ++ m.arrival, ?_, hearlier, ?_⟩, by simp [Mailbox.drainArrival], ?_⟩
  · simp [Mailbox.drainArrival, hscan]
  · intro x hx
    exact (List.mem_append.mp hx).elim (hlater x) (harrival x)
  · simp only [Mailbox.drainArrival, List.length_append]
    omega

theorem eraseIdx (h : Divided r m) (i : ℕ) :
    ∃ earlier later, m.scanList.eraseIdx i = earlier ++ later ∧ (∀ x ∈ earlier, x.number < r) ∧
      ∀ x ∈ later, r ≤ x.number := by
  obtain ⟨earlier, later, hscan, hearlier, hlater⟩ := h.scanList
  rw [hscan]
  by_cases hi : i < earlier.length
  · rw [List.eraseIdx_append_of_lt_length hi]
    exact ⟨_, later, rfl, fun x hx => hearlier x (List.mem_of_mem_eraseIdx hx), hlater⟩
  · rw [List.eraseIdx_append_of_length_le (not_lt.mp hi)]
    exact ⟨earlier, _, rfl, hearlier, fun x hx => hlater x (List.mem_of_mem_eraseIdx hx)⟩

theorem takes (h : Divided r m) {result : Option (Arrived M) × Mailbox Value (Arrived M)}
    (htakes : Takes m result) : Divided r result.2 := by
  obtain ⟨harrival, hbound, hscan⟩ := htakes
  refine ⟨?_, fun x hx => h.arrival x (harrival ▸ hx), hbound⟩
  rcases hscan with ⟨-, hsame⟩ | ⟨i, _, _, _, herased⟩
  · rw [hsame]
    exact h.scanList
  · rw [herased]
    exact h.eraseIdx i

/-- Only a message from before `r` that is taken out changes their number. -/
theorem countP_takes {result : Option (Arrived M) × Mailbox Value (Arrived M)}
    (htakes : Takes m result) :
    m.scanList.countP (fun x => x.number < r) =
      result.2.scanList.countP (fun x => x.number < r) +
        (result.1.toList.countP fun x => x.number < r) := by
  rcases htakes.scanList with ⟨hnone, hsame⟩ | ⟨i, x, hx, hsome, herased⟩
  · simp [hnone, hsame]
  · obtain ⟨hi, rfl⟩ := List.getElem?_eq_some_iff.mp hx
    have hperm := (List.getElem_cons_eraseIdx_perm hi).countP_eq fun x => x.number < r
    rw [hsome, herased, ← hperm, List.countP_cons]
    simp [List.countP_cons]

theorem exists_takes (h : Divided r m) (operation : Operation Value (Arrived M)) :
    ∃ m', Divided r m' ∧ Takes m' (operation.apply m) ∧
      m'.scanList.countP (fun x => x.number < r) = m.scanList.countP fun x => x.number < r := by
  obtain ⟨m', hm', htakes⟩ := operation.exists_takes h.bound
  rcases hm' with rfl | rfl
  · exact ⟨_, h, htakes, rfl⟩
  · refine ⟨_, h.drainArrival, htakes, ?_⟩
    have hnone : m.arrival.countP (fun x => x.number < r) = 0 := by
      rw [List.countP_eq_zero]
      intro x hx
      simpa using h.arrival x hx
    simp [Mailbox.drainArrival, hnone]

/-- Where a use of the marker leaves the save pointer, against the first later message. -/
theorem setSavePointer_le_iff (h : Divided r m) (marker : ℕ) :
    (∀ i x, (m.setSavePointer marker).scanList[i]? = some x → r ≤ x.number →
      (m.setSavePointer marker).savePointer ≤ i) ↔
    (∀ x ∈ m.scanList ++ m.arrival, x.number < r) ∨
      marker ≤ m.scanList.countP fun x => x.number < r := by
  obtain ⟨⟨earlier, later, hscan, hearlier, hlater⟩, harrival, -⟩ := h
  have hcount : m.scanList.countP (fun x => x.number < r) = earlier.length := by
    have hall : earlier.countP (fun x => x.number < r) = earlier.length := by
      rw [List.countP_eq_length]
      simpa using hearlier
    have hnone : later.countP (fun x => x.number < r) = 0 := by
      rw [List.countP_eq_zero]
      simpa using hlater
    rw [hscan, List.countP_append, hall, hnone, Nat.add_zero]
  have hafter : ∀ x ∈ later ++ m.arrival, r ≤ x.number := by
    intro x hx
    exact (List.mem_append.mp hx).elim (hlater x) (harrival x)
  rw [hcount]
  simp only [Mailbox.setSavePointer, Mailbox.drainArrival, hscan, List.append_assoc]
  generalize later ++ m.arrival = tail at hafter
  constructor
  · intro hle
    cases tail with
    | nil =>
      left
      simpa using hearlier
    | cons x rest =>
      right
      have hfirst := hle earlier.length x (by simp) (hafter x List.mem_cons_self)
      simp only [List.length_append, List.length_cons] at hfirst
      omega
  · rintro (hnone | hmarker) i x hx hr
    · have := hnone x (List.mem_of_getElem? hx)
      omega
    · have hi : earlier.length ≤ i := by
        by_contra hlt
        rw [List.getElem?_append_left (not_le.mp hlt)] at hx
        have := hearlier x (List.mem_of_getElem? hx)
        omega
      omega

end Divided

/-! ## Steps and runs -/

/-- The state some time after the reserve at `r`. -/
structure Since (r : ℕ) (s : Clocked M) : Prop where
  divided : Divided r s.mailbox
  clock : r ≤ s.clock

namespace Since

variable {r : ℕ} {s : Clocked M}

theorem step (h : Since r s) (turn : Turn M) : Since r (s.step turn) := by
  obtain ⟨hdivided, hclock⟩ := h
  refine ⟨?_, hclock.trans (Nat.le_add_right _ _)⟩
  cases turn with
  | arrive content =>
    refine ⟨hdivided.scanList, ?_, hdivided.bound⟩
    intro x hx
    rcases List.mem_append.mp hx with hold | hnew
    · exact hdivided.arrival x hold
    · rw [List.mem_singleton.mp hnew]
      exact hclock
  | pushOwned content =>
    obtain ⟨⟨earlier, later, hscan, hearlier, hlater⟩, harrival, hbound⟩ := hdivided
    refine ⟨⟨earlier, later ++ [⟨s.clock, content⟩], ?_, hearlier, ?_⟩, harrival, ?_⟩
    · simp [Clocked.step, Turn.action, Mailbox.act, Mailbox.pushOwned, hscan]
    · intro x hx
      rcases List.mem_append.mp hx with hold | hnew
      · exact hlater x hold
      · rw [List.mem_singleton.mp hnew]
        exact hclock
    · simp only [Clocked.step, Turn.action, Mailbox.act, Mailbox.pushOwned, List.length_append]
      omega
  | perform operation =>
    obtain ⟨m', hm', htakes, -⟩ := hdivided.exists_takes operation
    exact hm'.takes htakes

/-- A turn takes out at most one message from before `r`. -/
theorem earlierCount_step (h : Since r s) (turn : Turn M) :
    (s.step turn).earlierCount r ≤ s.earlierCount r ∧
      ((s.step turn).earlierCount r = s.earlierCount r ↔ ¬ s.TakesEarlier r turn) := by
  cases turn with
  | arrive content =>
    refine ⟨le_rfl, iff_of_true rfl ?_⟩
    rintro ⟨_, hnone, _⟩
    cases hnone
  | pushOwned content =>
    have hclock := h.clock
    have hsame : (s.step (.pushOwned content)).earlierCount r = s.earlierCount r := by
      simp [Clocked.earlierCount, Clocked.step, Turn.action, Mailbox.act, Mailbox.pushOwned,
        hclock]
    refine ⟨hsame.le, iff_of_true hsame ?_⟩
    rintro ⟨_, hnone, _⟩
    cases hnone
  | perform operation =>
    obtain ⟨m', -, htakes, hcount⟩ := h.divided.exists_takes operation
    have hsum := Divided.countP_takes (r := r) htakes
    rw [hcount] at hsum
    have hafter : (s.step (.perform operation)).earlierCount r =
        (operation.apply s.mailbox).2.scanList.countP fun x => x.number < r := rfl
    have htaken : s.TakesEarlier r (.perform operation) ↔
        ((operation.apply s.mailbox).1.toList.countP fun x => x.number < r) ≠ 0 := by
      unfold Clocked.TakesEarlier
      rw [← Nat.pos_iff_ne_zero, List.countP_pos_iff]
      simp [Turn.action, Mailbox.act]
    rw [htaken, not_not, hafter, Clocked.earlierCount, hsum]
    omega

theorem run (h : Since r s) (turns : List (Turn M)) : Since r (turns.foldl Clocked.step s) := by
  induction turns generalizing s with
  | nil => exact h
  | cons turn rest ih => exact ih (h.step turn)

theorem earlierCount_run (h : Since r s) (turns : List (Turn M)) :
    (turns.foldl Clocked.step s).earlierCount r ≤ s.earlierCount r ∧
      ((turns.foldl Clocked.step s).earlierCount r = s.earlierCount r ↔
        Runs.Meets Clocked.step (fun s turn => ¬ s.TakesEarlier r turn) s turns) :=
  Runs.measure_eq_iff (I := Since r) (fun _ turn hs => hs.step turn)
    (fun _ turn hs => (hs.earlierCount_step turn).1)
    (fun _ turn hs => (hs.earlierCount_step turn).2) h turns

end Since

/-- A bound marker stays until it is cleared or another is bound. -/
theorem recvMarker_step {key : Value} {marker : ℕ} {s : Clocked M} {turn : Turn M}
    (h : s.mailbox.recvMarker = some (key, marker)) (hkeeps : turn.keepsMarker key) :
    (s.step turn).mailbox.recvMarker = some (key, marker) := by
  cases turn with
  | arrive content => exact h
  | pushOwned content => exact h
  | perform operation =>
    cases operation with
    | removeCurrentMessage =>
      simp only [Clocked.step, Turn.action, Mailbox.act, Operation.apply,
        Mailbox.removeCurrentMessage]
      split <;> exact h
    | bindRecvMarker other position => exact hkeeps.elim
    | useRecvMarker other =>
      simp only [Clocked.step, Turn.action, Mailbox.act, Operation.apply, Mailbox.useRecvMarker, h]
      split <;> exact h
    | clearRecvMarker other =>
      have hother : (key == other) = false := hkeeps
      simp [Clocked.step, Turn.action, Mailbox.act, Operation.apply, Mailbox.clearRecvMarker, h,
        hother]
    | receive accepts =>
      simp only [Clocked.step, Turn.action, Mailbox.act, Operation.apply, Mailbox.receive]
      split <;> exact h
    | _ => exact h

theorem recvMarker_run {key : Value} {marker : ℕ} {s : Clocked M} {turns : List (Turn M)}
    (h : s.mailbox.recvMarker = some (key, marker))
    (hkeeps : ∀ turn ∈ turns, turn.keepsMarker key) :
    (turns.foldl Clocked.step s).mailbox.recvMarker = some (key, marker) := by
  induction turns generalizing s with
  | nil => exact h
  | cons turn rest ih =>
    obtain ⟨hturn, hrest⟩ := List.forall_mem_cons.mp hkeeps
    exact ih (recvMarker_step h hturn) hrest

/-- Binding a marker drains and moves nothing. -/
theorem Since.bindRecvMarker {r : ℕ} {s : Clocked M} (h : Since r s) (key : Value) (n : ℕ) :
    Since r { s with mailbox := s.mailbox.bindRecvMarker key n } ∧
      Clocked.earlierCount r { s with mailbox := s.mailbox.bindRecvMarker key n } =
        s.earlierCount r := by
  obtain ⟨hdivided, hclock⟩ := h
  have hdrained := hdivided.drainArrival
  refine ⟨⟨⟨hdrained.scanList, hdrained.arrival, hdrained.bound⟩, hclock⟩, ?_⟩
  have hnone : s.mailbox.arrival.countP (fun x => x.number < r) = 0 := by
    rw [List.countP_eq_zero]
    intro x hx
    simpa using hdivided.arrival x hx
  simp [Clocked.earlierCount, Mailbox.bindRecvMarker, Mailbox.drainArrival, hnone]

theorem Since.noLater_iff {r : ℕ} {s : Clocked M} (h : Since r s) :
    s.earlierCount r ≤ s.mailbox.drainArrival.scanList.length ∧
      (s.NoLater r ↔ s.mailbox.drainArrival.scanList.length = s.earlierCount r) := by
  have hnone : s.mailbox.arrival.countP (fun x => x.number < r) = 0 := by
    rw [List.countP_eq_zero]
    intro x hx
    simpa using h.divided.arrival x hx
  have hcount : s.mailbox.drainArrival.scanList.countP (fun x => x.number < r) =
      s.earlierCount r := by
    simp [Mailbox.drainArrival, hnone, Clocked.earlierCount]
  rw [← hcount]
  refine ⟨List.countP_le_length, ?_⟩
  rw [eq_comm, List.countP_eq_length]
  simp [Clocked.NoLater, Mailbox.drainArrival]

/-- All messages came before the clock. -/
structure Numbered (s : Clocked M) : Prop where
  number : ∀ x ∈ s.mailbox.scanList ++ s.mailbox.arrival, x.number < s.clock
  bound : s.mailbox.savePointer ≤ s.mailbox.scanList.length

namespace Numbered

variable {s : Clocked M}

theorem step (h : Numbered s) (turn : Turn M) : Numbered (s.step turn) := by
  obtain ⟨hnumber, hbound⟩ := h
  -- A new message gets the number the clock showed.
  have hnew : ∀ xs : List (Arrived M), (∀ x ∈ xs, x ∈ s.mailbox.scanList ++ s.mailbox.arrival ∨
      x.number = s.clock) → ∀ x ∈ xs, x.number < s.clock + 1 := by
    intro xs hxs x hx
    rcases hxs x hx with hold | hclock
    · exact Nat.lt_succ_of_lt (hnumber x hold)
    · exact hclock ▸ Nat.lt_succ_self _
  cases turn with
  | arrive content =>
    refine ⟨hnew _ ?_, hbound⟩
    intro x hx
    simp only [Clocked.step, Turn.action, Mailbox.act, Mailbox.enqueueCopied, List.mem_append,
      List.mem_singleton] at hx ⊢
    rcases hx with hscan | harrival | rfl
    · exact .inl (.inl hscan)
    · exact .inl (.inr harrival)
    · exact .inr rfl
  | pushOwned content =>
    refine ⟨hnew _ ?_, ?_⟩
    · intro x hx
      simp only [Clocked.step, Turn.action, Mailbox.act, Mailbox.pushOwned, List.mem_append,
        List.mem_singleton] at hx ⊢
      rcases hx with (hscan | rfl) | harrival
      · exact .inl (.inl hscan)
      · exact .inr rfl
      · exact .inl (.inr harrival)
    · simp only [Clocked.step, Turn.action, Mailbox.act, Mailbox.pushOwned, List.length_append]
      omega
  | perform operation =>
    obtain ⟨m', hm', harrival, hpointer, hscan⟩ := operation.exists_takes hbound
    refine ⟨?_, hpointer⟩
    have hsame : ∀ x ∈ m'.scanList ++ m'.arrival, x.number < s.clock := by
      rcases hm' with rfl | rfl
      · exact hnumber
      · simpa [Mailbox.drainArrival] using hnumber
    have hsublist : (operation.apply s.mailbox).2.scanList.Sublist m'.scanList := by
      rcases hscan with ⟨-, heq⟩ | ⟨i, _, _, _, herased⟩
      · rw [heq]
      · rw [herased]
        exact List.eraseIdx_sublist _ _
    intro x hx
    rcases List.mem_append.mp hx with hx | hx
    · exact hsame x (List.mem_append_left _ (hsublist.mem hx))
    · exact hsame x (List.mem_append_right _ (harrival ▸ hx))

theorem run (turns : List (Turn M)) : Numbered (turns.foldl Clocked.step (.start M)) := by
  suffices hrun : ∀ s : Clocked M, Numbered s → Numbered (turns.foldl Clocked.step s) from
    hrun _ ⟨nofun, Nat.le_refl _⟩
  induction turns with
  | nil => exact fun _ h => h
  | cons turn rest ih => exact fun s h => ih _ (h.step turn)

/-- At the reserve all messages are on the scan list, and all are from before. -/
theorem reserve (h : Numbered s) : Since s.clock { s with mailbox := s.mailbox.drainArrival } ∧
    Clocked.earlierCount s.clock { s with mailbox := s.mailbox.drainArrival } =
      s.mailbox.drainArrival.scanList.length := by
  obtain ⟨hnumber, hbound⟩ := h
  refine ⟨⟨⟨⟨s.mailbox.scanList ++ s.mailbox.arrival, [], ?_, hnumber, nofun⟩, nofun, ?_⟩,
    le_rfl⟩, ?_⟩
  · simp [Mailbox.drainArrival]
  · simp only [Mailbox.drainArrival, List.length_append]
    omega
  · rw [Clocked.earlierCount, List.countP_eq_length]
    simpa [Mailbox.drainArrival] using hnumber

end Numbered

theorem asSmallInt_eq_some {value : ℤ} {w : Value} (h : smallInt? value = some w) :
    asSmallInt w = some value := by
  unfold smallInt? at h
  split at h
  next hrange =>
    rw [← Option.some.inj h]
    rfl
  next => cases h

theorem markerPosition_eq {mark : Value} {n : ℕ} (h : asSmallInt mark = some (n : ℤ)) :
    markerPosition mark = .ok n := by
  have hnonneg : (0 : ℤ) ≤ n := Int.natCast_nonneg n
  simp only [markerPosition, h, okOrBadarg, bind, Except.bind, if_pos hnonneg, Int.toNat_natCast]
  rfl

theorem recvMarkerReserve_ok {m m' : Mailbox Value (Arrived M)} {mark : Value}
    (h : recvMarkerReserve m = .ok (mark, m')) :
    m' = m.drainArrival ∧ markerPosition mark = .ok m.drainArrival.scanList.length := by
  have hunfold : recvMarkerReserve m = okOrBadarg (smallInt? m.drainArrival.scanList.length) >>=
      fun marker => .ok (marker, m.drainArrival) := rfl
  rw [hunfold] at h
  generalize hcode : smallInt? m.drainArrival.scanList.length = code at h
  cases code with
  | none => cases h
  | some marker =>
    obtain ⟨rfl, rfl⟩ := Prod.mk.inj (Except.ok.inj h)
    exact ⟨rfl, markerPosition_eq (asSmallInt_eq_some hcode)⟩

/-- A marker reserved after any run, bound after more turns and used after yet more leaves the
save pointer at or before the first message that came after the reserve exactly when there is no
such message, or no message from before the reserve was taken out since the bind, and none was
before the bind unless no later message was there to be bound behind. -/
theorem recvMarkerUse_le_iff (M : Type) (before between after : List (Turn M)) (key mark : Value)
    (m : Mailbox Value (Arrived M))
    (hreserve : recvMarkerReserve (before.foldl Clocked.step (.start M)).mailbox = .ok (mark, m))
    (hafter : ∀ turn ∈ after, turn.keepsMarker key) :
    let r := (before.foldl Clocked.step (.start M)).clock
    let reserved : Clocked M := ⟨m, r⟩
    let s₁ := between.foldl Clocked.step reserved
    ∃ bound, recvMarkerBind s₁.mailbox mark key = .ok bound ∧
      let s₂ := after.foldl Clocked.step { s₁ with mailbox := bound }
      ∃ used, recvMarkerUse s₂.mailbox key = .ok used ∧
        ((∀ i x, used.scanList[i]? = some x → r ≤ x.number → used.savePointer ≤ i) ↔
          s₂.NoLater r ∨
          (Runs.Meets Clocked.step (fun s turn => ¬ s.TakesEarlier r turn)
              { s₁ with mailbox := bound } after ∧
            (Runs.Meets Clocked.step (fun s turn => ¬ s.TakesEarlier r turn) reserved between ∨
              s₁.NoLater r))) := by
  intro r reserved s₁
  obtain ⟨rfl, hmark⟩ := recvMarkerReserve_ok hreserve
  obtain ⟨hreserved, hall⟩ := (Numbered.run before).reserve
  have hsince₁ : Since r s₁ := hreserved.run between
  obtain ⟨hle₁, heq₁⟩ := hreserved.earlierCount_run between
  obtain ⟨hlen₁, hnoLater₁⟩ := hsince₁.noLater_iff
  set n := (before.foldl Clocked.step (.start M)).mailbox.drainArrival.scanList.length
  obtain ⟨hsinceBound, hcountBound⟩ := hsince₁.bindRecvMarker key n
  refine ⟨s₁.mailbox.bindRecvMarker key n, by rw [recvMarkerBind, hmark]; rfl, ?_⟩
  intro s₂
  have hsince₂ : Since r s₂ := hsinceBound.run after
  obtain ⟨hle₂, heq₂⟩ := hsinceBound.earlierCount_run after
  have hmarker : s₂.mailbox.recvMarker =
      some (key, min n s₁.mailbox.drainArrival.scanList.length) := recvMarker_run rfl hafter
  refine ⟨s₂.mailbox.setSavePointer (min n s₁.mailbox.drainArrival.scanList.length), ?_, ?_⟩
  · simp [recvMarkerUse, Mailbox.useRecvMarker, hmarker, bne]
  · have hposition : min n s₁.mailbox.drainArrival.scanList.length ≤ s₂.earlierCount r ↔
        s₂.earlierCount r = s₁.earlierCount r ∧ (s₁.earlierCount r = n ∨
          s₁.mailbox.drainArrival.scanList.length = s₁.earlierCount r) := by
      have hfewer₂ : s₂.earlierCount r ≤ s₁.earlierCount r := hcountBound ▸ hle₂
      have hfewer₁ : s₁.earlierCount r ≤ n := hall ▸ hle₁
      omega
    rw [hsince₂.divided.setSavePointer_le_iff, ← heq₂, hcountBound, ← heq₁, hall, hnoLater₁]
    exact or_congr_right hposition

theorem exists_recvMarkerReserve (m : Mailbox Value (Arrived M))
    (h : (m.drainArrival.scanList.length : ℤ) < 2 ^ 60) :
    ∃ mark, recvMarkerReserve m = .ok (mark, m.drainArrival) ∧
      markerPosition mark = .ok m.drainArrival.scanList.length := by
  have hlow : -(2 ^ 60) ≤ (m.drainArrival.scanList.length : ℤ) := by omega
  have hreserve : recvMarkerReserve m = okOrBadarg (smallInt? m.drainArrival.scanList.length) >>=
      fun marker => .ok (marker, m.drainArrival) := rfl
  rw [smallInt?, dif_pos ⟨hlow, h⟩] at hreserve
  exact ⟨_, hreserve, (recvMarkerReserve_ok hreserve).2⟩

/-- Nothing is taken out between the reserve and the use. -/
theorem recvMarkerUse_le_reply :
    let s := Clocked.step (.start Unit) (.arrive ())
    let key : Value := .reference (.local 7)
    ∃ mark m bound used, recvMarkerReserve s.mailbox = .ok (mark, m) ∧
      recvMarkerBind m mark key = .ok bound ∧
      recvMarkerUse (Clocked.step ⟨bound, s.clock⟩ (.arrive ())).mailbox key = .ok used ∧
      ∀ i x, used.scanList[i]? = some x → s.clock ≤ x.number → used.savePointer ≤ i := by
  intro s key
  obtain ⟨mark, hreserve, -⟩ := exists_recvMarkerReserve s.mailbox (by decide)
  obtain ⟨bound, hbind, used, huse, hiff⟩ := recvMarkerUse_le_iff Unit [.arrive ()] []
    [.arrive ()] key _ _ hreserve (by simp [Turn.keepsMarker])
  refine ⟨_, _, bound, used, hreserve, hbind, huse, hiff.mpr (.inr ⟨⟨?_, trivial⟩, .inl trivial⟩)⟩
  rintro ⟨x, hnone, -⟩
  cases hnone

/-- An old message is taken out before the use, and the save pointer is past the new one. -/
theorem not_recvMarkerUse_le :
    let s := Clocked.step (.start Unit) (.arrive ())
    let key : Value := .reference (.local 7)
    ∃ mark m bound used, recvMarkerReserve s.mailbox = .ok (mark, m) ∧
      recvMarkerBind m mark key = .ok bound ∧
      recvMarkerUse (((Clocked.step ⟨bound, s.clock⟩ (.arrive ())).step
        (.perform .removeCurrentMessage)).mailbox) key = .ok used ∧
      ¬ ∀ i x, used.scanList[i]? = some x → s.clock ≤ x.number → used.savePointer ≤ i := by
  intro s key
  obtain ⟨mark, hreserve, hmark⟩ := exists_recvMarkerReserve s.mailbox (by decide)
  refine ⟨mark, s.mailbox.drainArrival, s.mailbox.drainArrival.bindRecvMarker key 1,
    ⟨[], [⟨1, ()⟩], 1, some (key, 1)⟩, hreserve, ?_, rfl, ?_⟩
  · rw [recvMarkerBind, hmark]
    rfl
  · intro h
    have hle : 1 ≤ 0 := h 0 ⟨1, ()⟩ rfl (Nat.le_refl 1)
    omega

end Beamr.Messaging
