import Beamr.Lib.Refill
import Beamr.Process.Heap

/-!
# Roots of a process

The fields of a process that hold terms, the ordered snapshot the collector rewrites and the
write-back of the rewritten snapshot.
-/
namespace Beamr

def xRegCount : ℕ := 1024

structure Exception where
  cls : Term
  reason : Term
  stacktrace : Term
  deriving DecidableEq, Repr

/-- The terms of a mailbox; `recvMarker` is a bound key with its position. -/
structure Mailbox where
  arrival : List Term
  scanList : List Term
  savePointer : ℕ
  recvMarker : Option (Term × ℕ)
  deriving DecidableEq, Repr

def Mailbox.drainArrival (m : Mailbox) : Mailbox :=
  { m with arrival := [], scanList := m.scanList ++ m.arrival }

/-! ## Native continuations -/

inductive MapsHofState
  | fold (f : Term) (entries : List (Term × Term)) (index : ℕ)
  | filter (f : Term) (entries : List (Term × Term)) (index : ℕ) (kept : List (Term × Term))
  | map (f : Term) (entries : List (Term × Term)) (index : ℕ) (mapped : List (Term × Term))
  | mergeWith (f : Term) (pending : List (Term × Term × Term)) (entries : List (Term × Term))
      (index : ℕ)
  | updateWith (remaining updated : List (Term × Term))
  deriving DecidableEq, Repr

inductive ListsHofState
  | map (f : Term) (remaining results : List Term)
  | filter (f current : Term) (remaining results : List Term)
  | filterMap (f current : Term) (remaining results : List Term)
  | foreach (f : Term) (remaining : List Term)
  deriving DecidableEq, Repr

structure EtsFoldlState where
  f : Term
  entries : List Term
  index : ℕ
  deriving DecidableEq, Repr

inductive NativeContinuation
  | maps (state : MapsHofState)
  | lists (state : ListsHofState)
  | etsFoldl (state : EtsFoldlState)
  | aionTimeout (stateId : ℕ)
  deriving DecidableEq, Repr

def pairTerms (p : Term × Term) : List Term := [p.1, p.2]

def tripleTerms (p : Term × Term × Term) : List Term := [p.1, p.2.1, p.2.2]

/-- Terms of a continuation, in visiting order. -/
def MapsHofState.forEachTerm : MapsHofState → List Term
  | fold f entries _ => f :: entries.flatMap pairTerms
  | filter f entries _ kept => f :: (entries.flatMap pairTerms ++ kept.flatMap pairTerms)
  | map f entries _ mapped => f :: (entries.flatMap pairTerms ++ mapped.flatMap pairTerms)
  | mergeWith f pending entries _ =>
    f :: (pending.flatMap tripleTerms ++ entries.flatMap pairTerms)
  | updateWith remaining updated => remaining.flatMap pairTerms ++ updated.flatMap pairTerms

def ListsHofState.forEachTerm : ListsHofState → List Term
  | map f remaining results => f :: (remaining ++ results)
  | filter f current remaining results => f :: current :: (remaining ++ results)
  | filterMap f current remaining results => f :: current :: (remaining ++ results)
  | foreach f remaining => f :: remaining

def EtsFoldlState.forEachTerm (s : EtsFoldlState) : List Term := s.f :: s.entries

def NativeContinuation.forEachTerm : NativeContinuation → List Term
  | maps state => state.forEachTerm
  | lists state => state.forEachTerm
  | etsFoldl state => state.forEachTerm
  | aionTimeout _ => []

open Refill

def triple (p : Term × Term × Term) : Refill Term (Term × Term × Term) := do
  let a ← slot p.1
  let b ← slot p.2.1
  let c ← slot p.2.2
  pure (a, b, c)

def MapsHofState.forEachTermMut : MapsHofState → Refill Term MapsHofState
  | fold f entries index => do
    let f ← slot f
    let entries ← each pair entries
    pure (fold f entries index)
  | filter f entries index kept => do
    let f ← slot f
    let entries ← each pair entries
    let kept ← each pair kept
    pure (filter f entries index kept)
  | map f entries index mapped => do
    let f ← slot f
    let entries ← each pair entries
    let mapped ← each pair mapped
    pure (map f entries index mapped)
  | mergeWith f pending entries index => do
    let f ← slot f
    let pending ← each triple pending
    let entries ← each pair entries
    pure (mergeWith f pending entries index)
  | updateWith remaining updated => do
    let remaining ← each pair remaining
    let updated ← each pair updated
    pure (updateWith remaining updated)

def ListsHofState.forEachTermMut : ListsHofState → Refill Term ListsHofState
  | map f remaining results => do
    let f ← slot f
    let remaining ← slots remaining
    let results ← slots results
    pure (map f remaining results)
  | filter f current remaining results => do
    let f ← slot f
    let current ← slot current
    let remaining ← slots remaining
    let results ← slots results
    pure (filter f current remaining results)
  | filterMap f current remaining results => do
    let f ← slot f
    let current ← slot current
    let remaining ← slots remaining
    let results ← slots results
    pure (filterMap f current remaining results)
  | foreach f remaining => do
    let f ← slot f
    let remaining ← slots remaining
    pure (foreach f remaining)

def EtsFoldlState.forEachTermMut (s : EtsFoldlState) : Refill Term EtsFoldlState := do
  let f ← slot s.f
  let entries ← slots s.entries
  pure { s with f := f, entries := entries }

def NativeContinuation.forEachTermMut : NativeContinuation → Refill Term NativeContinuation
  | maps state => do pure (maps (← state.forEachTermMut))
  | lists state => do pure (lists (← state.forEachTermMut))
  | etsFoldl state => do pure (etsFoldl (← state.forEachTermMut))
  | aionTimeout stateId => pure (aionTimeout stateId)

/-! ## The process -/

/-- The part of a process that the collector reads or writes. `frames` are the Y registers,
`rawLocations` the location terms of the raw stack trace. -/
structure Process where
  heap : Heap
  virtualBinaryHeap : ℕ
  xRegs : List Term
  xRegs_length : xRegs.length = xRegCount
  frames : List (List Term)
  mailbox : Mailbox
  currentException : Option Exception
  dictionary : List (Term × Term)
  groupLeader : Term
  nativeRoots : List Term
  nativeContinuations : List NativeContinuation
  rawLocations : List Term
  gcAttempts : ℕ
  gcCompletions : ℕ

namespace Process

def exceptionTerms : Option Exception → List Term
  | none => []
  | some e => [e.reason, e.stacktrace]

/-- The order of the snapshot, once the arrival queue is drained. -/
def rootList (p : Process) (liveX : ℕ) : List Term :=
  p.xRegs.take (min liveX xRegCount) ++ p.frames.flatten ++ p.mailbox.scanList ++
    exceptionTerms p.currentException ++ p.dictionary.flatMap pairTerms ++ [p.groupLeader] ++
    p.nativeRoots ++ p.nativeContinuations.flatMap NativeContinuation.forEachTerm

def drainArrival (p : Process) : Process := { p with mailbox := p.mailbox.drainArrival }

/-- Drain the arrival queue and snapshot the live roots. -/
def rootsWithLiveX (p : Process) (liveX : ℕ) : List Term × Process :=
  (p.drainArrival.rootList liveX, p.drainArrival)

def roots (p : Process) : List Term × Process := p.rootsWithLiveX 256

/-- The reason and the stack trace; the class is not visited. -/
def refillException : Option Exception → Refill Term (Option Exception)
  | none => pure none
  | some e => do
    let reason ← slot e.reason
    let stacktrace ← slot e.stacktrace
    pure (some { e with reason := reason, stacktrace := stacktrace })

/-- Writing the first `live` registers from the front of `values`. -/
def refillX (live : ℕ) (xs : List Term) : Refill Term (List Term) := do
  let front ← slots (xs.take live)
  pure (front ++ xs.drop live)

theorem refillX_length (live : ℕ) (xs values : List Term) :
    (refillX live xs values).1.length = xs.length := by
  change ((slots (xs.take live) values).1 ++ xs.drop live).length = _
  rw [List.length_append, slots_length, ← List.length_append, List.take_append_drop]

/-- The slots after the X registers, in order. -/
def refillRest (p : Process) (xs : List Term) (hxs : xs.length = xRegCount) :
    Refill Term Process := do
  let frames ← each slots p.frames
  let scanList ← slots p.mailbox.scanList
  let exception ← refillException p.currentException
  let dictionary ← each pair p.dictionary
  let groupLeader ← slot p.groupLeader
  let nativeRoots ← slots p.nativeRoots
  let continuations ← each NativeContinuation.forEachTermMut p.nativeContinuations
  pure { p with
    xRegs := xs
    xRegs_length := hxs
    frames := frames
    mailbox := { p.mailbox with scanList := scanList }
    currentException := exception
    dictionary := dictionary
    groupLeader := groupLeader
    nativeRoots := nativeRoots
    nativeContinuations := continuations }

/-- Write the rewritten snapshot back, slot by slot in the order it was taken. -/
def replaceRootsWithLiveX (p : Process) (liveX : ℕ) (roots : List Term) : Process :=
  let afterX := refillX (min liveX xRegCount) p.xRegs roots
  (refillRest p afterX.1 (by rw [refillX_length]; exact p.xRegs_length) afterX.2).1

def replaceRoots (p : Process) (roots : List Term) : Process := p.replaceRootsWithLiveX 256 roots

def clearDeadXRegs (p : Process) (liveX : ℕ) : Process :=
  { p with
    xRegs := p.xRegs.take liveX ++ (p.xRegs.drop liveX).map fun _ => .nil
    xRegs_length := by
      rw [List.length_append, List.length_map, ← List.length_append, List.take_append_drop]
      exact p.xRegs_length }

/-- Counters saturate at the width of `u64`. -/
def saturatingSucc (n : ℕ) : ℕ := min (n + 1) (2 ^ 64 - 1)

def noteGcAttempt (p : Process) : Process := { p with gcAttempts := saturatingSucc p.gcAttempts }

def noteGcCompletion (p : Process) : Process :=
  { p with gcCompletions := saturatingSucc p.gcCompletions }

def decreaseVirtualBinaryHeap (p : Process) (bytes : ℕ) : Process :=
  { p with virtualBinaryHeap := p.virtualBinaryHeap - bytes }

/-! ## The write-back inverts the snapshot -/

theorem refills_triple (p : Term × Term × Term) :
    Refills (triple p) 3 fun values q => values = tripleTerms q := by
  refine (Refills.slot p.1).bind (k := 2) fun x a _ ha => ?_
  refine (Refills.slot p.2.1).bind (k := 1) fun y b _ hb => ?_
  refine (Refills.slot p.2.2).bind (k := 0) fun z c _ hc => Refills.pure ?_
  simp [ha, hb, hc, tripleTerms]

theorem refills_pairs (ps : List (Term × Term)) :
    Refills (each pair ps) (ps.flatMap pairTerms).length
      fun values qs => values = qs.flatMap pairTerms :=
  Refills.each Refills.pair ps

theorem refills_triples (ps : List (Term × Term × Term)) :
    Refills (each triple ps) (ps.flatMap tripleTerms).length
      fun values qs => values = qs.flatMap tripleTerms :=
  Refills.each refills_triple ps

theorem refills_maps (s : MapsHofState) :
    Refills s.forEachTermMut s.forEachTerm.length fun values t => values = t.forEachTerm := by
  cases s with
  | fold f entries index =>
    refine ((Refills.slot f).bind fun x a _ ha => (refills_pairs entries).bind
      fun y b _ hb => Refills.pure ?_).of_count ?_
    · simp [ha, hb, MapsHofState.forEachTerm]
    · simp [MapsHofState.forEachTerm]; omega
  | filter f entries index kept =>
    refine ((Refills.slot f).bind fun x a _ ha => (refills_pairs entries).bind
      fun y b _ hb => (refills_pairs kept).bind fun z c _ hc => Refills.pure ?_).of_count ?_
    · simp [ha, hb, hc, MapsHofState.forEachTerm]
    · simp [MapsHofState.forEachTerm]; omega
  | map f entries index mapped =>
    refine ((Refills.slot f).bind fun x a _ ha => (refills_pairs entries).bind
      fun y b _ hb => (refills_pairs mapped).bind fun z c _ hc => Refills.pure ?_).of_count ?_
    · simp [ha, hb, hc, MapsHofState.forEachTerm]
    · simp [MapsHofState.forEachTerm]; omega
  | mergeWith f pending entries index =>
    refine ((Refills.slot f).bind fun x a _ ha => (refills_triples pending).bind
      fun y b _ hb => (refills_pairs entries).bind fun z c _ hc => Refills.pure ?_).of_count ?_
    · simp [ha, hb, hc, MapsHofState.forEachTerm]
    · simp [MapsHofState.forEachTerm]; omega
  | updateWith remaining updated =>
    refine ((refills_pairs remaining).bind fun x a _ ha => (refills_pairs updated).bind
      fun y b _ hb => Refills.pure ?_).of_count ?_
    · simp [ha, hb, MapsHofState.forEachTerm]
    · simp [MapsHofState.forEachTerm]

theorem refills_lists (s : ListsHofState) :
    Refills s.forEachTermMut s.forEachTerm.length fun values t => values = t.forEachTerm := by
  cases s with
  | map f remaining results =>
    refine ((Refills.slot f).bind fun x a _ ha => (Refills.slots remaining).bind
      fun y b _ hb => (Refills.slots results).bind fun z c _ hc => Refills.pure ?_).of_count ?_
    · simp [ha, hb, hc, ListsHofState.forEachTerm]
    · simp [ListsHofState.forEachTerm]; omega
  | filter f current remaining results =>
    refine ((Refills.slot f).bind fun x a _ ha => (Refills.slot current).bind fun y b _ hb =>
      (Refills.slots remaining).bind fun z c _ hc => (Refills.slots results).bind
      fun w d _ hd => Refills.pure ?_).of_count ?_
    · simp [ha, hb, hc, hd, ListsHofState.forEachTerm]
    · simp [ListsHofState.forEachTerm]; omega
  | filterMap f current remaining results =>
    refine ((Refills.slot f).bind fun x a _ ha => (Refills.slot current).bind fun y b _ hb =>
      (Refills.slots remaining).bind fun z c _ hc => (Refills.slots results).bind
      fun w d _ hd => Refills.pure ?_).of_count ?_
    · simp [ha, hb, hc, hd, ListsHofState.forEachTerm]
    · simp [ListsHofState.forEachTerm]; omega
  | foreach f remaining =>
    refine ((Refills.slot f).bind fun x a _ ha => (Refills.slots remaining).bind
      fun y b _ hb => Refills.pure ?_).of_count ?_
    · simp [ha, hb, ListsHofState.forEachTerm]
    · simp [ListsHofState.forEachTerm]; omega

theorem refills_etsFoldl (s : EtsFoldlState) :
    Refills s.forEachTermMut s.forEachTerm.length fun values t => values = t.forEachTerm := by
  refine ((Refills.slot s.f).bind fun x a _ ha => (Refills.slots s.entries).bind
    fun y b _ hb => Refills.pure ?_).of_count ?_
  · simp [ha, hb, EtsFoldlState.forEachTerm]
  · simp [EtsFoldlState.forEachTerm]; omega

theorem refills_continuation (c : NativeContinuation) :
    Refills c.forEachTermMut c.forEachTerm.length fun values d => values = d.forEachTerm := by
  cases c with
  | maps state =>
    refine ((refills_maps state).bind fun x a _ ha => Refills.pure ?_).of_count rfl
    simp [ha, NativeContinuation.forEachTerm]
  | lists state =>
    refine ((refills_lists state).bind fun x a _ ha => Refills.pure ?_).of_count rfl
    simp [ha, NativeContinuation.forEachTerm]
  | etsFoldl state =>
    refine ((refills_etsFoldl state).bind fun x a _ ha => Refills.pure ?_).of_count rfl
    simp [ha, NativeContinuation.forEachTerm]
  | aionTimeout stateId => exact Refills.pure rfl

theorem refills_exception (e : Option Exception) :
    Refills (refillException e) (exceptionTerms e).length fun values e' =>
      values = exceptionTerms e' ∧ e'.map Exception.cls = e.map Exception.cls := by
  cases e with
  | none => exact Refills.pure ⟨rfl, rfl⟩
  | some e =>
    refine ((Refills.slot e.reason).bind fun x a _ ha => (Refills.slot e.stacktrace).bind
      fun y b _ hb => Refills.pure ?_).of_count rfl
    simp [ha, hb, exceptionTerms]

theorem refills_frames (frames : List (List Term)) :
    Refills (each slots frames) frames.flatten.length fun values fs => values = fs.flatten := by
  have h : Refills (each slots frames) (frames.flatMap fun ts => ts).length
      fun values fs => values = fs.flatMap fun ts => ts := Refills.each Refills.slots frames
  simpa only [List.flatMap_id'] using h

theorem refillX_spec (live : ℕ) (xs : List Term) :
    Refills (refillX live xs) (xs.take live).length fun values ys =>
      values = ys.take (xs.take live).length ∧ ys.drop (xs.take live).length = xs.drop live := by
  refine ((Refills.slots (xs.take live)).bind fun x a hx ha => Refills.pure ?_).of_count rfl
  subst ha
  rw [List.append_nil, ← hx, List.take_left, List.drop_left]
  exact ⟨rfl, rfl⟩

/-- The roots after the X registers. -/
def restRoots (p : Process) : List Term :=
  p.frames.flatten ++ p.mailbox.scanList ++ exceptionTerms p.currentException ++
    p.dictionary.flatMap pairTerms ++ [p.groupLeader] ++ p.nativeRoots ++
    p.nativeContinuations.flatMap NativeContinuation.forEachTerm

theorem rootList_eq (p : Process) (liveX : ℕ) :
    p.rootList liveX = p.xRegs.take (min liveX xRegCount) ++ p.restRoots := by
  simp only [rootList, restRoots, List.append_assoc]

/-- What no snapshot visits is the same in `q` as in `p`. -/
structure Untraced (p q : Process) : Prop where
  heap : q.heap = p.heap
  virtualBinaryHeap : q.virtualBinaryHeap = p.virtualBinaryHeap
  arrival : q.mailbox.arrival = p.mailbox.arrival
  savePointer : q.mailbox.savePointer = p.mailbox.savePointer
  recvMarker : q.mailbox.recvMarker = p.mailbox.recvMarker
  cls : q.currentException.map Exception.cls = p.currentException.map Exception.cls
  rawLocations : q.rawLocations = p.rawLocations

theorem refillRest_spec (p : Process) (xs : List Term) (hxs : xs.length = xRegCount) :
    Refills (refillRest p xs hxs) p.restRoots.length fun values q =>
      values = q.restRoots ∧ q.xRegs = xs ∧ p.Untraced q := by
  refine ((refills_frames p.frames).bind fun a _ _ ha =>
    (Refills.slots p.mailbox.scanList).bind fun b _ _ hb =>
    (refills_exception p.currentException).bind fun c _ _ hc =>
    (refills_pairs p.dictionary).bind fun d _ _ hd =>
    (Refills.slot p.groupLeader).bind fun e _ _ he =>
    (Refills.slots p.nativeRoots).bind fun f _ _ hf =>
    (Refills.each refills_continuation p.nativeContinuations).bind fun g _ _ hg =>
    Refills.pure ?_).of_count ?_
  · refine ⟨?_, rfl, ⟨rfl, rfl, rfl, rfl, rfl, hc.2, rfl⟩⟩
    simp only [ha, hb, hc.1, hd, he, hf, hg, restRoots, List.append_assoc, List.append_nil]
  · simp only [restRoots, List.length_append, List.length_singleton]
    omega

/-- After the write-back the snapshot reads the written terms, in the same slots and the same
order, and nothing that the snapshot does not visit has changed. -/
theorem replaceRoots_spec (p : Process) (liveX : ℕ) {roots : List Term}
    (hlen : roots.length = (p.rootList liveX).length) :
    (p.replaceRootsWithLiveX liveX roots).rootList liveX = roots ∧
    (p.replaceRootsWithLiveX liveX roots).xRegs.drop (min liveX xRegCount) =
      p.xRegs.drop (min liveX xRegCount) ∧
    p.Untraced (p.replaceRootsWithLiveX liveX roots) := by
  set live := min liveX xRegCount with hlive
  have hle : live ≤ p.xRegs.length := by rw [p.xRegs_length]; exact min_le_right _ _
  have hcount : (p.xRegs.take live).length = live := by simp; omega
  rw [rootList_eq, List.length_append, hcount] at hlen
  have hfront : (roots.take live).length = (p.xRegs.take live).length := by simp; omega
  have hback : (roots.drop live).length = p.restRoots.length := by simp; omega
  obtain ⟨hrest, htake, hdrop⟩ :=
    refillX_spec live p.xRegs (roots.take live) (roots.drop live) hfront
  rw [List.take_append_drop] at hrest htake hdrop
  rw [hcount] at htake hdrop
  have hxs : (refillX live p.xRegs roots).1.length = xRegCount := by
    rw [refillX_length]; exact p.xRegs_length
  obtain ⟨-, hvalues, hx, hsame⟩ :=
    refillRest_spec p (refillX live p.xRegs roots).1 hxs (roots.drop live) [] hback
  have hdef : p.replaceRootsWithLiveX liveX roots =
      (refillRest p (refillX live p.xRegs roots).1 hxs (roots.drop live ++ [])).1 := by
    rw [List.append_nil, ← hrest]
    rfl
  rw [hdef]
  refine ⟨?_, ?_, hsame⟩
  · rw [rootList_eq, hx, ← hvalues, ← htake, List.take_append_drop]
  · rw [hx, hdrop]

end Process

end Beamr
