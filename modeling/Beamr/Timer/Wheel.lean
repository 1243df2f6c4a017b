import Mathlib.Data.Finset.Max
import Mathlib.Data.Prod.Lex
import Mathlib.Logic.Function.Basic

/-!
# Timer wheel

One-shot timers in buckets of one millisecond each. Three structures describe the pending
timers: the entries by reference, the references by bucket, and the ordered deadlines. Instants
and durations are in nanoseconds, and a hash map is a function.
-/
namespace Beamr.Timer

inductive TimerKind
  | receiveTimeout
  | deliver
  deriving DecidableEq

/-- A pending timer, with where its reference stands. -/
structure TimerEntry (T : Type) where
  targetPid : ℕ
  message : T
  expiresAt : ℕ
  kind : TimerKind
  bucket : ℕ
  slot : ℕ

structure ExpiredTimer (T : Type) where
  reference : ℕ
  targetPid : ℕ
  message : T
  expiresAt : ℕ
  kind : TimerKind
  deriving DecidableEq

/-- Deadlines order by instant, then by reference. -/
abbrev Deadline := ℕ ×ₗ ℕ

structure TimerWheel (T : Type) where
  bucketCount : ℕ
  buckets : ℕ → List ℕ
  entries : ℕ → Option (TimerEntry T)
  deadlines : Finset Deadline
  nextRef : ℕ
  start : ℕ
  currentTick : ℕ

/-- Removes a position, which the last element fills. -/
def swapRemove {α : Type} (xs : List α) (i : ℕ) : List α :=
  match xs.getLast? with
  | some last => (xs.set i last).dropLast
  | none => xs

def TimerEntry.expired {T : Type} (e : TimerEntry T) (reference : ℕ) : ExpiredTimer T :=
  ⟨reference, e.targetPid, e.message, e.expiresAt, e.kind⟩

namespace TimerWheel

variable {T : Type}

/-- A wheel has at least one bucket. -/
def withBucketCount (bucketCount start : ℕ) : TimerWheel T :=
  ⟨max bucketCount 1, fun _ => [], fun _ => none, ∅, 1, start, 0⟩

/-- Whole milliseconds since the start, none before it. -/
def tickFor (w : TimerWheel T) (instant : ℕ) : ℕ := (instant - w.start) / 1000000

def bucketFor (w : TimerWheel T) (expiresAt : ℕ) : ℕ := w.tickFor expiresAt % w.bucketCount

/-- References are 64 bits and start over at 1. -/
def allocateRef (w : TimerWheel T) : ℕ × TimerWheel T :=
  (w.nextRef, { w with nextRef := if w.nextRef + 1 < 2 ^ 64 then w.nextRef + 1 else 1 })

/-! ## Removal -/

def setSlot (w : TimerWheel T) (reference slot : ℕ) : TimerWheel T :=
  match w.entries reference with
  | some entry =>
    { w with entries := Function.update w.entries reference (some { entry with slot := slot }) }
  | none => w

def swapRemoveBucketSlot (w : TimerWheel T) (bucket slot : ℕ) : TimerWheel T :=
  if bucket < w.bucketCount then
    match (w.buckets bucket)[slot]? with
    | none => w
    | some moved =>
      let bucketEntries := swapRemove (w.buckets bucket) slot
      let w := { w with buckets := Function.update w.buckets bucket bucketEntries }
      let w := match bucketEntries[slot]? with
        | some replacement => w.setSlot replacement slot
        | none => w
      w.setSlot moved slot
  else w

def removeEntry (w : TimerWheel T) (reference : ℕ) : Option (TimerEntry T) × TimerWheel T :=
  match w.entries reference with
  | none => (none, w)
  | some entry =>
    let w := { w with
      entries := Function.update w.entries reference none
      deadlines := w.deadlines.erase (toLex (entry.expiresAt, reference)) }
    (some entry, w.swapRemoveBucketSlot entry.bucket entry.slot)

/-- The loop over a bucket; a slot is looked at again after its entry was removed. -/
def expireLoop (bucket now : ℕ) :
    ℕ → TimerWheel T → ℕ → List (ExpiredTimer T) → List (ExpiredTimer T) × TimerWheel T
  | 0, w, _, expired => (expired, w)
  | fuel + 1, w, slot, expired =>
    match (w.buckets bucket)[slot]? with
    | none => (expired, w)
    | some reference =>
      match w.entries reference with
      | none => expireLoop bucket now fuel (w.swapRemoveBucketSlot bucket slot) slot expired
      | some entry =>
        if entry.expiresAt ≤ now then
          match w.removeEntry reference with
          | (some entry, w) =>
            expireLoop bucket now fuel w slot (expired ++ [entry.expired reference])
          | (none, w) => expireLoop bucket now fuel w slot expired
        else expireLoop bucket now fuel w (slot + 1) expired

def expireBucket (w : TimerWheel T) (bucket now : ℕ) (expired : List (ExpiredTimer T)) :
    List (ExpiredTimer T) × TimerWheel T :=
  expireLoop bucket now (w.buckets bucket).length w 0 expired

/-! ## Operations -/

section

-- The last instant that can be represented.
variable (limit : ℕ)

/-- A deadline that cannot be represented is now. -/
def expiry (now delay : ℕ) : ℕ := if now + delay ≤ limit then now + delay else now

def scheduleReservedAt (w : TimerWheel T) (reference now delay targetPid : ℕ) (message : T)
    (kind : TimerKind) : Option ℕ × TimerWheel T :=
  match w.entries reference with
  | some _ => (none, w)
  | none =>
    let w := if now < w.start then { w with start := now, currentTick := 0 } else w
    let expiresAt := expiry limit now delay
    let bucket := w.bucketFor expiresAt
    let slot := (w.buckets bucket).length
    (some reference, { w with
      buckets := Function.update w.buckets bucket (w.buckets bucket ++ [reference])
      deadlines := insert (toLex (expiresAt, reference)) w.deadlines
      entries := Function.update w.entries reference
        (some ⟨targetPid, message, expiresAt, kind, bucket, slot⟩) })

def scheduleAt (w : TimerWheel T) (now delay targetPid : ℕ) (message : T) (kind : TimerKind) :
    ℕ × TimerWheel T :=
  let (reference, w) := w.allocateRef
  let (scheduled, w) := w.scheduleReservedAt limit reference now delay targetPid message kind
  (scheduled.getD reference, w)

end

/-- The remaining duration of the timer taken out. -/
def cancelAt (w : TimerWheel T) (reference now : ℕ) : Option ℕ × TimerWheel T :=
  let (entry, w) := w.removeEntry reference
  (entry.map fun entry => entry.expiresAt - now, w)

/-- Walks the buckets from the current tick to the tick of now, at most once around. -/
def tickAt (w : TimerWheel T) (now : ℕ) : List (ExpiredTimer T) × TimerWheel T :=
  let targetTick := w.tickFor now
  if targetTick < w.currentTick then ([], w)
  else
    let lap := w.bucketCount
    let steps := min (targetTick - w.currentTick + 1) lap
    let (expired, walked) := (List.range steps).foldl
      (fun result step => result.2.expireBucket ((w.currentTick + step) % lap) now result.1)
      ([], w)
    (expired, { walked with currentTick := targetTick })

def earliestDeadline (w : TimerWheel T) : Option ℕ :=
  w.deadlines.min.map fun deadline => (ofLex deadline).1

end TimerWheel

/-! ## Calls -/

inductive Call (T : Type)
  | reserveReference
  | scheduleReservedAt (reference now delay targetPid : ℕ) (message : T) (kind : TimerKind)
  | scheduleAt (now delay targetPid : ℕ) (message : T) (kind : TimerKind)
  | cancelAt (reference now : ℕ)
  | tickAt (now : ℕ)

def TimerWheel.step {T : Type} (limit : ℕ) (w : TimerWheel T) : Call T → TimerWheel T
  | .reserveReference => w.allocateRef.2
  | .scheduleReservedAt reference now delay targetPid message kind =>
    (w.scheduleReservedAt limit reference now delay targetPid message kind).2
  | .scheduleAt now delay targetPid message kind =>
    (w.scheduleAt limit now delay targetPid message kind).2
  | .cancelAt reference now => (w.cancelAt reference now).2
  | .tickAt now => (w.tickAt now).2

end Beamr.Timer
