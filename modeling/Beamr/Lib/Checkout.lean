import Mathlib.Logic.Function.Basic
import Mathlib.Tactic.Common

/-!
# Values that are checked out of a slot

A worker takes a value out of its slot for a while and leaves a view of it behind. Others change
the value in the slot or, while it is out, the view. What comes back is merged with the view.
An observation that the view owns does not see what the worker does to the value, and it keeps
every change made through the slot.
-/
namespace Checkout

inductive Slot (B M : Type*)
  | absent
  | present (body : B)
  | executing (metadata : M)

/-- A slot and the value that is out of it. -/
structure Entry (B M : Type*) where
  slot : Slot B M
  held : Option B

namespace Entry

variable {B M X : Type*}

def empty : Entry B M := ⟨.absent, none⟩

def insert (body : B) : Entry B M := ⟨.present body, none⟩

def take (snapshot : B → M) (e : Entry B M) : Entry B M :=
  match e.slot with
  | .present body => ⟨.executing (snapshot body), some body⟩
  | _ => e

/-- A value whose slot was removed meanwhile has no place to come back to. -/
def store (merge : B → M → B) (e : Entry B M) : Entry B M :=
  match e.held with
  | none => e
  | some body =>
    match e.slot with
    | .absent => empty
    | .present _ => insert body
    | .executing metadata => insert (merge body metadata)

/-- A change made through the slot. -/
def modify (onBody : B → B) (onMetadata : M → M) (e : Entry B M) : Entry B M :=
  match e.slot with
  | .absent => e
  | .present body => { e with slot := .present (onBody body) }
  | .executing metadata => { e with slot := .executing (onMetadata metadata) }

/-- A change made by the worker that has the value. -/
def edit (f : B → B) (e : Entry B M) : Entry B M := { e with held := e.held.map f }

def remove (e : Entry B M) : Entry B M := { e with slot := .absent }

/-- What an observer of the slot sees. -/
def value (ofBody : B → X) (ofMetadata : M → X) (e : Entry B M) : Option X :=
  match e.slot with
  | .absent => none
  | .present body => some (ofBody body)
  | .executing metadata => some (ofMetadata metadata)

/-- The value itself, wherever it is. -/
def body? (e : Entry B M) : Option B :=
  match e.held, e.slot with
  | some body, _ => some body
  | none, .present body => some body
  | none, _ => none

/-- A value is out exactly while its slot holds a view or was removed. -/
def Sound (e : Entry B M) : Prop :=
  match e.slot with
  | .absent => True
  | .present _ => e.held = none
  | .executing _ => e.held.isSome

section Sound

variable {e : Entry B M}

theorem sound_empty : (empty : Entry B M).Sound := trivial

theorem sound_insert (body : B) : (insert body : Entry B M).Sound := rfl

theorem Sound.take (h : e.Sound) (snapshot : B → M) : (e.take snapshot).Sound := by
  rw [Entry.take]
  split
  next => rfl
  next => exact h

theorem Sound.store (h : e.Sound) (merge : B → M → B) : (e.store merge).Sound := by
  rw [Entry.store]
  split
  next => exact h
  next => split <;> trivial

theorem Sound.modify (h : e.Sound) (onBody : B → B) (onMetadata : M → M) :
    (e.modify onBody onMetadata).Sound := by
  rw [Entry.modify]
  split
  next => exact h
  next hslot =>
    rw [Sound, hslot] at h
    exact h
  next hslot =>
    rw [Sound, hslot] at h
    exact h

theorem Sound.edit (h : e.Sound) (f : B → B) : (e.edit f).Sound := by
  obtain ⟨slot, held⟩ := e
  cases slot with
  | absent => trivial
  | present body =>
    obtain rfl : held = none := h
    rfl
  | executing metadata =>
    rw [Sound, Entry.edit]
    exact (Option.isSome_map ..).trans h

theorem sound_remove (e : Entry B M) : e.remove.Sound := trivial

end Sound

section Body

variable {e : Entry B M} {b : B}

theorem body?_take (h : e.Sound) (snapshot : B → M) : (e.take snapshot).body? = e.body? := by
  rw [take]
  split
  next body hslot =>
    rw [Sound, hslot] at h
    rw [body?, body?, h, hslot]
  next => rfl

/-- The value that is held or stored after a change made through the slot. -/
theorem body?_modify {onBody : B → B} {onMetadata : M → M}
    (h : (e.modify onBody onMetadata).body? = some b) :
    ∃ old, e.body? = some old ∧ (b = old ∨ b = onBody old) := by
  obtain ⟨slot, held⟩ := e
  cases held with
  | some body =>
    refine ⟨body, rfl, .inl ?_⟩
    cases slot <;> exact (Option.some.inj h).symm
  | none =>
    cases slot with
    | absent => cases h
    | present body => exact ⟨body, rfl, .inr (Option.some.inj h).symm⟩
    | executing metadata => cases h

theorem body?_edit {f : B → B} (h : (e.edit f).body? = some b) :
    ∃ old, e.body? = some old ∧ (b = old ∨ b = f old) := by
  obtain ⟨slot, held⟩ := e
  cases held with
  | some body => exact ⟨body, rfl, .inr (Option.some.inj h).symm⟩
  | none => exact ⟨b, h, .inl rfl⟩

theorem body?_remove (h : e.remove.body? = some b) : e.body? = some b := by
  obtain ⟨slot, held⟩ := e
  cases held with
  | some body => exact h
  | none => cases h

theorem body?_store {merge : B → M → B} (h : (e.store merge).body? = some b) :
    ∃ old, e.body? = some old ∧
      (b = old ∨ ∃ m, e.slot = .executing m ∧ e.held = some old ∧ b = merge old m) := by
  obtain ⟨slot, held⟩ := e
  cases held with
  | none => exact ⟨b, h, .inl rfl⟩
  | some body =>
    cases slot with
    | absent => cases h
    | present _ => exact ⟨body, rfl, .inl (Option.some.inj h).symm⟩
    | executing metadata => exact ⟨body, rfl, .inr ⟨metadata, rfl, rfl, (Option.some.inj h).symm⟩⟩

end Body

section Value

variable {ofBody : B → X} {ofMetadata : M → X} {e : Entry B M}

theorem value_take {snapshot : B → M} (h : ∀ b, ofMetadata (snapshot b) = ofBody b) :
    (e.take snapshot).value ofBody ofMetadata = e.value ofBody ofMetadata := by
  rw [take]
  split
  next body hslot =>
    rw [value, value, hslot]
    exact congrArg some (h body)
  next => rfl

/-- What the view owns survives the return of the value. -/
theorem value_store {merge : B → M → B} (h : ∀ b m, ofBody (merge b m) = ofMetadata m)
    (he : e.Sound) :
    (e.store merge).value ofBody ofMetadata = e.value ofBody ofMetadata := by
  obtain ⟨slot, held⟩ := e
  cases slot with
  | absent => cases held <;> rfl
  | present body =>
    obtain rfl : held = none := he
    rfl
  | executing metadata =>
    cases held with
    | none => rfl
    | some body => exact congrArg some (h body metadata)

end Value

end Entry

end Checkout
