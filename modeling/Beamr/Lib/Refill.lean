import Mathlib.Data.List.Basic

/-!
# Refilling slots in order

A record with slots is rewritten from a list, one slot after the other; a slot keeps its
value when the list has run out. `Refills` says that an action takes as many values as the
record has slots and that reading the slots in the same order gives these values back.
-/
namespace Beamr

/-- An action that takes the values for its slots from the front of a list. -/
def Refill (T α : Type) := List T → α × List T

namespace Refill

variable {T α β : Type}

instance : Monad (Refill T) where
  pure a := fun values => (a, values)
  bind m f := fun values => f (m values).1 (m values).2

/-- One slot. -/
def slot (old : T) : Refill T T
  | [] => (old, [])
  | value :: values => (value, values)

/-- The elements of a list, each by its own action. -/
def each (visit : α → Refill T α) : List α → Refill T (List α)
  | [] => pure []
  | a :: as => do
    let a' ← visit a
    let as' ← each visit as
    pure (a' :: as')

def slots : List T → Refill T (List T) := each slot

/-- Two slots. -/
def pair (p : T × T) : Refill T (T × T) := do
  let a ← slot p.1
  let b ← slot p.2
  pure (a, b)

theorem each_length (visit : α → Refill T α) : ∀ (as : List α) (values : List T),
    (each visit as values).1.length = as.length
  | [], _ => rfl
  | a :: as, values => by
    change (_ :: (each visit as (visit a values).2).1).length = _
    rw [List.length_cons, each_length visit as, List.length_cons]

theorem slots_length (ts values : List T) : (slots ts values).1.length = ts.length :=
  each_length slot ts values

end Refill

variable {T α β : Type}

/-- `m` takes `count` values, after which `post` relates them to its result. -/
def Refills (m : Refill T α) (count : ℕ) (post : List T → α → Prop) : Prop :=
  ∀ values rest : List T, values.length = count →
    (m (values ++ rest)).2 = rest ∧ post values (m (values ++ rest)).1

namespace Refills

theorem pure {a : α} {post : List T → α → Prop} (h : post [] a) :
    Refills (Pure.pure a : Refill T α) 0 post := by
  intro values rest hlen
  obtain rfl := List.length_eq_zero_iff.mp hlen
  exact ⟨rfl, h⟩

theorem of_count {m : Refill T α} {n k : ℕ} {post : List T → α → Prop} (h : Refills m n post)
    (hn : n = k) : Refills m k post := hn ▸ h

/-- The first action takes the front, the second what follows. -/
theorem bind {m : Refill T α} {f : α → Refill T β} {n k : ℕ} {mid : List T → α → Prop}
    {post : List T → β → Prop} (hm : Refills m n mid)
    (hf : ∀ front a, front.length = n → mid front a →
      Refills (f a) k fun back b => post (front ++ back) b) :
    Refills (m >>= f) (n + k) post := by
  intro values rest hlen
  have hfront : (values.take n).length = n := by simp; omega
  have hback : (values.drop n).length = k := by simp; omega
  obtain ⟨hrest, hmid⟩ := hm (values.take n) (values.drop n ++ rest) hfront
  rw [← List.append_assoc, List.take_append_drop] at hrest hmid
  obtain ⟨hrest', hpost⟩ := hf _ _ hfront hmid (values.drop n) rest hback
  rw [List.take_append_drop, ← hrest] at hpost
  rw [← hrest] at hrest'
  exact ⟨hrest', hpost⟩

theorem slot (t : T) : Refills (Refill.slot t) 1 fun values a => values = [a] := by
  intro values rest hlen
  obtain ⟨v, rfl⟩ := List.length_eq_one_iff.mp hlen
  exact ⟨rfl, rfl⟩

/-- A list refills element by element. -/
theorem each {visit : α → Refill T α} {read : α → List T}
    (hvisit : ∀ a, Refills (visit a) (read a).length fun values b => values = read b) :
    ∀ as : List α, Refills (Refill.each visit as) (as.flatMap read).length
      fun values bs => values = bs.flatMap read
  | [] => pure rfl
  | a :: as => by
    rw [List.flatMap_cons, List.length_append]
    refine (hvisit a).bind fun front b _ hb => ?_
    refine (each hvisit as).bind (k := 0) fun back bs _ hbs => pure ?_
    rw [List.append_nil, hb, hbs, List.flatMap_cons]

theorem slots (ts : List T) :
    Refills (Refill.slots ts) ts.length fun values bs => values = bs := by
  have h : Refills (Refill.slots ts) (ts.flatMap fun t => [t]).length
      fun values bs => values = bs.flatMap fun t => [t] := each slot ts
  simpa only [List.flatMap_singleton'] using h

theorem pair (p : T × T) :
    Refills (Refill.pair p) 2 fun values q => values = [q.1, q.2] := by
  refine (slot p.1).bind (k := 1) fun front a _ ha => ?_
  refine (slot p.2).bind (k := 0) fun back b _ hb => pure ?_
  rw [ha, hb]
  rfl

end Refills

end Beamr
