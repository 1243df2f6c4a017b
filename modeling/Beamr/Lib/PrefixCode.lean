import Mathlib.Data.List.Infix

/-!
# Prefix codes

A code writes values as words over an alphabet. A decoder looks at the start of a word for the code
of a value; it is exact when it finds one just when there is one. Then no code is the start of
another, and what was written one after the other is read back one after the other.
-/
namespace Beamr.PrefixCode

variable {α β : Type*}

/-- The decoder finds the value whose code the word starts with, and the size of that code. -/
def Exact (size : List β → ℕ) (encode : α → Option (List β))
    (decode : List β → Option (α × ℕ)) : Prop :=
  ∀ word a n, decode word = some (a, n) ↔
    ∃ code, encode a = some code ∧ code <+: word ∧ n = size code

/-- The codes of the values one after the other, if all have one. -/
def encodeAll (encode : α → Option (List β)) : List α → Option (List β)
  | [] => some []
  | a :: rest => do
    let code ← encode a
    let codes ← encodeAll encode rest
    some (code ++ codes)

variable {size : List β → ℕ} {encode : α → Option (List β)} {decode : List β → Option (α × ℕ)}

theorem encodeAll_cons_eq_some {a : α} {rest : List α} {codes : List β}
    (h : encodeAll encode (a :: rest) = some codes) : ∃ code later,
      encode a = some code ∧ encodeAll encode rest = some later ∧ codes = code ++ later := by
  obtain ⟨code, ha, h⟩ := Option.bind_eq_some_iff.1 h
  obtain ⟨later, hrest, h⟩ := Option.bind_eq_some_iff.1 h
  exact ⟨code, later, ha, hrest, (Option.some.inj h).symm⟩

/-! ## Words that part -/

/-- Neither word is the start of the other, so they differ at some place. -/
def Diverge (xs ys : List β) : Prop := ¬ xs <+: ys ∧ ¬ ys <+: xs

namespace Diverge

variable {xs ys : List β}

theorem ne (h : Diverge xs ys) : xs ≠ ys := by
  rintro rfl
  exact h.1 (List.prefix_refl xs)

/-- What comes after the words does not bring them together. -/
theorem append_right (h : Diverge xs ys) (more more' : List β) :
    Diverge (xs ++ more) (ys ++ more') := by
  have apart {xs ys more more' : List β} (h : Diverge xs ys) : ¬ xs ++ more <+: ys ++ more' := by
    intro hprefix
    have hxs := (List.prefix_append xs more).trans hprefix
    exact (List.prefix_or_prefix_of_prefix hxs (List.prefix_append ys more')).elim h.1 h.2
  exact ⟨apart h, apart ⟨h.2, h.1⟩⟩

theorem append_left (h : Diverge xs ys) (front : List β) : Diverge (front ++ xs) (front ++ ys) :=
  ⟨fun hprefix => h.1 ((List.prefix_append_right_inj front).1 hprefix),
    fun hprefix => h.2 ((List.prefix_append_right_inj front).1 hprefix)⟩

theorem of_head {x y : β} (h : x ≠ y) (xs ys : List β) : Diverge (x :: xs) (y :: ys) :=
  ⟨fun hprefix => h (List.cons_prefix_cons.1 hprefix).1,
    fun hprefix => h (List.cons_prefix_cons.1 hprefix).1.symm⟩

end Diverge

/-- The second word is the first one, or parts from it. -/
def Compares (same : Bool) (xs ys : List β) : Prop := if same then ys = xs else Diverge xs ys

theorem Compares.append {xs ys xs' ys' : List β} {same same' : Bool} (h : Compares same xs ys)
    (h' : Compares same' xs' ys') : Compares (same && same') (xs ++ xs') (ys ++ ys') := by
  cases same with
  | false => exact Diverge.append_right h xs' ys'
  | true =>
    obtain rfl : ys = xs := h
    cases same' with
    | false => exact Diverge.append_left h' ys
    | true =>
      obtain rfl : ys' = xs' := h'
      rfl

theorem Compares.eq_iff {xs ys : List β} {same : Bool} (h : Compares same xs ys) :
    ys = xs ↔ same = true := by
  cases same with
  | false =>
    have hne : xs ≠ ys := Diverge.ne h
    simpa using hne.symm
  | true => exact ⟨fun _ => rfl, fun _ => h⟩

end Beamr.PrefixCode
