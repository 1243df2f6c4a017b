import Beamr.Lib.Comparison

/-!
# Keeping the first in order

Values are offered one after another, and the one kept gives way only to an offer strictly
before it. What is kept is first among all offers, so it is known up to a tie whatever the order
of the offers was and however often each was made.
-/
namespace Comparison

variable {α : Type*} {c : α → α → Ordering}

/-- What is kept after one more offer. -/
def keep (c : α → α → Ordering) : Option α → α → Option α
  | none, offer => some offer
  | some kept, offer => if c offer kept = .lt then some offer else some kept

/-- First among the offers, or none when there were no offers. -/
def FirstOf (c : α → α → Ordering) (offers : Set α) : Option α → Prop
  | none => offers = ∅
  | some a => a ∈ offers ∧ ∀ b ∈ offers, (c a b).isLE

namespace FirstOf

variable {s t : Set α} {o o' : Option α}

theorem keep (h : PreorderOn Set.univ c) (ho : FirstOf c s o) (a : α) :
    FirstOf c (insert a s) (keep c o a) := by
  cases o with
  | none =>
    have hs : s = ∅ := ho
    subst hs
    refine ⟨Set.mem_insert a ∅, fun b hb => ?_⟩
    have hba : b = a := by simpa using hb
    rw [hba, h.refl (Set.mem_univ a)]
    rfl
  | some kept =>
    obtain ⟨hkept, hfirst⟩ := ho
    rw [Comparison.keep]
    split
    next hlt =>
      refine ⟨Set.mem_insert a s, fun b hb => ?_⟩
      rcases hb with rfl | hb
      · rw [h.refl (Set.mem_univ b)]
        rfl
      · exact h.trans a trivial kept trivial b trivial (by simp [hlt]) (hfirst b hb)
    next hnot =>
      refine ⟨Set.mem_insert_of_mem a hkept, fun b hb => ?_⟩
      rcases hb with rfl | hb
      · rw [h.swap b trivial kept trivial]
        cases hc : c b kept with
        | lt => exact absurd hc hnot
        | eq => rfl
        | gt => rfl
      · exact hfirst b hb

/-- Further offers that some earlier offer is no later than do not matter. -/
theorem mono (h : PreorderOn Set.univ c) (ho : FirstOf c s o) (hst : s ⊆ t)
    (hlater : ∀ b ∈ t, ∃ a ∈ s, (c a b).isLE) : FirstOf c t o := by
  cases o with
  | none =>
    have hs : s = ∅ := ho
    refine Set.eq_empty_of_forall_notMem fun b hb => ?_
    obtain ⟨a, ha, -⟩ := hlater b hb
    rw [hs] at ha
    exact ha
  | some kept =>
    obtain ⟨hkept, hfirst⟩ := ho
    refine ⟨hst hkept, fun b hb => ?_⟩
    obtain ⟨a, ha, hab⟩ := hlater b hb
    exact h.trans kept trivial a trivial b trivial (hfirst a ha) hab

/-- Two values kept from the same offers tie. -/
theorem tie (h : PreorderOn Set.univ c) (ho : FirstOf c s o) (ho' : FirstOf c s o') :
    (o = none ∧ o' = none) ∨ ∃ a ∈ s, ∃ b ∈ s, o = some a ∧ o' = some b ∧ c a b = .eq := by
  cases o with
  | none =>
    have hs : s = ∅ := ho
    cases o' with
    | none => exact .inl ⟨rfl, rfl⟩
    | some b =>
      have hb : b ∈ s := ho'.1
      rw [hs] at hb
      exact absurd hb (Set.notMem_empty b)
  | some a =>
    obtain ⟨ha, hfirst⟩ := ho
    cases o' with
    | none =>
      have hs : s = ∅ := ho'
      rw [hs] at ha
      exact absurd ha (Set.notMem_empty a)
    | some b =>
      obtain ⟨hb, hfirst'⟩ := ho'
      have hab := hfirst b hb
      have hba := hfirst' a ha
      rw [h.swap a trivial b trivial] at hba
      refine .inr ⟨a, ha, b, hb, rfl, rfl, ?_⟩
      cases hc : c a b with
      | eq => rfl
      | lt => simp [hc] at hba
      | gt => simp [hc] at hab

end FirstOf

end Comparison
