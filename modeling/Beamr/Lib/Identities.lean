import Mathlib.Data.List.Nodup
import Mathlib.Data.List.Perm.Subperm

/-!
# Identities from a counter

Identities are the numbers a counter has issued. Of those in use none occurs twice, so that an
identity that is used up is not in use any more.
-/
namespace Identities

/-- Identities that have been issued, each once. -/
structure Issued (last : ℕ) (ids : List ℕ) : Prop where
  nodup : ids.Nodup
  le_last : ∀ id ∈ ids, id ≤ last

variable {last : ℕ} {ids ids' : List ℕ}

theorem issued_nil (last : ℕ) : Issued last [] :=
  ⟨List.nodup_nil, fun _ hmem => by cases hmem⟩

/-- Identities may be dropped and put in another order. -/
theorem Issued.subperm (h : Issued last ids) (hsub : ids'.Subperm ids) : Issued last ids' := by
  obtain ⟨kept, hperm, hkept⟩ := hsub
  refine ⟨hperm.nodup_iff.mp (h.nodup.sublist hkept), fun id hid => ?_⟩
  exact h.le_last id (hkept.subset (hperm.mem_iff.mpr hid))

/-- The next identity is not in use. -/
theorem Issued.next (h : Issued last ids) : Issued (last + 1) ((last + 1) :: ids) := by
  have hfresh : last + 1 ∉ ids := fun hmem => absurd (h.le_last _ hmem) (by omega)
  refine ⟨List.nodup_cons.mpr ⟨hfresh, h.nodup⟩, fun id hid => ?_⟩
  rcases List.mem_cons.mp hid with rfl | hmem
  · exact Nat.le_refl _
  · exact Nat.le_succ_of_le (h.le_last id hmem)

end Identities
