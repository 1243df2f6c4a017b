import Beamr.Gc.Preserve
import Mathlib.Algebra.Order.BigOperators.Group.List
import Mathlib.Data.List.Perm.Subperm

/-!
# Reachable objects

A collection sees only what its roots reach. An arena may be cut down to the reachable objects,
and the words a collection copies are those of the source objects that the roots reach through
the source: it runs out of room exactly when these do not fit.
-/
namespace Beamr.Gc

open Beamr ObjectGraph

section Reach

variable (mem : Memory) (objs : Set Obj) (roots : List Term)

/-- Objects that some root leads to. -/
inductive Reachable : Obj → Prop
  | root {o : Obj} : o ∈ objs → o.term ∈ roots → Reachable o
  | field {o o' : Obj} : Reachable o → o' ∈ objs → o'.term ∈ o.fields mem → Reachable o'

/-- Source objects that some root leads to through source objects. -/
inductive Traced (source : ℕ → Bool) : Obj → Prop
  | root {o : Obj} : o ∈ objs → source o.addr = true → o.term ∈ roots → Traced source o
  | field {o o' : Obj} : Traced source o → o' ∈ objs → source o'.addr = true →
      o'.term ∈ o.fields mem → Traced source o'

/-- The words of the traced objects fit into `room` words. -/
def Fits (source : ℕ → Bool) (room : ℕ) : Prop :=
  ∀ os : List Obj, os.Nodup → (∀ o ∈ os, Traced mem objs roots source o) →
    (os.map (Obj.words mem)).sum ≤ room

end Reach

variable {mem : Memory} {objs : Set Obj} {roots : List Term} {source : ℕ → Bool}

theorem Reachable.mem_objs {o : Obj} (h : Reachable mem objs roots o) : o ∈ objs := by
  cases h <;> assumption

theorem Traced.mem_objs {o : Obj} (h : Traced mem objs roots source o) : o ∈ objs := by
  cases h <;> assumption

theorem Traced.isSource {o : Obj} (h : Traced mem objs roots source o) : source o.addr = true := by
  cases h <;> assumption

namespace Arena

variable {A : Arena} {s : Copying} {cur : Term}

/-- The arena with the reachable objects only. -/
def restrict (A : Arena) (roots : List Term) : Arena :=
  { A with objs := { o | Reachable A.mem A.objs roots o } }

theorem Ready.restrict (hA : A.Ready) (roots : List Term) : (A.restrict roots).Ready where
  wf := {
    extent := fun o ho => hA.wf.extent o ho.mem_objs
    laidOut := fun o ho => hA.wf.laidOut o ho.mem_objs
    apart := fun o ho o' ho' => hA.wf.apart o ho.mem_objs o' ho'.mem_objs
    fields := by
      intro o ho i hi a ha
      refine (hA.wf.fields o ho.mem_objs i hi a ha).imp_left fun ⟨hin, hobj⟩ => ⟨hin, ?_⟩
      refine ho.field hobj ?_
      rw [← term_of_heapPtr ha]
      exact List.mem_map.mpr ⟨i, hi, rfl⟩ }
  live_inHeap := hA.live_inHeap
  source_inHeap := hA.source_inHeap
  used_le := hA.used_le
  source_apart := hA.source_apart
  objs_apart := fun o ho => hA.objs_apart o ho.mem_objs
  outside_apart := hA.outside_apart

theorem Ready.restrict_ok {t : Term} (ht : t ∈ roots) (h : A.Ok t) : (A.restrict roots).Ok t := by
  intro a ha
  refine (h a ha).imp_left fun ⟨hin, hobj⟩ => ⟨hin, .root hobj ?_⟩
  rwa [← term_of_heapPtr ha]

/-- The arena of the traced objects; everything else counts as outside. -/
def traced (A : Arena) (roots : List Term) : Arena :=
  { A with
    live := fun a => A.live a && A.source a
    inHeap := A.source
    outside := fun a => (A.inHeap a = false ∧ A.outside a) ∨ ∃ o ∈ A.objs, o.addr = a
    objs := { o | Traced A.mem A.objs roots A.source o } }

theorem valid_traced (hA : A.Ready) {t : Term} (h : A.Ok t)
    (htr : ∀ o ∈ A.objs, A.source o.addr = true → t = o.term →
      Traced A.mem A.objs roots A.source o) : (A.traced roots).Ok t := by
  intro a ha
  cases hsrc : A.source a with
  | true =>
    refine .inl ⟨hsrc, ?_⟩
    rcases h a ha with ⟨-, hobj⟩ | ⟨hin, -⟩
    · exact htr _ hobj hsrc (term_of_heapPtr ha)
    · rw [hA.source_inHeap a hsrc] at hin
      cases hin
  | false =>
    refine .inr ⟨hsrc, ?_⟩
    rcases h a ha with ⟨-, hobj⟩ | hout
    · exact .inr ⟨_, hobj, rfl⟩
    · exact .inl hout

/-- `hword`: every word of a source object lies in the source. -/
theorem Ready.traced (hA : A.Ready) (roots : List Term)
    (hword : ∀ o ∈ A.objs, A.source o.addr = true → ∀ i < o.words A.mem,
      A.source (o.addr + i) = true) : (A.traced roots).Ready where
  wf := {
    extent := by
      intro o ho i hi
      change (A.live _ && A.source _) = true
      rw [hA.wf.extent o ho.mem_objs i hi, hword o ho.mem_objs ho.isSource i hi]
      rfl
    laidOut := fun o ho => hA.wf.laidOut o ho.mem_objs
    apart := fun o ho o' ho' => hA.wf.apart o ho.mem_objs o' ho'.mem_objs
    fields := by
      intro o ho i hi
      refine valid_traced hA (hA.wf.fields o ho.mem_objs i hi) fun o' ho' hsrc heq => ?_
      refine ho.field ho' hsrc ?_
      rw [← heq]
      exact List.mem_map.mpr ⟨i, hi, rfl⟩ }
  live_inHeap := fun a h => (Bool.and_eq_true_iff.mp h).2
  source_inHeap := fun _ h => h
  used_le := hA.used_le
  source_apart := hA.source_apart
  objs_apart := fun o ho => hA.objs_apart o ho.mem_objs
  outside_apart := by
    rintro a - (⟨hin, hout⟩ | ⟨o, ho, rfl⟩)
    · exact hA.outside_apart a hin hout
    · exact hA.objs_apart o ho 0 (o.words_pos _)

/-- Copying that stops for lack of room had more to copy than fits. -/
theorem NoRoom.not_fits {todo : List ℕ} (hA : A.Ready) (h : (A.traced roots).NoRoom s)
    (hs : (A.traced roots).Inv s cur todo) :
    ¬ Fits A.mem A.objs roots A.source A.region.available := by
  intro hfits
  obtain ⟨o, ho, -, hnone, hshort⟩ := h
  obtain ⟨os, hnodup, hmem, hsum⟩ := hs.count
  have hnot : o ∉ os := by
    intro hin
    have hsome := ((hmem o).mp hin).2
    rw [hnone] at hsome
    cases hsome
  have hle := hfits (o :: os) (List.nodup_cons.mpr ⟨hnot, hnodup⟩) (by
    intro o' ho'
    rcases List.mem_cons.mp ho' with rfl | ho'
    · exact ho
    · exact ((hmem o').mp ho').1)
  have hused := hA.used_le
  have hshort' : A.region.capacity < s.region.used + o.words A.mem := hshort
  have hsum' : s.region.used = A.region.used + (os.map (Obj.words A.mem)).sum := hsum
  rw [List.map_cons, List.sum_cons] at hle
  unfold HeapRegion.available at hle
  omega

/-- A finished collection has copied every traced object, so they fit. -/
theorem Inv.fits (hA : (A.traced roots).Ready) (hs : (A.traced roots).Inv s cur [])
    (hq : s.queue = []) (hroots : ∀ t ∈ roots, t ∈ (A.traced roots).settled s) :
    Fits A.mem A.objs roots A.source A.region.available := by
  have hall : ∀ o, Traced A.mem A.objs roots A.source o → (s.forwarding o.addr).isSome := by
    intro o ho
    induction ho with
    | @root o hobj hsrc hroot => exact (hroots _ hroot).2 _ o.heapPtr_term hsrc
    | @field o o' htr hobj hsrc hfield ih =>
      obtain ⟨b, hf⟩ := hs.exists_fwd hA htr ih
      obtain ⟨i, hi, heq⟩ := List.mem_map.mp hfield
      have hset := settled_of_done (hA.wf.fields o htr i hi) (hs.done_field hq htr hf hi)
      refine hset.2 o'.addr ?_ hsrc
      have hterm : o.field A.mem i = o'.term := heq
      exact hterm ▸ o'.heapPtr_term
  obtain ⟨os, hnodup, hmem, hsum⟩ := hs.count
  intro os' hnodup' htr
  have hsub : os' ⊆ os := fun o ho => (hmem o).mpr ⟨htr o ho, hall o (htr o ho)⟩
  obtain ⟨l, hperm, hsubl⟩ := List.subperm_of_subset hnodup' hsub
  have hle := (hsubl.map (Obj.words A.mem)).sum_le_sum fun _ _ => Nat.zero_le _
  rw [(hperm.map (Obj.words A.mem)).sum_eq] at hle
  have hused : s.region.used ≤ A.region.capacity := hs.used_le
  have hsum' : s.region.used = A.region.used + (os.map (Obj.words A.mem)).sum := hsum
  unfold HeapRegion.available
  omega

end Arena

end Beamr.Gc
