import Beamr.Atom
import Beamr.Lib.Entries
import Mathlib.Data.Fintype.Card

/-!
# The atom cache of a connection

`AtomCache` of `distribution::atom_cache`: 256 slots, the reverse map from atoms to slots and a
queue of the occupied slots, the least recently used first. A slot of the array is found by its
index, so the array is a function of a byte.
-/
namespace Beamr.Distribution

def atomCacheSize : ℕ := 256

/-- Slot indices, in the order in which a free one is looked for. -/
def slotIndices : List UInt8 := (List.range atomCacheSize).map UInt8.ofNat

theorem mem_slotIndices (index : UInt8) : index ∈ slotIndices := by
  refine List.mem_map.mpr ⟨index.toNat, List.mem_range.mpr ?_, UInt8.ofNat_toNat⟩
  exact index.toNat_lt

theorem length_le_of_nodup {indices : List UInt8} (h : indices.Nodup) :
    indices.length ≤ atomCacheSize := by
  have hsub : indices ⊆ slotIndices := fun i _ => mem_slotIndices i
  have hle := (h.subperm hsub).length_le
  rwa [slotIndices, List.length_map, List.length_range] at hle

theorem length_of_nodup_of_all {indices : List UInt8} (h : indices.Nodup)
    (hall : ∀ index, index ∈ indices) : indices.length = atomCacheSize := by
  have hnodup : slotIndices.Nodup := by decide +kernel
  have hle := (hnodup.subperm fun i _ => hall i).length_le
  rw [slotIndices, List.length_map, List.length_range] at hle
  exact Nat.le_antisymm (length_le_of_nodup h) hle

structure AtomCache where
  slots : UInt8 → Option Atom
  byAtom : List (Atom × UInt8)
  lru : List UInt8

namespace AtomCache

def new : AtomCache where
  slots _ := none
  byAtom := []
  lru := []

variable (cache : AtomCache)

def indexOf (atom : Atom) : Option UInt8 := Entries.get (· == ·) cache.byAtom atom

def removeFromLru (index : UInt8) : AtomCache :=
  { cache with lru := cache.lru.filter (· != index) }

def touch (index : UInt8) : AtomCache :=
  { cache with lru := (cache.removeFromLru index).lru ++ [index] }

def clearSlot (index : UInt8) : AtomCache :=
  let taken := match cache.slots index with
    | some oldAtom =>
      { cache with
        slots := Function.update cache.slots index none
        byAtom := Entries.erase (· == ·) oldAtom cache.byAtom }
    | none => cache
  taken.removeFromLru index

def fillSlot (index : UInt8) (atom : Atom) : AtomCache :=
  { cache with
    slots := Function.update cache.slots index (some atom)
    byAtom := Entries.put (· == ·) atom index cache.byAtom }

def replaceSlot (index : UInt8) (atom : Atom) : AtomCache :=
  ((cache.clearSlot index).fillSlot index atom).touch index

def freeIndex : Option UInt8 := slotIndices.find? fun index => (cache.slots index).isNone

/-- Pops the queue up to an occupied slot and clears that slot. -/
def evictLruFrom : List UInt8 → UInt8 × AtomCache
  | [] => (0, { cache with lru := [] }.clearSlot 0)
  | index :: rest =>
    if (cache.slots index).isSome then (index, { cache with lru := rest }.clearSlot index)
    else evictLruFrom rest

def evictLru : UInt8 × AtomCache := cache.evictLruFrom cache.lru

def insert (atom : Atom) : UInt8 × AtomCache :=
  match cache.indexOf atom with
  | some index => (index, cache.touch index)
  | none =>
    let (index, cache) := match cache.freeIndex with
      | some index => (index, cache)
      | none => cache.evictLru
    (index, cache.replaceSlot index atom)

def insertAt (index : UInt8) (atom : Atom) : AtomCache :=
  let cache := match cache.indexOf atom with
    | some existingIndex => cache.clearSlot existingIndex
    | none => cache
  cache.replaceSlot index atom

def lookupByIndex (index : UInt8) : Option Atom × AtomCache :=
  match cache.slots index with
  | some atom => (some atom, cache.touch index)
  | none => (none, cache)

def lookupByAtom (atom : Atom) : Option UInt8 × AtomCache :=
  match cache.indexOf atom with
  | some index => (some index, cache.touch index)
  | none => (none, cache)

def len : ℕ := cache.byAtom.length

/-- The three parts describe the same entries. -/
structure Consistent : Prop where
  distinct : Entries.Distinct (· == ·) cache.byAtom
  inverse : ∀ atom index, cache.indexOf atom = some index ↔ cache.slots index = some atom
  nodup : cache.lru.Nodup
  queued : ∀ index, index ∈ cache.lru ↔ (cache.slots index).isSome

/-! ## Each operation keeps the parts together -/

variable {cache}

theorem consistent_new : new.Consistent where
  distinct := List.Pairwise.nil
  inverse atom index := by simp [indexOf, new, Entries.get]
  nodup := List.nodup_nil
  queued index := by simp [new]

@[simp] theorem touch_slots (index : UInt8) : (cache.touch index).slots = cache.slots := rfl

@[simp] theorem touch_byAtom (index : UInt8) : (cache.touch index).byAtom = cache.byAtom := rfl

@[simp] theorem touch_lru (index : UInt8) :
    (cache.touch index).lru = cache.lru.filter (· != index) ++ [index] := rfl

@[simp] theorem clearSlot_slots (index : UInt8) :
    (cache.clearSlot index).slots = Function.update cache.slots index none := by
  rw [clearSlot]
  cases h : cache.slots index with
  | some atom => rfl
  | none => exact (Function.update_eq_self_iff.mpr h.symm).symm

@[simp] theorem clearSlot_lru (index : UInt8) :
    (cache.clearSlot index).lru = cache.lru.filter (· != index) := by
  rw [clearSlot]
  cases cache.slots index <;> rfl

@[simp] theorem fillSlot_slots (index : UInt8) (atom : Atom) :
    (cache.fillSlot index atom).slots = Function.update cache.slots index (some atom) := rfl

@[simp] theorem fillSlot_lru (index : UInt8) (atom : Atom) :
    (cache.fillSlot index atom).lru = cache.lru := rfl

@[simp] theorem replaceSlot_slots (index : UInt8) (atom : Atom) :
    (cache.replaceSlot index atom).slots = Function.update cache.slots index (some atom) := by
  rw [replaceSlot, touch_slots, fillSlot_slots, clearSlot_slots, Function.update_idem]

@[simp] theorem replaceSlot_lru (index : UInt8) (atom : Atom) :
    (cache.replaceSlot index atom).lru = cache.lru.filter (· != index) ++ [index] := by
  simp [replaceSlot, List.filter_filter]

namespace Consistent

theorem touch (h : cache.Consistent) {index : UInt8} (hindex : (cache.slots index).isSome) :
    (cache.touch index).Consistent where
  distinct := h.distinct
  inverse := h.inverse
  nodup := by
    rw [touch_lru, List.nodup_append]
    refine ⟨h.nodup.filter _, List.nodup_singleton _, ?_⟩
    intro i hi j hj hij
    rw [List.mem_singleton] at hj
    subst hij hj
    simp at hi
  queued i := by
    rw [touch_lru, touch_slots, List.mem_append, List.mem_singleton, List.mem_filter, h.queued]
    by_cases hi : i = index
    · simp [hi, hindex]
    · simp [hi]

theorem clearSlot (h : cache.Consistent) (index : UInt8) : (cache.clearSlot index).Consistent where
  distinct := by
    rw [AtomCache.clearSlot]
    split
    · exact h.distinct.erase
    · exact h.distinct
  inverse atom i := by
    rw [clearSlot_slots, indexOf, AtomCache.clearSlot]
    cases hold : cache.slots index with
    | none =>
      rw [Function.update_eq_self_iff.mpr hold.symm]
      exact h.inverse atom i
    | some oldAtom =>
      have hat : cache.indexOf oldAtom = some index := (h.inverse oldAtom index).mpr hold
      dsimp only [removeFromLru]
      by_cases hatom : oldAtom = atom
      · subst hatom
        rw [Entries.get_erase_self]
        by_cases hi : i = index
        · simp [hi]
        · rw [Function.update_of_ne hi, ← h.inverse oldAtom i, hat]
          simp [Ne.symm hi]
      · rw [Entries.get_erase_of_ne _ hatom]
        by_cases hi : i = index
        · subst hi
          rw [Function.update_self, ← indexOf, h.inverse atom i, hold]
          simp [hatom]
        · rw [Function.update_of_ne hi]
          exact h.inverse atom i
  nodup := by
    rw [clearSlot_lru]
    exact h.nodup.filter _
  queued i := by
    rw [clearSlot_lru, clearSlot_slots, List.mem_filter, h.queued]
    by_cases hi : i = index
    · simp [hi]
    · simp [hi]

/-- A cleared slot takes an atom that is in no slot. -/
theorem fill (h : cache.Consistent) {index : UInt8} {atom : Atom}
    (hatom : cache.indexOf atom = none) (hslot : cache.slots index = none) :
    ((cache.fillSlot index atom).touch index).Consistent where
  distinct := h.distinct.put Entries.sameOn_univ (Entries.over_univ _) trivial index
  inverse other i := by
    rw [touch_slots, fillSlot_slots, indexOf, touch_byAtom, fillSlot]
    by_cases hother : atom = other
    · subst hother
      rw [Entries.get_put_self]
      by_cases hi : i = index
      · simp [hi]
      · rw [Function.update_of_ne hi, ← h.inverse, hatom]
        simp [Ne.symm hi]
    · rw [Entries.get_put_of_ne _ hother]
      by_cases hi : i = index
      · subst hi
        rw [Function.update_self, ← indexOf, h.inverse, hslot]
        simp [hother]
      · rw [Function.update_of_ne hi]
        exact h.inverse other i
  nodup := by
    have hnotin : index ∉ cache.lru := by rw [h.queued, hslot]; simp
    rw [touch_lru, List.nodup_append]
    refine ⟨h.nodup.filter _, List.nodup_singleton _, ?_⟩
    intro i hi j hj hij
    rw [List.mem_singleton] at hj
    subst hij hj
    exact hnotin (List.mem_filter.mp hi).1
  queued i := by
    rw [touch_lru, touch_slots, fillSlot_slots, fillSlot_lru, List.mem_append, List.mem_singleton,
      List.mem_filter, h.queued]
    by_cases hi : i = index
    · simp [hi]
    · simp [hi]

theorem indexOf_clearSlot (h : cache.Consistent) {index : UInt8} {atom : Atom}
    (hatom : cache.indexOf atom = none ∨ cache.slots index = some atom) :
    (cache.clearSlot index).indexOf atom = none := by
  rw [← Option.not_isSome_iff_eq_none, Option.isSome_iff_exists]
  rintro ⟨i, hi⟩
  rw [(h.clearSlot index).inverse, clearSlot_slots] at hi
  by_cases hindex : i = index
  · rw [hindex, Function.update_self] at hi
    cases hi
  · rw [Function.update_of_ne hindex, ← h.inverse] at hi
    rcases hatom with hatom | hatom
    · rw [hatom] at hi
      cases hi
    · rw [(h.inverse atom index).mpr hatom] at hi
      exact hindex (Option.some.inj hi).symm

theorem replaceSlot (h : cache.Consistent) (index : UInt8) {atom : Atom}
    (hatom : cache.indexOf atom = none) : (cache.replaceSlot index atom).Consistent :=
  (h.clearSlot index).fill (h.indexOf_clearSlot (.inl hatom)) (by simp)

end Consistent

/-! ## A new atom -/

theorem freeIndex_eq_none : cache.freeIndex = none → ∀ index, (cache.slots index).isSome := by
  intro h index
  have hindex := List.find?_eq_none.mp h index (mem_slotIndices index)
  simpa [Option.isSome_iff_ne_none] using hindex

/-- A full cache clears the slot at the front of its queue, which holds every slot. -/
theorem Consistent.evictLru (h : cache.Consistent) (hfull : ∀ index, (cache.slots index).isSome) :
    ∃ index rest, cache.lru = index :: rest ∧ cache.evictLru = (index, cache.clearSlot index) := by
  cases hlru : cache.lru with
  | nil =>
    have hzero := (h.queued 0).mpr (hfull 0)
    rw [hlru] at hzero
    cases hzero
  | cons index rest =>
    refine ⟨index, rest, rfl, ?_⟩
    obtain ⟨atom, hatom⟩ := Option.isSome_iff_exists.mp (hfull index)
    have hnodup := h.nodup
    rw [hlru] at hnodup
    have hfilter : (index :: rest).filter (· != index) = rest.filter (· != index) := by simp
    rw [AtomCache.evictLru, hlru, evictLruFrom, if_pos (hfull index), AtomCache.clearSlot,
      AtomCache.clearSlot, hatom]
    dsimp only [removeFromLru]
    rw [hlru, hfilter]

/-- A new atom takes a free slot, or the least recently used one when there is none. -/
theorem Consistent.insert_new (h : cache.Consistent) {atom : Atom}
    (hatom : cache.indexOf atom = none) :
    (cache.insert atom).2.Consistent ∧
    (cache.insert atom).2.slots =
      Function.update cache.slots (cache.insert atom).1 (some atom) ∧
    (cache.insert atom).2.lru =
      cache.lru.filter (· != (cache.insert atom).1) ++ [(cache.insert atom).1] ∧
    ((cache.insert atom).1 ∉ cache.lru ∨
      ∃ rest, cache.lru = (cache.insert atom).1 :: rest ∧ cache.lru.length = atomCacheSize) := by
  rw [insert, hatom]
  dsimp only
  cases hfree : cache.freeIndex with
  | some index =>
    dsimp only
    have hslot : cache.slots index = none := by
      have hfound := List.find?_some hfree
      simpa using hfound
    refine ⟨h.replaceSlot index hatom, replaceSlot_slots index atom, replaceSlot_lru index atom,
      .inl ?_⟩
    rw [h.queued, hslot]
    simp
  | none =>
    have hfull := freeIndex_eq_none hfree
    obtain ⟨index, rest, hlru, hevict⟩ := h.evictLru hfull
    rw [hevict]
    dsimp only
    refine ⟨(h.clearSlot index).replaceSlot index (h.indexOf_clearSlot (.inl hatom)), ?_, ?_,
      .inr ⟨rest, hlru, ?_⟩⟩
    · rw [replaceSlot_slots, clearSlot_slots, Function.update_idem]
    · rw [replaceSlot_lru, clearSlot_lru, List.filter_filter]
      simp
    · exact length_of_nodup_of_all h.nodup fun i => (h.queued i).mpr (hfull i)

theorem Consistent.insert (h : cache.Consistent) (atom : Atom) :
    (cache.insert atom).2.Consistent := by
  cases hatom : cache.indexOf atom with
  | none => exact (h.insert_new hatom).1
  | some index =>
    rw [AtomCache.insert, hatom]
    exact h.touch (by rw [(h.inverse atom index).mp hatom]; rfl)

theorem Consistent.insertAt (h : cache.Consistent) (index : UInt8) (atom : Atom) :
    (cache.insertAt index atom).Consistent := by
  rw [AtomCache.insertAt]
  cases hatom : cache.indexOf atom with
  | none => exact h.replaceSlot index hatom
  | some existingIndex =>
    exact (h.clearSlot existingIndex).replaceSlot index
      (h.indexOf_clearSlot (.inr ((h.inverse atom existingIndex).mp hatom)))

theorem Consistent.lookupByIndex (h : cache.Consistent) (index : UInt8) :
    (cache.lookupByIndex index).2.Consistent := by
  rw [AtomCache.lookupByIndex]
  cases hslot : cache.slots index with
  | none => exact h
  | some atom => exact h.touch (by rw [hslot]; rfl)

theorem Consistent.lookupByAtom (h : cache.Consistent) (atom : Atom) :
    (cache.lookupByAtom atom).2.Consistent := by
  rw [AtomCache.lookupByAtom]
  cases hatom : cache.indexOf atom with
  | none => exact h
  | some index => exact h.touch (by rw [(h.inverse atom index).mp hatom]; rfl)

/-- The map and the queue have one entry for each occupied slot. -/
theorem Consistent.perm_lru (h : cache.Consistent) :
    (cache.byAtom.map (·.2)).Perm cache.lru := by
  have hmem : ∀ e ∈ cache.byAtom, cache.slots e.2 = some e.1 := fun e he =>
    (h.inverse e.1 e.2).mp (Entries.get_of_mem Entries.sameOn_univ (Entries.over_univ _) h.distinct
      trivial he (beq_self_eq_true _))
  have hnodup : (cache.byAtom.map (·.2)).Nodup := by
    refine List.pairwise_map.mpr (h.distinct.imp_of_mem ?_)
    intro a b ha hb hab hindex
    have hsome : some a.1 = some b.1 := by
      rw [← hmem a ha, ← hmem b hb, hindex]
    rw [Option.some.inj hsome] at hab
    simp at hab
  rw [List.perm_ext_iff_of_nodup hnodup h.nodup]
  intro index
  rw [h.queued, Option.isSome_iff_exists]
  constructor
  · intro hindex
    obtain ⟨e, he, rfl⟩ := List.mem_map.mp hindex
    exact ⟨e.1, hmem e he⟩
  · rintro ⟨atom, hatom⟩
    obtain ⟨e, he, -, hindex⟩ := Entries.exists_of_get ((h.inverse atom index).mpr hatom)
    exact List.mem_map.mpr ⟨e, he, hindex⟩

theorem Consistent.len_le (h : cache.Consistent) : cache.len ≤ atomCacheSize := by
  have hlength := h.perm_lru.length_eq
  rw [List.length_map] at hlength
  rw [len, hlength]
  exact length_le_of_nodup h.nodup

end AtomCache

end Beamr.Distribution
