import Beamr.Loader.ModuleRegistry

/-!
# Two versions of a module

Callers insert, delete, purge and look up modules in any order, and keep and release the handles
they got. The log of what they did to the registry says which versions it has: the current one was
inserted last, the old one was current before it. The counts of the handles tell the versions that
someone still has from those that only the registry has.
-/
namespace Beamr.Loader

/-! ## Handles -/

namespace Arcs

variable (arcs : Arcs)

@[simp] theorem strong_alloc (id : ℕ) :
    arcs.alloc.2.strong id = if id = arcs.next then 1 else arcs.strong id := by
  simp [alloc, Function.update_apply]

@[simp] theorem next_alloc : arcs.alloc.2.next = arcs.next + 1 := rfl

@[simp] theorem arc_alloc : arcs.alloc.1 = arcs.next := rfl

@[simp] theorem strong_clone (arc id : ℕ) :
    (arcs.clone arc).strong id = arcs.strong id + if id = arc then 1 else 0 := by
  by_cases h : id = arc <;> simp [clone, h]

@[simp] theorem next_clone (arc : ℕ) : (arcs.clone arc).next = arcs.next := rfl

@[simp] theorem strong_drop (arc id : ℕ) :
    (arcs.drop arc).strong id = arcs.strong id - if id = arc then 1 else 0 := by
  by_cases h : id = arc <;> simp [drop, h]

@[simp] theorem next_drop (arc : ℕ) : (arcs.drop arc).next = arcs.next := rfl

@[simp] theorem strong_dropAll (handles : List ℕ) (id : ℕ) :
    (arcs.dropAll handles).strong id = arcs.strong id - handles.count id := by
  induction handles generalizing arcs with
  | nil => simp [dropAll]
  | cons arc handles ih =>
    have hstep : arcs.dropAll (arc :: handles) = (arcs.drop arc).dropAll handles := rfl
    rw [hstep, ih, strong_drop, List.count_cons]
    by_cases h : id = arc
    · simp [h]
      omega
    · simp [h, Ne.symm h]

@[simp] theorem next_dropAll (handles : List ℕ) : (arcs.dropAll handles).next = arcs.next := by
  induction handles generalizing arcs with
  | nil => rfl
  | cons arc handles ih => exact ih (arcs.drop arc)

end Arcs

namespace ModuleRegistry

/-- The handles that the slot of the name has. -/
def heldBy (r : ModuleRegistry) (name : Atom) : List ℕ :=
  ((r.versions? name).map fun versions => versions.all.map (·.arc)).getD []

/-- The strong count of a version counts the handles that callers have, and one more if a slot has
it; no two slots have the same version. -/
structure Counted (r : ModuleRegistry) (handles : List ℕ) : Prop where
  held : ∀ name, ∀ id ∈ r.heldBy name, r.arcs.strong id = handles.count id + 1
  free : ∀ id, (∀ name, id ∉ r.heldBy name) → r.arcs.strong id = handles.count id
  distinct : ∀ name other, ∀ id ∈ r.heldBy name, id ∈ r.heldBy other → name = other
  nodup : ∀ name, (r.heldBy name).Nodup
  unused : ∀ id, r.arcs.next ≤ id → r.arcs.strong id = 0

variable {r r' : ModuleRegistry} {handles handles' : List ℕ} {name : Atom}

theorem counted_new : Counted new [] where
  held _ _ h := by simp [heldBy, versions?, new] at h
  free _ _ := rfl
  distinct _ _ _ h := by simp [heldBy, versions?, new] at h
  nodup _ := by simp [heldBy, versions?, new]
  unused _ _ := rfl

theorem Counted.not_heldBy_of_unused (h : Counted r handles) {id : ℕ} (hid : r.arcs.next ≤ id)
    (name : Atom) : id ∉ r.heldBy name := by
  intro hheld
  have hcount := h.held name id hheld
  have hzero := h.unused id hid
  omega

theorem Counted.strong_pos (h : Counted r handles) {id : ℕ} (hid : id ∈ handles) :
    0 < r.arcs.strong id := by
  have hpos := List.count_pos_iff.2 hid
  by_cases hheld : ∃ name, id ∈ r.heldBy name
  · obtain ⟨name, hname⟩ := hheld
    have := h.held name id hname
    omega
  · have := h.free id (by simpa using hheld)
    omega

/-- Handles of callers come and go. -/
theorem Counted.callers (h : Counted r handles) (hmodules : r'.modules = r.modules)
    (hstrong : ∀ id, r'.arcs.strong id + handles.count id =
      r.arcs.strong id + handles'.count id)
    (hunused : ∀ id, r'.arcs.next ≤ id → r'.arcs.strong id = 0) : Counted r' handles' := by
  have hheldBy (name : Atom) : r'.heldBy name = r.heldBy name := by
    simp [heldBy, versions?, hmodules]
  constructor
  · intro name id hid
    have := h.held name id (hheldBy name ▸ hid)
    have := hstrong id
    omega
  · intro id hid
    have := h.free id fun name => hheldBy name ▸ hid name
    have := hstrong id
    omega
  · intro name other id hname hother
    rw [hheldBy] at hname hother
    exact h.distinct name other id hname hother
  · intro name
    rw [hheldBy]
    exact h.nodup name
  · exact hunused

variable (name) in
/-- One slot changes: the counts follow the handles that it gives up and those that it takes. -/
theorem Counted.slot (h : Counted r handles)
    (hother : ∀ other ≠ name, r'.heldBy other = r.heldBy other)
    (hnodup : (r'.heldBy name).Nodup)
    (hnew : ∀ id ∈ r'.heldBy name, id ∈ r.heldBy name ∨ ∀ other, id ∉ r.heldBy other)
    (hstrong : ∀ id, r'.arcs.strong id + handles.count id + (r.heldBy name).count id =
      r.arcs.strong id + handles'.count id + (r'.heldBy name).count id)
    (hunused : ∀ id, r'.arcs.next ≤ id → r'.arcs.strong id = 0) : Counted r' handles' := by
  -- A slot that has a version of another name keeps it, so the version is not among the new ones.
  have hapart (other : Atom) (hne : other ≠ name) (id : ℕ) (hid : id ∈ r.heldBy other) :
      id ∉ r.heldBy name ∧ id ∉ r'.heldBy name := by
    have hold : id ∉ r.heldBy name := fun hmem => hne (h.distinct other name id hid hmem)
    refine ⟨hold, fun hmem => ?_⟩
    obtain hmem | hnone := hnew id hmem
    · exact hold hmem
    · exact hnone other hid
  constructor
  · intro other id hid
    have hcount := hstrong id
    by_cases hne : other = name
    · subst hne
      rw [List.count_eq_one_of_mem hnodup hid] at hcount
      obtain hmem | hnone := hnew id hid
      · rw [List.count_eq_one_of_mem (h.nodup other) hmem] at hcount
        have := h.held other id hmem
        omega
      · rw [List.count_eq_zero_of_not_mem (hnone other)] at hcount
        have := h.free id hnone
        omega
    · rw [hother other hne] at hid
      obtain ⟨hold, hnot⟩ := hapart other hne id hid
      rw [List.count_eq_zero_of_not_mem hold, List.count_eq_zero_of_not_mem hnot] at hcount
      have := h.held other id hid
      omega
  · intro id hid
    have hcount := hstrong id
    rw [List.count_eq_zero_of_not_mem (hid name)] at hcount
    by_cases hmem : id ∈ r.heldBy name
    · rw [List.count_eq_one_of_mem (h.nodup name) hmem] at hcount
      have := h.held name id hmem
      omega
    · rw [List.count_eq_zero_of_not_mem hmem] at hcount
      have hfree := h.free id fun other => by
        by_cases hne : other = name
        · rwa [hne]
        · exact hother other hne ▸ hid other
      omega
  · intro first second id hfirst hsecond
    by_cases hf : first = name <;> by_cases hs : second = name
    · rw [hf, hs]
    · subst hf
      rw [hother second hs] at hsecond
      exact absurd hfirst (hapart second hs id hsecond).2
    · subst hs
      rw [hother first hf] at hfirst
      exact absurd hsecond (hapart first hf id hfirst).2
    · rw [hother first hf] at hfirst
      rw [hother second hs] at hsecond
      exact h.distinct first second id hfirst hsecond
  · intro other
    by_cases hne : other = name
    · rwa [hne]
    · rw [hother other hne]
      exact h.nodup other
  · exact hunused

/-! ## What the operations do to a slot -/

/-- The generation of the next version of the name. -/
def nextGeneration (r : ModuleRegistry) (name : Atom) : ℕ :=
  match r.modules name with
  | none => 1
  | some slot =>
    match slot.versions with
    | none => max slot.nextGeneration 1
    | some versions => nextGenerationOf versions.current.module.generation

theorem heldBy_of_versions {versions : ModuleVersions} (h : r.versions? name = some versions) :
    r.heldBy name = versions.all.map (·.arc) := by
  simp [heldBy, h]

theorem heldBy_of_versions_none (h : r.versions? name = none) : r.heldBy name = [] := by
  simp [heldBy, h]

theorem heldBy_congr (h : r'.versions? name = r.versions? name) :
    r'.heldBy name = r.heldBy name := by
  simp only [heldBy, h]

section Insert

variable (r : ModuleRegistry) (module : Module)

theorem insert_fst : (r.insert module).1 =
    ⟨r.arcs.next, { module with generation := r.nextGeneration module.name }⟩ := by
  unfold insert nextGeneration
  cases r.modules module.name with
  | none => rfl
  | some slot => cases hversions : slot.versions <;> simp [hversions, install]

theorem insert_modules : (r.insert module).2.modules = Function.update r.modules module.name
    (some ⟨some ⟨(r.insert module).1, r.lookup module.name⟩,
      nextGenerationOf (r.nextGeneration module.name)⟩) := by
  rw [insert_fst]
  unfold insert nextGeneration lookup versions?
  cases hslot : r.modules module.name with
  | none => simp [install]
  | some slot => cases hversions : slot.versions <;> simp [hversions, install]

theorem insert_next : (r.insert module).2.arcs.next = r.arcs.next + 1 := by
  unfold insert
  cases r.modules module.name with
  | none => rfl
  | some slot => cases hversions : slot.versions <;> simp [hversions, install]

/-- The current version gets a handle as the old one, before its handle as the current one goes. -/
theorem insert_strong (id : ℕ) : (r.insert module).2.arcs.strong id =
    (if id = r.arcs.next then 2 else r.arcs.strong id + ((r.lookup module.name).elim 0
      fun current => if id = current.arc then 1 else 0)) - (r.heldBy module.name).count id := by
  unfold insert lookup heldBy versions?
  cases hslot : r.modules module.name with
  | none => by_cases hid : id = r.arcs.next <;> simp [install, hid]
  | some slot =>
    cases hversions : slot.versions with
    | none => by_cases hid : id = r.arcs.next <;> simp [hversions, install, hid]
    | some versions => by_cases hid : id = r.arcs.next <;> simp [hversions, install, hid]

theorem versions?_insert : (r.insert module).2.versions? module.name =
    some ⟨(r.insert module).1, r.lookup module.name⟩ := by
  simp [versions?, insert_modules]

theorem versions?_insert_of_ne {other : Atom} (h : other ≠ module.name) :
    (r.insert module).2.versions? other = r.versions? other := by
  simp [versions?, insert_modules, h]

end Insert

section Remove

variable (r : ModuleRegistry) {name : Atom} {old : SharedModule}

theorem lookupOld_eq_some : r.lookupOld name = some old ↔ ∃ slot versions,
    r.modules name = some slot ∧ slot.versions = some versions ∧ versions.old = some old := by
  simp only [lookupOld, versions?, Option.bind_eq_some_iff]
  constructor
  · rintro ⟨versions, ⟨slot, hslot, hversions⟩, hold⟩
    exact ⟨slot, versions, hslot, hversions, hold⟩
  · rintro ⟨slot, versions, hslot, hversions, hold⟩
    exact ⟨versions, ⟨slot, hslot, hversions⟩, hold⟩

theorem forceRemoveOld_of_none (h : r.lookupOld name = none) :
    r.forceRemoveOld name = (.error (.noOldVersion name), r) := by
  unfold lookupOld versions? at h
  unfold forceRemoveOld
  cases hslot : r.modules name with
  | none => rfl
  | some slot =>
    cases hversions : slot.versions with
    | none => simp [hversions]
    | some versions =>
      have hold : versions.old = none := by simpa [hslot, hversions] using h
      simp [hversions, hold]

theorem forceRemoveOld_of_some (h : r.lookupOld name = some old) : ∃ slot versions,
    r.modules name = some slot ∧ slot.versions = some versions ∧ versions.old = some old ∧
      r.forceRemoveOld name = (.ok (), r.dropOld name slot versions old.arc) := by
  obtain ⟨slot, versions, hslot, hversions, hold⟩ := r.lookupOld_eq_some.1 h
  refine ⟨slot, versions, hslot, hversions, hold, ?_⟩
  simp [forceRemoveOld, hslot, hversions, hold]

theorem purgeOld_of_none (h : r.lookupOld name = none) :
    r.purgeOld name = (.error (.noOldVersion name), r) := by
  unfold lookupOld versions? at h
  unfold purgeOld
  cases hslot : r.modules name with
  | none => rfl
  | some slot =>
    cases hversions : slot.versions with
    | none => simp [hversions]
    | some versions =>
      have hold : versions.old = none := by simpa [hslot, hversions] using h
      simp [hversions, hold]

/-- A purge is a removal that first looks at the count of the old version. -/
theorem purgeOld_of_some (h : r.lookupOld name = some old) : r.purgeOld name =
    if r.arcs.strong old.arc = 1 then r.forceRemoveOld name
    else (.error (.stillReferenced name (r.arcs.strong old.arc)), r) := by
  obtain ⟨slot, versions, hslot, hversions, hold⟩ := r.lookupOld_eq_some.1 h
  by_cases hcount : r.arcs.strong old.arc = 1 <;>
    simp [purgeOld, forceRemoveOld, hslot, hversions, hold, hcount]

variable {slot : ModuleSlot} {versions : ModuleVersions}

theorem versions?_dropOld (arc : ℕ) : (r.dropOld name slot versions arc).versions? name =
    some { versions with old := none } := by
  simp [versions?, dropOld]

theorem versions?_dropOld_of_ne (arc : ℕ) {other : Atom} (h : other ≠ name) :
    (r.dropOld name slot versions arc).versions? other = r.versions? other := by
  simp [versions?, dropOld, h]

theorem nextGeneration_dropOld (arc : ℕ) (hslot : r.modules name = some slot)
    (hversions : slot.versions = some versions) (other : Atom) :
    (r.dropOld name slot versions arc).nextGeneration other = r.nextGeneration other := by
  by_cases h : other = name
  · subst h
    simp [nextGeneration, dropOld, hslot, hversions]
  · simp [nextGeneration, dropOld, h]

theorem deleteModule_of_none (h : r.versions? name = none) : r.deleteModule name = (false, r) := by
  unfold versions? at h
  unfold deleteModule
  cases hslot : r.modules name with
  | none => rfl
  | some slot =>
    have hversions : slot.versions = none := by simpa [hslot] using h
    simp [hversions]

theorem deleteModule_of_some (h : r.versions? name = some versions) : ∃ slot,
    r.modules name = some slot ∧ slot.versions = some versions ∧
      r.deleteModule name = (true, {
        modules := Function.update r.modules name (some { slot with versions := none })
        arcs := r.arcs.dropAll (versions.all.map (·.arc)) }) := by
  obtain ⟨slot, hslot, hversions⟩ := Option.bind_eq_some_iff.1 h
  exact ⟨slot, hslot, hversions, by simp [deleteModule, hslot, hversions]⟩

variable (name) in
theorem versions?_deleteModule : (r.deleteModule name).2.versions? name = none := by
  cases h : r.versions? name with
  | none => rwa [r.deleteModule_of_none h]
  | some versions =>
    obtain ⟨slot, -, -, heq⟩ := r.deleteModule_of_some h
    simp [heq, versions?]

theorem versions?_deleteModule_of_ne {other : Atom} (hne : other ≠ name) :
    (r.deleteModule name).2.versions? other = r.versions? other := by
  cases h : r.versions? name with
  | none => rw [r.deleteModule_of_none h]
  | some versions =>
    obtain ⟨slot, -, -, heq⟩ := r.deleteModule_of_some h
    simp [heq, versions?, hne]

end Remove

/-! ## The counts follow every operation -/

theorem Counted.insert (h : Counted r handles) (module : Module) :
    Counted (r.insert module).2 ((r.insert module).1.arc :: handles) := by
  have hfresh := h.not_heldBy_of_unused le_rfl module.name
  have hheld' : (r.insert module).2.heldBy module.name =
      r.arcs.next :: ((r.lookup module.name).map (·.arc)).toList := by
    rw [heldBy_of_versions (r.versions?_insert module), insert_fst]
    cases r.lookup module.name <;> rfl
  have hcurrent : ∀ current, r.lookup module.name = some current →
      current.arc ∈ r.heldBy module.name := by
    intro current hlookup
    obtain ⟨versions, hversions, rfl⟩ := Option.map_eq_some_iff.1 hlookup
    rw [heldBy_of_versions hversions]
    simp [ModuleVersions.all]
  have hnext : r.arcs.next ∉ handles := fun hmem => by
    have := h.strong_pos hmem
    have := h.unused _ le_rfl
    omega
  refine h.slot module.name (fun other hne => ?_) ?_ ?_ ?_ ?_
  · exact heldBy_congr (r.versions?_insert_of_ne module hne)
  · rw [hheld']
    cases hlookup : r.lookup module.name with
    | none => simp
    | some current =>
      have hne : r.arcs.next ≠ current.arc := fun heq =>
        hfresh (heq ▸ hcurrent current hlookup)
      simp [hne]
  · intro id hid
    rw [hheld'] at hid
    obtain rfl | hid := List.mem_cons.1 hid
    · exact .inr fun other => h.not_heldBy_of_unused le_rfl other
    · left
      obtain ⟨current, hlookup, rfl⟩ : ∃ current, r.lookup module.name = some current ∧
          current.arc = id := by simpa using hid
      exact hcurrent current hlookup
  · intro id
    rw [insert_strong, hheld', insert_fst]
    by_cases hid : id = r.arcs.next
    · subst hid
      have hzero := h.unused _ le_rfl
      have hcount : ((r.lookup module.name).map (·.arc)).toList.count r.arcs.next = 0 := by
        refine List.count_eq_zero_of_not_mem fun hmem => ?_
        obtain ⟨current, hlookup, heq⟩ : ∃ current, r.lookup module.name = some current ∧
          current.arc = r.arcs.next := by simpa using hmem
        exact hfresh (heq ▸ hcurrent current hlookup)
      simp [List.count_eq_zero_of_not_mem hfresh, hzero, hcount]
      omega
    · have hle : (r.heldBy module.name).count id ≤ r.arcs.strong id := by
        by_cases hmem : id ∈ r.heldBy module.name
        · have := h.held module.name id hmem
          rw [List.count_eq_one_of_mem (h.nodup module.name) hmem]
          omega
        · simp [List.count_eq_zero_of_not_mem hmem]
      have hlookup : (((r.lookup module.name).map (·.arc)).toList).count id =
          (r.lookup module.name).elim 0 fun current => if id = current.arc then 1 else 0 := by
        cases r.lookup module.name with
        | none => rfl
        | some current => by_cases heq : id = current.arc <;> simp [heq, Ne.symm]
      simp [hid, Ne.symm hid, hlookup]
      omega
  · intro id hid
    rw [insert_next] at hid
    rw [insert_strong]
    have hzero := h.unused id (by omega)
    have hne : id ≠ r.arcs.next := by omega
    cases hlookup : r.lookup module.name with
    | none => simp [hne, hzero]
    | some current =>
      have hother : id ≠ current.arc := by
        rintro rfl
        exact h.not_heldBy_of_unused (by omega) _ (hcurrent current hlookup)
      simp [hne, hother, hzero]

theorem Counted.dropOld (h : Counted r handles) {old : SharedModule} {slot : ModuleSlot}
    {versions : ModuleVersions} (hslot : r.modules name = some slot)
    (hversions : slot.versions = some versions) (hold : versions.old = some old) :
    Counted (r.dropOld name slot versions old.arc) handles := by
  have hheld : r.heldBy name = [versions.current.arc, old.arc] := by
    have : r.versions? name = some versions := by simp [versions?, hslot, hversions]
    rw [heldBy_of_versions this]
    simp [ModuleVersions.all, hold]
  have hheld' : (r.dropOld name slot versions old.arc).heldBy name = [versions.current.arc] := by
    rw [heldBy_of_versions (r.versions?_dropOld old.arc)]
    simp [ModuleVersions.all]
  refine h.slot name (fun other hne => ?_) ?_ ?_ ?_ ?_
  · exact heldBy_congr (r.versions?_dropOld_of_ne old.arc hne)
  · simp [hheld']
  · intro id hid
    left
    rw [hheld'] at hid
    rw [hheld]
    exact List.mem_cons.2 (.inl (List.mem_singleton.1 hid))
  · intro id
    have hstrong : (r.dropOld name slot versions old.arc).arcs.strong id =
        r.arcs.strong id - if id = old.arc then 1 else 0 := Arcs.strong_drop r.arcs old.arc id
    have hpos := h.held name old.arc (by simp [hheld])
    rw [hstrong, hheld, hheld', List.count_cons, List.count_singleton, List.count_singleton]
    by_cases hid : id = old.arc
    · subst hid
      simp
      omega
    · simp [hid, Ne.symm hid]
  · intro id hid
    have hzero := h.unused id hid
    simp [ModuleRegistry.dropOld, hzero]

theorem Counted.forceRemoveOld (h : Counted r handles) (name : Atom) :
    Counted (r.forceRemoveOld name).2 handles := by
  cases hold : r.lookupOld name with
  | none => rwa [r.forceRemoveOld_of_none hold]
  | some old =>
    obtain ⟨slot, versions, hslot, hversions, hsome, heq⟩ := r.forceRemoveOld_of_some hold
    rw [heq]
    exact h.dropOld hslot hversions hsome

theorem Counted.purgeOld (h : Counted r handles) (name : Atom) :
    Counted (r.purgeOld name).2 handles := by
  cases hold : r.lookupOld name with
  | none => rwa [r.purgeOld_of_none hold]
  | some old =>
    rw [r.purgeOld_of_some hold]
    split
    · exact h.forceRemoveOld name
    · exact h

theorem Counted.deleteModule (h : Counted r handles) (name : Atom) :
    Counted (r.deleteModule name).2 handles := by
  cases hversions : r.versions? name with
  | none => rwa [r.deleteModule_of_none hversions]
  | some versions =>
    have hheld' := heldBy_of_versions_none (r.versions?_deleteModule name)
    obtain ⟨slot, -, -, heq⟩ := r.deleteModule_of_some hversions
    have hstrong (id : ℕ) : (r.deleteModule name).2.arcs.strong id =
        r.arcs.strong id - (r.heldBy name).count id := by
      rw [heq, heldBy_of_versions hversions]
      exact Arcs.strong_dropAll _ _ id
    refine h.slot name (fun other hne => ?_) ?_ ?_ ?_ ?_
    · exact heldBy_congr (r.versions?_deleteModule_of_ne hne)
    · simp [hheld']
    · simp [hheld']
    · intro id
      rw [hstrong, hheld']
      by_cases hmem : id ∈ r.heldBy name
      · have := h.held name id hmem
        rw [List.count_eq_one_of_mem (h.nodup name) hmem]
        simp
        omega
      · simp [List.count_eq_zero_of_not_mem hmem]
    · intro id hid
      have hnext : (r.deleteModule name).2.arcs.next = r.arcs.next := by
        rw [heq]
        exact Arcs.next_dropAll _ _
      rw [hstrong, h.unused id (hnext ▸ hid)]
      exact Nat.zero_sub _

end ModuleRegistry

/-! ## The log -/

/-- What happened to the versions of a name. -/
inductive VersionEvent
  | inserted (module : Module) (version : SharedModule)
  | deleted (name : Atom)
  | oldRemoved (name : Atom)

/-- The version inserted last since the last delete; the log has the newest event first. -/
def currentOf (name : Atom) : List VersionEvent → Option SharedModule
  | [] => none
  | .inserted module version :: earlier =>
    if module.name = name then some version else currentOf name earlier
  | .deleted deleted :: earlier => if deleted = name then none else currentOf name earlier
  | .oldRemoved _ :: earlier => currentOf name earlier

/-- The version that was current before the current one, unless it was removed since. -/
def oldOf (name : Atom) : List VersionEvent → Option SharedModule
  | [] => none
  | .inserted module _ :: earlier =>
    if module.name = name then currentOf name earlier else oldOf name earlier
  | .deleted deleted :: earlier => if deleted = name then none else oldOf name earlier
  | .oldRemoved removed :: earlier => if removed = name then none else oldOf name earlier

/-- The generations that the name was given, the latest first. -/
def generationsOf (name : Atom) : List VersionEvent → List ℕ
  | [] => []
  | .inserted module version :: earlier =>
    if module.name = name then version.module.generation :: generationsOf name earlier
    else generationsOf name earlier
  | _ :: earlier => generationsOf name earlier

/-! ## Runs -/

inductive RegistryAction
  | insert (module : Module)
  | delete (name : Atom)
  | purge (name : Atom)
  | forceRemove (name : Atom)
  | lookup (name : Atom)
  | lookupOld (name : Atom)
  | clone (arc : ℕ)
  | release (arc : ℕ)

/-- The registry, the handles that callers have, and the log. -/
structure RegistryRun where
  registry : ModuleRegistry
  handles : List ℕ
  log : List VersionEvent

namespace RegistryRun

def start : RegistryRun := ⟨.new, [], []⟩

/-- A caller gets a handle of the version that a lookup found. -/
def take (run : RegistryRun) : Option SharedModule → RegistryRun
  | none => run
  | some version => { run with
      registry := { run.registry with arcs := run.registry.arcs.clone version.arc }
      handles := version.arc :: run.handles }

/-- The run after a removal of an old version, which can have failed. -/
def removed (run : RegistryRun) (name : Atom) :
    Except PurgeError Unit × ModuleRegistry → RegistryRun
  | (.ok (), registry) => { run with registry, log := .oldRemoved name :: run.log }
  | (.error _, registry) => { run with registry }

def step (run : RegistryRun) : RegistryAction → RegistryRun
  | .insert module =>
    let (version, registry) := run.registry.insert module
    ⟨registry, version.arc :: run.handles, .inserted module version :: run.log⟩
  | .delete name =>
    { run with registry := (run.registry.deleteModule name).2, log := .deleted name :: run.log }
  | .purge name => run.removed name (run.registry.purgeOld name)
  | .forceRemove name => run.removed name (run.registry.forceRemoveOld name)
  | .lookup name => run.take (run.registry.lookup name)
  | .lookupOld name => run.take (run.registry.lookupOld name)
  | .clone arc =>
    if arc ∈ run.handles then { run with
      registry := { run.registry with arcs := run.registry.arcs.clone arc }
      handles := arc :: run.handles }
    else run
  | .release arc =>
    if arc ∈ run.handles then { run with
      registry := { run.registry with arcs := run.registry.arcs.drop arc }
      handles := run.handles.erase arc }
    else run

def after (actions : List RegistryAction) : RegistryRun := actions.foldl step start

/-- The registry has the versions that the log says, and the next generation is above all that were
given, up to the saturation of the counter. -/
structure Follows (run : RegistryRun) : Prop where
  current : ∀ name, run.registry.lookup name = currentOf name run.log
  old : ∀ name, run.registry.lookupOld name = oldOf name run.log
  slot : ∀ name slot versions, run.registry.modules name = some slot →
    slot.versions = some versions →
    slot.nextGeneration = nextGenerationOf versions.current.module.generation
  later : ∀ name, ∀ generation ∈ generationsOf name run.log, generation < maxGeneration →
    generation < run.registry.nextGeneration name
  increasing : ∀ name, (generationsOf name run.log).Pairwise
    fun newer older => older < maxGeneration → older < newer
  inserted : ∀ module version, .inserted module version ∈ run.log →
    version.module = { module with generation := version.module.generation }

theorem follows_start : Follows start where
  current _ := rfl
  old _ := rfl
  slot _ _ _ h := by simp [start, ModuleRegistry.new] at h
  later _ _ h := by simp [start, generationsOf] at h
  increasing _ := .nil
  inserted _ _ h := by simp [start] at h

variable {run : RegistryRun}

theorem Follows.insert (h : Follows run) (module : Module) :
    Follows (run.step (.insert module)) := by
  have hstep : run.step (.insert module) = ⟨(run.registry.insert module).2,
      (run.registry.insert module).1.arc :: run.handles,
      .inserted module (run.registry.insert module).1 :: run.log⟩ := rfl
  have hgeneration : (run.registry.insert module).1.module.generation =
      run.registry.nextGeneration module.name := by
    rw [ModuleRegistry.insert_fst]
  have hnext (name : Atom) : (run.registry.insert module).2.nextGeneration name =
      if module.name = name then nextGenerationOf (run.registry.nextGeneration module.name)
      else run.registry.nextGeneration name := by
    by_cases hname : module.name = name
    · subst hname
      simp [ModuleRegistry.nextGeneration, ModuleRegistry.insert_modules, hgeneration]
    · simp [ModuleRegistry.nextGeneration, ModuleRegistry.insert_modules, hname,
        Function.update_of_ne (Ne.symm hname)]
  have hversions (name : Atom) : (run.registry.insert module).2.versions? name =
      if module.name = name then
        some ⟨(run.registry.insert module).1, run.registry.lookup module.name⟩
      else run.registry.versions? name := by
    by_cases hname : module.name = name
    · subst hname
      simp [ModuleRegistry.versions?_insert]
    · simp [hname, ModuleRegistry.versions?_insert_of_ne _ _ (Ne.symm hname)]
  rw [hstep]
  constructor
  · intro name
    rw [ModuleRegistry.lookup, hversions, currentOf, ← h.current]
    split <;> rfl
  · intro name
    rw [ModuleRegistry.lookupOld, hversions, oldOf, ← h.current, ← h.old]
    by_cases hname : module.name = name
    · subst hname
      simp
    · simp [hname, ModuleRegistry.lookupOld]
  · intro name slot versions hslot hsome
    simp only [ModuleRegistry.insert_modules] at hslot
    by_cases hname : name = module.name
    · subst hname
      rw [Function.update_self] at hslot
      cases hslot
      cases hsome
      rw [hgeneration]
    · rw [Function.update_of_ne hname] at hslot
      exact h.slot name slot versions hslot hsome
  · intro name generation hmem hlt
    rw [hnext]
    rw [generationsOf] at hmem
    by_cases hname : module.name = name
    · subst hname
      simp only [if_true] at hmem ⊢
      obtain rfl | hmem := List.mem_cons.1 hmem
      · rw [hgeneration] at hlt ⊢
        simp only [nextGenerationOf]
        omega
      · have := h.later _ _ hmem hlt
        simp only [nextGenerationOf]
        omega
    · simp only [hname, if_false] at hmem ⊢
      exact h.later name generation hmem hlt
  · intro name
    rw [generationsOf]
    by_cases hname : module.name = name
    · subst hname
      rw [if_pos rfl, hgeneration]
      exact List.pairwise_cons.2 ⟨h.later module.name, h.increasing module.name⟩
    · rw [if_neg hname]
      exact h.increasing name
  · intro inserted version hmem
    obtain heq | hmem := List.mem_cons.1 hmem
    · cases heq
      rw [ModuleRegistry.insert_fst]
    · exact h.inserted inserted version hmem

theorem Follows.delete (h : Follows run) (name : Atom) : Follows (run.step (.delete name)) := by
  have hversions (other : Atom) : (run.registry.deleteModule name).2.versions? other =
      if name = other then none else run.registry.versions? other := by
    by_cases hname : name = other
    · subst hname
      simp [ModuleRegistry.versions?_deleteModule]
    · simp [hname, ModuleRegistry.versions?_deleteModule_of_ne _ (Ne.symm hname)]
  -- The slot of a deleted name continues where its current version was.
  have hnext (other : Atom) : (run.registry.deleteModule name).2.nextGeneration other =
      run.registry.nextGeneration other := by
    cases hsome : run.registry.versions? name with
    | none => rw [run.registry.deleteModule_of_none hsome]
    | some versions =>
      obtain ⟨slot, hslot, hslotVersions, heq⟩ := run.registry.deleteModule_of_some hsome
      rw [heq]
      by_cases hname : other = name
      · subst hname
        simp only [ModuleRegistry.nextGeneration, Function.update_self, hslot, hslotVersions]
        rw [h.slot other slot versions hslot hslotVersions]
        simp [nextGenerationOf, maxGeneration]
      · simp [ModuleRegistry.nextGeneration, Function.update_of_ne hname]
  refine ⟨fun other => ?_, fun other => ?_, fun other slot versions hslot hsome => ?_,
    fun other generation hmem hlt => ?_, h.increasing, fun inserted version hmem => ?_⟩
  · change ((run.registry.deleteModule name).2.versions? other).map _ = _
    rw [hversions, step, currentOf, ← h.current]
    split <;> rfl
  · change ((run.registry.deleteModule name).2.versions? other).bind _ = _
    rw [hversions, step, oldOf, ← h.old]
    split <;> rfl
  · have hother : (run.registry.deleteModule name).2.versions? other = some versions := by
      simp [ModuleRegistry.versions?, show (run.registry.deleteModule name).2.modules other = _
        from hslot, hsome]
    by_cases hname : other = name
    · subst hname
      rw [ModuleRegistry.versions?_deleteModule] at hother
      cases hother
    · have hmodules : (run.registry.deleteModule name).2.modules other =
          run.registry.modules other := by
        cases hnone : run.registry.versions? name with
        | none => rw [run.registry.deleteModule_of_none hnone]
        | some deleted =>
          obtain ⟨_, -, -, heq⟩ := run.registry.deleteModule_of_some hnone
          rw [heq]
          exact Function.update_of_ne hname _ _
      exact h.slot other slot versions (hmodules ▸ hslot) hsome
  · exact (hnext other).symm ▸ h.later other generation hmem hlt
  · obtain heq | hmem := List.mem_cons.1 hmem
    · cases heq
    · exact h.inserted inserted version hmem

/-- A removal that fails changes nothing. -/
theorem Follows.forceRemove (h : Follows run) (name : Atom) :
    Follows (run.removed name (run.registry.forceRemoveOld name)) := by
  cases hold : run.registry.lookupOld name with
  | none => rwa [run.registry.forceRemoveOld_of_none hold]
  | some old =>
    obtain ⟨slot, versions, hslot, hversions, hsome, heq⟩ :=
      run.registry.forceRemoveOld_of_some hold
    rw [heq]
    have hwas : run.registry.versions? name = some versions := by
      simp [ModuleRegistry.versions?, hslot, hversions]
    have hafter (other : Atom) :
        (run.registry.dropOld name slot versions old.arc).versions? other =
          if name = other then some { versions with old := none }
          else run.registry.versions? other := by
      by_cases hname : name = other
      · subst hname
        simp [ModuleRegistry.versions?_dropOld]
      · simp [hname, ModuleRegistry.versions?_dropOld_of_ne _ _ (Ne.symm hname)]
    refine ⟨fun other => ?_, fun other => ?_, fun other slot' versions' hslot' hsome' => ?_,
      fun other generation hmem hlt => ?_, h.increasing, fun inserted version hmem => ?_⟩
    · change ((run.registry.dropOld name slot versions old.arc).versions? other).map _ = _
      rw [hafter, removed, currentOf, ← h.current, ModuleRegistry.lookup]
      by_cases hname : name = other
      · subst hname
        simp [hwas]
      · simp [hname]
    · change ((run.registry.dropOld name slot versions old.arc).versions? other).bind _ = _
      rw [hafter, removed, oldOf, ← h.old, ModuleRegistry.lookupOld]
      split <;> rfl
    · change Function.update run.registry.modules name _ other = some slot' at hslot'
      by_cases hname : other = name
      · subst hname
        rw [Function.update_self] at hslot'
        cases hslot'
        cases hsome'
        exact h.slot other slot versions hslot hversions
      · rw [Function.update_of_ne hname] at hslot'
        exact h.slot other slot' versions' hslot' hsome'
    · have hnext := run.registry.nextGeneration_dropOld old.arc hslot hversions other
      exact hnext.symm ▸ h.later other generation hmem hlt
    · obtain heq | hmem := List.mem_cons.1 hmem
      · cases heq
      · exact h.inserted inserted version hmem

theorem Follows.purge (h : Follows run) (name : Atom) :
    Follows (run.removed name (run.registry.purgeOld name)) := by
  cases hold : run.registry.lookupOld name with
  | none => rwa [run.registry.purgeOld_of_none hold]
  | some old =>
    rw [run.registry.purgeOld_of_some hold]
    split
    · exact h.forceRemove name
    · exact h

/-- Handles of callers do not matter to the versions. -/
theorem Follows.callers (h : Follows run) {run' : RegistryRun}
    (hmodules : run'.registry.modules = run.registry.modules) (hlog : run'.log = run.log) :
    Follows run' := by
  constructor
  · intro name
    simpa [ModuleRegistry.lookup, ModuleRegistry.versions?, hmodules, hlog] using h.current name
  · intro name
    simpa [ModuleRegistry.lookupOld, ModuleRegistry.versions?, hmodules, hlog] using h.old name
  · rw [hmodules]
    exact h.slot
  · intro name
    simpa [ModuleRegistry.nextGeneration, hmodules, hlog] using h.later name
  · rw [hlog]
    exact h.increasing
  · rw [hlog]
    exact h.inserted

theorem Follows.take (h : Follows run) (version : Option SharedModule) :
    Follows (run.take version) := by
  cases version with
  | none => exact h
  | some version => exact h.callers rfl rfl

theorem Follows.step (h : Follows run) (action : RegistryAction) : Follows (run.step action) := by
  cases action with
  | insert module => exact h.insert module
  | delete name => exact h.delete name
  | purge name => exact h.purge name
  | forceRemove name => exact h.forceRemove name
  | lookup name => exact h.take _
  | lookupOld name => exact h.take _
  | clone arc =>
    simp only [RegistryRun.step]
    split
    · exact h.callers rfl rfl
    · exact h
  | release arc =>
    simp only [RegistryRun.step]
    split
    · exact h.callers rfl rfl
    · exact h

/-- The counts of the run's registry count the run's handles. -/
abbrev Counts (run : RegistryRun) : Prop := run.registry.Counted run.handles

open ModuleRegistry (Counted)

theorem Counts.clone (h : run.Counts) {arc : ℕ} (hpos : 0 < run.registry.arcs.strong arc) :
    Counts { run with
      registry := { run.registry with arcs := run.registry.arcs.clone arc }
      handles := arc :: run.handles } := by
  refine Counted.callers h rfl (fun id => ?_) fun id hid => ?_
  · by_cases hid : id = arc
    · simp [hid]
      omega
    · simp [hid, Ne.symm hid]
  · have hzero := h.unused id hid
    have hne : id ≠ arc := by
      rintro rfl
      omega
    simp [hne, hzero]

theorem Counts.release (h : run.Counts) {arc : ℕ} (hmem : arc ∈ run.handles) :
    Counts { run with
      registry := { run.registry with arcs := run.registry.arcs.drop arc }
      handles := run.handles.erase arc } := by
  refine Counted.callers h rfl (fun id => ?_) fun id hid => ?_
  · have hpos := Counted.strong_pos h hmem
    have hcount := List.count_pos_iff.2 hmem
    by_cases hid : id = arc
    · subst hid
      simp [List.count_erase_self]
      omega
    · simp [hid, List.count_erase_of_ne hid]
  · have hzero := h.unused id hid
    simp [hzero]

theorem Counts.take (h : run.Counts) {version : Option SharedModule}
    (hheld : ∀ found, version = some found → ∃ name, found.arc ∈ run.registry.heldBy name) :
    (run.take version).Counts := by
  cases version with
  | none => exact h
  | some found =>
    obtain ⟨name, hname⟩ := hheld found rfl
    refine Counts.clone h ?_
    have := h.held name found.arc hname
    omega

theorem Counts.removed {name : Atom}
    {outcome : Except PurgeError Unit × ModuleRegistry} (hafter : outcome.2.Counted run.handles) :
    (run.removed name outcome).Counts := by
  obtain ⟨result, registry⟩ := outcome
  cases result with
  | ok _ => exact hafter
  | error _ => exact hafter

theorem lookup_mem_heldBy {r : ModuleRegistry} {name : Atom} {version : SharedModule}
    (h : r.lookup name = some version) : version.arc ∈ r.heldBy name := by
  obtain ⟨versions, hversions, rfl⟩ := Option.map_eq_some_iff.1 h
  simp [ModuleRegistry.heldBy_of_versions hversions, ModuleVersions.all]

theorem lookupOld_mem_heldBy {r : ModuleRegistry} {name : Atom} {old : SharedModule}
    (h : r.lookupOld name = some old) : old.arc ∈ r.heldBy name := by
  obtain ⟨versions, hversions, hold⟩ := Option.bind_eq_some_iff.1 h
  simp [ModuleRegistry.heldBy_of_versions hversions, ModuleVersions.all, hold]

theorem Counts.step (h : run.Counts) (action : RegistryAction) : (run.step action).Counts := by
  cases action with
  | insert module => exact Counted.insert h module
  | delete name => exact Counted.deleteModule h name
  | purge name => exact Counts.removed (Counted.purgeOld h name)
  | forceRemove name => exact Counts.removed (Counted.forceRemoveOld h name)
  | lookup name => exact Counts.take h fun _ hfound => ⟨name, lookup_mem_heldBy hfound⟩
  | lookupOld name => exact Counts.take h fun _ hfound => ⟨name, lookupOld_mem_heldBy hfound⟩
  | clone arc =>
    by_cases hmem : arc ∈ run.handles
    · simpa [RegistryRun.step, hmem] using Counts.clone h (Counted.strong_pos h hmem)
    · simpa [RegistryRun.step, hmem] using h
  | release arc =>
    by_cases hmem : arc ∈ run.handles
    · simpa [RegistryRun.step, hmem] using Counts.release h hmem
    · simpa [RegistryRun.step, hmem] using h

theorem invariant_after (actions : List RegistryAction) :
    Follows (after actions) ∧ Counts (after actions) := by
  suffices h : ∀ run : RegistryRun, Follows run ∧ run.Counts →
      Follows (actions.foldl step run) ∧ Counts (actions.foldl step run) from
    h start ⟨follows_start, ModuleRegistry.counted_new⟩
  induction actions with
  | nil => exact fun run h => h
  | cons action actions ih => exact fun run h => ih _ ⟨h.1.step action, Counts.step h.2 action⟩

/-! ## The rule of two versions -/

/-- The registry refuses a purge for its old version when there is none, or a caller has it. -/
theorem purgeOld_error_iff (h : run.Counts) (name : Atom) :
    (∃ error, (run.registry.purgeOld name).1 = .error error) ↔
      ∀ old, run.registry.lookupOld name = some old → old.arc ∈ run.handles := by
  cases hold : run.registry.lookupOld name with
  | none => simp [run.registry.purgeOld_of_none hold]
  | some old =>
    have hcount := h.held name old.arc (lookupOld_mem_heldBy hold)
    obtain ⟨slot, versions, -, -, -, heq⟩ := run.registry.forceRemoveOld_of_some hold
    rw [run.registry.purgeOld_of_some hold]
    by_cases hmem : old.arc ∈ run.handles
    · have := List.count_pos_iff.2 hmem
      simp [show run.registry.arcs.strong old.arc ≠ 1 by omega, hmem]
    · have hzero := List.count_eq_zero_of_not_mem hmem
      simp [show run.registry.arcs.strong old.arc = 1 by omega, heq, hmem]

theorem purgeOld_error {r : ModuleRegistry} {name : Atom} {error : PurgeError}
    (h : (r.purgeOld name).1 = .error error) : (r.purgeOld name).2 = r := by
  cases hold : r.lookupOld name with
  | none => rw [r.purgeOld_of_none hold]
  | some old =>
    obtain ⟨slot, versions, -, -, -, heq⟩ := r.forceRemoveOld_of_some hold
    rw [r.purgeOld_of_some hold] at h ⊢
    by_cases hcount : r.arcs.strong old.arc = 1
    · simp [hcount, heq] at h
    · simp [hcount]

theorem moduleVersionCount_le (r : ModuleRegistry) (name : Atom) :
    r.moduleVersionCount name ≤ 2 := by
  unfold ModuleRegistry.moduleVersionCount
  cases r.versions? name with
  | none => exact Nat.zero_le 2
  | some versions => cases hold : versions.old <;> simp [hold]

/-- After any operations, whatever handles callers keep: the versions are those of the log, the
generations of a name increase up to the saturation of the counter, a name has two versions at most,
and a purge fails, without an effect, just when there is no old version or a caller has it. -/
theorem twoVersions (actions : List RegistryAction) (name : Atom) :
    (after actions).registry.lookup name = currentOf name (after actions).log ∧
      (after actions).registry.lookupOld name = oldOf name (after actions).log ∧
      (∀ module version, .inserted module version ∈ (after actions).log →
        version.module = { module with generation := version.module.generation }) ∧
      (generationsOf name (after actions).log).Pairwise
        (fun newer older => older < maxGeneration → older < newer) ∧
      (after actions).registry.moduleVersionCount name ≤ 2 ∧
      ((∃ error, ((after actions).registry.purgeOld name).1 = .error error) ↔
        ∀ old, (after actions).registry.lookupOld name = some old →
          old.arc ∈ (after actions).handles) ∧
      ∀ error, ((after actions).registry.purgeOld name).1 = .error error →
        ((after actions).registry.purgeOld name).2 = (after actions).registry := by
  obtain ⟨hfollows, hcounts⟩ := invariant_after actions
  exact ⟨hfollows.current name, hfollows.old name, hfollows.inserted, hfollows.increasing name,
    moduleVersionCount_le _ name, purgeOld_error_iff hcounts name, fun _ => purgeOld_error⟩

/-- A purge of a name without an old version fails, though nothing is referenced. -/
theorem purgeOld_error_unreferenced : ¬ ∀ actions name,
    (∃ error, ((after actions).registry.purgeOld name).1 = .error error) ↔
      ∃ old, (after actions).registry.lookupOld name = some old ∧
        old.arc ∈ (after actions).handles := by
  intro h
  obtain ⟨old, hold, -⟩ := (h [] 0).1 ⟨.noOldVersion 0, rfl⟩
  exact absurd hold (by simp [after, start, ModuleRegistry.lookupOld, ModuleRegistry.versions?,
    ModuleRegistry.new])

end RegistryRun

end Beamr.Loader
