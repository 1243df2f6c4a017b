import Beamr.Loader.Module
import Mathlib.Data.List.Count

/-!
# The module registry

A name has a slot with its current version, the old version and the generation of the next one.
Versions are shared: the registry has one handle of each version it holds and every caller that
looked one up has another, and `Arc` counts them. A purge looks at that count.
-/
namespace Beamr.Loader

/-- `u64::MAX` -/
def maxGeneration : ℕ := 2 ^ 64 - 1

/-- `saturating_add(1)` -/
def nextGenerationOf (generation : ℕ) : ℕ := min (generation + 1) maxGeneration

/-! ## Shared modules -/

/-- A handle of a shared module, with the allocation it points to. -/
structure SharedModule where
  arc : ℕ
  module : Module

/-- The strong counts of the allocations, and the next allocation. -/
structure Arcs where
  strong : ℕ → ℕ
  next : ℕ

namespace Arcs

/-- `Arc::new` -/
def alloc (arcs : Arcs) : ℕ × Arcs :=
  (arcs.next, ⟨Function.update arcs.strong arcs.next 1, arcs.next + 1⟩)

/-- `Arc::clone` -/
def clone (arcs : Arcs) (arc : ℕ) : Arcs :=
  { arcs with strong := Function.update arcs.strong arc (arcs.strong arc + 1) }

/-- A handle goes out of scope. -/
def drop (arcs : Arcs) (arc : ℕ) : Arcs :=
  { arcs with strong := Function.update arcs.strong arc (arcs.strong arc - 1) }

def dropAll (arcs : Arcs) (handles : List ℕ) : Arcs := handles.foldl drop arcs

end Arcs

/-! ## Slots -/

structure ModuleVersions where
  current : SharedModule
  old : Option SharedModule

def ModuleVersions.all (versions : ModuleVersions) : List SharedModule :=
  versions.current :: versions.old.toList

structure ModuleSlot where
  versions : Option ModuleVersions
  nextGeneration : ℕ

inductive PurgeError
  | stillReferenced (module : Atom) (refCount : ℕ)
  | noOldVersion (module : Atom)
  deriving DecidableEq

/-- The slots by name, and the counts of the handles. -/
structure ModuleRegistry where
  modules : Atom → Option ModuleSlot
  arcs : Arcs

namespace ModuleRegistry

def new : ModuleRegistry := ⟨fun _ => none, ⟨fun _ => 0, 0⟩⟩

variable (r : ModuleRegistry)

/-- The version in the slot, with one handle for the slot and one for the caller. -/
def install (module : Module) (generation : ℕ) (old : Option SharedModule) :
    SharedModule × ModuleRegistry :=
  let (arc, arcs) := r.arcs.alloc
  let shared : SharedModule := ⟨arc, { module with generation }⟩
  (shared, {
    modules := Function.update r.modules module.name
      (some ⟨some ⟨shared, old⟩, nextGenerationOf generation⟩)
    arcs := arcs.clone arc })

/-- `insert`: the current version becomes the old one. The handles of the slot are dropped when its
versions are replaced. -/
def insert (module : Module) : SharedModule × ModuleRegistry :=
  match r.modules module.name with
  | none => r.install module 1 none
  | some slot =>
    match slot.versions with
    | none => r.install module (max slot.nextGeneration 1) none
    | some versions =>
      let previous := { r with arcs := r.arcs.clone versions.current.arc }
      let (shared, registry) := previous.install module
        (nextGenerationOf versions.current.module.generation) (some versions.current)
      (shared, { registry with arcs := registry.arcs.dropAll (versions.all.map (·.arc)) })

def versions? (name : Atom) : Option ModuleVersions := (r.modules name).bind (·.versions)

def lookup (name : Atom) : Option SharedModule := (r.versions? name).map (·.current)

def lookupOld (name : Atom) : Option SharedModule := (r.versions? name).bind (·.old)

def moduleVersionCount (name : Atom) : ℕ :=
  match r.versions? name with
  | none => 0
  | some versions => 1 + if versions.old.isSome then 1 else 0

/-- The slot of the name without its old version. -/
def dropOld (name : Atom) (slot : ModuleSlot) (versions : ModuleVersions) (arc : ℕ) :
    ModuleRegistry where
  modules := Function.update r.modules name
    (some { slot with versions := some { versions with old := none } })
  arcs := r.arcs.drop arc

def purgeOld (name : Atom) : Except PurgeError Unit × ModuleRegistry :=
  match r.modules name with
  | none => (.error (.noOldVersion name), r)
  | some slot =>
    match slot.versions with
    | none => (.error (.noOldVersion name), r)
    | some versions =>
      match versions.old with
      | none => (.error (.noOldVersion name), r)
      | some old =>
        if r.arcs.strong old.arc ≠ 1 then
          (.error (.stillReferenced name (r.arcs.strong old.arc)), r)
        else (.ok (), r.dropOld name slot versions old.arc)

/-- The slot stays, with the generation of the next version. -/
def deleteModule (name : Atom) : Bool × ModuleRegistry :=
  match r.modules name with
  | none => (false, r)
  | some slot =>
    match slot.versions with
    | none => (false, r)
    | some versions => (true, {
        modules := Function.update r.modules name (some { slot with versions := none })
        arcs := r.arcs.dropAll (versions.all.map (·.arc)) })

def forceRemoveOld (name : Atom) : Except PurgeError Unit × ModuleRegistry :=
  match r.modules name with
  | none => (.error (.noOldVersion name), r)
  | some slot =>
    match slot.versions with
    | none => (.error (.noOldVersion name), r)
    | some versions =>
      match versions.old with
      | none => (.error (.noOldVersion name), r)
      | some old => (.ok (), r.dropOld name slot versions old.arc)

end ModuleRegistry

end Beamr.Loader
