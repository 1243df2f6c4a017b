import Beamr.Loader.ModuleRegistry

/-!
# Import resolution

Instructions name an import by its index, so the resolved imports stand in the order of the import
table, with an entry also for an import that has no target yet.
-/
namespace Beamr.Loader

open Scheduler (Capability)
open Loader.Module (ResolvedImport ResolvedImportTarget)

/-- `BifRegistry::lookup` -/
abbrev BifRegistry := Atom → Atom → ℕ → Option NativeEntry

/-- `CapabilityPolicy::is_granted` -/
abbrev CapabilityPolicy := Capability → Bool

structure UnresolvedImportEntry where
  module : Atom
  function : Atom
  arity : ℕ
  deriving DecidableEq

structure DeniedImportEntry where
  module : Atom
  function : Atom
  arity : ℕ
  capability : Capability
  deriving DecidableEq

/-! ## The report -/

/-- `entry(..).or_default().push(..)` -/
def pushEntry {α : Type} (byModule : Atom → Option (List α)) (module : Atom) (entry : α) :
    Atom → Option (List α) :=
  Function.update byModule module (some ((byModule module).getD [] ++ [entry]))

structure UnresolvedImportReport where
  entriesByModule : Atom → Option (List UnresolvedImportEntry)
  deferredByModule : Atom → Option (List UnresolvedImportEntry)
  deniedByModule : Atom → Option (List DeniedImportEntry)

namespace UnresolvedImportReport

def default : UnresolvedImportReport := ⟨fun _ => none, fun _ => none, fun _ => none⟩

def push (report : UnresolvedImportReport) (entry : UnresolvedImportEntry) :
    UnresolvedImportReport :=
  { report with entriesByModule := pushEntry report.entriesByModule entry.module entry }

def pushDeferred (report : UnresolvedImportReport) (entry : UnresolvedImportEntry) :
    UnresolvedImportReport :=
  { report with deferredByModule := pushEntry report.deferredByModule entry.module entry }

def pushDenied (report : UnresolvedImportReport) (entry : DeniedImportEntry) :
    UnresolvedImportReport :=
  { report with deniedByModule := pushEntry report.deniedByModule entry.module entry }

def withDeferred (entries deferred : List UnresolvedImportEntry) : UnresolvedImportReport :=
  deferred.foldl pushDeferred (entries.foldl push default)

end UnresolvedImportReport

/-! ## Resolution -/

/-- What the loop over the imports collects. -/
structure Resolution where
  resolved : List ResolvedImport
  unresolved : List UnresolvedImportEntry
  deferred : List UnresolvedImportEntry
  denied : List DeniedImportEntry

section

variable (registry : ModuleRegistry) (bifs : BifRegistry) (policy : CapabilityPolicy)

def resolveImport (collected : Resolution) (imp : ImportEntry) : Resolution :=
  match bifs imp.module imp.function imp.arity with
  | some entry =>
    if policy entry.capability then
      { collected with resolved := collected.resolved ++
          [⟨imp.module, imp.function, imp.arity, .native entry⟩] }
    else
      { collected with
        denied := collected.denied ++ [⟨imp.module, imp.function, imp.arity, entry.capability⟩]
        resolved := collected.resolved ++
          [⟨imp.module, imp.function, imp.arity, .denied entry.capability⟩] }
  | none =>
    match registry.lookup imp.module with
    | none =>
      { collected with
        deferred := collected.deferred ++ [⟨imp.module, imp.function, imp.arity⟩]
        resolved := collected.resolved ++ [⟨imp.module, imp.function, imp.arity,
          .deferred imp.module imp.function imp.arity⟩] }
    | some shared =>
      match shared.module.exports (imp.function, imp.arity) with
      | some label =>
        { collected with resolved := collected.resolved ++
            [⟨imp.module, imp.function, imp.arity, .code imp.module label⟩] }
      | none =>
        { collected with
          unresolved := collected.unresolved ++ [⟨imp.module, imp.function, imp.arity⟩]
          resolved := collected.resolved ++ [⟨imp.module, imp.function, imp.arity,
            .unresolved imp.module imp.function imp.arity⟩] }

def resolveImports (parsed : ParsedModule) : List ResolvedImport × UnresolvedImportReport :=
  let collected := parsed.imports.foldl (resolveImport registry bifs policy) ⟨[], [], [], []⟩
  (collected.resolved, collected.denied.foldl UnresolvedImportReport.pushDenied
    (.withDeferred collected.unresolved collected.deferred))

/-! ## Loading -/

inductive PrepareError
  | load (error : LoadError)
  | validation (error : Validate.ValidationError)

variable (inflate : Inflate) (materialise : List Literal → Except LoadError Unit)

def prepareModuleWithOriginAndPolicy (bytes : List UInt8) (atomTable : AtomTable)
    (origin : ModuleOrigin) :
    Except PrepareError (Module × UnresolvedImportReport × AtomTable) := do
  let (parsed, atomTable) ← (loadBeamChunks inflate bytes atomTable).mapError .load
  let (resolved, report) := resolveImports registry bifs policy parsed
  (Validate.validateModule parsed resolved.length).mapError .validation
  let module ← (moduleFromParsed materialise parsed resolved origin).mapError .load
  .ok (module, report, atomTable)

/-- The module is registered when it is prepared. -/
def loadModuleWithOriginAndPolicy (bytes : List UInt8) (atomTable : AtomTable)
    (origin : ModuleOrigin) :
    Except PrepareError (SharedModule × UnresolvedImportReport × AtomTable) × ModuleRegistry :=
  match prepareModuleWithOriginAndPolicy registry bifs policy inflate materialise bytes atomTable
      origin with
  | .error e => (.error e, registry)
  | .ok (module, report, atomTable) =>
    let (shared, registry) := registry.insert module
    (.ok (shared, report, atomTable), registry)

end

/-! ## Every import at its index -/

section

variable (registry : ModuleRegistry) (bifs : BifRegistry) (policy : CapabilityPolicy)

/-- What an import resolves to: a native function before the export of a loaded module. -/
inductive Resolves (imp : ImportEntry) : ResolvedImportTarget → Prop
  | native {entry : NativeEntry} :
    bifs imp.module imp.function imp.arity = some entry → policy entry.capability = true →
    Resolves imp (.native entry)
  | denied {entry : NativeEntry} :
    bifs imp.module imp.function imp.arity = some entry → policy entry.capability = false →
    Resolves imp (.denied entry.capability)
  | deferred :
    bifs imp.module imp.function imp.arity = none → registry.lookup imp.module = none →
    Resolves imp (.deferred imp.module imp.function imp.arity)
  | code {shared : SharedModule} {label : ℕ} :
    bifs imp.module imp.function imp.arity = none → registry.lookup imp.module = some shared →
    shared.module.exports (imp.function, imp.arity) = some label →
    Resolves imp (.code imp.module label)
  | unresolved {shared : SharedModule} :
    bifs imp.module imp.function imp.arity = none → registry.lookup imp.module = some shared →
    shared.module.exports (imp.function, imp.arity) = none →
    Resolves imp (.unresolved imp.module imp.function imp.arity)

/-- The entry of an import, under the import's own name. -/
structure ResolvesTo (imp : ImportEntry) (entry : ResolvedImport) : Prop where
  module : entry.module = imp.module
  function : entry.function = imp.function
  arity : entry.arity = imp.arity
  target : Resolves registry bifs policy imp entry.target

end

namespace Module.ResolvedImport

/-! The entries that the report has of a resolved import. -/

def unresolvedEntry (entry : ResolvedImport) : List UnresolvedImportEntry :=
  match entry.target with
  | .unresolved .. => [⟨entry.module, entry.function, entry.arity⟩]
  | _ => []

def deferredEntry (entry : ResolvedImport) : List UnresolvedImportEntry :=
  match entry.target with
  | .deferred .. => [⟨entry.module, entry.function, entry.arity⟩]
  | _ => []

def deniedEntry (entry : ResolvedImport) : List DeniedImportEntry :=
  match entry.target with
  | .denied capability => [⟨entry.module, entry.function, entry.arity, capability⟩]
  | _ => []

end Module.ResolvedImport

section

variable {registry : ModuleRegistry} {bifs : BifRegistry} {policy : CapabilityPolicy}

variable (registry bifs policy) in
/-- One turn of the loop appends the entry of its import and no other. -/
theorem resolveImport_spec (collected : Resolution) (imp : ImportEntry) : ∃ entry,
    ResolvesTo registry bifs policy imp entry ∧
      resolveImport registry bifs policy collected imp =
        ⟨collected.resolved ++ [entry], collected.unresolved ++ entry.unresolvedEntry,
          collected.deferred ++ entry.deferredEntry, collected.denied ++ entry.deniedEntry⟩ := by
  unfold resolveImport
  cases hbif : bifs imp.module imp.function imp.arity with
  | some native =>
    cases hgranted : policy native.capability with
    | true =>
      refine ⟨⟨_, _, _, _⟩, ⟨rfl, rfl, rfl, .native hbif hgranted⟩, ?_⟩
      simp [hgranted, ResolvedImport.unresolvedEntry, ResolvedImport.deferredEntry,
        ResolvedImport.deniedEntry]
    | false =>
      refine ⟨⟨_, _, _, _⟩, ⟨rfl, rfl, rfl, .denied hbif hgranted⟩, ?_⟩
      simp [hgranted, ResolvedImport.unresolvedEntry, ResolvedImport.deferredEntry,
        ResolvedImport.deniedEntry]
  | none =>
    cases hlookup : registry.lookup imp.module with
    | none =>
      refine ⟨⟨_, _, _, _⟩, ⟨rfl, rfl, rfl, .deferred hbif hlookup⟩, ?_⟩
      simp [ResolvedImport.unresolvedEntry, ResolvedImport.deferredEntry,
        ResolvedImport.deniedEntry]
    | some shared =>
      cases hexport : shared.module.exports (imp.function, imp.arity) with
      | some label =>
        refine ⟨⟨_, _, _, _⟩, ⟨rfl, rfl, rfl, .code hbif hlookup hexport⟩, ?_⟩
        simp [hexport, ResolvedImport.unresolvedEntry, ResolvedImport.deferredEntry,
          ResolvedImport.deniedEntry]
      | none =>
        refine ⟨⟨_, _, _, _⟩, ⟨rfl, rfl, rfl, .unresolved hbif hlookup hexport⟩, ?_⟩
        simp [hexport, ResolvedImport.unresolvedEntry, ResolvedImport.deferredEntry,
          ResolvedImport.deniedEntry]

variable (registry bifs policy) in
/-- The loop keeps to the order of the imports. -/
theorem foldl_resolveImport (imports : List ImportEntry) (collected : Resolution) : ∃ entries,
    List.Forall₂ (ResolvesTo registry bifs policy) imports entries ∧
      imports.foldl (resolveImport registry bifs policy) collected =
        ⟨collected.resolved ++ entries,
          collected.unresolved ++ entries.flatMap (·.unresolvedEntry),
          collected.deferred ++ entries.flatMap (·.deferredEntry),
          collected.denied ++ entries.flatMap (·.deniedEntry)⟩ := by
  induction imports generalizing collected with
  | nil => exact ⟨[], .nil, by simp⟩
  | cons imp imports ih =>
    obtain ⟨entry, hentry, hstep⟩ :=
      resolveImport_spec registry bifs policy collected imp
    obtain ⟨entries, hentries, heq⟩ := ih (resolveImport registry bifs policy collected imp)
    refine ⟨entry :: entries, .cons hentry hentries, ?_⟩
    rw [List.foldl_cons, heq, hstep]
    simp

variable (registry bifs policy) in
theorem resolveImports_forall₂ (parsed : ParsedModule) :
    List.Forall₂ (ResolvesTo registry bifs policy) parsed.imports
      (resolveImports registry bifs policy parsed).1 := by
  obtain ⟨entries, hentries, heq⟩ := foldl_resolveImport registry bifs policy parsed.imports
    ⟨[], [], [], []⟩
  simpa [resolveImports, heq] using hentries

/-! ## The report has every import without a target -/

open UnresolvedImportReport

/-! ## Loading -/

/-- Only what is prepared is registered. -/
theorem loadModuleWithOriginAndPolicy_error {inflate : Inflate}
    {materialise : List Literal → Except LoadError Unit} {bytes : List UInt8}
    {atomTable : AtomTable} {origin : ModuleOrigin} {error : PrepareError}
    (h : (loadModuleWithOriginAndPolicy registry bifs policy inflate materialise bytes atomTable
      origin).1 = .error error) :
    (loadModuleWithOriginAndPolicy registry bifs policy inflate materialise bytes atomTable
      origin).2 = registry := by
  unfold loadModuleWithOriginAndPolicy at h ⊢
  cases hprepare : prepareModuleWithOriginAndPolicy registry bifs policy inflate materialise bytes
      atomTable origin with
  | error e => rfl
  | ok prepared => simp [hprepare] at h

end

/-- The entry at the index of an import is the resolution of that import: a granted native, a denied
one, an export of the loaded module, or none, because the module is not loaded or does not export
the function. A load that fails leaves the registry as it is. -/
theorem resolveImports_positional (registry : ModuleRegistry) (bifs : BifRegistry)
    (policy : CapabilityPolicy) (parsed : ParsedModule) :
    (resolveImports registry bifs policy parsed).1.length = parsed.imports.length ∧
      (∀ (i : ℕ) (imp : ImportEntry) (entry : ResolvedImport), parsed.imports[i]? = some imp →
        (resolveImports registry bifs policy parsed).1[i]? = some entry →
        ResolvesTo registry bifs policy imp entry) ∧
      (∀ entry ∈ (resolveImports registry bifs policy parsed).1, ∀ native,
        entry.target = .native native → policy native.capability = true) ∧
      ∀ inflate materialise bytes atomTable origin error,
        (loadModuleWithOriginAndPolicy registry bifs policy inflate materialise bytes atomTable
          origin).1 = .error error →
        (loadModuleWithOriginAndPolicy registry bifs policy inflate materialise bytes atomTable
          origin).2 = registry := by
  have hall := resolveImports_forall₂ registry bifs policy parsed
  refine ⟨hall.length_eq.symm, fun i imp entry himp hentry => ?_, fun entry hentry native hnative =>
    ?_, fun _ _ _ _ _ _ => loadModuleWithOriginAndPolicy_error⟩
  · obtain ⟨hi, rfl⟩ := List.getElem?_eq_some_iff.1 himp
    obtain ⟨hi', rfl⟩ := List.getElem?_eq_some_iff.1 hentry
    exact List.forall₂_iff_get.1 hall |>.2 i hi hi'
  · obtain ⟨i, hi, rfl⟩ := List.getElem_of_mem hentry
    have htarget := (List.forall₂_iff_get.1 hall |>.2 i (hall.length_eq ▸ hi) hi).target
    simp only [List.get_eq_getElem, hnative] at htarget
    cases htarget with
    | native _ hgranted => exact hgranted

/-- A module that is loaded and does not export an import of it leaves the import unresolved. -/
theorem exists_unresolved : ¬ ∀ registry bifs policy parsed,
    ∀ entry ∈ (resolveImports registry bifs policy parsed).1,
      (∃ native, entry.target = .native native) ∨
      (∃ module label, entry.target = .code module label) ∨
      ∃ module function arity, entry.target = .deferred module function arity := by
  intro h
  let module : Module := ⟨0, 0, .preloaded, fun _ => none, fun _ => none, [], [], [], [], [], [],
    [], []⟩
  let parsed : ParsedModule := ⟨1, [], [], [⟨0, 2, 3⟩], [], [], [], [], [], none⟩
  have hmem : (⟨0, 2, 3, .unresolved 0 2 3⟩ : ResolvedImport) ∈
      (resolveImports (ModuleRegistry.new.insert module).2 (fun _ _ _ => none) (fun _ => true)
        parsed).1 := List.mem_singleton.2 rfl
  obtain ⟨_, h⟩ | ⟨_, _, h⟩ | ⟨_, _, _, h⟩ := h _ _ _ parsed _ hmem <;> cases h

end Beamr.Loader
