import Beamr.Ets.Tables
import Beamr.Lib.Runs

/-!
# The table registry

Tables by id, ids by name and the counter of ids. A run is a sequence of calls. A name entry
points to a table that carries the name; a named table has its entry until `create_table` gives
the name to another table.
-/
namespace Beamr.Ets

open Entries

structure TableMetadata where
  id : UInt64
  name : Option Atom
  tableType : TableType
  owner : UInt64

structure RegisteredTable where
  metadata : TableMetadata
  contents : Table

structure EtsRegistry where
  nextTableId : UInt64
  tables : List (UInt64 × RegisteredTable)
  names : List (Atom × UInt64)

def tableFromMetadata (metadata : TableMetadata) : RegisteredTable :=
  ⟨metadata, Table.new metadata.tableType⟩

namespace EtsRegistry

def new : EtsRegistry := ⟨1, [], []⟩

/-- The last id there is. -/
def maxTableId : UInt64 := 0xFFFFFFFFFFFFFFFF

def lookupTable (s : EtsRegistry) (id : UInt64) : Option RegisteredTable :=
  get (· == ·) s.tables id

def lookupTableByName (s : EtsRegistry) (name : Atom) : Option UInt64 := get (· == ·) s.names name

/-- `fetch_add` wraps around. -/
def allocateTableId (s : EtsRegistry) : UInt64 × EtsRegistry :=
  (s.nextTableId, { s with nextTableId := s.nextTableId + 1 })

def reserveTableId (s : EtsRegistry) (id : UInt64) : EtsRegistry :=
  if s.nextTableId ≤ id then
    { s with nextTableId := if id = maxTableId then maxTableId else id + 1 }
  else s

/-- The id of a table to be made: a zero in the metadata asks for a fresh one. -/
def pickTableId (s : EtsRegistry) (metadata : TableMetadata) : UInt64 × EtsRegistry :=
  if metadata.id = 0 then s.allocateTableId else (metadata.id, s.reserveTableId metadata.id)

/-- Removes the entry of the name if it is the given id. -/
def removeNameIf (s : EtsRegistry) (name : Option Atom) (id : UInt64) : EtsRegistry :=
  match name with
  | some name =>
    if s.lookupTableByName name = some id then { s with names := erase (· == ·) name s.names } else s
  | none => s

def insertTable (s : EtsRegistry) (id : UInt64) (table : RegisteredTable) : EtsRegistry :=
  { s with tables := put (· == ·) id table s.tables }

def insertName (s : EtsRegistry) (name : Option Atom) (id : UInt64) : EtsRegistry :=
  match name with
  | some name => { s with names := put (· == ·) name id s.names }
  | none => s

def createTable (s : EtsRegistry) (metadata : TableMetadata) : UInt64 × EtsRegistry :=
  let (id, s) := s.pickTableId metadata
  let table := tableFromMetadata { metadata with id }
  let previousName := (s.lookupTable id).bind fun previous => previous.metadata.name
  (id, ((s.insertTable id table).removeNameIf previousName id).insertName metadata.name id)

def tryCreateTable (s : EtsRegistry) (metadata : TableMetadata) :
    Except EtsError UInt64 × EtsRegistry :=
  let (id, s) := s.pickTableId metadata
  let table := tableFromMetadata { metadata with id }
  if (metadata.name.bind s.lookupTableByName).isSome then (.error .badarg, s)
  else (.ok id, (s.insertTable id table).insertName metadata.name id)

def deleteTable (s : EtsRegistry) (id : UInt64) : Bool × EtsRegistry :=
  match s.lookupTable id with
  | none => (false, s)
  | some table =>
    (true, { s with tables := erase (· == ·) id s.tables }.removeNameIf table.metadata.name id)

def tableIdsOwnedBy (s : EtsRegistry) (ownerPid : UInt64) : List UInt64 :=
  (s.tables.filter fun e => e.2.metadata.owner == ownerPid).map (·.1)

def deleteTablesOwnedBy (s : EtsRegistry) (ownerPid : UInt64) : EtsRegistry :=
  (s.tableIdsOwnedBy ownerPid).foldl (fun s id => (s.deleteTable id).2) s

/-! ## Lookups after each operation -/

section Lookups

variable (s : EtsRegistry) (metadata : TableMetadata) (id id' : UInt64)

@[simp]
theorem lookupTable_pick : (s.pickTableId metadata).2.lookupTable id = s.lookupTable id := by
  unfold pickTableId reserveTableId
  split_ifs <;> rfl

@[simp]
theorem lookupTableByName_pick (name : Atom) :
    (s.pickTableId metadata).2.lookupTableByName name = s.lookupTableByName name := by
  unfold pickTableId reserveTableId
  split_ifs <;> rfl

@[simp]
theorem lookupTable_removeNameIf (name : Option Atom) :
    (s.removeNameIf name id').lookupTable id = s.lookupTable id := by
  cases name with
  | none => rfl
  | some name =>
    rw [removeNameIf]
    split <;> rfl

@[simp]
theorem lookupTable_insertName (name : Option Atom) :
    (s.insertName name id').lookupTable id = s.lookupTable id := by
  cases name <;> rfl

@[simp]
theorem lookupTableByName_insertTable (table : RegisteredTable) (name : Atom) :
    (s.insertTable id table).lookupTableByName name = s.lookupTableByName name := rfl

theorem lookupTable_insertTable (table : RegisteredTable) :
    (s.insertTable id table).lookupTable id' = if id = id' then some table else s.lookupTable id' := by
  split
  next h => exact h ▸ get_put_self _ _ _
  next h => exact get_put_of_ne _ h _

theorem lookupTableByName_insertName (name : Option Atom) (name' : Atom) :
    (s.insertName name id).lookupTableByName name' =
      if name = some name' then some id else s.lookupTableByName name' := by
  cases name with
  | none => rfl
  | some name =>
    simp only [Option.some.injEq]
    split
    next h => exact h ▸ get_put_self _ _ _
    next h => exact get_put_of_ne _ h _

theorem lookupTableByName_removeNameIf (name : Option Atom) (name' : Atom) :
    (s.removeNameIf name id).lookupTableByName name' =
      if name = some name' ∧ s.lookupTableByName name' = some id then none
      else s.lookupTableByName name' := by
  cases name with
  | none => simp [removeNameIf]
  | some name =>
    rw [removeNameIf]
    by_cases h : name = name'
    · subst h
      by_cases hbound : s.lookupTableByName name = some id
      · rw [if_pos hbound, if_pos ⟨rfl, hbound⟩]
        exact get_erase_self _ _
      · have hne : ¬ (some name = some name ∧ s.lookupTableByName name = some id) :=
          fun hand => hbound hand.2
        rw [if_neg hbound, if_neg hne]
    · have hne : ¬ (some name = some name' ∧ s.lookupTableByName name' = some id) :=
        fun hand => h (Option.some.inj hand.1)
      rw [if_neg hne]
      split
      · exact get_erase_of_ne _ h
      · rfl

end Lookups

/-! ## Runs -/

inductive Call
  | createTable (metadata : TableMetadata)
  | tryCreateTable (metadata : TableMetadata)
  | deleteTable (id : UInt64)
  | deleteTablesOwnedBy (ownerPid : UInt64)

def step (s : EtsRegistry) : Call → EtsRegistry
  | .createTable metadata => (s.createTable metadata).2
  | .tryCreateTable metadata => (s.tryCreateTable metadata).2
  | .deleteTable id => (s.deleteTable id).2
  | .deleteTablesOwnedBy ownerPid => s.deleteTablesOwnedBy ownerPid

def run (calls : List Call) : EtsRegistry := calls.foldl step new

/-- The metadata of a call that makes a table. -/
def Call.metadata? : Call → Option TableMetadata
  | .createTable metadata | .tryCreateTable metadata => some metadata
  | _ => none

/-- The id that the call uses, also when it then fails. -/
def uses (s : EtsRegistry) (call : Call) : Option UInt64 :=
  call.metadata?.map fun metadata => (s.pickTableId metadata).1

/-- The id under which the call puts a new table. -/
def makes (s : EtsRegistry) : Call → Option UInt64
  | .createTable metadata => some (s.pickTableId metadata).1
  | .tryCreateTable metadata =>
    if (metadata.name.bind s.lookupTableByName).isSome then none
    else some (s.pickTableId metadata).1
  | _ => none

/-- Every name entry points to a table that carries the name. -/
def NamesTables (s : EtsRegistry) : Prop :=
  ∀ name id, s.lookupTableByName name = some id →
    ∃ table, s.lookupTable id = some table ∧ table.metadata.name = some name

/-- The id has been used by an earlier call. -/
def Used (calls : List Call) (id : UInt64) : Prop :=
  ∃ before call after, calls = before ++ call :: after ∧ (run before).uses call = some id

/-- The entry of the table has been given to another table by `create_table`, and no call has
made a table under the id since. -/
def NameTaken (calls : List Call) (name : Atom) (id : UInt64) : Prop :=
  ∃ before metadata after, calls = before ++ .createTable metadata :: after ∧
    metadata.name = some name ∧ (run before).lookupTableByName name = some id ∧
    ((run before).pickTableId metadata).1 ≠ id ∧
    Runs.Meets step (fun s call => s.makes call ≠ some id)
      ((run before).step (.createTable metadata)) after

/-- `try_create_table` is not given the id of a table that is bound under another name. -/
def KeepsBound (s : EtsRegistry) : Call → Prop
  | .tryCreateTable metadata => metadata.id ≠ 0 → ∀ name table,
    s.lookupTable metadata.id = some table → table.metadata.name = some name →
    s.lookupTableByName name = some metadata.id → metadata.name = some name
  | _ => True

/-! ## What a deletion does -/

/-- Tables and name entries are only removed, and a table that stays keeps its entry. -/
structure Shrinks (s s' : EtsRegistry) : Prop where
  next : s'.nextTableId = s.nextTableId
  table : ∀ id table, s'.lookupTable id = some table → s.lookupTable id = some table
  bound : ∀ name id table, s.lookupTableByName name = some id → s'.lookupTable id = some table →
    s'.lookupTableByName name = some id
  names : s.NamesTables → s'.NamesTables

theorem Shrinks.refl (s : EtsRegistry) : Shrinks s s where
  next := rfl
  table _ _ h := h
  bound _ _ _ h _ := h
  names h := h

theorem Shrinks.trans {s t u : EtsRegistry} (h : Shrinks s t) (h' : Shrinks t u) : Shrinks s u where
  next := h'.next.trans h.next
  table id table hu := h.table id table (h'.table id table hu)
  bound name id table hs hu :=
    h'.bound name id table (h.bound name id table hs (h'.table id table hu)) hu
  names hs := h'.names (h.names hs)

theorem shrinks_deleteTable (s : EtsRegistry) (id : UInt64) : Shrinks s (s.deleteTable id).2 := by
  rw [deleteTable]
  split
  next => exact .refl s
  next deleted hdeleted =>
    set s' := { s with tables := erase (· == ·) id s.tables } with hs'
    have hself : s'.lookupTable id = none := get_erase_self _ _
    have hother : ∀ id', id ≠ id' → s'.lookupTable id' = s.lookupTable id' :=
      fun id' h => get_erase_of_ne _ h
    have hname : ∀ name, s'.lookupTableByName name = s.lookupTableByName name := fun _ => rfl
    have hne : ∀ id' table, s'.lookupTable id' = some table → id ≠ id' := by
      rintro id' table h rfl
      rw [hself] at h
      cases h
    refine ⟨?_, ?_, ?_, ?_⟩
    · cases deleted.metadata.name with
      | none => rfl
      | some name =>
        simp only [removeNameIf]
        split <;> rfl
    · intro id' table h
      rw [lookupTable_removeNameIf] at h
      rwa [← hother id' (hne id' table h)]
    · intro name id' table hbound h
      rw [lookupTable_removeNameIf] at h
      rw [lookupTableByName_removeNameIf, hname, if_neg]
      · exact hbound
      · rintro ⟨-, hid⟩
        rw [hbound] at hid
        exact hne id' table h (Option.some.inj hid).symm
    · intro hs name id' h
      rw [lookupTableByName_removeNameIf, hname] at h
      split at h
      · cases h
      next hkept =>
        obtain ⟨table, htable, htableName⟩ := hs name id' h
        refine ⟨table, ?_, htableName⟩
        rw [lookupTable_removeNameIf, hother id', htable]
        rintro rfl
        rw [hdeleted] at htable
        cases htable
        exact hkept ⟨htableName, h⟩

theorem shrinks_deleteTables (s : EtsRegistry) (ids : List UInt64) :
    Shrinks s (ids.foldl (fun s id => (s.deleteTable id).2) s) := by
  induction ids generalizing s with
  | nil => exact .refl s
  | cons id rest ih => exact (shrinks_deleteTable s id).trans (ih _)

theorem shrinks_of_metadata? (s : EtsRegistry) {call : Call} (h : call.metadata? = none) :
    Shrinks s (s.step call) := by
  cases call with
  | createTable metadata => cases h
  | tryCreateTable metadata => cases h
  | deleteTable id => exact shrinks_deleteTable s id
  | deleteTablesOwnedBy ownerPid => exact shrinks_deleteTables s _

/-! ## What a creation does -/

theorem lookupTable_createTable (s : EtsRegistry) (metadata : TableMetadata) (id : UInt64) :
    (s.createTable metadata).2.lookupTable id =
      if (s.pickTableId metadata).1 = id then
        some (tableFromMetadata { metadata with id := (s.pickTableId metadata).1 })
      else s.lookupTable id := by
  simp [createTable, lookupTable_insertTable]

theorem lookupTableByName_createTable (s : EtsRegistry) (metadata : TableMetadata) (name : Atom) :
    (s.createTable metadata).2.lookupTableByName name =
      if metadata.name = some name then some (s.pickTableId metadata).1
      else if ((s.lookupTable (s.pickTableId metadata).1).bind fun t => t.metadata.name) = some name ∧
          s.lookupTableByName name = some (s.pickTableId metadata).1 then none
      else s.lookupTableByName name := by
  simp [createTable, lookupTableByName_insertName, lookupTableByName_removeNameIf]

theorem tryCreateTable_eq (s : EtsRegistry) (metadata : TableMetadata) :
    (s.tryCreateTable metadata).2 =
      if (metadata.name.bind s.lookupTableByName).isSome then (s.pickTableId metadata).2
      else (((s.pickTableId metadata).2.insertTable (s.pickTableId metadata).1
        (tableFromMetadata { metadata with id := (s.pickTableId metadata).1 })).insertName
          metadata.name (s.pickTableId metadata).1) := by
  have hbound : metadata.name.bind (s.pickTableId metadata).2.lookupTableByName =
      metadata.name.bind s.lookupTableByName := by
    cases metadata.name with
    | none => rfl
    | some name => exact lookupTableByName_pick s metadata name
  rw [tryCreateTable]
  simp only [hbound]
  split <;> rfl

theorem lookupTable_tryCreateTable (s : EtsRegistry) (metadata : TableMetadata) (id : UInt64) :
    (s.tryCreateTable metadata).2.lookupTable id =
      if s.makes (.tryCreateTable metadata) = some id then
        some (tableFromMetadata { metadata with id := (s.pickTableId metadata).1 })
      else s.lookupTable id := by
  rw [tryCreateTable_eq, makes]
  split
  · simp
  · simp [lookupTable_insertTable]

theorem lookupTableByName_tryCreateTable (s : EtsRegistry) (metadata : TableMetadata) (name : Atom) :
    (s.tryCreateTable metadata).2.lookupTableByName name =
      if metadata.name = some name ∧ s.lookupTableByName name = none then
        some (s.pickTableId metadata).1
      else s.lookupTableByName name := by
  rw [tryCreateTable_eq]
  split
  next hsome =>
    rw [lookupTableByName_pick, if_neg]
    rintro ⟨hname, hnone⟩
    simp [hname, hnone] at hsome
  next hvacant =>
    rw [lookupTableByName_insertName, lookupTableByName_insertTable, lookupTableByName_pick]
    by_cases h : metadata.name = some name
    · have hnone : s.lookupTableByName name = none := by simpa [h] using hvacant
      rw [if_pos h, if_pos ⟨h, hnone⟩]
    · rw [if_neg h, if_neg (fun hand => h hand.1)]

/-- The call that makes a table puts it under its id, with its entry. -/
theorem step_makes {s : EtsRegistry} {call : Call} {id : UInt64} {table : RegisteredTable}
    (hmakes : s.makes call = some id) (htable : (s.step call).lookupTable id = some table)
    {name : Atom} (hname : table.metadata.name = some name) :
    (s.step call).lookupTableByName name = some id := by
  cases call with
  | createTable metadata =>
    have hid : (s.pickTableId metadata).1 = id := Option.some.inj hmakes
    rw [step, lookupTable_createTable, if_pos hid] at htable
    cases htable
    have hname' : metadata.name = some name := hname
    rw [step, lookupTableByName_createTable, if_pos hname', hid]
  | tryCreateTable metadata =>
    rw [step, lookupTable_tryCreateTable, if_pos hmakes] at htable
    cases htable
    have hname' : metadata.name = some name := hname
    rw [makes] at hmakes
    split at hmakes
    · cases hmakes
    next hvacant =>
      have hnone : s.lookupTableByName name = none := by simpa [hname'] using hvacant
      rw [step, lookupTableByName_tryCreateTable, if_pos ⟨hname', hnone⟩]
      exact hmakes
  | deleteTable => cases hmakes
  | deleteTablesOwnedBy => cases hmakes

/-- A call leaves the tables under the other ids as they are, or removes them. -/
theorem step_other {s : EtsRegistry} {call : Call} {id : UInt64} {table : RegisteredTable}
    (hmakes : s.makes call ≠ some id) (htable : (s.step call).lookupTable id = some table) :
    s.lookupTable id = some table := by
  cases call with
  | createTable metadata =>
    have hid : (s.pickTableId metadata).1 ≠ id := fun h => hmakes (congrArg some h)
    rwa [step, lookupTable_createTable, if_neg hid] at htable
  | tryCreateTable metadata =>
    rwa [step, lookupTable_tryCreateTable, if_neg hmakes] at htable
  | deleteTable id' => exact (shrinks_deleteTable s id').table id table htable
  | deleteTablesOwnedBy => exact (shrinks_deleteTables s _).table id table htable

/-- A table that stays keeps its entry, unless `create_table` gives the name to another table. -/
theorem step_bound {s : EtsRegistry} {call : Call} {id : UInt64} {table : RegisteredTable}
    {name : Atom} (hmakes : s.makes call ≠ some id)
    (htable : (s.step call).lookupTable id = some table)
    (hbound : s.lookupTableByName name = some id) :
    (s.step call).lookupTableByName name = some id ∨
      ∃ metadata, call = .createTable metadata ∧ metadata.name = some name ∧
        (s.pickTableId metadata).1 ≠ id := by
  cases call with
  | createTable metadata =>
    have hid : (s.pickTableId metadata).1 ≠ id := fun h => hmakes (congrArg some h)
    by_cases hname : metadata.name = some name
    · exact .inr ⟨metadata, rfl, hname, hid⟩
    · left
      rw [step, lookupTableByName_createTable, if_neg hname, if_neg]
      · exact hbound
      · rintro ⟨-, h⟩
        rw [hbound] at h
        exact hid (Option.some.inj h).symm
  | tryCreateTable metadata =>
    left
    rw [step, lookupTableByName_tryCreateTable, if_neg]
    · exact hbound
    · rintro ⟨-, h⟩
      rw [hbound] at h
      cases h
  | deleteTable id' => exact .inl ((shrinks_deleteTable s id').bound name id table hbound htable)
  | deleteTablesOwnedBy =>
    exact .inl ((shrinks_deleteTables s _).bound name id table hbound htable)

/-- `try_create_table` does not replace a table that is bound under another name. -/
def Spares (s : EtsRegistry) (call : Call) : Prop :=
  ∀ metadata, call = .tryCreateTable metadata → ∀ name table,
    s.lookupTable (s.pickTableId metadata).1 = some table → table.metadata.name = some name →
    s.lookupTableByName name = some (s.pickTableId metadata).1 → metadata.name = some name

theorem namesTables_step {s : EtsRegistry} {call : Call} (hs : s.NamesTables)
    (hspares : s.Spares call) : (s.step call).NamesTables := by
  cases call with
  | createTable metadata =>
    intro name id h
    rw [step, lookupTableByName_createTable] at h
    rw [step, lookupTable_createTable]
    split at h
    next hname =>
      rw [if_pos (Option.some.inj h)]
      exact ⟨_, rfl, hname⟩
    next =>
      split at h
      · cases h
      next hkept =>
        obtain ⟨table, htable, htableName⟩ := hs name id h
        have hid : (s.pickTableId metadata).1 ≠ id := by
          rintro rfl
          exact hkept ⟨by rw [htable]; exact htableName, h⟩
        exact ⟨table, by rw [if_neg hid, htable], htableName⟩
  | tryCreateTable metadata =>
    intro name id h
    rw [step, lookupTableByName_tryCreateTable] at h
    rw [step, lookupTable_tryCreateTable]
    split at h
    next hnew =>
      have hmakes : s.makes (.tryCreateTable metadata) = some id := by
        rw [makes, if_neg (by simp [hnew.1, hnew.2]), h]
      exact ⟨_, if_pos hmakes, hnew.1⟩
    next hold =>
      obtain ⟨table, htable, htableName⟩ := hs name id h
      by_cases hmakes : s.makes (.tryCreateTable metadata) = some id
      · -- the table under the id is replaced, so it was bound under the new table's name
        have hid : (s.pickTableId metadata).1 = id := by
          rw [makes] at hmakes
          split at hmakes
          · cases hmakes
          · exact Option.some.inj hmakes
        subst hid
        have hname := hspares metadata rfl name table htable htableName h
        simp [makes, hname, h] at hmakes
      · exact ⟨table, by rw [if_neg hmakes, htable], htableName⟩
  | deleteTable id => exact (shrinks_deleteTable s id).names hs
  | deleteTablesOwnedBy => exact (shrinks_deleteTables s _).names hs

/-! ## Ids -/

theorem run_concat (calls : List Call) (call : Call) :
    run (calls ++ [call]) = (run calls).step call := by simp [run]

theorem used_concat {calls : List Call} {call : Call} {id : UInt64} :
    Used (calls ++ [call]) id ↔ Used calls id ∨ (run calls).uses call = some id := by
  constructor
  · rintro ⟨before, call', after, hcalls, huses⟩
    rcases List.eq_nil_or_concat after with rfl | ⟨after, last, rfl⟩
    · obtain ⟨rfl, hlast⟩ := List.append_inj' hcalls rfl
      cases hlast
      exact .inr huses
    · have hsplit : calls ++ [call] = (before ++ call' :: after) ++ [last] := by simpa using hcalls
      obtain ⟨rfl, -⟩ := List.append_inj' hsplit rfl
      exact .inl ⟨before, call', after, rfl, huses⟩
  · rintro (⟨before, call', after, rfl, huses⟩ | huses)
    · exact ⟨before, call', after ++ [call], by simp, huses⟩
    · exact ⟨calls, call, [], rfl, huses⟩

theorem not_used_nil (id : UInt64) : ¬ Used [] id := by
  rintro ⟨before, call, after, h, -⟩
  simp at h

theorem uses_of_makes {s : EtsRegistry} {call : Call} {id : UInt64} (h : s.makes call = some id) :
    s.uses call = some id := by
  cases call with
  | createTable => exact h
  | tryCreateTable metadata =>
    rw [makes] at h
    split at h
    · cases h
    · exact h
  | deleteTable => cases h
  | deleteTablesOwnedBy => cases h

/-- The tables are under ids that have been used. -/
theorem used_of_lookupTable {calls : List Call} {id : UInt64} {table : RegisteredTable}
    (h : (run calls).lookupTable id = some table) : Used calls id := by
  induction calls using List.reverseRecOn with
  | nil => cases h
  | append_singleton calls call ih =>
    rw [run_concat] at h
    rw [used_concat]
    by_cases hmakes : (run calls).makes call = some id
    · exact .inr (uses_of_makes hmakes)
    · exact .inl (ih (step_other hmakes h))

theorem nextTableId_insertName (s : EtsRegistry) (name : Option Atom) (id : UInt64) :
    (s.insertName name id).nextTableId = s.nextTableId := by
  cases name <;> rfl

theorem nextTableId_removeNameIf (s : EtsRegistry) (name : Option Atom) (id : UInt64) :
    (s.removeNameIf name id).nextTableId = s.nextTableId := by
  cases name with
  | none => rfl
  | some name =>
    rw [removeNameIf]
    split <;> rfl

theorem nextTableId_step {s : EtsRegistry} {call : Call} {metadata : TableMetadata}
    (h : call.metadata? = some metadata) :
    (s.step call).nextTableId = (s.pickTableId metadata).2.nextTableId := by
  cases call with
  | createTable =>
    cases h
    simp [step, createTable, nextTableId_insertName, nextTableId_removeNameIf, insertTable]
  | tryCreateTable =>
    cases h
    rw [step, tryCreateTable_eq]
    split
    · rfl
    · exact nextTableId_insertName _ _ _
  | deleteTable => cases h
  | deleteTablesOwnedBy => cases h

theorem lt_add_one_of_ne_max {id : UInt64} (h : id ≠ maxTableId) : id < id + 1 := by
  have hlt := id.toNat_lt
  have hne : id.toNat ≠ maxTableId.toNat := fun heq => h (UInt64.toNat_inj.mp heq)
  have hmax : maxTableId.toNat = 2 ^ 64 - 1 := rfl
  rw [UInt64.lt_iff_toNat_lt, UInt64.toNat_add]
  have hone : (1 : UInt64).toNat = 1 := rfl
  omega

/-- Until the last id is used, the counter is past the ids in use. -/
theorem pickTableId_lt (s : EtsRegistry) (metadata : TableMetadata)
    (h : (s.pickTableId metadata).1 ≠ maxTableId) :
    s.nextTableId ≤ (s.pickTableId metadata).2.nextTableId ∧
      (s.pickTableId metadata).1 < (s.pickTableId metadata).2.nextTableId := by
  unfold pickTableId at h ⊢
  split at h
  next hzero =>
    simp only [if_pos hzero, allocateTableId] at h ⊢
    have hlt := lt_add_one_of_ne_max h
    exact ⟨UInt64.le_of_lt hlt, hlt⟩
  next hzero =>
    simp only [if_neg hzero, reserveTableId] at h ⊢
    split
    next hle =>
      have hlt := lt_add_one_of_ne_max h
      simp only
      exact ⟨UInt64.le_of_lt (UInt64.lt_of_le_of_lt hle hlt), hlt⟩
    next hnot => exact ⟨UInt64.le_refl _, UInt64.not_le.mp hnot⟩

theorem lt_nextTableId {calls : List Call} (hmax : ¬ Used calls maxTableId) {id : UInt64}
    (h : Used calls id) : id < (run calls).nextTableId := by
  induction calls using List.reverseRecOn with
  | nil => exact absurd h (not_used_nil id)
  | append_singleton calls call ih =>
    rw [used_concat] at h hmax
    obtain ⟨hmax, hpicked⟩ := not_or.mp hmax
    rw [run_concat]
    cases hmetadata : call.metadata? with
    | none =>
      rw [(shrinks_of_metadata? _ hmetadata).next]
      rcases h with h | h
      · exact ih hmax h
      · simp [uses, hmetadata] at h
    | some metadata =>
      simp only [uses, hmetadata, Option.map_some, Option.some.injEq] at h hpicked
      obtain ⟨hle, hlt⟩ := pickTableId_lt _ _ hpicked
      rw [nextTableId_step hmetadata]
      rcases h with h | rfl
      · exact UInt64.lt_of_lt_of_le (ih hmax h) hle
      · exact hlt

/-- An id that is assigned implicitly has not been used. -/
theorem not_used_nextTableId {calls : List Call} (hmax : ¬ Used calls maxTableId) :
    ¬ Used calls (run calls).nextTableId :=
  fun h => UInt64.lt_irrefl _ (lt_nextTableId hmax h)

theorem pickTableId_implicit (s : EtsRegistry) {metadata : TableMetadata} (h : metadata.id = 0) :
    (s.pickTableId metadata).1 = s.nextTableId := by
  rw [pickTableId, if_pos h, allocateTableId]

theorem spares_of_keepsBound {calls : List Call} {call : Call}
    (hmax : ¬ Used calls maxTableId) (h : (run calls).KeepsBound call) :
    (run calls).Spares call := by
  rintro metadata rfl name table htable htableName hbound
  by_cases hid : metadata.id = 0
  · rw [pickTableId_implicit _ hid] at htable
    exact absurd (used_of_lookupTable htable) (not_used_nextTableId hmax)
  · have hpick : ((run calls).pickTableId metadata).1 = metadata.id := by
      rw [pickTableId, if_neg hid]
    rw [hpick] at htable hbound
    exact h hid name table htable htableName hbound

/-! ## The registry stays consistent -/

theorem namesTables_run {calls : List Call} (hmax : ¬ Used calls maxTableId)
    (h : Runs.Meets step KeepsBound new calls) : (run calls).NamesTables := by
  induction calls using List.reverseRecOn with
  | nil =>
    intro name id h
    cases h
  | append_singleton calls call ih =>
    rw [used_concat] at hmax
    obtain ⟨hmax, -⟩ := not_or.mp hmax
    obtain ⟨hcalls, hcall⟩ := Runs.Meets.concat.mp h
    rw [run_concat]
    exact namesTables_step (ih hmax hcalls) (spares_of_keepsBound hmax hcall)

theorem bound_or_nameTaken {calls : List Call} {name : Atom} {id : UInt64} {table : RegisteredTable}
    (htable : (run calls).lookupTable id = some table) (hname : table.metadata.name = some name) :
    (run calls).lookupTableByName name = some id ∨ NameTaken calls name id := by
  induction calls using List.reverseRecOn with
  | nil => cases htable
  | append_singleton calls call ih =>
    rw [run_concat] at htable ⊢
    by_cases hmakes : (run calls).makes call = some id
    · exact .inl (step_makes hmakes htable hname)
    rcases ih (step_other hmakes htable) with hbound | htaken
    · rcases step_bound hmakes htable hbound with h | ⟨metadata, rfl, hnew, hother⟩
      · exact .inl h
      · exact .inr ⟨calls, metadata, [], rfl, hnew, hbound, hother, trivial⟩
    · obtain ⟨before, metadata, after, rfl, hnew, hbound, hother, hafter⟩ := htaken
      refine .inr ⟨before, metadata, after ++ [call], by simp, hnew, hbound, hother, ?_⟩
      refine Runs.Meets.concat.mpr ⟨hafter, ?_⟩
      simpa [run] using hmakes

/-- Name entries point to tables that carry the name, a named table has its entry unless
`create_table` has given the name to another table since, and an implicit id is a new one. -/
theorem names_consistent (calls : List Call) (hmax : ¬ Used calls maxTableId)
    (h : Runs.Meets step KeepsBound new calls) :
    (∀ name id, (run calls).lookupTableByName name = some id →
      ∃ table, (run calls).lookupTable id = some table ∧ table.metadata.name = some name) ∧
    (∀ id table name, (run calls).lookupTable id = some table →
      table.metadata.name = some name →
      (run calls).lookupTableByName name = some id ∨ NameTaken calls name id) ∧
    (∀ call metadata, call.metadata? = some metadata → metadata.id = 0 →
      ∀ id, (run calls).uses call = some id → ¬ Used calls id) := by
  refine ⟨namesTables_run hmax h, fun _ _ _ => bound_or_nameTaken, ?_⟩
  intro call metadata hmetadata hzero id huses
  rw [uses, hmetadata, Option.map_some, pickTableId_implicit _ hzero] at huses
  cases huses
  exact not_used_nextTableId hmax

/-- A named table under an implicit id. -/
def named (name : Atom) : TableMetadata := ⟨0, some name, .set, 7⟩

/-- Two tables made with one name: the entry points to the second, the first has lost it. -/
theorem not_every_named_table_bound :
    let calls := [Call.createTable (named 1), Call.createTable (named 1)]
    (run calls).lookupTableByName 1 = some 2 ∧
    ¬ ∀ id table name, (run calls).lookupTable id = some table → table.metadata.name = some name →
      (run calls).lookupTableByName name = some id := by
  intro calls
  refine ⟨rfl, fun h => ?_⟩
  have hfirst : (run calls).lookupTableByName 1 = some 1 := h 1 _ 1 rfl rfl
  cases hfirst

theorem names_consistent_of_two :
    let calls := [Call.createTable (named 1), Call.tryCreateTable (named 2)]
    (run calls).lookupTableByName 2 = some 2 ∧
    ∃ table, (run calls).lookupTable 2 = some table ∧ table.metadata.name = some 2 := by
  intro calls
  have hmax : ¬ Used calls maxTableId := by
    have hsplit : calls = [] ++ [Call.createTable (named 1)] ++ [Call.tryCreateTable (named 2)] := rfl
    rw [hsplit, used_concat, used_concat]
    rintro ((h | h) | h)
    · exact not_used_nil _ h
    · cases h
    · cases h
  have hbound : (run calls).lookupTableByName 2 = some 2 := rfl
  have hmeets : Runs.Meets step KeepsBound new calls :=
    ⟨trivial, fun hzero => absurd rfl hzero, trivial⟩
  exact ⟨hbound, (names_consistent calls hmax hmeets).1 2 2 hbound⟩

end EtsRegistry

end Beamr.Ets
