import Beamr.Ets.Bag
import Beamr.Lib.SortedEntries

/-!
# Tables

The four kinds of table and the functions that walk them. A hash table is the list of its entries;
the order of the list is the order in which the map happens to iterate, on which only `tab2list`
and what is built on it depend. An ordered set is the list of its rows in the order of the tree.
-/
namespace Beamr.Ets

open Term Comparison Entries SortedEntries

inductive TableType
  | set | orderedSet | bag | duplicateBag
  deriving DecidableEq

inductive Table
  | set (entries : List (Value × Value))
  | orderedSet (rows : List (Value × Value))
  | bag (storage : BagStorage)
  | duplicateBag (storage : BagStorage)

/-! ## Sets -/

namespace EtsSet

def insert (keypos : ℕ) (entries : List (Value × Value)) (tuple : Value) :
    Except EtsError (List (Value × Value)) := do
  let key ← tupleKey keypos tuple
  let row ← copyTerm tuple
  let key ← copyTerm key
  .ok (put sameKey key row entries)

def lookup (entries : List (Value × Value)) (key : Value) : List Value :=
  (get sameKey entries key).toList

def deleteKey (entries : List (Value × Value)) (key : Value) : Bool × List (Value × Value) :=
  ((get sameKey entries key).isSome, erase sameKey key entries)

def deleteObject (keypos : ℕ) (entries : List (Value × Value)) (tuple : Value) :
    Bool × List (Value × Value) :=
  match tupleKey keypos tuple with
  | .error _ => (false, entries)
  | .ok key =>
    if (get sameKey entries key).any fun value => exactEq value tuple then
      (true, erase sameKey key entries)
    else (false, entries)

end EtsSet

/-! ## Ordered sets -/

namespace EtsOrderedSet

variable (atoms : AtomTable)

def first (rows : List (Value × Value)) : Option Value := rows.head?.map (·.2)

def last (rows : List (Value × Value)) : Option Value := rows.getLast?.map (·.2)

/-- The row whose key is immediately after `key`, even when `key` is absent. -/
def next (rows : List (Value × Value)) (key : Value) : Option Value :=
  (rows.find? fun e => cmp atoms key e.1 == .lt).map (·.2)

/-- The row whose key is immediately before `key`, even when `key` is absent. -/
def prev (rows : List (Value × Value)) (key : Value) : Option Value :=
  (rows.filter fun e => cmp atoms e.1 key == .lt).getLast?.map (·.2)

/-- The old key goes first, since the tree would keep it. -/
def insert (keypos : ℕ) (rows : List (Value × Value)) (tuple : Value) :
    Except EtsError (List (Value × Value)) := do
  let key ← tupleKey keypos tuple
  let row ← copyTerm tuple
  let key ← copyTerm key
  .ok (place (cmp atoms) key row (erase (tied (cmp atoms)) key rows))

def lookup (rows : List (Value × Value)) (key : Value) : List Value :=
  (get (tied (cmp atoms)) rows key).toList

def deleteKey (rows : List (Value × Value)) (key : Value) : Bool × List (Value × Value) :=
  ((get (tied (cmp atoms)) rows key).isSome, erase (tied (cmp atoms)) key rows)

def deleteObject (keypos : ℕ) (rows : List (Value × Value)) (tuple : Value) :
    Bool × List (Value × Value) :=
  match tupleKey keypos tuple with
  | .error _ => (false, rows)
  | .ok key =>
    if (get (tied (cmp atoms)) rows key).any fun value => exactEq value tuple then
      (true, erase (tied (cmp atoms)) key rows)
    else (false, rows)

end EtsOrderedSet

/-! ## Any table -/

namespace Table

variable (atoms : AtomTable) (keypos : ℕ)

def new : TableType → Table
  | .set => .set []
  | .orderedSet => .orderedSet []
  | .bag => .bag []
  | .duplicateBag => .duplicateBag []

def tableType : Table → TableType
  | .set _ => .set
  | .orderedSet _ => .orderedSet
  | .bag _ => .bag
  | .duplicateBag _ => .duplicateBag

def insert (tuple : Value) : Table → Except EtsError Table
  | .set entries => .set <$> EtsSet.insert keypos entries tuple
  | .orderedSet rows => .orderedSet <$> EtsOrderedSet.insert atoms keypos rows tuple
  | .bag storage => do
    let key ← tupleKey keypos tuple
    .bag <$> insertBagTuple storage key tuple false
  | .duplicateBag storage => do
    let key ← tupleKey keypos tuple
    .duplicateBag <$> insertBagTuple storage key tuple true

def lookup (key : Value) : Table → List Value
  | .set entries => EtsSet.lookup entries key
  | .orderedSet rows => EtsOrderedSet.lookup atoms rows key
  | .bag storage => lookupKey storage key
  | .duplicateBag storage => lookupKey storage key

def deleteKey (key : Value) : Table → Bool × Table
  | .set entries => (EtsSet.deleteKey entries key).map id .set
  | .orderedSet rows => (EtsOrderedSet.deleteKey atoms rows key).map id .orderedSet
  | .bag storage => (Ets.deleteKey storage key).map id .bag
  | .duplicateBag storage => (Ets.deleteKey storage key).map id .duplicateBag

def deleteObject (tuple : Value) : Table → Bool × Table
  | .set entries => (EtsSet.deleteObject keypos entries tuple).map id .set
  | .orderedSet rows => (EtsOrderedSet.deleteObject atoms keypos rows tuple).map id .orderedSet
  | .bag storage => (Ets.deleteObject storage tuple keypos).map id .bag
  | .duplicateBag storage => (Ets.deleteObject storage tuple keypos).map id .duplicateBag

def tab2list : Table → List Value
  | .set entries => entries.map (·.2)
  | .orderedSet rows => rows.map (·.2)
  | .bag storage => storage.flatMap (·.2)
  | .duplicateBag storage => storage.flatMap (·.2)

/-- The same table met in another order of iteration. -/
inductive Reordered : Table → Table → Prop
  | set {entries entries' : List (Value × Value)} (h : entries.Perm entries') :
      Reordered (.set entries) (.set entries')
  | orderedSet (rows : List (Value × Value)) : Reordered (.orderedSet rows) (.orderedSet rows)
  | bag {storage storage' : BagStorage} (h : storage.Perm storage') :
      Reordered (.bag storage) (.bag storage')
  | duplicateBag {storage storage' : BagStorage} (h : storage.Perm storage') :
      Reordered (.duplicateBag storage) (.duplicateBag storage')

end Table

/-! ## Walking a table -/

section Bifs

variable (atoms : AtomTable) (keypos : ℕ) (table : Table)

inductive CursorDirection
  | next | prev

/-- The keys of the rows; those of a hash table are sorted and ties dropped. -/
def tableSnapshotKeys : Except EtsError (List Value) := do
  let keys ← table.tab2list.mapM (tupleKey keypos)
  if table.tableType = .orderedSet then .ok keys
  else .ok ((sortBy (cmp atoms) keys).destutter fun kept key => cmp atoms key kept ≠ .eq)

/-- `none` is `$end_of_table`. -/
def copyEtsSubtermToProcess : Option Value → Except EtsError (Option Value)
  | some key => do .ok (some (← copyTerm key))
  | none => .ok none

def cursorNeighbor (keys : List Value) (key : Value) (direction : CursorDirection) :
    Except EtsError (Option Value) :=
  if keys = [] then .ok none
  else copyEtsSubtermToProcess <|
    if table.tableType = .orderedSet then
      match direction, binarySearchBy (fun probe => cmp atoms probe key) keys with
      | .next, .ok index => keys[index + 1]?
      | .next, .error index => keys[index]?
      | .prev, .ok 0 => none
      | .prev, .error 0 => none
      | .prev, .ok (index + 1) => keys[index]?
      | .prev, .error (index + 1) => keys[index]?
    else
      match direction, keys.findIdx? fun candidate => exactEq candidate key with
      | .next, some index => keys[index + 1]?
      | .prev, some (index + 1) => keys[index]?
      | _, _ => none

def bifFirst : Except EtsError (Option Value) := do
  copyEtsSubtermToProcess (← tableSnapshotKeys atoms keypos table).head?

def bifLast : Except EtsError (Option Value) := do
  copyEtsSubtermToProcess (← tableSnapshotKeys atoms keypos table).getLast?

def bifNext (key : Value) : Except EtsError (Option Value) := do
  cursorNeighbor atoms table (← tableSnapshotKeys atoms keypos table) key .next

def bifPrev (key : Value) : Except EtsError (Option Value) := do
  cursorNeighbor atoms table (← tableSnapshotKeys atoms keypos table) key .prev

def bifMember (key : Value) : Bool := !(table.lookup atoms key).isEmpty

end Bifs

end Beamr.Ets
