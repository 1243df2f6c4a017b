import Beamr.Atom
import Beamr.Lib.Float64
import Beamr.Term.BigInt

/-!
# Term values

What the accessors of `term::boxed`, `PidRef`, `ReferenceRef` and `BinaryRef` read
from a term word, as a tree. Different layouts of one kind stay apart: local and
remote pids, compact and remote references, inline, reference-counted and
sub-binaries, bignums with any number of limbs. A boxed object that none of the
accessors accepts is only its word.
-/
namespace Beamr.Term

/-- An immediate integer: 61 bits of payload. -/
structure SmallInt where
  value : ℤ
  min_le : -(2 ^ 60) ≤ value
  lt_max : value < 2 ^ 60
  deriving DecidableEq

def SmallInt.ofRange (value : ℤ) (h : -(2 ^ 60) ≤ value ∧ value < 2 ^ 60) : SmallInt :=
  ⟨value, h.1, h.2⟩

/-- The numeric terms, as stored. -/
inductive Number
  | smallInt (n : SmallInt)
  | float (x : Float64)
  | bigInt (negative : Bool) (limbs : List UInt64)
  deriving DecidableEq

inductive PidRef
  | local (number : UInt64)
  | remote (node : Atom) (number serial : UInt64)
  deriving DecidableEq

namespace PidRef

def node : PidRef → Option Atom
  | .local _ => none
  | .remote node _ _ => some node

def pidNumber : PidRef → UInt64
  | .local number => number
  | .remote _ number _ => number

def serial : PidRef → UInt64
  | .local _ => 0
  | .remote _ _ serial => serial

end PidRef

inductive ReferenceRef
  | local (id : UInt64)
  | remote (node : Atom) (id : UInt64)
  deriving DecidableEq

namespace ReferenceRef

def node : ReferenceRef → Option Atom
  | .local _ => none
  | .remote node _ => some node

def id : ReferenceRef → UInt64
  | .local id => id
  | .remote _ id => id

end ReferenceRef

/-- A view into an inline or reference-counted parent; a view past the end is not accepted. -/
structure SubBinary where
  parent : List UInt8
  offset : ℕ
  len : ℕ
  inRange : offset + len ≤ parent.length
  deriving DecidableEq

inductive BinaryRef
  | inline (bytes : List UInt8)
  | refc (bytes : List UInt8)
  | sub (view : SubBinary)
  deriving DecidableEq

def BinaryRef.asBytes : BinaryRef → List UInt8
  | .inline bytes => bytes
  | .refc bytes => bytes
  | .sub view => (view.parent.drop view.offset).take view.len

/-- The words of a closure before its free variables. -/
structure Closure where
  module : Option Atom
  functionIndex : UInt64
  arity : UInt8
  generation : UInt64
  uniqueId : UInt64
  deriving DecidableEq

inductive Value
  | number (n : Number)
  | atom (a : Atom)
  | reference (r : ReferenceRef)
  | closure (c : Closure) (free : List Value)
  | pid (p : PidRef)
  | tuple (elements : List Value)
  | map (entries : List (Value × Value))
  | nil
  | cons (head tail : Value)
  | binary (b : BinaryRef)
  | other (raw : UInt64)

namespace Value

/-- The terms stored directly in a term. -/
def children : Value → List Value
  | .closure _ free => free
  | .tuple elements => elements
  | .map entries => entries.flatMap fun e => [e.1, e.2]
  | .cons head tail => [head, tail]
  | _ => []

mutual

/-- Height of the tree. -/
def depth : Value → ℕ
  | .closure _ free => depthList free + 1
  | .tuple elements => depthList elements + 1
  | .map entries => depthEntries entries + 1
  | .cons head tail => max head.depth tail.depth + 1
  | _ => 0

def depthList : List Value → ℕ
  | [] => 0
  | v :: vs => max v.depth (depthList vs)

def depthEntries : List (Value × Value) → ℕ
  | [] => 0
  | e :: es => max (depthEntry e) (depthEntries es)

def depthEntry : Value × Value → ℕ
  | (k, v) => max k.depth v.depth

end

theorem depth_le_depthList {v : Value} {vs : List Value} (h : v ∈ vs) :
    v.depth ≤ depthList vs := by
  induction vs with
  | nil => simp at h
  | cons w ws ih =>
    rw [depthList]
    rcases List.mem_cons.mp h with rfl | h
    · exact le_max_left _ _
    · exact (ih h).trans (le_max_right _ _)

theorem depth_le_depthEntries {e : Value × Value} {es : List (Value × Value)} (h : e ∈ es) :
    e.1.depth ≤ depthEntries es ∧ e.2.depth ≤ depthEntries es := by
  induction es with
  | nil => simp at h
  | cons f fs ih =>
    rw [depthEntries]
    rcases List.mem_cons.mp h with rfl | h
    · obtain ⟨k, v⟩ := e
      simp [depthEntry]
    · have := ih h
      omega

theorem depth_child {v c : Value} (h : c ∈ v.children) : c.depth < v.depth := by
  cases v with
  | closure cl free => exact Nat.lt_succ_of_le (depth_le_depthList h)
  | tuple elements => exact Nat.lt_succ_of_le (depth_le_depthList h)
  | map entries =>
    obtain ⟨e, he, hc⟩ := List.mem_flatMap.mp h
    have hdepth := depth_le_depthEntries he
    rw [depth]
    rcases List.mem_pair.mp hc with rfl | rfl <;> omega
  | cons head tail =>
    rw [depth]
    rcases List.mem_pair.mp h with rfl | rfl <;> omega
  | number | atom | reference | pid | nil | binary | other => simp [children] at h

/-- `p` at the term and at every term below it. -/
inductive All (p : Value → Prop) : Value → Prop
  | intro {v : Value} (here : p v) (below : ∀ c ∈ v.children, All p c) : All p v

theorem All.here {p : Value → Prop} {v : Value} (h : v.All p) : p v := by cases h; assumption

theorem All.child {p : Value → Prop} {v c : Value} (h : v.All p) (hc : c ∈ v.children) :
    c.All p := by
  cases h with
  | intro _ below => exact below c hc

theorem all_iff {p : Value → Prop} {v : Value} : v.All p ↔ p v ∧ ∀ c ∈ v.children, c.All p :=
  ⟨fun h => ⟨h.here, fun _ hc => h.child hc⟩, fun h => .intro h.1 h.2⟩

/-- The term's own number and atoms come from the given sets. -/
def LeafIn (numbers : Set Number) (atoms : Set Atom) : Value → Prop
  | .number n => n ∈ numbers
  | .atom a => a ∈ atoms
  | .closure c _ => ∀ m, c.module = some m → m ∈ atoms
  | _ => True

/-- Terms of any shape whose numbers and atoms come from the given sets. -/
def Over (numbers : Set Number) (atoms : Set Atom) : Set Value :=
  {v | v.All (LeafIn numbers atoms)}

theorem over_child {numbers : Set Number} {atoms : Set Atom} {v c : Value}
    (h : v ∈ Over numbers atoms) (hc : c ∈ v.children) : c ∈ Over numbers atoms :=
  All.child h hc

end Value

end Beamr.Term
