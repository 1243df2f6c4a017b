import Beamr.Lib.ByteOrder
import Beamr.Term.Ties
import Mathlib

/-!
# Hashing of term keys

`term_hash` and its hasher, an FNV-style fold over the bytes written. Maps write their
entries in exact key order, bignums their normalised limbs or the small integer they
stand for, binaries their bytes whatever stores them. Exactly equal terms therefore
write the same bytes.
-/
namespace Beamr.Term

open Comparison DepthRecursion ByteOrder

/-! ## The hasher -/

structure StableHasher where
  hash : UInt64
  deriving DecidableEq

namespace StableHasher

def offsetBasis : UInt64 := 0xcbf29ce484222325

def prime : UInt64 := 0x100000001b3

def byte (h : StableHasher) (b : UInt8) : StableHasher := ⟨(h.hash ^^^ b.toUInt64) * prime⟩

/-- Eight little-endian bytes of a `u64`, with no check for a fresh hasher. -/
def mix (h : StableHasher) (value : ℕ) : StableHasher := (leBytes 8 value).foldl byte h

def write (h : StableHasher) (bytes : List UInt8) : StableHasher :=
  bytes.foldl byte (if h.hash = 0 then ⟨offsetBasis⟩ else h)

def writeU8 (h : StableHasher) (i : UInt8) : StableHasher := h.write [i]

/-- The default of the hasher trait: the bytes of the word on a little-endian target. -/
def writeU32 (h : StableHasher) (i : ℕ) : StableHasher := h.write (leBytes 4 i)

def writeU64 (h : StableHasher) (i : ℕ) : StableHasher := h.mix i

def writeUsize (h : StableHasher) (i : ℕ) : StableHasher := h.mix i

def finish (h : StableHasher) : UInt64 := if h.hash = 0 then offsetBasis else h.hash

end StableHasher

/-! ## Terms -/

inductive HashKind
  | smallInt | atom | pid | nil | tuple | float | bigInt | closure | map | reference | binary | list
  | other
  deriving DecidableEq

def HashKind.code : HashKind → UInt8
  | .smallInt => 1
  | .atom => 2
  | .pid => 3
  | .nil => 4
  | .tuple => 5
  | .float => 6
  | .bigInt => 7
  | .closure => 8
  | .map => 9
  | .reference => 10
  | .binary => 11
  | .list => 12
  | .other => 13

def hashKind (kind : HashKind) (state : StableHasher) : StableHasher := state.writeU8 kind.code

def hashSmallInt (value : ℤ) (state : StableHasher) : StableHasher :=
  (hashKind .smallInt state).writeU64 (value % 2 ^ 64).toNat

/-- A bignum in the immediate range hashes as the immediate. -/
def hashBigInt (value : BigIntValue) (state : StableHasher) : StableHasher :=
  let wide := value.limbs.foldl StableHasher.writeU64
    (((hashKind .bigInt state).writeU8 value.isNegative.toUInt8).writeUsize value.limbs.length)
  match value.toSmallI64 with
  | some small => if -(2 ^ 60) ≤ small ∧ small < 2 ^ 60 then hashSmallInt small state else wide
  | none => wide

def hashNumber : Number → StableHasher → StableHasher
  | .smallInt n, state => hashSmallInt n.value state
  | .float x, state => (hashKind .float state).writeU64 x.toBits
  | .bigInt negative limbs, state => hashBigInt (.fromBigInt negative limbs) state

def hashPid (pid : PidRef) (state : StableHasher) : StableHasher :=
  ((((hashKind .pid state).writeU8 pid.node.isSome.toUInt8).writeU32
    (pid.node.getD 0)).writeU64 pid.pidNumber.toNat).writeU64 pid.serial.toNat

def hashReference (reference : ReferenceRef) (state : StableHasher) : StableHasher :=
  (((hashKind .reference state).writeU8 reference.node.isSome.toUInt8).writeU32
    (reference.node.getD 0)).writeU64 reference.id.toNat

section Loops

variable (hashElement : Value → StableHasher → StableHasher)

def hashAll (elements : List Value) (state : StableHasher) : StableHasher :=
  elements.foldl (fun state element => hashElement element state) state

def hashTuple (elements : List Value) (state : StableHasher) : StableHasher :=
  hashAll hashElement elements ((hashKind .tuple state).writeUsize elements.length)

def hashModule (module : Option Atom) (state : StableHasher) : StableHasher :=
  match module with
  | some module => (state.writeU8 1).writeU64 module
  | none => state.writeU8 0

def hashClosure (closure : Closure) (free : List Value) (state : StableHasher) : StableHasher :=
  hashAll hashElement free <|
    (((((hashModule closure.module (hashKind .closure state)).writeU64
      closure.functionIndex.toNat).writeU8 closure.arity).writeU64
        closure.generation.toNat).writeU64 closure.uniqueId.toNat).writeUsize free.length

def hashEntry (state : StableHasher) (entry : Value × Value) : StableHasher :=
  hashElement entry.2 (hashElement entry.1 state)

def hashMap (entries : List (Value × Value)) (state : StableHasher) : StableHasher :=
  let sorted := sortedMapEntries exactCmp entries
  sorted.foldl (hashEntry hashElement) ((hashKind .map state).writeUsize sorted.length)

/-- The loop of `hash_list`. -/
def hashCells : Value → StableHasher → StableHasher
  | .cons head tail, state => hashCells tail (hashElement head (state.writeU8 1))
  | rest, state => hashElement rest (state.writeU8 0)

def hashStep : Value → StableHasher → StableHasher
  | .number n, state => hashNumber n state
  | .atom a, state => (hashKind .atom state).writeU64 a
  | .pid p, state => hashPid p state
  | .nil, state => hashKind .nil state
  | .tuple elements, state => hashTuple hashElement elements state
  | .closure closure free, state => hashClosure hashElement closure free state
  | .map entries, state => hashMap hashElement entries state
  | .reference r, state => hashReference r state
  | .binary b, state => (hashKind .binary state).write b.asBytes
  | .cons head tail, state => hashCells hashElement (.cons head tail) (hashKind .list state)
  | .other raw, state => (hashKind .other state).writeU64 raw.toNat

end Loops

def hashTerm : Value → StableHasher → StableHasher :=
  byDepth Value.depth hashStep fun _ state => state

def termHash (term : Value) : UInt64 := (hashTerm term ⟨0⟩).finish

/-! ## The recursion -/

section Congr

variable {f g : Value → StableHasher → StableHasher}

theorem hashAll_congr {xs ys : List Value} (h : List.Forall₂ (fun a b => f a = g b) xs ys)
    (state : StableHasher) : hashAll f xs state = hashAll g ys state := by
  induction h generalizing state with
  | nil => rfl
  | cons hab _ ih =>
    rw [hashAll, List.foldl_cons, hab]
    exact ih _

theorem foldl_hashEntry_congr {es fs : List (Value × Value)}
    (h : List.Forall₂ (fun a b => f a.1 = g b.1 ∧ f a.2 = g b.2) es fs) (state : StableHasher) :
    es.foldl (hashEntry f) state = fs.foldl (hashEntry g) state := by
  induction h generalizing state with
  | nil => rfl
  | cons hab _ ih =>
    rw [List.foldl_cons, List.foldl_cons, hashEntry, hashEntry, hab.1, hab.2]
    exact ih _

theorem hashTuple_congr {xs ys : List Value} (h : List.Forall₂ (fun a b => f a = g b) xs ys)
    (state : StableHasher) : hashTuple f xs state = hashTuple g ys state := by
  rw [hashTuple, hashTuple, h.length_eq]
  exact hashAll_congr h _

theorem hashClosure_congr {xs ys : List Value} (h : List.Forall₂ (fun a b => f a = g b) xs ys)
    (closure : Closure) (state : StableHasher) :
    hashClosure f closure xs state = hashClosure g closure ys state := by
  rw [hashClosure, hashClosure, h.length_eq]
  exact hashAll_congr h _

theorem hashMap_congr {es fs : List (Value × Value)}
    (h : List.Forall₂ (fun a b => f a.1 = g b.1 ∧ f a.2 = g b.2) (sortedMapEntries exactCmp es)
      (sortedMapEntries exactCmp fs)) (state : StableHasher) :
    hashMap f es state = hashMap g fs state := by
  simp only [hashMap, h.length_eq]
  exact foldl_hashEntry_congr h _

end Congr

theorem hashCells_congr {f g : Value → StableHasher → StableHasher} {n : ℕ}
    (h : ∀ x : Value, x.depth < n → f x = g x) {v : Value} (hv : v.depth < n)
    (state : StableHasher) : hashCells f v state = hashCells g v state := by
  fun_induction hashCells f v state with
  | case1 head tail state ih =>
    rw [Value.depth] at hv
    rw [hashCells, ← h head (by omega)]
    exact ih (by omega)
  | case2 rest state hne =>
    rw [hashCells, h rest hv]
    exact hne

/-- One step of hashing only asks about terms below. -/
theorem hashStep_descends : Descends Value.depth hashStep := by
  intro n f g h v hv
  have hchild : ∀ x ∈ v.children, f x = g x := fun x hx =>
    h x ((Value.depth_child hx).trans_le hv)
  funext state
  cases v with
  | tuple xs =>
    rw [hashStep, hashStep]
    exact hashTuple_congr (List.forall₂_same.mpr hchild) state
  | closure c free =>
    rw [hashStep, hashStep]
    exact hashClosure_congr (List.forall₂_same.mpr hchild) c state
  | map es =>
    rw [hashStep, hashStep]
    refine hashMap_congr (List.forall₂_same.mpr fun e he => ?_) state
    have hentries := mem_entries_children (s := {x | f x = g x}) hchild
    exact hentries e (mem_sortBy.mp he)
  | cons head tail =>
    rw [Value.depth] at hv
    rw [hashStep, hashStep, hashCells, hashCells, h head (by omega)]
    exact hashCells_congr h (by omega) _
  | number | atom | reference | pid | nil | binary | other => rw [hashStep, hashStep]

theorem hashTerm_eq (v : Value) : hashTerm v = hashStep hashTerm v :=
  byDepth_eq hashStep_descends v

/-! ## Exactly equal terms -/

theorem hashNumber_eq {a b : Number} (h : exactCmp (.number a) (.number b) = .eq) :
    hashNumber a = hashNumber b := by
  rw [exactCmp_number, Ordering.then_eq_eq] at h
  have hkind := ExactKind.place_injective (Std.LawfulEqOrd.eq_of_compare h.1)
  cases a with
  | smallInt n =>
    cases b with
    | smallInt m =>
      have hnm : n.value = m.value := Std.LawfulEqOrd.eq_of_compare h.2
      funext state
      rw [hashNumber, hashNumber, hnm]
    | _ => cases hkind
  | float x =>
    cases b with
    | float y =>
      have hxy : x.toBits = y.toBits := Std.LawfulEqOrd.eq_of_compare h.2
      rw [Float64.toBits_injective hxy]
    | _ => cases hkind
  | bigInt s ls =>
    cases b with
    | bigInt t ms =>
      have hint := h.2
      rw [compareNumbersExact, compareBigInts_eq] at hint
      have hval := (BigIntValue.fromBigInt_canonical s ls).toInt_injective
        (BigIntValue.fromBigInt_canonical t ms) (Std.LawfulEqOrd.eq_of_compare hint)
      funext state
      rw [hashNumber, hashNumber, hval]
    | _ => cases hkind

theorem hashPid_eq {p q : PidRef} (h : comparePids p q = .eq) : hashPid p = hashPid q := by
  simp only [comparePids, Ordering.then_eq_eq, Std.LawfulEqOrd.compare_eq_iff_eq] at h
  funext state
  rw [hashPid, hashPid, h.1, h.2.1, h.2.2]

theorem hashReference_eq {p q : ReferenceRef} (h : compareReferences p q = .eq) :
    hashReference p = hashReference q := by
  simp only [compareReferences, Ordering.then_eq_eq, Std.LawfulEqOrd.compare_eq_iff_eq] at h
  funext state
  rw [hashReference, hashReference, h.1, h.2]

theorem compareModules_eq_iff {m k : Option Atom} :
    compareModules compare m k = .eq ↔ m = k := by
  cases m <;> cases k <;> simp [compareModules]

theorem compareClosuresWith_eq_iff {c c' : Closure} {free free' : List Value} :
    compareClosuresWith exactCmp compare (c, free) (c', free') = .eq ↔
      c = c' ∧ List.Forall₂ (fun a b => exactCmp a b = .eq) free free' := by
  simp only [compareClosuresWith, Ordering.then_eq_eq, compareModules_eq_iff,
    Std.LawfulEqOrd.compare_eq_iff_eq, lengthLex_eq_iff]
  cases c; cases c'
  simp only [Closure.mk.injEq]
  tauto

/-- The tails of exactly equal lists are walked in step. -/
theorem hashCells_eq {n : ℕ}
    (h : ∀ a b : Value, a.depth < n → exactCmp a b = .eq → hashTerm a = hashTerm b)
    {l r : Value} (hl : l.depth < n) (hlr : exactCmp l r = .eq) (state : StableHasher) :
    hashCells hashTerm l state = hashCells hashTerm r state := by
  fun_induction hashCells hashTerm l state generalizing r with
  | case1 head tail state ih =>
    have hrank := exactCmp_isTermOrder.rank_eq hlr
    cases r with
    | cons head' tail' =>
      rw [exactCmp_isTermOrder.cons_cons, Ordering.then_eq_eq] at hlr
      rw [Value.depth] at hl
      rw [hashCells, ← h head head' (by omega) hlr.1]
      exact ih (by omega) hlr.2
    | _ => cases hrank
  | case2 rest state hne =>
    have hrank := exactCmp_isTermOrder.rank_eq hlr
    rw [h rest r hl hlr]
    cases r with
    | cons head' tail' =>
      cases rest with
      | cons head tail => exact absurd rfl (hne head tail)
      | _ => cases hrank
    | _ => rfl

theorem hashTerm_eq_of_exactCmp_eq {l r : Value} (h : exactCmp l r = .eq) :
    hashTerm l = hashTerm r := by
  induction hn : l.depth using Nat.strong_induction_on generalizing l r with
  | _ n ih =>
    have hbelow : ∀ a b : Value, a.depth < n → exactCmp a b = .eq → hashTerm a = hashTerm b :=
      fun a b ha hab => ih a.depth ha hab rfl
    have hrank := exactCmp_isTermOrder.rank_eq h
    rw [hashTerm_eq l, hashTerm_eq r]
    funext state
    by_cases hnum : rank l = .number
    · cases l with
      | number a =>
        cases r with
        | number b => exact congrFun (hashNumber_eq h) state
        | _ => cases hrank
      | _ => cases hnum
    rw [exactCmp_isTermOrder.eq_compareSame hrank hnum] at h
    have hchildren : ∀ {xs ys : List Value}, (∀ x ∈ xs, x.depth < n) →
        List.Forall₂ (fun a b => exactCmp a b = .eq) xs ys →
          List.Forall₂ (fun a b => hashTerm a = hashTerm b) xs ys :=
      fun hxs => forall₂_imp_mem fun a ha b _ => hbelow a b (hxs a ha)
    have hdepth : ∀ x ∈ l.children, x.depth < n := fun x hx => hn ▸ Value.depth_child hx
    cases l with
    | number a => exact absurd rfl hnum
    | atom a =>
      cases r with
      | atom b =>
        have hab : a = b := Std.LawfulEqOrd.eq_of_compare h
        rw [hab]
      | _ => cases hrank
    | reference a =>
      cases r with
      | reference b => rw [hashStep, hashStep, hashReference_eq h]
      | _ => cases hrank
    | closure c free =>
      cases r with
      | closure c' free' =>
        obtain ⟨rfl, hfree⟩ := compareClosuresWith_eq_iff.mp h
        rw [hashStep, hashStep]
        exact hashClosure_congr (hchildren hdepth hfree) c state
      | _ => cases hrank
    | pid p =>
      cases r with
      | pid q => rw [hashStep, hashStep, hashPid_eq h]
      | _ => cases hrank
    | tuple xs =>
      cases r with
      | tuple ys =>
        rw [hashStep, hashStep]
        exact hashTuple_congr (hchildren hdepth (lengthLex_eq_iff.mp h)) state
      | _ => cases hrank
    | map es =>
      cases r with
      | map fs =>
        rw [hashStep, hashStep]
        refine hashMap_congr (forall₂_imp_mem (fun a ha b _ hab => ?_) (lengthLex_eq_iff.mp h)) state
        have hentry := mem_entries_children (s := {x | x.depth < n}) hdepth a (mem_sortBy.mp ha)
        rw [compareMapEntry, Ordering.then_eq_eq] at hab
        exact ⟨hbelow _ _ hentry.1 hab.1, hbelow _ _ hentry.2 hab.2⟩
      | _ => cases hrank
    | nil =>
      cases r with
      | nil => rfl
      | _ => cases hrank
    | cons a b =>
      cases r with
      | cons a' b' =>
        rw [compareSame, compareListsWith, exactCmp_isTermOrder.compareListsWith_eq,
          Ordering.then_eq_eq] at h
        rw [hashStep, hashStep, hashCells, hashCells,
          hbelow a a' (hdepth a (by simp [Value.children])) h.1]
        exact hashCells_eq hbelow (hdepth b (by simp [Value.children])) h.2 _
      | _ => cases hrank
    | binary a =>
      cases r with
      | binary b =>
        have hab : a.asBytes = b.asBytes := Std.LawfulEqOrd.eq_of_compare h
        rw [hashStep, hashStep, hab]
      | _ => cases hrank
    | other a =>
      cases r with
      | other b =>
        have hab : a = b := Std.LawfulEqOrd.eq_of_compare h
        rw [hab]
      | _ => cases hrank

/-- Exactly equal terms hash alike, whatever represents them. -/
theorem termHash_eq_of_exactEq (l r : Value) (h : exactEq l r = true) : termHash l = termHash r := by
  rw [termHash, termHash, hashTerm_eq_of_exactCmp_eq (by simpa [exactEq] using h)]

/-- One map in two storage orders, with a key held inline and in a sub-binary, and a bignum with
a high zero limb as value. -/
theorem termHash_eq_storage :
    termHash (.map [(.binary (.inline [2, 3]), .number (.bigInt true [5, 0])),
        (.atom 1, .number (.float ⟨true, 0, by norm_num⟩))]) =
      termHash (.map [(.atom 1, .number (.float ⟨true, 0, by norm_num⟩)),
        (.binary (.sub ⟨[1, 2, 3], 1, 2, by decide⟩), .number (.bigInt true [5]))]) :=
  termHash_eq_of_exactEq _ _ (by decide +kernel)

end Beamr.Term
