import Beamr.Lib.DepthRecursion
import Beamr.Term.Numbers

/-!
# Term order and exact equality

`cmp`, `exact_cmp`, `exact_eq` and `numeric_eq` of `term::compare`. Both orders
compare a rank first and then terms of one rank, with the same loops over tuples,
free variables, lists and sorted map entries; they differ in the ranks, in how atoms
and modules compare and in how numbers do. The loops take the comparison of the
elements as an argument, and the recursion is tied over the depth of the terms.
-/
namespace Beamr.Term

open Comparison DepthRecursion

/-! ## Loops -/

section Loops

variable (elementCmp : Value → Value → Ordering)

/-- Walk two lists cell by cell; whatever follows the shorter one is compared as a term. -/
def compareListsWith : Value → Value → Ordering
  | .cons head tail, .cons head' tail' =>
    (elementCmp head head').then (compareListsWith tail tail')
  | left, right => elementCmp left right

def sortedMapEntries (entries : List (Value × Value)) : List (Value × Value) :=
  sortBy (fun left right => elementCmp left.1 right.1) entries

def compareMapEntry (left right : Value × Value) : Ordering :=
  (elementCmp left.1 right.1).then (elementCmp left.2 right.2)

def compareMapsWith (left right : List (Value × Value)) : Ordering :=
  lengthLex (compareMapEntry elementCmp) (sortedMapEntries elementCmp left)
    (sortedMapEntries elementCmp right)

/-- A closure without a module precedes one with a module. -/
def compareModules (atoms : Atom → Atom → Ordering) : Option Atom → Option Atom → Ordering
  | some left, some right => atoms left right
  | none, some _ => .lt
  | some _, none => .gt
  | none, none => .eq

def compareClosuresWith (atoms : Atom → Atom → Ordering) (left right : Closure × List Value) :
    Ordering :=
  (compareModules atoms left.1.module right.1.module).then <|
    (compare left.1.functionIndex right.1.functionIndex).then <|
      (compare left.1.arity right.1.arity).then <|
        (compare left.1.generation right.1.generation).then <|
          (compare left.1.uniqueId right.1.uniqueId).then <|
            lengthLex elementCmp left.2 right.2

def comparePids (left right : PidRef) : Ordering :=
  (compare left.node right.node).then <|
    (compare left.pidNumber right.pidNumber).then (compare left.serial right.serial)

def compareReferences (left right : ReferenceRef) : Ordering :=
  (compare left.node right.node).then (compare left.id right.id)

/-- Terms of one rank. Terms of different ranks never get here. -/
def compareSame (atoms : Atom → Atom → Ordering) (numbers : Number → Number → Ordering) :
    Value → Value → Ordering
  | .number left, .number right => numbers left right
  | .atom left, .atom right => atoms left right
  | .reference left, .reference right => compareReferences left right
  | .closure left free, .closure right free' =>
    compareClosuresWith elementCmp atoms (left, free) (right, free')
  | .pid left, .pid right => comparePids left right
  | .tuple left, .tuple right => lengthLex elementCmp left right
  | .map left, .map right => compareMapsWith elementCmp left right
  | .nil, .nil => .eq
  | .cons head tail, .cons head' tail' =>
    compareListsWith elementCmp (.cons head tail) (.cons head' tail')
  | .binary left, .binary right => compare left.asBytes right.asBytes
  | .other left, .other right => compare left right
  | _, _ => .eq

/-- Ranks first, then terms of one rank. -/
def compareStep (rank : Value → ℕ) (atoms : Atom → Atom → Ordering)
    (numbers : Number → Number → Ordering) (left right : Value) : Ordering :=
  (compare (rank left) (rank right)).then (compareSame elementCmp atoms numbers left right)

end Loops

/-- Tie the recursion over the depth of the terms. -/
def compareByDepth (rank : Value → ℕ) (atoms : Atom → Atom → Ordering)
    (numbers : Number → Number → Ordering) (left right : Value) : Ordering :=
  byDepth (fun p => max p.1.depth p.2.depth)
    (fun elementCmp p => compareStep (fun l r => elementCmp (l, r)) rank atoms numbers p.1 p.2)
    (fun _ => .eq) (left, right)

/-! ## Term order -/

inductive TermRank
  | number | atom | reference | fun | port | pid | tuple | map | nil | list | binary | otherBoxed
  deriving DecidableEq

/-- Position in the order of ranks. -/
def TermRank.place : TermRank → ℕ
  | .number => 0
  | .atom => 1
  | .reference => 2
  | .fun => 3
  | .port => 4
  | .pid => 5
  | .tuple => 6
  | .map => 7
  | .nil => 8
  | .list => 9
  | .binary => 10
  | .otherBoxed => 11

def rank : Value → TermRank
  | .number _ => .number
  | .atom _ => .atom
  | .reference _ => .reference
  | .closure _ _ => .fun
  | .pid _ => .pid
  | .tuple _ => .tuple
  | .map _ => .map
  | .nil => .nil
  | .cons _ _ => .list
  | .binary _ => .binary
  | .other _ => .otherBoxed

/-- Names when both atoms are in the table, indices otherwise. -/
def compareAtomsByName (table : AtomTable) (left right : Atom) : Ordering :=
  match table.resolve left, table.resolve right with
  | some leftName, some rightName => compare leftName rightName
  | _, _ => compare left right

/-- BEAM term order. -/
def cmp (table : AtomTable) : Value → Value → Ordering :=
  compareByDepth (fun v => (rank v).place) (compareAtomsByName table) compareNumbers

/-- The order without an atom table: atoms by index. -/
def rawCmp : Value → Value → Ordering :=
  compareByDepth (fun v => (rank v).place) compare compareNumbers

/-! ## Exact order -/

inductive ExactKind
  | smallInt | atom | pid | nil | tuple | float | bigInt | closure | map | reference | binary | list
  | other
  deriving DecidableEq

def ExactKind.place : ExactKind → ℕ
  | .smallInt => 0
  | .atom => 1
  | .pid => 2
  | .nil => 3
  | .tuple => 4
  | .float => 5
  | .bigInt => 6
  | .closure => 7
  | .map => 8
  | .reference => 9
  | .binary => 10
  | .list => 11
  | .other => 12

def exactKind : Value → ExactKind
  | .number (.smallInt _) => .smallInt
  | .atom _ => .atom
  | .pid _ => .pid
  | .nil => .nil
  | .tuple _ => .tuple
  | .number (.float _) => .float
  | .number (.bigInt _ _) => .bigInt
  | .closure _ _ => .closure
  | .map _ => .map
  | .reference _ => .reference
  | .binary _ => .binary
  | .cons _ _ => .list
  | .other _ => .other

/-- Order of terms under `=:=`. -/
def exactCmp : Value → Value → Ordering :=
  compareByDepth (fun v => (exactKind v).place) compare compareNumbersExact

def exactEq (left right : Value) : Bool := exactCmp left right == .eq

/-- `==`: numbers by value, everything else exactly. -/
def numericEq : Value → Value → Bool
  | .number left, .number right => numericEqNumbers left right
  | left, right => exactEq left right

/-! ## The recursion -/

theorem compareListsWith_congr {e e' : Value → Value → Ordering} {n : ℕ}
    (h : ∀ a b, a.depth < n → b.depth < n → e a b = e' a b) {l r : Value} (hl : l.depth < n)
    (hr : r.depth < n) : compareListsWith e l r = compareListsWith e' l r := by
  fun_induction compareListsWith e l r with
  | case1 head tail head' tail' ih =>
    rw [Value.depth] at hl hr
    rw [compareListsWith, h head head' (by omega) (by omega), ih (by omega) (by omega)]
  | case2 l r hne =>
    rw [compareListsWith, h l r hl hr]
    exact hne

theorem compareMapsWith_congr {e e' : Value → Value → Ordering} {es fs : List (Value × Value)}
    (hkk : ∀ a ∈ es ++ fs, ∀ b ∈ es ++ fs, e a.1 b.1 = e' a.1 b.1)
    (hvv : ∀ a ∈ es, ∀ b ∈ fs, e a.2 b.2 = e' a.2 b.2) :
    compareMapsWith e es fs = compareMapsWith e' es fs := by
  have hes : sortedMapEntries e es = sortedMapEntries e' es :=
    sortBy_congr fun a ha b hb => hkk a (by simp [ha]) b (by simp [hb])
  have hfs : sortedMapEntries e fs = sortedMapEntries e' fs :=
    sortBy_congr fun a ha b hb => hkk a (by simp [ha]) b (by simp [hb])
  rw [compareMapsWith, compareMapsWith, hes, hfs]
  refine lengthLex_congr fun a ha b hb => ?_
  have ha' : a ∈ es := mem_sortBy.mp ha
  have hb' : b ∈ fs := mem_sortBy.mp hb
  rw [compareMapEntry, compareMapEntry, hkk a (by simp [ha']) b (by simp [hb']), hvv a ha' b hb']

/-- One comparison step only looks at terms below the two it compares. -/
theorem compareStep_congr {e e' : Value → Value → Ordering} {n : ℕ}
    (h : ∀ a b, a.depth < n → b.depth < n → e a b = e' a b) (rank : Value → ℕ)
    (atoms : Atom → Atom → Ordering) (numbers : Number → Number → Ordering) {l r : Value}
    (hl : l.depth ≤ n) (hr : r.depth ≤ n) :
    compareStep e rank atoms numbers l r = compareStep e' rank atoms numbers l r := by
  have hchild : ∀ a ∈ l.children, ∀ b ∈ r.children, e a b = e' a b := fun a ha b hb =>
    h a b ((Value.depth_child ha).trans_le hl) ((Value.depth_child hb).trans_le hr)
  simp only [compareStep]
  congr 1
  unfold compareSame
  split
  · rfl
  · rfl
  · rfl
  · next left free right free' =>
    have hfree : lengthLex e free free' = lengthLex e' free free' := lengthLex_congr hchild
    simp only [compareClosuresWith, hfree]
  · rfl
  · exact lengthLex_congr hchild
  · next es fs =>
    rw [Value.depth] at hl hr
    refine compareMapsWith_congr (fun a ha b hb => ?_) (fun a ha b hb => ?_)
    · have hda : a.1.depth < n := by
        rcases List.mem_append.mp ha with ha | ha <;>
          have := (Value.depth_le_depthEntries ha).1 <;> omega
      have hdb : b.1.depth < n := by
        rcases List.mem_append.mp hb with hb | hb <;>
          have := (Value.depth_le_depthEntries hb).1 <;> omega
      exact h _ _ hda hdb
    · have hda := (Value.depth_le_depthEntries ha).2
      have hdb := (Value.depth_le_depthEntries hb).2
      exact h _ _ (by omega) (by omega)
  · rfl
  · next head tail head' tail' =>
    rw [Value.depth] at hl hr
    rw [compareListsWith, compareListsWith, h head head' (by omega) (by omega),
      compareListsWith_congr h (by omega) (by omega)]
  · rfl
  · rfl
  · rfl

theorem compareStep_descends (rank : Value → ℕ) (atoms : Atom → Atom → Ordering)
    (numbers : Number → Number → Ordering) :
    Descends (fun p : Value × Value => max p.1.depth p.2.depth)
      fun e p => compareStep (fun l r => e (l, r)) rank atoms numbers p.1 p.2 := by
  intro n f g hfg p hp
  refine compareStep_congr (fun a b ha hb => ?_) rank atoms numbers
    ((le_max_left _ _).trans hp) ((le_max_right _ _).trans hp)
  exact hfg (a, b) (max_lt ha hb)

theorem compareByDepth_eq (rank : Value → ℕ) (atoms : Atom → Atom → Ordering)
    (numbers : Number → Number → Ordering) (l r : Value) :
    compareByDepth rank atoms numbers l r =
      compareStep (compareByDepth rank atoms numbers) rank atoms numbers l r :=
  byDepth_eq (compareStep_descends rank atoms numbers) (l, r)

/-- A comparison that recurs through `compareStep` with ranks that separate the kinds of terms;
only numbers of different representations may have different ranks. -/
structure IsTermOrder (rankOf : Value → ℕ) (atoms : Atom → Atom → Ordering)
    (numbers : Number → Number → Ordering) (c : Value → Value → Ordering) : Prop where
  unfold : ∀ l r, c l r = compareStep c rankOf atoms numbers l r
  kind : ∀ {v w}, rankOf v = rankOf w → rank v = rank w
  place : ∀ {v w}, rank v = rank w → rank v ≠ .number → rankOf v = rankOf w

/-- Where the comparison of elements is the comparison itself, lists compare by head and tail. -/
theorem IsTermOrder.compareListsWith_eq {rankOf : Value → ℕ} {atoms : Atom → Atom → Ordering}
    {numbers : Number → Number → Ordering} {c : Value → Value → Ordering}
    (h : IsTermOrder rankOf atoms numbers c) (l r : Value) : compareListsWith c l r = c l r := by
  fun_induction compareListsWith c l r with
  | case1 head tail head' tail' ih =>
    have hplace : rankOf (.cons head tail) = rankOf (.cons head' tail') :=
      h.place rfl (by simp [rank])
    rw [h.unfold (.cons head tail), compareStep, hplace, Std.ReflOrd.compare_self,
      Ordering.eq_then, compareSame, compareListsWith]
  | case2 l r hne => rfl

theorem TermRank.place_injective {a b : TermRank} (h : a.place = b.place) : a = b := by
  cases a <;> cases b <;> first | rfl | cases h

theorem ExactKind.place_injective {a b : ExactKind} (h : a.place = b.place) : a = b := by
  cases a <;> cases b <;> first | rfl | cases h

theorem cmp_isTermOrder (table : AtomTable) :
    IsTermOrder (fun v => (rank v).place) (compareAtomsByName table) compareNumbers (cmp table) where
  unfold := compareByDepth_eq _ _ _
  kind h := TermRank.place_injective h
  place h _ := congrArg TermRank.place h

theorem rawCmp_isTermOrder :
    IsTermOrder (fun v => (rank v).place) compare compareNumbers rawCmp where
  unfold := compareByDepth_eq _ _ _
  kind h := TermRank.place_injective h
  place h _ := congrArg TermRank.place h

/-- The kind of a number's representation; the rank of any other term. -/
def ExactKind.rank : ExactKind → TermRank
  | .smallInt | .float | .bigInt => .number
  | .atom => .atom
  | .pid => .pid
  | .nil => .nil
  | .tuple => .tuple
  | .closure => .fun
  | .map => .map
  | .reference => .reference
  | .binary => .binary
  | .list => .list
  | .other => .otherBoxed

theorem rank_exactKind (v : Value) : (exactKind v).rank = rank v := by
  cases v with
  | number n => cases n <;> rfl
  | _ => rfl

theorem exactKind_eq {v w : Value} (h : rank v = rank w) (hv : rank v ≠ .number) :
    exactKind v = exactKind w := by
  cases v <;> first | exact absurd rfl hv | cases w <;> first | rfl | cases h

theorem exactCmp_isTermOrder :
    IsTermOrder (fun v => (exactKind v).place) compare compareNumbersExact exactCmp where
  unfold := compareByDepth_eq _ _ _
  kind {v w} h := by
    rw [← rank_exactKind v, ← rank_exactKind w, ExactKind.place_injective h]
  place h hv := congrArg ExactKind.place (exactKind_eq h hv)

end Beamr.Term
