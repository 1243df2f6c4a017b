import Beamr.Term.Order

/-!
# Ties of the two orders

Two orders of terms that tie on the same numbers and atoms tie on the same terms, also
through maps, whose entries they sort differently. The term order and exact equality
therefore agree on all terms over a set of numbers exactly when no two numbers of
different representations in it compare equal, and `==` agrees with the term order
exactly when in addition the set has no NaN and no negative zero beside another zero.
-/
namespace Beamr.Term

open Comparison

section Ties

variable {rankOf rankOf' : Value → ℕ} {atoms atoms' : Atom → Atom → Ordering}
  {numbers numbers' : Number → Number → Ordering} {c d : Value → Value → Ordering}
  {N : Set Number} {A : Set Atom}

theorem forall₂_imp_mem {α β : Type*} {R S : α → β → Prop} {xs : List α} {ys : List β}
    (h : ∀ a ∈ xs, ∀ b ∈ ys, R a b → S a b) (hxy : List.Forall₂ R xs ys) : List.Forall₂ S xs ys := by
  induction hxy with
  | nil => exact .nil
  | cons hab _ ih =>
    refine .cons (h _ (by simp) _ (by simp) hab) (ih fun a ha b hb => ?_)
    exact h a (by simp [ha]) b (by simp [hb])

theorem forall₂_congr_mem {α : Type*} {R S : α → α → Prop} {xs ys : List α}
    (h : ∀ a ∈ xs, ∀ b ∈ ys, R a b ↔ S a b) : List.Forall₂ R xs ys ↔ List.Forall₂ S xs ys :=
  ⟨forall₂_imp_mem fun a ha b hb => (h a ha b hb).mp,
    forall₂_imp_mem fun a ha b hb => (h a ha b hb).mpr⟩

/-- Entries tied pairwise in one order stay tied pairwise after sorting by the other. -/
theorem forall₂_sortedMapEntries {s : Set Value} (hc : PreorderOn s c)
    (htie : ∀ a ∈ s, ∀ b ∈ s, c a b = .eq ↔ d a b = .eq) {es fs : List (Value × Value)}
    (hes : ∀ e ∈ es, e.1 ∈ s ∧ e.2 ∈ s) (hfs : ∀ e ∈ fs, e.1 ∈ s ∧ e.2 ∈ s)
    (h : List.Forall₂ (fun a b => compareMapEntry d a b = .eq) (sortedMapEntries d es)
      (sortedMapEntries d fs)) :
    List.Forall₂ (fun a b => compareMapEntry c a b = .eq) (sortedMapEntries c es)
      (sortedMapEntries c fs) := by
  have hentry : ∀ a ∈ sortedMapEntries d es, ∀ b ∈ sortedMapEntries d fs,
      compareMapEntry d a b = .eq ↔
        compareMapEntry c a b = .eq ∧ (a.1 ∈ s ∧ a.2 ∈ s) ∧ b.1 ∈ s ∧ b.2 ∈ s := by
    intro a ha b hb
    have has := hes a (mem_sortBy.mp ha)
    have hbs := hfs b (mem_sortBy.mp hb)
    rw [compareMapEntry, compareMapEntry, Ordering.then_eq_eq, Ordering.then_eq_eq,
      htie a.1 has.1 b.1 hbs.1, htie a.2 has.2 b.2 hbs.2]
    simp [has, hbs]
  have hkeys : PreorderOn {e : Value × Value | e.1 ∈ s ∧ e.2 ∈ s} fun a b => c a.1 b.1 :=
    hc.comap Prod.fst (fun e he => he.1) fun _ _ _ _ => rfl
  have hkeytie : ∀ a ∈ {e : Value × Value | e.1 ∈ s ∧ e.2 ∈ s},
      ∀ b ∈ {e : Value × Value | e.1 ∈ s ∧ e.2 ∈ s}, c a.1 b.1 = .eq → d a.1 b.1 = .eq :=
    fun a ha b hb => (htie a.1 ha.1 b.1 hb.1).mp
  have hsorted := forall₂_sortBy (c := fun a b => c a.1 b.1) (d := fun a b => c a.1 b.1)
    ((forall₂_congr_mem hentry).mp h) (by
      rintro a - b ⟨hab, ⟨ha, -⟩, hb, -⟩ a' - b' ⟨hab', ⟨ha', -⟩, hb', -⟩
      rw [compareMapEntry, Ordering.then_eq_eq] at hab hab'
      rw [hc.eq_left ha hb ha' hab.1, hc.eq_right ha' hb' hb hab'.1])
  have hes' : sortBy (fun a b => c a.1 b.1) (sortedMapEntries d es) = sortedMapEntries c es :=
    sortBy_sortBy hkeys hkeytie hes
  have hfs' : sortBy (fun a b => c a.1 b.1) (sortedMapEntries d fs) = sortedMapEntries c fs :=
    sortBy_sortBy hkeys hkeytie hfs
  rw [hes', hfs'] at hsorted
  exact hsorted.imp fun _ _ hab => hab.1

theorem compareMapsWith_eq_iff {s : Set Value} (hc : PreorderOn s c) (hd : PreorderOn s d)
    (htie : ∀ a ∈ s, ∀ b ∈ s, c a b = .eq ↔ d a b = .eq) {es fs : List (Value × Value)}
    (hes : ∀ e ∈ es, e.1 ∈ s ∧ e.2 ∈ s) (hfs : ∀ e ∈ fs, e.1 ∈ s ∧ e.2 ∈ s) :
    compareMapsWith c es fs = .eq ↔ compareMapsWith d es fs = .eq := by
  rw [compareMapsWith, compareMapsWith, lengthLex_eq_iff, lengthLex_eq_iff]
  exact ⟨forall₂_sortedMapEntries hd (fun a ha b hb => (htie a ha b hb).symm) hes hfs,
    forall₂_sortedMapEntries hc htie hes hfs⟩

theorem lengthLex_eq_congr {s : Set Value} (htie : ∀ a ∈ s, ∀ b ∈ s, c a b = .eq ↔ d a b = .eq)
    {xs ys : List Value} (hxs : ∀ x ∈ xs, x ∈ s) (hys : ∀ y ∈ ys, y ∈ s) :
    lengthLex c xs ys = .eq ↔ lengthLex d xs ys = .eq := by
  rw [lengthLex_eq_iff, lengthLex_eq_iff]
  exact forall₂_congr_mem fun a ha b hb => htie a (hxs a ha) b (hys b hb)

theorem compareModules_eq_congr (hatoms : ∀ a ∈ A, ∀ b ∈ A, atoms a b = .eq ↔ atoms' a b = .eq)
    {m k : Option Atom} (hm : ∀ a, m = some a → a ∈ A) (hk : ∀ a, k = some a → a ∈ A) :
    compareModules atoms m k = .eq ↔ compareModules atoms' m k = .eq := by
  cases m <;> cases k <;> simp only [compareModules]
  exact hatoms _ (hm _ rfl) _ (hk _ rfl)

/-- A tie is a tie of ranks. -/
theorem IsTermOrder.rank_eq (h : IsTermOrder rankOf atoms numbers c) {l r : Value}
    (hlr : c l r = .eq) : rank l = rank r := by
  rw [h.unfold, compareStep, Ordering.then_eq_eq] at hlr
  exact h.kind (Std.LawfulEqOrd.eq_of_compare hlr.1)

theorem IsTermOrder.eq_compareSame (h : IsTermOrder rankOf atoms numbers c) {l r : Value}
    (hlr : rank l = rank r) (hl : rank l ≠ .number) : c l r = compareSame c atoms numbers l r := by
  rw [h.unfold, compareStep, h.place hlr hl, Std.ReflOrd.compare_self, Ordering.eq_then]

theorem IsTermOrder.map_map (h : IsTermOrder rankOf atoms numbers c)
    (es fs : List (Value × Value)) : c (.map es) (.map fs) = compareMapsWith c es fs :=
  h.eq_compareSame (l := .map es) (r := .map fs) rfl (fun hr => by cases hr)

theorem IsTermOrder.tuple_tuple (h : IsTermOrder rankOf atoms numbers c) (xs ys : List Value) :
    c (.tuple xs) (.tuple ys) = lengthLex c xs ys :=
  h.eq_compareSame (l := .tuple xs) (r := .tuple ys) rfl (fun hr => by cases hr)

theorem IsTermOrder.cons_cons (h : IsTermOrder rankOf atoms numbers c) (x y x' y' : Value) :
    c (.cons x y) (.cons x' y') = (c x x').then (c y y') := by
  have hsame := h.eq_compareSame (l := .cons x y) (r := .cons x' y') rfl (fun hr => by cases hr)
  rw [hsame, compareSame, compareListsWith, h.compareListsWith_eq]

theorem mem_entries_children {es : List (Value × Value)} {s : Set Value}
    (h : ∀ x ∈ (Value.map es).children, x ∈ s) : ∀ e ∈ es, e.1 ∈ s ∧ e.2 ∈ s := fun e he =>
  ⟨h _ (List.mem_flatMap.mpr ⟨e, he, by simp⟩), h _ (List.mem_flatMap.mpr ⟨e, he, by simp⟩)⟩

/-- Ties below two terms of one kind other than numbers decide whether they tie. -/
theorem compareSame_eq_congr (hc : IsTermOrder rankOf atoms numbers c)
    (hd : IsTermOrder rankOf' atoms' numbers' d)
    (hatoms : ∀ a ∈ A, ∀ b ∈ A, atoms a b = .eq ↔ atoms' a b = .eq) {s : Set Value}
    (hpc : PreorderOn s c) (hpd : PreorderOn s d)
    (htie : ∀ a ∈ s, ∀ b ∈ s, c a b = .eq ↔ d a b = .eq) {l r : Value}
    (hl : l ∈ Value.Over N A) (hr : r ∈ Value.Over N A) (hlr : rank l = rank r)
    (hnum : rank l ≠ .number) (hls : ∀ x ∈ l.children, x ∈ s) (hrs : ∀ x ∈ r.children, x ∈ s) :
    compareSame c atoms numbers l r = .eq ↔ compareSame d atoms' numbers' l r = .eq := by
  cases l with
  | number n => exact absurd rfl hnum
  | atom a =>
    cases r with
    | atom b => exact hatoms a hl.here b hr.here
    | _ => cases hlr
  | closure cl free =>
    cases r with
    | closure cl' free' =>
      have hfree : lengthLex c free free' = .eq ↔ lengthLex d free free' = .eq :=
        lengthLex_eq_congr htie hls hrs
      simp only [compareSame, compareClosuresWith, Ordering.then_eq_eq]
      rw [compareModules_eq_congr hatoms hl.here hr.here, hfree]
    | _ => cases hlr
  | tuple xs =>
    cases r with
    | tuple ys => exact lengthLex_eq_congr htie hls hrs
    | _ => cases hlr
  | map es =>
    cases r with
    | map fs =>
      exact compareMapsWith_eq_iff hpc hpd htie (mem_entries_children hls) (mem_entries_children hrs)
    | _ => cases hlr
  | cons a b =>
    cases r with
    | cons a' b' =>
      have hmem : ∀ {x y : Value}, x ∈ (Value.cons x y).children ∧ y ∈ (Value.cons x y).children :=
        by simp [Value.children]
      rw [compareSame, compareSame, compareListsWith, compareListsWith, hc.compareListsWith_eq,
        hd.compareListsWith_eq, Ordering.then_eq_eq, Ordering.then_eq_eq, htie a (hls a hmem.1) a' (hrs a' hmem.1), htie b (hls b hmem.2) b' (hrs b' hmem.2)]
    | _ => cases hlr
  | reference | pid | nil | binary | other =>
    cases r <;> rfl

/-- Orders that tie on the same numbers and atoms tie on the same terms. -/
theorem IsTermOrder.tie_iff (hc : IsTermOrder rankOf atoms numbers c)
    (hd : IsTermOrder rankOf' atoms' numbers' d)
    (hatoms : ∀ a ∈ A, ∀ b ∈ A, atoms a b = .eq ↔ atoms' a b = .eq)
    (hpc : PreorderOn (Value.Over N A) c) (hpd : PreorderOn (Value.Over N A) d)
    (hnumbers : ∀ a ∈ N, ∀ b ∈ N,
      c (.number a) (.number b) = .eq ↔ d (.number a) (.number b) = .eq)
    {l r : Value} (hl : l ∈ Value.Over N A) (hr : r ∈ Value.Over N A) :
    c l r = .eq ↔ d l r = .eq := by
  induction hn : max l.depth r.depth using Nat.strong_induction_on generalizing l r with
  | _ n ih =>
    by_cases hlr : rank l = rank r
    · by_cases hnum : rank l = .number
      · cases l with
        | number a =>
          cases r with
          | number b => exact hnumbers a hl.here b hr.here
          | _ => cases hlr
        | _ => cases hnum
      · have hbelow : ∀ x ∈ {x ∈ Value.Over N A | x.depth < n},
            ∀ y ∈ {x ∈ Value.Over N A | x.depth < n}, c x y = .eq ↔ d x y = .eq :=
          fun x hx y hy => ih _ (max_lt hx.2 hy.2) hx.1 hy.1 rfl
        have hls : ∀ x ∈ l.children, x ∈ {x ∈ Value.Over N A | x.depth < n} := fun x hx =>
          ⟨Value.over_child hl hx, by have := Value.depth_child hx; omega⟩
        have hrs : ∀ x ∈ r.children, x ∈ {x ∈ Value.Over N A | x.depth < n} := fun x hx =>
          ⟨Value.over_child hr hx, by have := Value.depth_child hx; omega⟩
        rw [hc.eq_compareSame hlr hnum, hd.eq_compareSame hlr hnum]
        exact compareSame_eq_congr hc hd hatoms (hpc.mono fun _ hx => hx.1)
          (hpd.mono fun _ hx => hx.1) hbelow hl hr hlr hnum hls hrs
    · exact ⟨fun h => absurd (hc.rank_eq h) hlr, fun h => absurd (hd.rank_eq h) hlr⟩

end Ties

/-! ## Exact equality and the term order -/

/-- Numbers of different representations that compare equal: an integer and the float it converts
to, or the immediate and the boxed form of one integer. -/
def Number.TiesWith : Number → Number → Prop
  | .smallInt n, .float x => Float64.ofInt n.value = x
  | .bigInt negative limbs, .float x => bigIntValueToF64 (.fromBigInt negative limbs) = x
  | .smallInt n, .bigInt negative limbs => (BigIntValue.fromBigInt negative limbs).toInt = n.value
  | _, _ => False

/-- Some two numbers of the set tie across representations. -/
def MixedTie (N : Set Number) : Prop := ∃ a ∈ N, ∃ b ∈ N, a.TiesWith b

theorem exactCmp_number (a b : Number) : exactCmp (.number a) (.number b) =
    (compare (exactKind (.number a)).place (exactKind (.number b)).place).then
      (compareNumbersExact a b) := by
  rw [exactCmp_isTermOrder.unfold]
  rfl

/-- Ties of the term order between numbers: exactly equal ones, and those across representations. -/
theorem compareNumbers_eq_iff (a b : Number) : compareNumbers a b = .eq ↔
    exactCmp (.number a) (.number b) = .eq ∨ a.TiesWith b ∨ b.TiesWith a := by
  rw [compareNumbers_eq, exactCmp_number]
  cases a with
  | smallInt n =>
    cases b with
    | smallInt m => simp [Number.intValue, Number.TiesWith, compareNumbersExact, exactKind]
    | float y =>
      simp [Number.intValue, Number.TiesWith, Number.toF64, exactKind, ExactKind.place,
        Float64.totalCmp_eq_iff]
    | bigInt t ms =>
      simp [Number.intValue, Number.TiesWith, exactKind, ExactKind.place]
      exact eq_comm
  | float x =>
    cases b with
    | smallInt m =>
      simp [Number.intValue, Number.TiesWith, Number.toF64, exactKind, ExactKind.place,
        Float64.totalCmp_eq_iff]
      exact eq_comm
    | float y =>
      simp [Number.intValue, Number.TiesWith, Number.toF64, exactKind, Float64.totalCmp_eq_iff,
        compareNumbersExact]
      exact ⟨congrArg _, Float64.toBits_injective⟩
    | bigInt t ms =>
      simp [Number.intValue, Number.TiesWith, Number.toF64, exactKind, ExactKind.place,
        Float64.totalCmp_eq_iff]
      exact eq_comm
  | bigInt s ls =>
    cases b with
    | smallInt m => simp [Number.intValue, Number.TiesWith, exactKind, ExactKind.place]
    | float y =>
      simp [Number.intValue, Number.TiesWith, Number.toF64, exactKind, ExactKind.place,
        Float64.totalCmp_eq_iff]
    | bigInt t ms =>
      simp [Number.intValue, Number.TiesWith, exactKind, compareNumbersExact, compareBigInts_eq]

theorem Number.TiesWith.exactCmp_ne {a b : Number} (h : a.TiesWith b) :
    exactCmp (.number a) (.number b) ≠ .eq ∧ exactCmp (.number b) (.number a) ≠ .eq := by
  rw [exactCmp_number, exactCmp_number]
  cases a <;> cases b <;>
    first
    | exact h.elim
    | simp [exactKind, ExactKind.place]

theorem Number.TiesWith.compareNumbers_eq {a b : Number} (h : a.TiesWith b) :
    compareNumbers a b = .eq := (compareNumbers_eq_iff a b).mpr (.inr (.inl h))

theorem not_sharedFloat {N : Set Number} (h : ¬ MixedTie N) : ¬ SharedFloat N := by
  rintro ⟨a, ha, -, -, f, hf, i, -, hi, -, -, hfloat, haf, -⟩
  refine h ⟨a, ha, f, hf, ?_⟩
  cases a with
  | float x => cases hi
  | _ =>
    cases f with
    | float x => exact haf
    | _ => cases hfloat

theorem compareAtomsByName_eq_iff (table : AtomTable) :
    ∀ a ∈ knownAtoms table, ∀ b ∈ knownAtoms table,
      compareAtomsByName table a b = .eq ↔ compare a b = .eq := by
  rintro a ⟨name, ha⟩ b ⟨name', hb⟩
  simp only [compareAtomsByName, ha, hb, Std.LawfulEqOrd.compare_eq_iff_eq]
  constructor
  · rintro rfl
    have hla := AtomTable.lookup_of_resolve ha
    have hlb := AtomTable.lookup_of_resolve hb
    exact Option.some.inj (hla.symm.trans hlb)
  · rintro rfl
    exact Option.some.inj (ha.symm.trans hb)

/-- Without ties across representations the term order ties exactly on exactly equal terms. -/
theorem cmp_eq_iff_exactCmp_eq {table : AtomTable} {N : Set Number} (h : ¬ MixedTie N) {l r : Value}
    (hl : l ∈ Value.Over N (knownAtoms table)) (hr : r ∈ Value.Over N (knownAtoms table)) :
    cmp table l r = .eq ↔ exactCmp l r = .eq := by
  have hlaws := (cmp_isTermOrder table).preorderOn (compareAtomsByName_preorderOn table)
    fun k => ((compareNumbers_preorderOn_iff N).mpr (not_sharedFloat h)).mono fun n hn => hn.1
  refine (cmp_isTermOrder table).tie_iff exactCmp_isTermOrder (compareAtomsByName_eq_iff table)
    hlaws (exactCmp_preorderOn.mono fun _ _ => trivial) (fun a ha b hb => ?_) hl hr
  rw [cmp_number, compareNumbers_eq_iff]
  constructor
  · rintro (hab | hab | hab)
    · exact hab
    · exact absurd ⟨a, ha, b, hb, hab⟩ h
    · exact absurd ⟨b, hb, a, ha, hab⟩ h
  · exact .inl

theorem tuple_over {N : Set Number} {A : Set Atom} {xs : List Value}
    (h : ∀ x ∈ xs, x ∈ Value.Over N A) : Value.tuple xs ∈ Value.Over N A :=
  .intro trivial h

theorem map_over {N : Set Number} {A : Set Atom} {es : List (Value × Value)}
    (h : ∀ e ∈ es, e.1 ∈ Value.Over N A ∧ e.2 ∈ Value.Over N A) :
    Value.map es ∈ Value.Over N A := by
  refine .intro trivial fun x hx => ?_
  obtain ⟨e, he, hxe⟩ := List.mem_flatMap.mp hx
  rcases List.mem_pair.mp hxe with rfl | rfl
  · exact (h e he).1
  · exact (h e he).2

theorem nil_over (N : Set Number) (A : Set Atom) : Value.nil ∈ Value.Over N A :=
  .intro trivial fun x hx => by simp [Value.children] at hx

/-- Two entries under tied keys, stored in the two orders: exactly equal, but not for the term
order, which leaves tied keys where they are stored. -/
theorem not_cmp_eq_of_tie (table : AtomTable) {a b : Number} (h : a.TiesWith b) :
    exactEq (.map [(.number a, .nil), (.number b, .tuple [])])
        (.map [(.number b, .tuple []), (.number a, .nil)]) = true ∧
      cmp table (.map [(.number a, .nil), (.number b, .tuple [])])
        (.map [(.number b, .tuple []), (.number a, .nil)]) ≠ .eq := by
  constructor
  · have hkeys : PreorderOn Set.univ fun x y : Value × Value => exactCmp x.1 y.1 :=
      exactCmp_preorderOn.comap Prod.fst (fun _ _ => trivial) fun _ _ _ _ => rfl
    have hsort : sortedMapEntries exactCmp [(.number a, .nil), (.number b, .tuple [])] =
        sortedMapEntries exactCmp [(.number b, .tuple []), (.number a, .nil)] :=
      sortBy_pair_comm hkeys trivial trivial h.exactCmp_ne.1
    have hmaps := (compareMapsWith_preorderOn exactCmp_preorderOn).refl
      (a := [(.number b, .tuple []), (.number a, .nil)]) (by simp)
    rw [exactEq, beq_iff_eq, exactCmp_isTermOrder.map_map, compareMapsWith, hsort]
    exact hmaps
  · have hab : cmp table (.number a) (.number b) = .eq := by
      rw [cmp_number, h.compareNumbers_eq]
    have hba : cmp table (.number b) (.number a) = .eq := by
      rw [cmp_number, compareNumbers_swap, h.compareNumbers_eq]
      rfl
    have hvalues : cmp table .nil (.tuple []) = .gt := by
      rw [(cmp_isTermOrder table).unfold]
      rfl
    rw [(cmp_isTermOrder table).map_map]
    simp [compareMapsWith, sortedMapEntries, sortBy, hab, hba, lengthLex, zipLex,
      compareMapEntry, hvalues]

/-- Exact equality implies a tie of the term order, for all terms over a set of numbers, exactly
when no two numbers of different representations in the set compare equal. -/
theorem exactEq_imp_cmp_eq_iff (table : AtomTable) (N : Set Number) :
    (∀ l ∈ Value.Over N (knownAtoms table), ∀ r ∈ Value.Over N (knownAtoms table),
      exactEq l r = true → cmp table l r = .eq) ↔ ¬ MixedTie N := by
  constructor
  · rintro h ⟨a, ha, b, hb, hab⟩
    have hnil := nil_over N (knownAtoms table)
    have hempty : Value.tuple [] ∈ Value.Over N (knownAtoms table) := tuple_over (by simp)
    have hta : Value.number a ∈ Value.Over N (knownAtoms table) := number_over ha
    have htb : Value.number b ∈ Value.Over N (knownAtoms table) := number_over hb
    have hfail := not_cmp_eq_of_tie table hab
    exact hfail.2 (h _ (map_over (by simp [hnil, hempty, hta, htb])) _
      (map_over (by simp [hnil, hempty, hta, htb])) hfail.1)
  · intro h l hl r hr hlr
    rw [cmp_eq_iff_exactCmp_eq h hl hr]
    simpa [exactEq] using hlr

/-- `#{1 => [], 1.0 => {}}` stored in the two orders. -/
theorem not_exactEq_imp_cmp_eq :
    ∃ (table : AtomTable) (l r : Value), exactEq l r = true ∧ cmp table l r ≠ .eq :=
  ⟨⟨[], List.nodup_nil, by simp⟩,
    .map [(.number (.smallInt ⟨1, by norm_num, by norm_num⟩), .nil),
      (.number (.float ⟨false, 0x3FF0000000000000, by norm_num⟩), .tuple [])],
    .map [(.number (.float ⟨false, 0x3FF0000000000000, by norm_num⟩), .tuple []),
      (.number (.smallInt ⟨1, by norm_num, by norm_num⟩), .nil)], by decide +kernel⟩

/-! ## `==` and the term order -/

/-- A negative zero beside a positive zero or the integer zero. -/
def MixedZero (N : Set Number) : Prop :=
  ∃ x, .float x ∈ N ∧ x.negative = true ∧ x.magnitude = 0 ∧
    ∃ b ∈ N, b.intValue = some 0 ∨ ∃ y, b = .float y ∧ y.negative = false ∧ y.magnitude = 0

def HasNaN (N : Set Number) : Prop := ∃ x, .float x ∈ N ∧ x.isNaN = true

theorem ieeeEq_iff {x y : Float64} (hx : x.isNaN = false) (hy : y.isNaN = false) :
    x.ieeeEq y = true ↔ x = y ∨ x.magnitude = 0 ∧ y.magnitude = 0 := by
  simp [Float64.ieeeEq, hx, hy]

/-- Signs tell zeros apart. -/
theorem float_eq_of_zero {x y : Float64} (hx : x.magnitude = 0) (hy : y.magnitude = 0)
    (h : x.negative = y.negative) : x = y := by
  cases x; cases y
  simp_all

theorem toF64_not_nan_of_mem {N : Set Number} (h : ¬ HasNaN N) {a : Number} (ha : a ∈ N) :
    a.toF64.isNaN = false := by
  cases a with
  | float x => exact Bool.eq_false_iff.mpr fun hx => h ⟨x, ha, hx⟩
  | smallInt n => exact Number.toF64_not_nan rfl
  | bigInt s ls => exact Number.toF64_not_nan rfl

theorem zero_sign {N : Set Number} (h : ¬ MixedZero N) {a b : Number} (ha : a ∈ N) (hb : b ∈ N)
    (ha0 : a.toF64.magnitude = 0) (hb0 : b.toF64.magnitude = 0)
    (han : a.toF64.negative = true) : b.toF64.negative = true := by
  have hax : ∃ x, a = .float x := by
    cases hi : a.intValue with
    | some i =>
      have hz := Number.toF64_magnitude_eq_zero hi
      rw [hz.2 (hz.1.mp ha0)] at han
      cases han
    | none => cases a <;> first | exact ⟨_, rfl⟩ | cases hi
  obtain ⟨x, rfl⟩ := hax
  by_contra hbn
  rw [Bool.not_eq_true] at hbn
  refine h ⟨x, ha, han, ha0, b, hb, ?_⟩
  cases hj : b.intValue with
  | some j => exact .inl (by rw [(Number.toF64_magnitude_eq_zero hj).1.mp hb0])
  | none =>
    cases b with
    | float y => exact .inr ⟨y, rfl, hbn, hb0⟩
    | _ => cases hj

theorem numericEqNumbers_iff {N : Set Number} (hnan : ¬ HasNaN N) (hzero : ¬ MixedZero N)
    {a b : Number} (ha : a ∈ N) (hb : b ∈ N) :
    numericEqNumbers a b = true ↔ compareNumbers a b = .eq := by
  have hfloats : a.toF64.ieeeEq b.toF64 = true ↔ a.toF64.totalCmp b.toF64 = .eq := by
    rw [ieeeEq_iff (toF64_not_nan_of_mem hnan ha) (toF64_not_nan_of_mem hnan hb),
      Float64.totalCmp_eq_iff]
    refine ⟨?_, .inl⟩
    rintro (h | ⟨ha0, hb0⟩)
    · exact h
    · refine float_eq_of_zero ha0 hb0 (Bool.eq_iff_iff.mpr ⟨?_, ?_⟩)
      · exact zero_sign hzero ha hb ha0 hb0
      · exact zero_sign hzero hb ha hb0 ha0
  rw [numericEqNumbers_eq, compareNumbers_eq]
  cases a.intValue <;> cases b.intValue <;> simp only [hfloats]
  simp

/-- `==` agrees with the term order, for all terms over a set of numbers, exactly when no two
numbers of different representations in the set compare equal, no NaN is in it and no negative zero
stands beside another zero. -/
theorem numericEq_iff_cmp_eq_iff (table : AtomTable) (N : Set Number) :
    (∀ l ∈ Value.Over N (knownAtoms table), ∀ r ∈ Value.Over N (knownAtoms table),
      (numericEq l r = true ↔ cmp table l r = .eq)) ↔
      ¬ MixedTie N ∧ ¬ HasNaN N ∧ ¬ MixedZero N := by
  constructor
  · intro h
    have hnum : ∀ a ∈ N, ∀ b ∈ N, numericEqNumbers a b = true ↔ compareNumbers a b = .eq := by
      intro a ha b hb
      rw [← cmp_number table]
      exact h _ (number_over ha) _ (number_over hb)
    refine ⟨?_, ?_, ?_⟩
    · rintro ⟨a, ha, b, hb, hab⟩
      -- one level down, `==` is exact
      have htuple := h (.tuple [.number a]) (tuple_over (by simp [number_over ha]))
        (.tuple [.number b]) (tuple_over (by simp [number_over hb]))
      have hexact : numericEq (.tuple [.number a]) (.tuple [.number b]) =
          exactEq (.tuple [.number a]) (.tuple [.number b]) := rfl
      rw [hexact, exactEq, beq_iff_eq, exactCmp_isTermOrder.tuple_tuple,
        (cmp_isTermOrder table).tuple_tuple, lengthLex_eq_iff, lengthLex_eq_iff] at htuple
      simp only [List.forall₂_cons, List.Forall₂.nil, and_true, cmp_number, hab.compareNumbers_eq,
        iff_true] at htuple
      exact hab.exactCmp_ne.1 htuple
    · rintro ⟨x, hx, hnan⟩
      have hself := (hnum _ hx _ hx).mpr (by
        rw [compareNumbers_eq]
        exact Float64.totalCmp_eq_iff.mpr rfl)
      rw [numericEqNumbers_eq] at hself
      simp [Number.intValue, Number.toF64, Float64.ieeeEq, hnan] at hself
    · rintro ⟨x, hx, hneg, hx0, b, hb, hbz⟩
      have hb0 : b.toF64.magnitude = 0 ∧ b.toF64.negative = false := by
        rcases hbz with hi | ⟨y, rfl, hy, hy0⟩
        · have hz := Number.toF64_magnitude_eq_zero hi
          exact ⟨hz.1.mpr rfl, hz.2 rfl⟩
        · exact ⟨hy0, hy⟩
      have hnan : ∀ z : Float64, z.magnitude = 0 → z.isNaN = false := by
        intro z hz
        simp [Float64.isNaN, hz]
      have hequal : compareNumbers (.float x) b = .eq := by
        rw [← hnum _ hx _ hb, numericEqNumbers_eq]
        exact (ieeeEq_iff (hnan x hx0) (hnan _ hb0.1)).mpr (.inr ⟨hx0, hb0.1⟩)
      rw [compareNumbers_eq] at hequal
      have hxb : x = b.toF64 := Float64.totalCmp_eq_iff.mp hequal
      rw [hxb, hb0.2] at hneg
      cases hneg
  · rintro ⟨htie, hnan, hzero⟩ l hl r hr
    cases l with
    | number a =>
      cases r with
      | number b =>
        rw [cmp_number]
        exact numericEqNumbers_iff hnan hzero hl.here hr.here
      | _ => simp [numericEq, exactEq, cmp_eq_iff_exactCmp_eq htie hl hr]
    | _ => simp [numericEq, exactEq, cmp_eq_iff_exactCmp_eq htie hl hr]

/-- `{1} == {1.0}` is false although neither precedes the other. -/
theorem not_numericEq_iff_cmp_eq :
    ∃ (table : AtomTable) (l r : Value), numericEq l r = false ∧ cmp table l r = .eq :=
  ⟨⟨[], List.nodup_nil, by simp⟩, .tuple [.number (.smallInt ⟨1, by norm_num, by norm_num⟩)],
    .tuple [.number (.float ⟨false, 0x3FF0000000000000, by norm_num⟩)], by decide +kernel⟩

end Beamr.Term
