import Beamr.Term.Compare

/-!
# Laws of the term orders

A comparison of terms keeps the laws of a total preorder on all terms built from
numbers and atoms on which its comparisons of numbers and atoms keep them. The exact
order therefore always keeps them. The term order keeps them exactly when no float
stands between two integers that convert to it.
-/
namespace Beamr.Term

open Comparison

section Laws

variable {rankOf : Value → ℕ} {atoms : Atom → Atom → Ordering}
  {numbers : Number → Number → Ordering} {c : Value → Value → Ordering}
  {N : Set Number} {A : Set Atom}

theorem compareModules_preorderOn (hatoms : PreorderOn A atoms) :
    PreorderOn {m : Option Atom | ∀ a, m = some a → a ∈ A} (compareModules atoms) where
  swap m hm k hk := by
    cases m with
    | none => cases k <;> rfl
    | some a =>
      cases k with
      | none => rfl
      | some b => exact hatoms.swap a (hm a rfl) b (hk b rfl)
  trans m hm k hk l hl := by
    cases m <;> cases k <;> cases l <;> simp only [compareModules] <;>
      first
      | exact hatoms.trans _ (hm _ rfl) _ (hk _ rfl) _ (hl _ rfl)
      | simp

theorem compareClosuresWith_preorderOn {s : Set Value} (hatoms : PreorderOn A atoms)
    (hc : PreorderOn s c) :
    PreorderOn {x : Closure × List Value | (∀ a, x.1.module = some a → a ∈ A) ∧ ∀ v ∈ x.2, v ∈ s}
      (compareClosuresWith c atoms) := by
  refine ((compareModules_preorderOn hatoms).comap (fun x : Closure × List Value => x.1.module)
    (fun _ hx => hx.1) fun _ _ _ _ => rfl).thenBy ?_
  refine (PreorderOn.of_key _ fun x : Closure × List Value => x.1.functionIndex).thenBy ?_
  refine (PreorderOn.of_key _ fun x : Closure × List Value => x.1.arity).thenBy ?_
  refine (PreorderOn.of_key _ fun x : Closure × List Value => x.1.generation).thenBy ?_
  refine (PreorderOn.of_key _ fun x : Closure × List Value => x.1.uniqueId).thenBy ?_
  exact hc.lengthLex.comap Prod.snd (fun x hx => hx.2) fun _ _ _ _ => rfl

theorem compareMapsWith_preorderOn {s : Set Value} (hc : PreorderOn s c) :
    PreorderOn {es : List (Value × Value) | ∀ e ∈ es, e.1 ∈ s ∧ e.2 ∈ s} (compareMapsWith c) := by
  have hentry : PreorderOn {e : Value × Value | e.1 ∈ s ∧ e.2 ∈ s} (compareMapEntry c) :=
    (hc.comap Prod.fst (fun e he => he.1) fun _ _ _ _ => rfl).thenBy
      (hc.comap Prod.snd (fun e he => he.2) fun _ _ _ _ => rfl)
  exact hentry.lengthLex.comap (sortedMapEntries c) (fun es hes e he => hes e (mem_sortBy.mp he))
    fun _ _ _ _ => rfl

theorem comparePids_preorderOn (s : Set PidRef) : PreorderOn s comparePids :=
  (PreorderOn.of_key s PidRef.node).thenBy
    ((PreorderOn.of_key s PidRef.pidNumber).thenBy (PreorderOn.of_key s PidRef.serial))

theorem compareReferences_preorderOn (s : Set ReferenceRef) : PreorderOn s compareReferences :=
  (PreorderOn.of_key s ReferenceRef.node).thenBy (PreorderOn.of_key s ReferenceRef.id)

/-- Terms of one kind, given the laws for the terms below them. -/
theorem IsTermOrder.compareSame_preorderOn (h : IsTermOrder rankOf atoms numbers c)
    (hatoms : PreorderOn A atoms)
    (hnumbers : ∀ k, PreorderOn {n ∈ N | rankOf (.number n) = k} numbers) {s : Set Value}
    (hc : PreorderOn s c) (kind : TermRank) (k : ℕ) :
    PreorderOn {v | v ∈ Value.Over N A ∧ (∀ x ∈ v.children, x ∈ s) ∧ rank v = kind ∧ rankOf v = k}
      (compareSame c atoms numbers) := by
  cases kind with
  | number =>
    refine PreorderOn.of_form Value.number ?_ (hnumbers k)
    rintro v ⟨hv, -, hr, hk⟩
    cases v with
    | number n => exact ⟨n, ⟨hv.here, hk⟩, rfl⟩
    | _ => cases hr
  | atom =>
    refine PreorderOn.of_form Value.atom ?_ hatoms
    rintro v ⟨hv, -, hr, -⟩
    cases v with
    | atom a => exact ⟨a, hv.here, rfl⟩
    | _ => cases hr
  | reference =>
    refine PreorderOn.of_form Value.reference ?_ (compareReferences_preorderOn Set.univ)
    rintro v ⟨hv, -, hr, -⟩
    cases v with
    | reference r => exact ⟨r, trivial, rfl⟩
    | _ => cases hr
  | «fun» =>
    refine PreorderOn.of_form (fun x : Closure × List Value => Value.closure x.1 x.2) ?_
      (compareClosuresWith_preorderOn hatoms hc)
    rintro v ⟨hv, hs, hr, -⟩
    cases v with
    | closure cl free => exact ⟨(cl, free), ⟨hv.here, hs⟩, rfl⟩
    | _ => cases hr
  | port => exact PreorderOn.of_subsingleton fun v hv => by cases v <;> cases hv.2.2.1
  | pid =>
    refine PreorderOn.of_form Value.pid ?_ (comparePids_preorderOn Set.univ)
    rintro v ⟨hv, -, hr, -⟩
    cases v with
    | pid p => exact ⟨p, trivial, rfl⟩
    | _ => cases hr
  | tuple =>
    refine PreorderOn.of_form Value.tuple ?_ hc.lengthLex
    rintro v ⟨hv, hs, hr, -⟩
    cases v with
    | tuple xs => exact ⟨xs, hs, rfl⟩
    | _ => cases hr
  | map =>
    refine PreorderOn.of_form Value.map ?_ (compareMapsWith_preorderOn hc)
    rintro v ⟨hv, hs, hr, -⟩
    cases v with
    | map es =>
      refine ⟨es, fun e he => ⟨hs _ ?_, hs _ ?_⟩, rfl⟩ <;>
        exact List.mem_flatMap.mpr ⟨e, he, by simp⟩
    | _ => cases hr
  | nil =>
    refine PreorderOn.of_form (fun _ : Unit => Value.nil) ?_
      (PreorderOn.of_subsingleton (s := Set.univ) fun _ _ _ _ => rfl)
    rintro v ⟨-, -, hr, -⟩
    cases v with
    | nil => exact ⟨(), trivial, rfl⟩
    | _ => cases hr
  | list =>
    have hlists : PreorderOn {x : Value × Value | x.1 ∈ s ∧ x.2 ∈ s}
        (fun x y => (c x.1 y.1).then (c x.2 y.2)) :=
      (hc.comap Prod.fst (fun x hx => hx.1) fun _ _ _ _ => rfl).thenBy
        (hc.comap Prod.snd (fun x hx => hx.2) fun _ _ _ _ => rfl)
    refine PreorderOn.of_form (fun x : Value × Value => Value.cons x.1 x.2) ?_
      (hlists.comap id (fun _ hx => hx) fun x _ y _ => ?_)
    · rintro v ⟨hv, hs, hr, -⟩
      cases v with
      | cons a b =>
        have ha := hs a (by simp [Value.children])
        have hb := hs b (by simp [Value.children])
        exact ⟨(a, b), ⟨ha, hb⟩, rfl⟩
      | _ => cases hr
    · rw [compareSame, compareListsWith, h.compareListsWith_eq]
      rfl
  | binary =>
    refine PreorderOn.of_form Value.binary ?_ (PreorderOn.of_key Set.univ BinaryRef.asBytes)
    rintro v ⟨hv, -, hr, -⟩
    cases v with
    | binary b => exact ⟨b, trivial, rfl⟩
    | _ => cases hr
  | otherBoxed =>
    refine PreorderOn.of_form Value.other ?_ (PreorderOn.of_ord Set.univ)
    rintro v ⟨hv, -, hr, -⟩
    cases v with
    | other raw => exact ⟨raw, trivial, rfl⟩
    | _ => cases hr

/-- The laws for numbers and atoms carry over to all terms built from them. -/
theorem IsTermOrder.preorderOn (h : IsTermOrder rankOf atoms numbers c)
    (hatoms : PreorderOn A atoms)
    (hnumbers : ∀ k, PreorderOn {n ∈ N | rankOf (.number n) = k} numbers) :
    PreorderOn (Value.Over N A) c := by
  refine PreorderOn.of_depth Value.depth fun n ih => ?_
  have hstep : PreorderOn {v ∈ Value.Over N A | v.depth < n + 1}
      (compareStep c rankOf atoms numbers) := by
    refine PreorderOn.byKey rankOf fun k => ?_
    -- terms of one rank are all of one kind
    by_cases hex : ∃ v₀, rankOf v₀ = k
    · obtain ⟨v₀, hk⟩ := hex
      refine (h.compareSame_preorderOn hatoms hnumbers ih (rank v₀) k).mono ?_
      rintro v ⟨⟨hv, hdepth⟩, hvk⟩
      refine ⟨hv, fun x hx => ⟨Value.over_child hv hx, ?_⟩, h.kind (hvk.trans hk.symm), hvk⟩
      have := Value.depth_child hx
      omega
    · exact PreorderOn.of_subsingleton fun v hv => absurd ⟨v, hv.2⟩ hex
  exact hstep.comap id (fun _ hv => hv) fun l _ r _ => h.unfold l r

end Laws

/-! ## The exact order -/

theorem compareNumbersExact_preorderOn (k : ℕ) :
    PreorderOn {n | n ∈ Set.univ ∧ (exactKind (.number n)).place = k} compareNumbersExact := by
  -- one representation for each kind
  by_cases hex : ∃ n₀ : Number, (exactKind (.number n₀)).place = k
  · obtain ⟨n₀, rfl⟩ := hex
    cases n₀ with
    | smallInt i =>
      refine PreorderOn.of_form Number.smallInt ?_ (PreorderOn.of_key Set.univ SmallInt.value)
      rintro n ⟨-, hn⟩
      cases n with
      | smallInt j => exact ⟨j, trivial, rfl⟩
      | _ => cases hn
    | float x =>
      refine PreorderOn.of_form Number.float ?_ (PreorderOn.of_key Set.univ Float64.toBits)
      rintro n ⟨-, hn⟩
      cases n with
      | float y => exact ⟨y, trivial, rfl⟩
      | _ => cases hn
    | bigInt s ls =>
      have hints : PreorderOn (Set.univ : Set (Bool × List UInt64))
          (fun x y => compareBigInts x.1 x.2 y.1 y.2) := by
        simp only [compareBigInts_eq]
        exact PreorderOn.of_key Set.univ fun x : Bool × List UInt64 =>
          (BigIntValue.fromBigInt x.1 x.2).toInt
      refine PreorderOn.of_form (fun x : Bool × List UInt64 => Number.bigInt x.1 x.2) ?_ hints
      rintro n ⟨-, hn⟩
      cases n with
      | bigInt t ms => exact ⟨(t, ms), trivial, rfl⟩
      | _ => cases hn
  · exact PreorderOn.of_subsingleton fun n hn => absurd ⟨n, hn.2⟩ hex

theorem over_univ (v : Value) : v ∈ Value.Over Set.univ Set.univ := by
  induction hn : v.depth using Nat.strong_induction_on generalizing v with
  | _ n ih =>
    refine .intro ?_ fun x hx => ih x.depth (hn ▸ Value.depth_child hx) x rfl
    cases v <;> simp [Value.LeafIn]

theorem exactCmp_preorderOn : PreorderOn Set.univ exactCmp :=
  (exactCmp_isTermOrder.preorderOn (PreorderOn.of_ord Set.univ)
    compareNumbersExact_preorderOn).mono fun v _ => over_univ v

/-- The exact order is total, its ties are the exactly equal terms, and keys stored in it have one
place each. -/
theorem exactCmp_totalOrder :
    (∀ a b, exactCmp b a = (exactCmp a b).swap) ∧
    (∀ a b d, (exactCmp a b).isLE → (exactCmp b d).isLE → (exactCmp a d).isLE) ∧
    (∀ a b, exactCmp a b = .eq ↔ exactEq a b = true) ∧
    (∀ keys : List Value, keys.Pairwise (fun a b => exactEq a b = false) →
      (sortBy exactCmp keys).Pairwise (fun a b => exactCmp a b = .lt) ∧
      ∀ key, (∃ k ∈ keys, exactEq k key = true) →
        ∃! i : Fin (sortBy exactCmp keys).length,
          exactEq ((sortBy exactCmp keys).get i) key = true) := by
  have hlaws := exactCmp_preorderOn
  have hiff : ∀ a b, exactCmp a b = .eq ↔ exactEq a b = true := fun a b => by simp [exactEq]
  refine ⟨fun a b => hlaws.swap a trivial b trivial,
    fun a b d => hlaws.trans a trivial b trivial d trivial, hiff, fun keys hkeys => ?_⟩
  simp only [← Bool.not_eq_true, ← hiff] at hkeys ⊢
  have hlt := pairwise_lt_sortBy hlaws hkeys
  refine ⟨hlt, fun key hkey => existsUnique_tie hlaws hlt ?_⟩
  obtain ⟨k, hk, hkk⟩ := hkey
  exact ⟨k, mem_sortBy.mpr hk, hkk⟩

/-! ## The term order -/

/-- The atoms a table can name. -/
def knownAtoms (table : AtomTable) : Set Atom := {a | ∃ name, table.resolve a = some name}

theorem compareAtomsByName_preorderOn (table : AtomTable) :
    PreorderOn (knownAtoms table) (compareAtomsByName table) := by
  refine (PreorderOn.of_key Set.univ table.resolve).comap id (fun _ _ => trivial) ?_
  rintro a ⟨name, ha⟩ b ⟨name', hb⟩
  simp [compareAtomsByName, ha, hb, compare]

theorem cmp_number (table : AtomTable) (a b : Number) :
    cmp table (.number a) (.number b) = compareNumbers a b := by
  rw [(cmp_isTermOrder table).unfold]
  rfl

theorem number_over {N : Set Number} {A : Set Atom} {a : Number} (ha : a ∈ N) :
    Value.number a ∈ Value.Over N A :=
  .intro ha fun x hx => by simp [Value.children] at hx

/-- The term order is a total preorder on all terms over a set of numbers exactly when no float of
the set stands between two of its integers that convert to it. -/
theorem cmp_totalPreorder_iff (table : AtomTable) (N : Set Number) :
    ((∀ a ∈ Value.Over N (knownAtoms table), cmp table a a = .eq) ∧
      (∀ a ∈ Value.Over N (knownAtoms table), ∀ b ∈ Value.Over N (knownAtoms table),
        cmp table b a = (cmp table a b).swap) ∧
      (∀ a ∈ Value.Over N (knownAtoms table), ∀ b ∈ Value.Over N (knownAtoms table),
        ∀ d ∈ Value.Over N (knownAtoms table),
          (cmp table a b).isLE → (cmp table b d).isLE → (cmp table a d).isLE) ∧
      (∀ a ∈ Value.Over N (knownAtoms table), ∀ b ∈ Value.Over N (knownAtoms table),
        ∀ d ∈ Value.Over N (knownAtoms table),
          cmp table a b = .eq → cmp table b d = .eq → cmp table a d = .eq)) ↔
      ¬ SharedFloat N := by
  rw [← compareNumbers_preorderOn_iff]
  constructor
  · rintro ⟨-, hswap, htrans, -⟩
    have hlaws : PreorderOn (Value.Over N (knownAtoms table)) (cmp table) := ⟨hswap, htrans⟩
    exact hlaws.comap Value.number (fun a ha => number_over ha)
      fun a _ b _ => (cmp_number table a b).symm
  · intro hnumbers
    have hlaws := (cmp_isTermOrder table).preorderOn (compareAtomsByName_preorderOn table)
      fun k => hnumbers.mono (s := N) fun n hn => hn.1
    refine ⟨fun a ha => hlaws.refl ha, hlaws.swap, hlaws.trans, fun a ha b hb d hd hab hbd => ?_⟩
    rw [hlaws.eq_left ha hb hd hab, hbd]

/-- `2 ^ 53 + 1` and `2 ^ 53` both compare equal to `9007199254740992.0` but not to each other. -/
theorem not_cmp_totalPreorder :
    ∃ (table : AtomTable) (a b d : Value), cmp table a b = .eq ∧ cmp table b d = .eq ∧
      cmp table a d = .gt :=
  ⟨⟨[], List.nodup_nil, by simp⟩, .number (.smallInt ⟨2 ^ 53 + 1, by norm_num, by norm_num⟩),
    .number (.float ⟨false, 0x4340000000000000, by norm_num⟩),
    .number (.smallInt ⟨2 ^ 53, by norm_num, by norm_num⟩), by decide +kernel⟩

end Beamr.Term
