import Beamr.Term.Ties

/-!
# Rows and keys of a table

A table holds deep copies. A copy stores every binary inline and is otherwise the term it was made
from, so no comparison tells the two apart. Remote pids, remote references and other boxed objects
the copier does not know are refused.
-/
namespace Beamr.Ets

open Term Comparison

inductive EtsError
  | badarg | invalidBoxedTerm
  deriving DecidableEq

mutual

/-- Deep copy into the memory of a table. -/
def copyTerm : Value → Except EtsError Value
  | .number n => .ok (.number n)
  | .atom a => .ok (.atom a)
  | .reference (.local id) => .ok (.reference (.local id))
  | .reference (.remote _ _) => .error .invalidBoxedTerm
  | .closure c free =>
    match c.module with
    | none => .error .invalidBoxedTerm
    | some _ => do .ok (.closure c (← copyTerms free))
  | .pid (.local number) => .ok (.pid (.local number))
  | .pid (.remote _ _ _) => .error .invalidBoxedTerm
  | .tuple elements => do .ok (.tuple (← copyTerms elements))
  | .map entries => do .ok (.map (← copyEntries entries))
  | .nil => .ok .nil
  | .cons head tail => do
    let head ← copyTerm head
    .ok (.cons head (← copyTerm tail))
  | .binary b => .ok (.binary (.inline b.asBytes))
  | .other _ => .error .invalidBoxedTerm

def copyTerms : List Value → Except EtsError (List Value)
  | [] => .ok []
  | v :: vs => do
    let v ← copyTerm v
    .ok (v :: (← copyTerms vs))

/-- Key and value together: every refusal is the same error. -/
def copyEntries : List (Value × Value) → Except EtsError (List (Value × Value))
  | [] => .ok []
  | e :: es => do
    let e ← copyEntry e
    .ok (e :: (← copyEntries es))

def copyEntry : Value × Value → Except EtsError (Value × Value)
  | (k, v) => do
    let k ← copyTerm k
    .ok (k, ← copyTerm v)

end

/-- The element at the 1-based key position. -/
def tupleKey (keypos : ℕ) : Value → Except EtsError Value
  | .tuple elements =>
    if keypos = 0 then .error .badarg
    else match elements[keypos - 1]? with
      | some key => .ok key
      | none => .error .badarg
  | _ => .error .badarg

/-! ## What a copy is -/

mutual

/-- The term with its binaries stored inline. -/
def inlined : Value → Value
  | .number n => .number n
  | .atom a => .atom a
  | .reference r => .reference r
  | .closure c free => .closure c (inlinedList free)
  | .pid p => .pid p
  | .tuple elements => .tuple (inlinedList elements)
  | .map entries => .map (inlinedEntries entries)
  | .nil => .nil
  | .cons head tail => .cons (inlined head) (inlined tail)
  | .binary b => .binary (.inline b.asBytes)
  | .other raw => .other raw

def inlinedList : List Value → List Value
  | [] => []
  | v :: vs => inlined v :: inlinedList vs

def inlinedEntries : List (Value × Value) → List (Value × Value)
  | [] => []
  | e :: es => inlinedEntry e :: inlinedEntries es

def inlinedEntry : Value × Value → Value × Value
  | (k, v) => (inlined k, inlined v)

end

/-- What the copier accepts at the top of a term. -/
def Accepted : Value → Prop
  | .reference (.remote _ _) => False
  | .closure c _ => c.module ≠ none
  | .pid (.remote _ _ _) => False
  | .other _ => False
  | _ => True

/-- Terms a table can hold. -/
def Storable (v : Value) : Prop := v.All Accepted

theorem storable_iff (v : Value) :
    Storable v ↔ Accepted v ∧ ∀ x ∈ v.children, Storable x := Value.all_iff

theorem inlinedList_eq (vs : List Value) : inlinedList vs = vs.map inlined := by
  induction vs with
  | nil => rfl
  | cons v vs ih => rw [inlinedList, ih, List.map_cons]

theorem inlinedEntries_eq (es : List (Value × Value)) :
    inlinedEntries es = es.map fun e => (inlined e.1, inlined e.2) := by
  induction es with
  | nil => rfl
  | cons e es ih => rw [inlinedEntries, ih, List.map_cons, inlinedEntry]

theorem rank_inlined (v : Value) : rank (inlined v) = rank v := by
  cases v <;> simp only [inlined, rank]

section Order

variable {rankOf : Value → ℕ} {atoms : Atom → Atom → Ordering}
  {numbers : Number → Number → Ordering} {c : Value → Value → Ordering}

theorem lengthLex_map {α : Type*} (c : α → α → Ordering) (f : α → α) (xs ys : List α) :
    lengthLex c (xs.map f) (ys.map f) = lengthLex (fun a b => c (f a) (f b)) xs ys := by
  have hzip : zipLex c (xs.map f) (ys.map f) = zipLex (fun a b => c (f a) (f b)) xs ys := by
    induction xs generalizing ys with
    | nil => simp [zipLex]
    | cons x xs ih =>
      cases ys with
      | nil => simp [zipLex]
      | cons y ys => simp only [List.map_cons, zipLex, ih]
  rw [lengthLex, lengthLex, hzip, List.length_map, List.length_map]

theorem compareMapsWith_inlined (es fs : List (Value × Value)) :
    compareMapsWith c (inlinedEntries es) (inlinedEntries fs) =
      compareMapsWith (fun a b => c (inlined a) (inlined b)) es fs := by
  rw [compareMapsWith, sortedMapEntries, sortedMapEntries, inlinedEntries_eq, inlinedEntries_eq,
    sortBy_map, sortBy_map, lengthLex_map]
  rfl

theorem compareListsWith_inlined (l r : Value) :
    compareListsWith c (inlined l) (inlined r) =
      compareListsWith (fun a b => c (inlined a) (inlined b)) l r := by
  fun_induction compareListsWith (fun a b => c (inlined a) (inlined b)) l r with
  | case1 head tail head' tail' ih => simp only [inlined, compareListsWith, ih]
  | case2 l r hne =>
    cases l with
    | cons head tail =>
      cases r with
      | cons head' tail' => exact absurd rfl (hne head tail head' tail' rfl)
      | _ => simp only [inlined, compareListsWith]
    | _ => simp only [inlined, compareListsWith]

theorem compareSame_inlined (l r : Value) :
    compareSame c atoms numbers (inlined l) (inlined r) =
      compareSame (fun a b => c (inlined a) (inlined b)) atoms numbers l r := by
  cases l with
  | closure cl free =>
    cases r with
    | closure cl' free' =>
      simp only [inlined, compareSame, compareClosuresWith, inlinedList_eq, lengthLex_map]
    | _ => simp only [inlined, compareSame]
  | tuple xs =>
    cases r with
    | tuple ys => simp only [inlined, compareSame, inlinedList_eq, lengthLex_map]
    | _ => simp only [inlined, compareSame]
  | map es =>
    cases r with
    | map fs => simp only [inlined, compareSame, compareMapsWith_inlined]
    | _ => simp only [inlined, compareSame]
  | cons head tail =>
    cases r with
    | cons head' tail' =>
      have hcells := compareListsWith_inlined (c := c) (.cons head tail) (.cons head' tail')
      simpa only [inlined, compareSame] using hcells
    | _ => simp only [inlined, compareSame]
  | _ => cases r <;> simp only [inlined, compareSame, BinaryRef.asBytes]

/-- No comparison of terms sees how binaries are stored. -/
theorem cmp_inlined_inlined (h : IsTermOrder rankOf atoms numbers c) (l r : Value) :
    c (inlined l) (inlined r) = c l r := by
  induction hn : max l.depth r.depth using Nat.strong_induction_on generalizing l r with
  | _ n ih =>
    have hrank : ∀ v, rankOf (inlined v) = rankOf v := by
      intro v
      by_cases hv : rank v = .number
      · cases v with
        | number n => simp only [inlined]
        | _ => cases hv
      · exact (h.place (rank_inlined v).symm hv).symm
    have hstep : compareStep c rankOf atoms numbers (inlined l) (inlined r) =
        compareStep (fun a b => c (inlined a) (inlined b)) rankOf atoms numbers l r := by
      rw [compareStep, compareStep, hrank, hrank, compareSame_inlined]
    rw [h.unfold (inlined l), h.unfold l, hstep]
    refine compareStep_congr (fun a b ha hb => ?_) rankOf atoms numbers
      ((le_max_left _ _).trans hn.le) ((le_max_right _ _).trans hn.le)
    exact ih _ (max_lt ha hb) a b rfl

theorem inlined_inlined (v : Value) : inlined (inlined v) = inlined v := by
  induction hn : v.depth using Nat.strong_induction_on generalizing v with
  | _ n ih =>
    have hbelow : ∀ x ∈ v.children, inlined (inlined x) = inlined x := fun x hx =>
      ih _ (hn ▸ Value.depth_child hx) x rfl
    have hlist : ∀ vs : List Value, (∀ x ∈ vs, x ∈ v.children) →
        inlinedList (inlinedList vs) = inlinedList vs := by
      intro vs hvs
      rw [inlinedList_eq, inlinedList_eq, List.map_map]
      exact List.map_congr_left fun x hx => hbelow x (hvs x hx)
    cases v with
    | closure cl free => simp only [inlined, hlist free fun x hx => hx]
    | tuple xs => simp only [inlined, hlist xs fun x hx => hx]
    | map es =>
      have hentries := mem_entries_children (s := {x | inlined (inlined x) = inlined x}) hbelow
      simp only [inlined, inlinedEntries_eq, List.map_map]
      congr 1
      refine List.map_congr_left fun e he => ?_
      exact Prod.ext (hentries e he).1 (hentries e he).2
    | cons head tail =>
      simp only [inlined, hbelow head (by simp [Value.children]),
        hbelow tail (by simp [Value.children])]
    | _ => simp only [inlined, BinaryRef.asBytes]

theorem cmp_inlined_left (h : IsTermOrder rankOf atoms numbers c) (l r : Value) :
    c (inlined l) r = c l r := by
  rw [← cmp_inlined_inlined h (inlined l), inlined_inlined, cmp_inlined_inlined h]

theorem cmp_inlined_right (h : IsTermOrder rankOf atoms numbers c) (l r : Value) :
    c l (inlined r) = c l r := by
  rw [← cmp_inlined_inlined h l (inlined r), inlined_inlined, cmp_inlined_inlined h]

end Order

/-! ## What can be copied -/

theorem bind_eq_ok {α β : Type} {x : Except EtsError α} {f : α → Except EtsError β} {b : β} :
    (x >>= f) = .ok b ↔ ∃ a, x = .ok a ∧ f a = .ok b := by
  cases x with
  | error e => simp [bind, Except.bind]
  | ok a => simp [bind, Except.bind]

/-- The copier makes the inlined term of what it accepts. -/
def Copies (v : Value) : Prop := ∀ w, copyTerm v = .ok w ↔ Storable v ∧ w = inlined v

theorem copyTerms_eq_ok {vs : List Value} (h : ∀ v ∈ vs, Copies v) (ws : List Value) :
    copyTerms vs = .ok ws ↔ (∀ v ∈ vs, Storable v) ∧ ws = inlinedList vs := by
  induction vs generalizing ws with
  | nil => simp [copyTerms, inlinedList, eq_comm]
  | cons v vs ih =>
    have hv := h v (List.mem_cons_self ..)
    have hvs := ih fun x hx => h x (List.mem_cons_of_mem _ hx)
    simp only [copyTerms, bind_eq_ok, hv _, hvs, inlinedList, List.forall_mem_cons,
      Except.ok.injEq]
    constructor
    · rintro ⟨_, ⟨hstorable, rfl⟩, _, ⟨hrest, rfl⟩, rfl⟩
      exact ⟨⟨hstorable, hrest⟩, rfl⟩
    · rintro ⟨⟨hstorable, hrest⟩, rfl⟩
      exact ⟨_, ⟨hstorable, rfl⟩, _, ⟨hrest, rfl⟩, rfl⟩

theorem copyEntries_eq_ok {es : List (Value × Value)} (h : ∀ e ∈ es, Copies e.1 ∧ Copies e.2)
    (fs : List (Value × Value)) :
    copyEntries es = .ok fs ↔
      (∀ e ∈ es, Storable e.1 ∧ Storable e.2) ∧ fs = inlinedEntries es := by
  induction es generalizing fs with
  | nil => simp [copyEntries, inlinedEntries, eq_comm]
  | cons e es ih =>
    obtain ⟨k, v⟩ := e
    obtain ⟨hk, hv⟩ := h (k, v) (List.mem_cons_self ..)
    have hes := ih fun x hx => h x (List.mem_cons_of_mem _ hx)
    simp only [copyEntries, copyEntry, bind_eq_ok, hk _, hv _, hes, inlinedEntries, inlinedEntry,
      List.forall_mem_cons, Except.ok.injEq]
    constructor
    · rintro ⟨_, ⟨_, ⟨hk', rfl⟩, _, ⟨hv', rfl⟩, rfl⟩, _, ⟨hrest, rfl⟩, rfl⟩
      exact ⟨⟨⟨hk', hv'⟩, hrest⟩, rfl⟩
    · rintro ⟨⟨⟨hk', hv'⟩, hrest⟩, rfl⟩
      exact ⟨_, ⟨_, ⟨hk', rfl⟩, _, ⟨hv', rfl⟩, rfl⟩, _, ⟨hrest, rfl⟩, rfl⟩

theorem copies_of_children {v : Value} (h : ∀ x ∈ v.children, Copies x) : Copies v := by
  intro w
  rw [storable_iff]
  cases v with
  | number n => simp [copyTerm, inlined, Accepted, Value.children, eq_comm]
  | atom a => simp [copyTerm, inlined, Accepted, Value.children, eq_comm]
  | reference r => cases r <;> simp [copyTerm, inlined, Accepted, Value.children, eq_comm]
  | closure cl free =>
    have hfree := copyTerms_eq_ok (show ∀ v ∈ free, Copies v from h)
    rcases hmodule : cl.module with _ | m
    · simp [copyTerm, Accepted, hmodule]
    · simp only [copyTerm, hmodule, bind_eq_ok, hfree, inlined, Accepted, Value.children,
        Except.ok.injEq]
      constructor
      · rintro ⟨_, ⟨hall, rfl⟩, rfl⟩
        exact ⟨⟨by simp, hall⟩, rfl⟩
      · rintro ⟨⟨-, hall⟩, rfl⟩
        exact ⟨_, ⟨hall, rfl⟩, rfl⟩
  | pid p => cases p <;> simp [copyTerm, inlined, Accepted, Value.children, eq_comm]
  | tuple xs =>
    have hxs := copyTerms_eq_ok (show ∀ v ∈ xs, Copies v from h)
    simp only [copyTerm, bind_eq_ok, hxs, inlined, Accepted, Value.children, Except.ok.injEq]
    constructor
    · rintro ⟨_, ⟨hall, rfl⟩, rfl⟩
      exact ⟨⟨trivial, hall⟩, rfl⟩
    · rintro ⟨⟨-, hall⟩, rfl⟩
      exact ⟨_, ⟨hall, rfl⟩, rfl⟩
  | map es =>
    have hes := copyEntries_eq_ok (mem_entries_children (s := {x | Copies x}) h)
    have hchildren : (∀ x ∈ (Value.map es).children, Storable x) ↔
        ∀ e ∈ es, Storable e.1 ∧ Storable e.2 := by
      refine ⟨mem_entries_children, ?_⟩
      intro hall x hx
      obtain ⟨e, he, hx⟩ := List.mem_flatMap.mp hx
      rcases List.mem_pair.mp hx with rfl | rfl
      · exact (hall e he).1
      · exact (hall e he).2
    rw [hchildren]
    simp only [copyTerm, bind_eq_ok, hes, inlined, Accepted, Except.ok.injEq]
    constructor
    · rintro ⟨_, ⟨hall, rfl⟩, rfl⟩
      exact ⟨⟨trivial, hall⟩, rfl⟩
    · rintro ⟨⟨-, hall⟩, rfl⟩
      exact ⟨_, ⟨hall, rfl⟩, rfl⟩
  | nil => simp [copyTerm, inlined, Accepted, Value.children, eq_comm]
  | cons head tail =>
    have hhead := h head (by simp [Value.children])
    have htail := h tail (by simp [Value.children])
    simp only [copyTerm, bind_eq_ok, hhead _, htail _, inlined, Accepted, Value.children,
      Except.ok.injEq, List.forall_mem_cons]
    constructor
    · rintro ⟨_, ⟨hhead', rfl⟩, _, ⟨htail', rfl⟩, rfl⟩
      exact ⟨⟨trivial, hhead', htail', by simp⟩, rfl⟩
    · rintro ⟨⟨-, hhead', htail', -⟩, rfl⟩
      exact ⟨_, ⟨hhead', rfl⟩, _, ⟨htail', rfl⟩, rfl⟩
  | binary b => simp [copyTerm, inlined, Accepted, Value.children, eq_comm]
  | other raw => simp [copyTerm, Accepted]

/-- What is copied, and the copy. -/
theorem copyTerm_eq_ok (v w : Value) : copyTerm v = .ok w ↔ Storable v ∧ w = inlined v := by
  have hcopies : ∀ n, ∀ v : Value, v.depth = n → Copies v := by
    intro n
    induction n using Nat.strong_induction_on with
    | _ n ih =>
      rintro v rfl
      exact copies_of_children fun x hx => ih _ (Value.depth_child hx) x rfl
  exact hcopies v.depth v rfl w

theorem children_inlined (v : Value) : (inlined v).children = v.children.map inlined := by
  cases v with
  | closure cl free => rw [inlined, inlinedList_eq]; rfl
  | tuple xs => rw [inlined, inlinedList_eq]; rfl
  | map es =>
    rw [inlined, inlinedEntries_eq]
    simp [Value.children, List.flatMap_map, List.map_flatMap]
  | _ => simp only [inlined, Value.children, List.map_nil, List.map_cons]

theorem Storable.inlined {v : Value} (h : Storable v) : Storable (inlined v) := by
  induction h with
  | @intro v here _ ih =>
    refine .intro ?_ ?_
    · cases v with
      | reference r => cases r <;> simp_all [Ets.inlined, Accepted]
      | pid p => cases p <;> simp_all [Ets.inlined, Accepted]
      | _ => simp_all [Ets.inlined, Accepted]
    · rw [children_inlined]
      intro c hc
      obtain ⟨x, hx, rfl⟩ := List.mem_map.mp hc
      exact ih x hx

/-- A copy is copied as it is. -/
theorem copyTerm_inlined {v : Value} (h : Storable v) :
    copyTerm (Ets.inlined v) = .ok (Ets.inlined v) :=
  (copyTerm_eq_ok _ _).mpr ⟨h.inlined, (inlined_inlined v).symm⟩

/-! ## Keys -/

theorem exactEq_inlined_left (l r : Value) : exactEq (inlined l) r = exactEq l r := by
  rw [exactEq, exactEq, cmp_inlined_left exactCmp_isTermOrder]

theorem exactEq_inlined_right (l r : Value) : exactEq l (inlined r) = exactEq l r := by
  rw [exactEq, exactEq, cmp_inlined_right exactCmp_isTermOrder]

theorem tupleKey_inlined (keypos : ℕ) (v : Value) :
    tupleKey keypos (inlined v) = (tupleKey keypos v).map inlined := by
  cases v with
  | tuple xs =>
    simp only [inlined, tupleKey, inlinedList_eq, List.getElem?_map]
    split
    · rfl
    · cases xs[keypos - 1]? <;> rfl
  | _ => simp only [inlined, tupleKey, Except.map]

theorem tupleKey_eq_ok {keypos : ℕ} {v k : Value} : tupleKey keypos v = .ok k ↔
    ∃ xs, v = .tuple xs ∧ 0 < keypos ∧ xs[keypos - 1]? = some k := by
  cases v with
  | tuple xs =>
    simp only [tupleKey, Value.tuple.injEq, exists_eq_left']
    rcases Nat.eq_zero_or_pos keypos with hzero | hpos
    · simp [hzero]
    · rw [if_neg (by omega)]
      cases xs[keypos - 1]? <;> simp [hpos]
  | _ => simp [tupleKey]

/-- The key of a row is a part of it. -/
theorem Storable.tupleKey {keypos : ℕ} {v k : Value} (h : Storable v)
    (hk : tupleKey keypos v = .ok k) : Storable k := by
  obtain ⟨xs, rfl, -, hget⟩ := tupleKey_eq_ok.mp hk
  exact h.child (List.mem_of_getElem? hget)

/-- Exactly equal rows have exactly equal keys. -/
theorem exactEq_tupleKey {keypos : ℕ} {v w k : Value} (h : exactEq v w = true)
    (hk : tupleKey keypos v = .ok k) : ∃ k', tupleKey keypos w = .ok k' ∧ exactEq k k' = true := by
  obtain ⟨xs, rfl, hpos, hget⟩ := tupleKey_eq_ok.mp hk
  have hcmp : exactCmp (.tuple xs) w = .eq := by simpa [exactEq] using h
  have hrank := exactCmp_isTermOrder.rank_eq hcmp
  cases w with
  | tuple ys =>
    rw [exactCmp_isTermOrder.tuple_tuple, lengthLex_eq_iff] at hcmp
    obtain ⟨hlength, hall⟩ := List.forall₂_iff_get.mp hcmp
    obtain ⟨hin, rfl⟩ := List.getElem?_eq_some_iff.mp hget
    refine ⟨ys[keypos - 1], ?_, ?_⟩
    · exact tupleKey_eq_ok.mpr ⟨ys, rfl, hpos, List.getElem?_eq_getElem _⟩
    · simpa [exactEq] using hall (keypos - 1) hin (hlength ▸ hin)
  | _ => cases hrank

end Beamr.Ets
