import Mathlib.Data.Set.Defs
import Mathlib.Tactic.Common

/-!
# Maps as lists of entries

The entries of a map whose keys are compared by a test of its own. The test is an equivalence on
the keys in use, and each operation is described by what it does to `get`.
-/
namespace Entries

variable {K V : Type*}

/-- The test is an equivalence on `s`. -/
structure SameOn (s : Set K) (same : K → K → Bool) : Prop where
  refl : ∀ a ∈ s, same a a = true
  symm : ∀ a ∈ s, ∀ b ∈ s, same a b = true → same b a = true
  trans : ∀ a ∈ s, ∀ b ∈ s, ∀ d ∈ s, same a b = true → same b d = true → same a d = true

theorem SameOn.eq_left {s : Set K} {same : K → K → Bool} (h : SameOn s same) {a b d : K}
    (ha : a ∈ s) (hb : b ∈ s) (hd : d ∈ s) (hab : same a b = true) : same a d = same b d := by
  rw [Bool.eq_iff_iff]
  constructor
  · exact h.trans b hb a ha d hd (h.symm a ha b hb hab)
  · exact h.trans a ha b hb d hd hab

theorem SameOn.eq_right {s : Set K} {same : K → K → Bool} (h : SameOn s same) {a b d : K}
    (ha : a ∈ s) (hb : b ∈ s) (hd : d ∈ s) (hab : same a b = true) : same d a = same d b := by
  rw [Bool.eq_iff_iff]
  constructor
  · intro hda
    exact h.trans d hd a ha b hb hda hab
  · intro hdb
    exact h.trans d hd b hb a ha hdb (h.symm a ha b hb hab)

variable (same : K → K → Bool)

def get (entries : List (K × V)) (key : K) : Option V :=
  (entries.find? fun e => same e.1 key).map (·.2)

/-- Replaces the entry of the key, or adds one. -/
def put (key : K) (value : V) : List (K × V) → List (K × V)
  | [] => [(key, value)]
  | e :: rest => if same e.1 key then (key, value) :: rest else e :: put key value rest

/-- Edits the value of the key in place. -/
def modify (key : K) (f : V → V) (entries : List (K × V)) : List (K × V) :=
  entries.map fun e => if same e.1 key then (e.1, f e.2) else e

def erase (key : K) (entries : List (K × V)) : List (K × V) :=
  entries.filter fun e => !same e.1 key

/-- Edits every value. -/
def mapValues (f : V → V) (entries : List (K × V)) : List (K × V) :=
  entries.map fun e => (e.1, f e.2)

/-- The keys are of `s`. -/
def Over (s : Set K) (entries : List (K × V)) : Prop := ∀ e ∈ entries, e.1 ∈ s

/-- No key occurs twice. -/
def Distinct (entries : List (K × V)) : Prop :=
  entries.Pairwise fun a b => same a.1 b.1 = false

theorem get_cons (e : K × V) (rest : List (K × V)) (key : K) :
    get same (e :: rest) key = if same e.1 key then some e.2 else get same rest key := by
  rw [get, List.find?_cons]
  cases same e.1 key <;> rfl

theorem mem_put {key : K} {value : V} {entries : List (K × V)} {e : K × V}
    (h : e ∈ put same key value entries) : e = (key, value) ∨ e ∈ entries := by
  induction entries with
  | nil => exact .inl (List.mem_singleton.mp h)
  | cons first rest ih =>
    rw [put] at h
    split at h
    · rcases List.mem_cons.mp h with rfl | h
      · exact .inl rfl
      · exact .inr (List.mem_cons_of_mem _ h)
    · rcases List.mem_cons.mp h with rfl | h
      · exact .inr (List.mem_cons_self ..)
      · exact (ih h).imp_right (List.mem_cons_of_mem _)

section Laws

variable {same} {s : Set K} {entries : List (K × V)} {key key' : K}

theorem Over.put (h : Over s entries) (hkey : key ∈ s) (value : V) :
    Over s (put same key value entries) := by
  intro e he
  rcases mem_put same he with rfl | he
  · exact hkey
  · exact h e he

theorem Over.modify (h : Over s entries) (f : V → V) : Over s (modify same key f entries) := by
  intro e he
  obtain ⟨x, hx, rfl⟩ := List.mem_map.mp he
  split
  · exact h x hx
  · exact h x hx

theorem Over.erase (h : Over s entries) : Over s (erase same key entries) :=
  fun e he => h e (List.mem_filter.mp he).1

theorem Distinct.put (h : Distinct same entries) (hsame : SameOn s same) (hover : Over s entries)
    (hkey : key ∈ s) (value : V) : Distinct same (put same key value entries) := by
  induction entries with
  | nil => exact List.pairwise_singleton _ _
  | cons first rest ih =>
    obtain ⟨hfirst, hrest⟩ := List.pairwise_cons.mp h
    have hin : ∀ e ∈ rest, e.1 ∈ s := fun e he => hover e (List.mem_cons_of_mem _ he)
    have hfirstIn : first.1 ∈ s := hover first (List.mem_cons_self ..)
    rw [Entries.put]
    split
    next hsamekey =>
      refine List.pairwise_cons.mpr ⟨fun e he => ?_, hrest⟩
      rw [← hsame.eq_left hfirstIn hkey (hin e he) hsamekey]
      exact hfirst e he
    next hother =>
      refine List.pairwise_cons.mpr ⟨fun e he => ?_, ih hrest hin⟩
      rcases mem_put same he with rfl | he
      · simpa using hother
      · exact hfirst e he

theorem Distinct.modify (h : Distinct same entries) (f : V → V) :
    Distinct same (modify same key f entries) := by
  refine List.Pairwise.map _ ?_ h
  intro a b hab
  split <;> split <;> exact hab

theorem Distinct.erase (h : Distinct same entries) : Distinct same (erase same key entries) :=
  h.filter _

theorem Distinct.mapValues (h : Distinct same entries) (f : V → V) :
    Distinct same (mapValues f entries) :=
  List.Pairwise.map (fun e : K × V => (e.1, f e.2)) (fun _ _ hab => hab) h

theorem get_mapValues (f : V → V) :
    get same (mapValues f entries) key = (get same entries key).map f := by
  induction entries with
  | nil => rfl
  | cons e rest ih =>
    rw [mapValues, List.map_cons, ← mapValues, get_cons, get_cons, ih]
    split <;> rfl

/-- The entry that `get` finds. -/
theorem exists_of_get {value : V} (h : get same entries key = some value) :
    ∃ e ∈ entries, same e.1 key = true ∧ e.2 = value := by
  obtain ⟨e, hfind, rfl⟩ := Option.map_eq_some_iff.mp h
  have hsamekey := List.find?_some hfind
  exact ⟨e, List.mem_of_find?_eq_some hfind, hsamekey, rfl⟩

/-- With no key twice, an entry is found under its key. -/
theorem get_of_mem (hsame : SameOn s same) (hover : Over s entries)
    (hdistinct : Distinct same entries) (hkey : key ∈ s) {e : K × V} (he : e ∈ entries)
    (h : same e.1 key = true) : get same entries key = some e.2 := by
  induction entries with
  | nil => cases he
  | cons first rest ih =>
    obtain ⟨hfirst, hrest⟩ := List.pairwise_cons.mp hdistinct
    have hin : ∀ x ∈ rest, x.1 ∈ s := fun x hx => hover x (List.mem_cons_of_mem _ hx)
    rw [get_cons]
    rcases List.mem_cons.mp he with rfl | he
    · rw [if_pos h]
    · have hne : same first.1 key ≠ true := by
        intro hsamekey
        have hclash := hfirst e he
        rw [hsame.eq_right (hin e he) hkey (hover first (List.mem_cons_self ..)) h] at hclash
        rw [hclash] at hsamekey
        cases hsamekey
      rw [if_neg hne, ih hin hrest he]

theorem get_eq_some_iff (hsame : SameOn s same) (hover : Over s entries)
    (hdistinct : Distinct same entries) (hkey : key ∈ s) {value : V} :
    get same entries key = some value ↔ ∃ e ∈ entries, same e.1 key = true ∧ e.2 = value := by
  refine ⟨exists_of_get, ?_⟩
  rintro ⟨e, he, hsamekey, rfl⟩
  exact get_of_mem hsame hover hdistinct hkey he hsamekey

theorem Distinct.perm (h : Distinct same entries) (hsame : SameOn s same) (hover : Over s entries)
    {entries' : List (K × V)} (hperm : entries.Perm entries') : Distinct same entries' := by
  have hboth : entries.Pairwise fun a b => same a.1 b.1 = false ∧ same b.1 a.1 = false := by
    refine h.imp_of_mem fun {a b} ha hb hab => ⟨hab, ?_⟩
    rw [Bool.eq_false_iff] at hab ⊢
    exact fun hba => hab (hsame.symm _ (hover b hb) _ (hover a ha) hba)
  exact (hperm.pairwise hboth And.symm).imp And.left

/-- The order of the entries does not matter. -/
theorem get_perm (hsame : SameOn s same) (hover : Over s entries)
    (hdistinct : Distinct same entries) (hkey : key ∈ s) {entries' : List (K × V)}
    (hperm : entries.Perm entries') : get same entries' key = get same entries key := by
  have hover' : Over s entries' := fun e he => hover e (hperm.mem_iff.mpr he)
  ext value
  rw [get_eq_some_iff hsame hover' (hdistinct.perm hsame hover hperm) hkey,
    get_eq_some_iff hsame hover hdistinct hkey]
  exact exists_congr fun e => and_congr_left fun _ => hperm.symm.mem_iff

theorem get_congr (hsame : SameOn s same) (hover : Over s entries) (hkey : key ∈ s)
    (hkey' : key' ∈ s) (h : same key key' = true) :
    get same entries key = get same entries key' := by
  induction entries with
  | nil => rfl
  | cons e rest ih =>
    have hin : e.1 ∈ s := hover e (List.mem_cons_self ..)
    rw [get_cons, get_cons, hsame.eq_right hkey hkey' hin h,
      ih fun x hx => hover x (List.mem_cons_of_mem _ hx)]

theorem get_put (hsame : SameOn s same) (hover : Over s entries) (hkey : key ∈ s)
    (hkey' : key' ∈ s) (value : V) : get same (put same key value entries) key' =
      if same key key' then some value else get same entries key' := by
  induction entries with
  | nil => simp [put, get_cons]
  | cons e rest ih =>
    have hin : e.1 ∈ s := hover e (List.mem_cons_self ..)
    rw [put]
    split
    next hsamekey =>
      rw [get_cons, get_cons, hsame.eq_left hin hkey hkey' hsamekey]
      split <;> rfl
    next hother =>
      rw [get_cons, get_cons, ih fun x hx => hover x (List.mem_cons_of_mem _ hx)]
      split
      next hfirst =>
        have hne : same key key' ≠ true := by
          intro hsamekey
          rw [← hsame.eq_right hkey hkey' hin hsamekey] at hfirst
          exact hother hfirst
        rw [if_neg hne]
      next => rfl

theorem get_modify (hsame : SameOn s same) (hover : Over s entries) (hkey : key ∈ s)
    (hkey' : key' ∈ s) (f : V → V) : get same (modify same key f entries) key' =
      if same key key' then (get same entries key').map f else get same entries key' := by
  induction entries with
  | nil => simp [modify, get]
  | cons e rest ih =>
    have hin : e.1 ∈ s := hover e (List.mem_cons_self ..)
    have hrest := ih fun x hx => hover x (List.mem_cons_of_mem _ hx)
    rw [modify, List.map_cons, ← modify, get_cons, get_cons, hrest]
    by_cases hsamekey : same e.1 key = true
    · rw [if_pos hsamekey, hsame.eq_left hin hkey hkey' hsamekey]
      split <;> rfl
    · rw [if_neg hsamekey]
      by_cases hfirst : same e.1 key' = true
      · have hne : same key key' ≠ true := by
          intro hkeys
          rw [← hsame.eq_right hkey hkey' hin hkeys] at hfirst
          exact hsamekey hfirst
        simp only [hfirst, hne, if_true, if_false, Bool.false_eq_true]
      · simp only [hfirst, if_false, Bool.false_eq_true]

theorem get_erase (hsame : SameOn s same) (hover : Over s entries) (hkey : key ∈ s)
    (hkey' : key' ∈ s) : get same (erase same key entries) key' =
      if same key key' then none else get same entries key' := by
  induction entries with
  | nil => simp [erase, get]
  | cons e rest ih =>
    have hin : e.1 ∈ s := hover e (List.mem_cons_self ..)
    have hrest := ih fun x hx => hover x (List.mem_cons_of_mem _ hx)
    by_cases hsamekey : same e.1 key = true
    · rw [erase, List.filter_cons_of_neg (by simp [hsamekey]), ← erase, hrest, get_cons,
        hsame.eq_left hin hkey hkey' hsamekey]
      split <;> rfl
    · rw [erase, List.filter_cons_of_pos (by simp [hsamekey]), ← erase, get_cons, get_cons, hrest]
      by_cases hfirst : same e.1 key' = true
      · have hne : same key key' ≠ true := by
          intro hkeys
          rw [← hsame.eq_right hkey hkey' hin hkeys] at hfirst
          exact hsamekey hfirst
        simp only [hfirst, hne, if_true, if_false, Bool.false_eq_true]
      · simp only [hfirst, if_false, Bool.false_eq_true]

end Laws

/-! ## Keys compared by equality -/

section Equality

variable [BEq K] [LawfulBEq K] (entries : List (K × V)) (key key' : K)

theorem sameOn_univ : SameOn (Set.univ : Set K) (· == ·) where
  refl _ _ := beq_self_eq_true _
  symm _ _ _ _ h := by rwa [BEq.comm]
  trans _ _ _ _ _ _ h h' := by
    rw [eq_of_beq h]
    exact h'

omit [BEq K] [LawfulBEq K] in
theorem over_univ : Over Set.univ entries := fun _ _ => trivial

theorem get_put_of_ne {key key' : K} (h : key ≠ key') (value : V) :
    get (· == ·) (put (· == ·) key value entries) key' = get (· == ·) entries key' := by
  rw [get_put sameOn_univ (over_univ entries) trivial trivial, if_neg (by simpa using h)]

theorem get_put_self (value : V) :
    get (· == ·) (put (· == ·) key value entries) key = some value := by
  rw [get_put sameOn_univ (over_univ entries) trivial trivial, if_pos (beq_self_eq_true _)]

theorem get_erase_self : get (· == ·) (erase (· == ·) key entries) key = none := by
  rw [get_erase sameOn_univ (over_univ entries) trivial trivial, if_pos (beq_self_eq_true _)]

theorem get_erase_of_ne {key key' : K} (h : key ≠ key') :
    get (· == ·) (erase (· == ·) key entries) key' = get (· == ·) entries key' := by
  rw [get_erase sameOn_univ (over_univ entries) trivial trivial, if_neg (by simpa using h)]

/-- Entries kept by a test of their keys. -/
theorem get_filter (q : K → Bool) : get (· == ·) (entries.filter fun e => q e.1) key =
    if q key then get (· == ·) entries key else none := by
  induction entries with
  | nil => simp [get]
  | cons e rest ih =>
    rw [List.filter_cons, get_cons]
    by_cases hkey : e.1 = key
    · rw [hkey, beq_self_eq_true, if_pos rfl]
      cases hq : q key with
      | false => simpa [hq] using ih
      | true => simp [get_cons, hkey]
    · have hne : ¬ (e.1 == key) = true := by simpa using hkey
      rw [if_neg hne, ← ih]
      split
      · rw [get_cons, if_neg hne]
      · rfl

end Equality

end Entries
