import Beamr.Ets.Copy
import Beamr.Lib.Entries
import Beamr.Lib.Runs
import Beamr.Term.Hash

/-!
# Bags

A bag keeps the rows of one key in a bucket of a concurrent map. Each operation of the map is one
step; `delete_object` takes two, the second removing the bucket that the first has emptied.
-/
namespace Beamr.Ets

open Term Comparison Entries

/-! ## The concurrent map -/

/-- `EtsKey`: hash and exact equality. -/
def sameKey (a b : Value) : Bool := termHash a == termHash b && exactEq a b

theorem sameKey_eq (a b : Value) : sameKey a b = exactEq a b := by
  rw [sameKey]
  cases h : exactEq a b with
  | false => simp
  | true =>
    have hcmp : exactCmp a b = .eq := by simpa [exactEq] using h
    simp [termHash, hashTerm_eq_of_exactCmp_eq hcmp]

theorem exactEq_refl (a : Value) : exactEq a a = true := by
  simp [exactEq, exactCmp_preorderOn.refl (Set.mem_univ a)]

theorem exactEq_comm (a b : Value) : exactEq a b = exactEq b a := by
  rw [exactEq, exactEq, exactCmp_preorderOn.swap a trivial b trivial]
  cases exactCmp a b <;> rfl

theorem exactEq_left {a b : Value} (h : exactEq a b = true) (d : Value) :
    exactEq a d = exactEq b d := by
  have hcmp : exactCmp a b = .eq := by simpa [exactEq] using h
  rw [exactEq, exactEq, exactCmp_preorderOn.eq_left trivial trivial trivial hcmp]

theorem exactEq_right {a b : Value} (h : exactEq a b = true) (d : Value) :
    exactEq d a = exactEq d b := by
  rw [exactEq_comm d a, exactEq_comm d b, exactEq_left h]

theorem sameKey_sameOn : SameOn Set.univ sameKey where
  refl a _ := by rw [sameKey_eq, exactEq_refl]
  symm a _ b _ h := by rwa [sameKey_eq, exactEq_comm, ← sameKey_eq]
  trans a _ b _ d _ hab hbd := by
    rw [sameKey_eq] at hab hbd ⊢
    rw [exactEq_left hab, hbd]

theorem over_univ {V : Type*} (entries : List (Value × V)) : Over Set.univ entries :=
  fun _ _ => trivial

/-! ## Operations -/

abbrev BagStorage := List (Value × List Value)

def insertBagTuple (storage : BagStorage) (key tuple : Value) (allowDuplicates : Bool) :
    Except EtsError BagStorage := do
  let row ← copyTerm tuple
  let key ← copyTerm key
  match get sameKey storage key with
  | some values =>
    if allowDuplicates || !values.any fun value => exactEq value row then
      .ok (modify sameKey key (· ++ [row]) storage)
    else .ok storage
  | none => .ok (put sameKey key [row] storage)

def lookupKey (storage : BagStorage) (key : Value) : List Value :=
  (get sameKey storage key).getD []

def deleteKey (storage : BagStorage) (key : Value) : Bool × BagStorage :=
  ((get sameKey storage key).isSome, erase sameKey key storage)

/-- The first step of `delete_object`: whether a row went, and whether the bucket is to go. -/
def retainOthers (storage : BagStorage) (key tuple : Value) : (Bool × Bool) × BagStorage :=
  match get sameKey storage key with
  | some values =>
    let kept := values.filter fun value => !exactEq value tuple
    ((kept.length != values.length, kept.isEmpty), modify sameKey key (fun _ => kept) storage)
  | none => ((false, false), storage)

/-- Both steps of `delete_object` with nothing between them. -/
def deleteObject (storage : BagStorage) (tuple : Value) (keypos : ℕ) : Bool × BagStorage :=
  match tupleKey keypos tuple with
  | .error _ => (false, storage)
  | .ok key =>
    match retainOthers storage key tuple with
    | ((deleted, true), storage) => (deleted, erase sameKey key storage)
    | ((deleted, false), storage) => (deleted, storage)

theorem lookupKey_congr {storage : BagStorage} {k k' : Value} (h : exactEq k k' = true) :
    lookupKey storage k = lookupKey storage k' := by
  rw [lookupKey, lookupKey, get_congr sameKey_sameOn (over_univ storage) trivial trivial]
  rwa [sameKey_eq]

/-- An insert adds its row to its bucket, unless duplicates are suppressed and it is there. -/
theorem insertBagTuple_eq_ok {storage storage' : BagStorage} {key tuple : Value} {dup : Bool}
    (h : insertBagTuple storage key tuple dup = .ok storage') : Storable tuple ∧
      ∀ x, lookupKey storage' x =
        if exactEq key x = true ∧
            (dup = true ∨ ∀ row ∈ lookupKey storage x, exactEq row tuple = false) then
          lookupKey storage x ++ [inlined tuple]
        else lookupKey storage x := by
  simp only [insertBagTuple, bind_eq_ok, copyTerm_eq_ok] at h
  obtain ⟨_, ⟨hstorable, rfl⟩, _, ⟨-, rfl⟩, hmatch⟩ := h
  refine ⟨hstorable, fun x => ?_⟩
  have hkey : sameKey (inlined key) x = exactEq key x := by
    rw [sameKey_eq, exactEq_inlined_left]
  have hcongr : sameKey (inlined key) x = true →
      get sameKey storage (inlined key) = get sameKey storage x :=
    get_congr sameKey_sameOn (over_univ storage) trivial trivial
  rcases hget : get sameKey storage (inlined key) with _ | values
  · rw [hget] at hmatch
    cases hmatch
    rw [lookupKey, get_put sameKey_sameOn (over_univ storage) trivial trivial, hkey, lookupKey]
    by_cases hx : exactEq key x = true
    · rw [← hcongr (hkey.trans hx), hget]
      simp [hx]
    · simp [hx]
  · rw [hget] at hmatch
    dsimp only at hmatch
    by_cases hx : exactEq key x = true
    · have hlookup : lookupKey storage x = values := by
        rw [lookupKey, ← hcongr (hkey.trans hx), hget, Option.getD_some]
      have hany : (values.any fun value => exactEq value (inlined tuple)) = false ↔
          ∀ row ∈ values, exactEq row tuple = false := by
        simp only [List.any_eq_false, exactEq_inlined_right, Bool.not_eq_true]
      rw [hlookup]
      by_cases hadd : dup = true ∨ ∀ row ∈ values, exactEq row tuple = false
      · rw [if_pos (by simpa [← hany] using hadd)] at hmatch
        cases hmatch
        rw [if_pos ⟨hx, hadd⟩, lookupKey,
          get_modify sameKey_sameOn (over_univ storage) trivial trivial, hkey, if_pos hx,
          ← hcongr (hkey.trans hx), hget]
        rfl
      · rw [if_neg (by simpa [← hany] using hadd)] at hmatch
        cases hmatch
        rw [if_neg (fun hboth => hadd hboth.2)]
        exact hlookup
    · rw [if_neg (fun hboth => hx hboth.1)]
      split at hmatch
      · cases hmatch
        rw [lookupKey, get_modify sameKey_sameOn (over_univ storage) trivial trivial, hkey,
          if_neg hx, lookupKey]
      · cases hmatch
        rfl

theorem lookupKey_erase (storage : BagStorage) (key x : Value) :
    lookupKey (erase sameKey key storage) x =
      if exactEq key x = true then [] else lookupKey storage x := by
  rw [lookupKey, get_erase sameKey_sameOn (over_univ storage) trivial trivial, sameKey_eq,
    lookupKey]
  split <;> rfl

theorem lookupKey_retainOthers (storage : BagStorage) (key tuple x : Value) :
    lookupKey (retainOthers storage key tuple).2 x =
      if exactEq key x = true then (lookupKey storage x).filter fun value => !exactEq value tuple
      else lookupKey storage x := by
  have hcongr : exactEq key x = true → get sameKey storage key = get sameKey storage x := by
    rw [← sameKey_eq]
    exact get_congr sameKey_sameOn (over_univ storage) trivial trivial
  rw [retainOthers]
  rcases hget : get sameKey storage key with _ | values
  · by_cases hx : exactEq key x = true
    · simp [hx, lookupKey, ← hcongr hx, hget]
    · simp [hx]
  · dsimp only
    rw [lookupKey, get_modify sameKey_sameOn (over_univ storage) trivial trivial, sameKey_eq,
      lookupKey]
    by_cases hx : exactEq key x = true
    · simp [hx, ← hcongr hx, hget]
    · simp [hx]

/-! ## Any number of processes -/

/-- A call that has returned. -/
inductive Completion
  | inserted (tuple : Value)
  | deletedObject (tuple : Value)
  | deletedKey (key : Value)

/-- The delete was for this row. -/
def Completion.Matches (keypos : ℕ) : Completion → Value → Prop
  | .inserted _, _ => False
  | .deletedObject tuple, row => exactEq tuple row = true
  | .deletedKey key, row => ∃ k, tupleKey keypos row = .ok k ∧ exactEq key k = true

/-- The table, the process's `delete_object` that has yet to remove its bucket, and the calls that
have returned, the last first. -/
structure BagSystem (P : Type) where
  storage : BagStorage
  pending : P → Option (Value × Value)
  log : List Completion

inductive BagStep (P : Type)
  | insert (p : P) (tuple : Value)
  | deleteKey (p : P) (key : Value)
  | deleteObject (p : P) (tuple : Value)
  | removeBucket (p : P)

namespace BagSystem

variable {P : Type} [DecidableEq P]

def start : BagSystem P := ⟨[], fun _ => none, []⟩

/-- One operation of the map by one process; a process in the middle of a call makes no other. -/
def step (keypos : ℕ) (allowDuplicates : Bool) (s : BagSystem P) : BagStep P → BagSystem P
  | .insert p tuple =>
    match s.pending p, tupleKey keypos tuple with
    | none, .ok key =>
      match insertBagTuple s.storage key tuple allowDuplicates with
      | .ok storage => { s with storage, log := .inserted tuple :: s.log }
      | .error _ => s
    | _, _ => s
  | .deleteKey p key =>
    match s.pending p with
    | none => { s with storage := (Ets.deleteKey s.storage key).2, log := .deletedKey key :: s.log }
    | some _ => s
  | .deleteObject p tuple =>
    match s.pending p, tupleKey keypos tuple with
    | none, .ok key =>
      match retainOthers s.storage key tuple with
      | ((_, true), storage) =>
        { s with storage, pending := Function.update s.pending p (some (key, tuple)) }
      | ((_, false), storage) => { s with storage, log := .deletedObject tuple :: s.log }
    | none, .error _ => { s with log := .deletedObject tuple :: s.log }
    | some _, _ => s
  | .removeBucket p =>
    match s.pending p with
    | some (key, tuple) =>
      ⟨erase sameKey key s.storage, Function.update s.pending p none, .deletedObject tuple :: s.log⟩
    | none => s

/-- The insert of the row has returned, and no delete for it has returned since. -/
def Inserted (keypos : ℕ) (log : List Completion) (row : Value) : Prop :=
  ∃ newer older, log = newer ++ .inserted row :: older ∧ ∀ c ∈ newer, ¬ c.Matches keypos row

/-- The row is inserted, and no delete for it is under way either. -/
def Standing (keypos : ℕ) (s : BagSystem P) (row : Value) : Prop :=
  Inserted keypos s.log row ∧
    ∀ p key tuple, s.pending p = some (key, tuple) → exactEq tuple row = false

/-- Every row that stands is found under its key. -/
def KeepsInserts (keypos : ℕ) (s : BagSystem P) : Prop :=
  ∀ row, s.Standing keypos row → ∃ key, tupleKey keypos row = .ok key ∧
    ∃ found ∈ lookupKey s.storage key, exactEq found row = true

/-- The bucket that is removed holds no row but those of deletes under way. -/
def RemovesOwn (s : BagSystem P) : BagStep P → Prop
  | .removeBucket p => ∀ key tuple, s.pending p = some (key, tuple) →
    ∀ row ∈ lookupKey s.storage key,
      ∃ q key' tuple', s.pending q = some (key', tuple') ∧ exactEq tuple' row = true
  | _ => True

theorem inserted_cons {keypos : ℕ} {c : Completion} {log : List Completion} {row : Value} :
    Inserted keypos (c :: log) row ↔
      c = .inserted row ∨ ¬ c.Matches keypos row ∧ Inserted keypos log row := by
  constructor
  · rintro ⟨newer, older, hlog, hnewer⟩
    cases newer with
    | nil => exact .inl (List.cons.inj hlog).1
    | cons first newer =>
      obtain ⟨rfl, hrest⟩ := List.cons.inj hlog
      refine .inr ⟨hnewer _ (List.mem_cons_self ..), newer, older, hrest, ?_⟩
      intro d hd
      exact hnewer d (List.mem_cons_of_mem _ hd)
  · rintro (rfl | ⟨hc, newer, older, rfl, hnewer⟩)
    · exact ⟨[], log, rfl, nofun⟩
    · exact ⟨c :: newer, older, rfl, List.forall_mem_cons.mpr ⟨hc, hnewer⟩⟩

/-- Every row of the table comes from an insert that stands, whatever is under way. -/
structure Accounted (keypos : ℕ) (s : BagSystem P) : Prop where
  pending : ∀ p key tuple, s.pending p = some (key, tuple) → tupleKey keypos tuple = .ok key
  rows : ∀ x, ∀ found ∈ lookupKey s.storage x, ∃ row key, tupleKey keypos row = .ok key ∧
    exactEq key x = true ∧ exactEq found row = true ∧ Inserted keypos s.log row

/-- The key of a row that a tuple matches is the key of the tuple. -/
theorem exactEq_key {keypos : ℕ} {tuple row key key' : Value} (h : exactEq tuple row = true)
    (hkey : tupleKey keypos tuple = .ok key) (hkey' : tupleKey keypos row = .ok key') :
    exactEq key key' = true := by
  obtain ⟨k, hk, hsame⟩ := exactEq_tupleKey h hkey
  rw [hkey'] at hk
  cases hk
  exact hsame

omit [DecidableEq P] in
/-- A delete leaves rows that are not for it. -/
theorem Accounted.of_delete {keypos : ℕ} {s : BagSystem P} (h : s.Accounted keypos)
    {storage : BagStorage} {pending : P → Option (Value × Value)} {c : Completion}
    (hpending : ∀ p x, pending p = some x → s.pending p = some x)
    (hkept : ∀ x, ∀ found ∈ lookupKey storage x, found ∈ lookupKey s.storage x)
    (hgone : ∀ x, ∀ found ∈ lookupKey storage x, ∀ row key, tupleKey keypos row = .ok key →
      exactEq key x = true → exactEq found row = true → ¬ c.Matches keypos row) :
    Accounted keypos ⟨storage, pending, c :: s.log⟩ := by
  refine ⟨fun p key tuple hp => h.pending p key tuple (hpending p _ hp), ?_⟩
  intro x found hfound
  obtain ⟨row, key, hkey, hsame, heq, hinserted⟩ := h.rows x found (hkept x found hfound)
  refine ⟨row, key, hkey, hsame, heq, inserted_cons.mpr (.inr ⟨?_, hinserted⟩)⟩
  exact hgone x found hfound row key hkey hsame heq

theorem Accounted.step {keypos : ℕ} {s : BagSystem P} (h : s.Accounted keypos) (dup : Bool)
    (a : BagStep P) : (s.step keypos dup a).Accounted keypos := by
  cases a with
  | insert p tuple =>
    rw [BagSystem.step]
    split
    next key _ hkey =>
      split
      next storage hinsert =>
        obtain ⟨-, hlookup⟩ := insertBagTuple_eq_ok hinsert
        refine ⟨h.pending, ?_⟩
        intro x found hfound
        rw [hlookup x] at hfound
        have hold : found ∈ lookupKey s.storage x → ∃ row key, tupleKey keypos row = .ok key ∧
            exactEq key x = true ∧ exactEq found row = true ∧
            Inserted keypos (.inserted tuple :: s.log) row := by
          intro hmem
          obtain ⟨row, key, hkey, hsame, heq, hinserted⟩ := h.rows x found hmem
          exact ⟨row, key, hkey, hsame, heq, inserted_cons.mpr (.inr ⟨id, hinserted⟩)⟩
        split at hfound
        next hadd =>
          rcases List.mem_append.mp hfound with hmem | hnew
          · exact hold hmem
          · rw [List.mem_singleton.mp hnew]
            refine ⟨tuple, key, hkey, hadd.1, ?_, inserted_cons.mpr (.inl rfl)⟩
            rw [exactEq_inlined_left, exactEq_refl]
        next => exact hold hfound
      next => exact h
    next => exact h
  | deleteKey p key =>
    rw [BagSystem.step]
    split
    next =>
      refine h.of_delete (fun _ _ hp => hp) ?_ ?_
      · intro x found hfound
        rw [Ets.deleteKey, lookupKey_erase] at hfound
        split at hfound
        · cases hfound
        · exact hfound
      · rintro x found hfound row k hk hsame - ⟨k', hk', hmatch⟩
        rw [hk] at hk'
        cases hk'
        rw [Ets.deleteKey, lookupKey_erase, if_pos (by rw [exactEq_left hmatch, hsame])] at hfound
        cases hfound
    next => exact h
  | deleteObject p tuple =>
    rw [BagSystem.step]
    split
    next key hp hkey =>
      have hlookup := lookupKey_retainOthers s.storage key tuple
      have hkept : ∀ x, ∀ found ∈ lookupKey (retainOthers s.storage key tuple).2 x,
          found ∈ lookupKey s.storage x := by
        intro x found hfound
        rw [hlookup x] at hfound
        split at hfound
        · exact List.mem_of_mem_filter hfound
        · exact hfound
      split
      next storage hretain =>
        rw [hretain] at hkept
        refine ⟨?_, fun x found hfound => h.rows x found (hkept x found hfound)⟩
        intro q key' tuple' hq
        dsimp only at hq
        by_cases hpq : q = p
        · rw [hpq, Function.update_self] at hq
          cases hq
          exact hkey
        · rw [Function.update_of_ne hpq] at hq
          exact h.pending q key' tuple' hq
      next storage hretain =>
        rw [hretain] at hkept hlookup
        refine h.of_delete (fun _ _ hp => hp) hkept ?_
        intro x found hfound row k hk hsame heq hmatch
        rw [hlookup x, if_pos (by rw [exactEq_left (exactEq_key hmatch hkey hk), hsame])] at hfound
        have hother := (List.mem_filter.mp hfound).2
        rw [exactEq_left heq, exactEq_comm, hmatch] at hother
        cases hother
    next hkey =>
      refine h.of_delete (fun _ _ hp => hp) (fun _ _ hfound => hfound) ?_
      intro x found hfound row k hk hsame heq hmatch
      rw [Completion.Matches, exactEq_comm] at hmatch
      obtain ⟨k', hk', -⟩ := exactEq_tupleKey hmatch hk
      rw [hkey] at hk'
      cases hk'
    next => exact h
  | removeBucket p =>
    rw [BagSystem.step]
    split
    next key tuple hp =>
      refine h.of_delete ?_ ?_ ?_
      · intro q x hq
        by_cases hpq : q = p
        · rw [hpq, Function.update_self] at hq
          cases hq
        · rwa [Function.update_of_ne hpq] at hq
      · intro x found hfound
        rw [lookupKey_erase] at hfound
        split at hfound
        · cases hfound
        · exact hfound
      · intro x found hfound row k hk hsame heq hmatch
        have hkeys := exactEq_key hmatch (h.pending p key tuple hp) hk
        rw [lookupKey_erase, if_pos (by rw [exactEq_left hkeys, hsame])] at hfound
        cases hfound
    next => exact h

omit [DecidableEq P] in
/-- A delete that takes only rows it is for. -/
theorem KeepsInserts.of_delete {keypos : ℕ} {s : BagSystem P} (h : s.KeepsInserts keypos)
    {storage : BagStorage} {c : Completion}
    (hc : ∀ row, c ≠ .inserted row)
    (hkept : ∀ x row key, tupleKey keypos row = .ok key → exactEq key x = true →
      ¬ c.Matches keypos row → ∀ found ∈ lookupKey s.storage x, exactEq found row = true →
        found ∈ lookupKey storage x) :
    KeepsInserts keypos ⟨storage, s.pending, c :: s.log⟩ := by
  rintro row ⟨hinserted, hpending⟩
  rcases inserted_cons.mp hinserted with hinsert | ⟨hother, hinserted⟩
  · exact absurd hinsert (hc row)
  · obtain ⟨key, hkey, found, hfound, heq⟩ := h row ⟨hinserted, hpending⟩
    exact ⟨key, hkey, found,
      hkept key row key hkey (exactEq_refl key) hother found hfound heq, heq⟩

/-- Only the removal of a bucket can lose a row. -/
theorem KeepsInserts.step {keypos : ℕ} {s : BagSystem P} (h : s.KeepsInserts keypos)
    (dup : Bool) (a : BagStep P) (ha : s.RemovesOwn a) :
    (s.step keypos dup a).KeepsInserts keypos := by
  cases a with
  | insert p tuple =>
    rw [BagSystem.step]
    split
    next key _ hkey =>
      split
      next storage hinsert =>
        obtain ⟨-, hlookup⟩ := insertBagTuple_eq_ok hinsert
        rintro row ⟨hinserted, hpending⟩
        rcases inserted_cons.mp hinserted with hnew | ⟨-, hold⟩
        · cases hnew
          refine ⟨key, hkey, ?_⟩
          dsimp only
          rw [hlookup key]
          split
          next =>
            refine ⟨inlined tuple, by simp, ?_⟩
            rw [exactEq_inlined_left, exactEq_refl]
          next hthere =>
            -- Duplicates are suppressed and an equal row is there.
            simp only [exactEq_refl, true_and, not_or, not_forall, Bool.not_eq_false] at hthere
            obtain ⟨-, found, hfound, heq⟩ := hthere
            exact ⟨found, hfound, heq⟩
        · obtain ⟨k, hk, found, hfound, heq⟩ := h row ⟨hold, hpending⟩
          refine ⟨k, hk, found, ?_, heq⟩
          dsimp only
          rw [hlookup k]
          split
          · exact List.mem_append_left _ hfound
          · exact hfound
      next => exact h
    next => exact h
  | deleteKey p key =>
    rw [BagSystem.step]
    split
    next =>
      refine h.of_delete nofun ?_
      intro x row k hk hsame hother found hfound _
      have hne : exactEq key x ≠ true := by
        intro hx
        exact hother ⟨k, hk, by rw [exactEq_right hsame, hx]⟩
      rwa [Ets.deleteKey, lookupKey_erase, if_neg hne]
    next => exact h
  | deleteObject p tuple =>
    rw [BagSystem.step]
    split
    next key hp hkey =>
      have hlookup := lookupKey_retainOthers s.storage key tuple
      have hkept : ∀ x row found, found ∈ lookupKey s.storage x → exactEq found row = true →
          exactEq tuple row ≠ true → found ∈ lookupKey (retainOthers s.storage key tuple).2 x := by
        intro x row found hfound heq hother
        rw [hlookup x]
        split
        · refine List.mem_filter.mpr ⟨hfound, ?_⟩
          rw [exactEq_left heq, exactEq_comm]
          simpa using hother
        · exact hfound
      split
      next storage hretain =>
        rw [hretain] at hkept
        rintro row ⟨hinserted, hpending⟩
        have hother : exactEq tuple row = false :=
          hpending p key tuple (by dsimp only; rw [Function.update_self])
        have hstanding : s.Standing keypos row := by
          refine ⟨hinserted, fun q key' tuple' hq => ?_⟩
          have hqp : q ≠ p := by
            rintro rfl
            rw [hp] at hq
            cases hq
          exact hpending q key' tuple' (by dsimp only; rwa [Function.update_of_ne hqp])
        obtain ⟨k, hk, found, hfound, heq⟩ := h row hstanding
        exact ⟨k, hk, found, hkept k row found hfound heq (by simp [hother]), heq⟩
      next storage hretain =>
        rw [hretain] at hkept
        refine h.of_delete nofun ?_
        intro x row k _ _ hother found hfound heq
        exact hkept x row found hfound heq hother
    next => exact h.of_delete nofun fun _ _ _ _ _ _ _ hfound _ => hfound
    next => exact h
  | removeBucket p =>
    rw [BagSystem.step]
    split
    next key tuple hp =>
      rintro row ⟨hinserted, hpending⟩
      rcases inserted_cons.mp hinserted with hnew | ⟨hother, hold⟩
      · cases hnew
      · have hothers : ∀ q key' tuple', s.pending q = some (key', tuple') →
            exactEq tuple' row = false := by
          intro q key' tuple' hq
          by_cases hqp : q = p
          · rw [hqp, hp] at hq
            cases hq
            simpa [Completion.Matches] using hother
          · exact hpending q key' tuple' (by dsimp only; rwa [Function.update_of_ne hqp])
        obtain ⟨k, hk, found, hfound, heq⟩ := h row ⟨hold, hothers⟩
        refine ⟨k, hk, found, ?_, heq⟩
        dsimp only
        rw [lookupKey_erase]
        split
        next hsame =>
          rw [← lookupKey_congr hsame] at hfound
          obtain ⟨q, key', tuple', hq, hmatch⟩ := ha key tuple hp found hfound
          rw [exactEq_right heq, hothers q key' tuple' hq] at hmatch
          cases hmatch
        next => exact hfound
    next => exact h

/-- A bucket removed with a row of no delete under way is an insert lost. -/
theorem Accounted.removesOwn {keypos : ℕ} {s : BagSystem P} (h : s.Accounted keypos) {dup : Bool}
    {a : BagStep P} (hkeeps : (s.step keypos dup a).KeepsInserts keypos) : s.RemovesOwn a := by
  cases a with
  | removeBucket p =>
    intro key tuple hp found hfound
    by_contra hnone
    push Not at hnone
    obtain ⟨row, k, hk, hsame, heq, hinserted⟩ := h.rows key found hfound
    have hother : ∀ q key' tuple', s.pending q = some (key', tuple') →
        exactEq tuple' row = false := by
      intro q key' tuple' hq
      rw [← exactEq_right heq]
      simpa using hnone q key' tuple' hq
    rw [BagSystem.step, hp] at hkeeps
    have hpending : ∀ q key' tuple',
        Function.update s.pending p none q = some (key', tuple') → exactEq tuple' row = false := by
      intro q key' tuple' hq
      by_cases hqp : q = p
      · rw [hqp, Function.update_self] at hq
        cases hq
      · rw [Function.update_of_ne hqp] at hq
        exact hother q key' tuple' hq
    have hafter : Inserted keypos (.deletedObject tuple :: s.log) row :=
      inserted_cons.mpr (.inr ⟨by simp [Completion.Matches, hother p key tuple hp], hinserted⟩)
    obtain ⟨k', hk', found', hfound', -⟩ := hkeeps row ⟨hafter, hpending⟩
    rw [hk] at hk'
    cases hk'
    rw [lookupKey_erase, if_pos (by rwa [exactEq_comm])] at hfound'
    cases hfound'
  | _ => trivial

/-- Whatever the processes do, no insert is lost exactly when every bucket that is removed holds
only rows of deletes under way. -/
theorem run_keepsInserts_iff (P : Type) [DecidableEq P] (keypos : ℕ) (allowDuplicates : Bool)
    (steps : List (BagStep P)) :
    (∀ n, KeepsInserts keypos ((steps.take n).foldl (step keypos allowDuplicates) start)) ↔
      Runs.Meets (step keypos allowDuplicates) RemovesOwn start steps := by
  have hstart : Accounted keypos (start : BagSystem P) := ⟨nofun, nofun⟩
  have haccounted : ∀ n,
      Accounted keypos ((steps.take n).foldl (step keypos allowDuplicates) start) := fun n =>
    List.foldlRecOn (motive := fun s : BagSystem P => s.Accounted keypos) _ _ hstart
      fun s hs a _ => hs.step allowDuplicates a
  have hkeeps : KeepsInserts keypos (start : BagSystem P) := by
    rintro row ⟨⟨newer, older, hlog, -⟩, -⟩
    simp [start] at hlog
  have hrun := @Runs.forall_take_iff _ _ (step keypos allowDuplicates) RemovesOwn
    (fun s : BagSystem P => s.KeepsInserts keypos ∧ s.Accounted keypos)
    (fun s a hs => ⟨fun hnext => hs.2.removesOwn hnext.1,
      fun ha => ⟨hs.1.step allowDuplicates a ha, hs.2.step allowDuplicates a⟩⟩)
    start ⟨hkeeps, hstart⟩ steps
  rw [← hrun]
  exact forall_congr' fun n => ⟨fun h => ⟨h, haccounted n⟩, And.left⟩

/-- An insert between the two steps of another process's `delete_object` is lost with the bucket. -/
theorem not_run_keepsInserts : ¬ ∀ (steps : List (BagStep Bool)),
    KeepsInserts 1 (steps.foldl (step 1 false) start) := by
  intro hall
  let first : Value := .tuple [.atom 7, .atom 8]
  let second : Value := .tuple [.atom 7, .atom 9]
  have hend : [.insert true first, .deleteObject false first, .insert true second,
      .removeBucket false].foldl (step 1 false) (start : BagSystem Bool) =
      ⟨[], fun _ => none, [.deletedObject first, .inserted second, .inserted first]⟩ := by
    have hupdate : Function.update (Function.update (fun _ : Bool => none) false
        (some (Value.atom 7, first))) false none = fun _ => none := by
      funext q
      cases q <;> rfl
    rw [← hupdate]
    rfl
  have hkeeps := hall [.insert true first, .deleteObject false first, .insert true second,
    .removeBucket false]
  rw [hend] at hkeeps
  obtain ⟨key, -, found, hfound, -⟩ := hkeeps second ⟨inserted_cons.mpr (.inr ⟨by
    simp [Completion.Matches, first, second]; decide +kernel, inserted_cons.mpr (.inl rfl)⟩), nofun⟩
  cases hfound

end BagSystem

end Beamr.Ets
