import Beamr.Ets.Tables

/-!
# What tables are

A table is a map from keys to the rows under them. The abstract model is that map and the four ways
in which an insert changes the rows of its key; the tables of `Ets.Tables` are compared with it
over whole runs.
-/
namespace Beamr.Ets

open Term Comparison Entries SortedEntries

/-! ## The abstract model -/

/-- The rows under each key. -/
abbrev Contents := Value → List Value

/-- Which keys are one key. -/
def TableType.same (atoms : AtomTable) : TableType → Value → Value → Bool
  | .orderedSet => tied (cmp atoms)
  | _ => exactEq

/-- What an insert leaves under its key: the row alone, the row unless it is there, or the row with
all the others. -/
def TableType.added (row : Value) (rows : List Value) : TableType → List Value
  | .set => [row]
  | .orderedSet => [row]
  | .bag => if rows.any fun r => exactEq r row then rows else rows ++ [row]
  | .duplicateBag => rows ++ [row]

def Contents.update (c : Contents) (same : Value → Value → Bool) (key : Value)
    (rows : List Value) : Contents := fun k => if same key k then rows else c k

inductive Update
  | insert (tuple : Value)
  | deleteKey (key : Value)
  | deleteObject (tuple : Value)

inductive Reply
  | inserted | refused (e : EtsError) | deleted (any : Bool)
  deriving DecidableEq

section Steps

variable (kind : TableType) (atoms : AtomTable) (keypos : ℕ)

/-- The abstract step. -/
def Contents.step (c : Contents) : Update → Reply × Contents
  | .insert tuple =>
    match tupleKey keypos tuple with
    | .error e => (.refused e, c)
    | .ok key => (.inserted, c.update (kind.same atoms) key (kind.added tuple (c key)))
  | .deleteKey key => (.deleted !(c key).isEmpty, c.update (kind.same atoms) key [])
  | .deleteObject tuple =>
    match tupleKey keypos tuple with
    | .error _ => (.deleted false, c)
    | .ok key => (.deleted ((c key).any fun r => exactEq r tuple),
        c.update (kind.same atoms) key ((c key).filter fun r => !exactEq r tuple))

/-- The step of a table. -/
def Table.step (t : Table) : Update → Reply × Table
  | .insert tuple =>
    match t.insert atoms keypos tuple with
    | .ok t => (.inserted, t)
    | .error e => (.refused e, t)
  | .deleteKey key => (t.deleteKey atoms key).map .deleted id
  | .deleteObject tuple => (t.deleteObject atoms keypos tuple).map .deleted id

end Steps

/-- The replies so far, the last first, and where a run has come to. -/
def logged {S : Type} (step : S → Update → Reply × S) (state : List Reply × S) (u : Update) :
    List Reply × S := ((step state.2 u).1 :: state.1, (step state.2 u).2)

/-! ## Rows that are copies -/

/-- The rows agree one by one. -/
def Agree (rows rows' : List Value) : Prop :=
  List.Forall₂ (fun r r' => exactEq r r' = true) rows rows'

theorem Agree.any {rows rows' : List Value} (h : Agree rows rows') (row : Value) :
    (rows.any fun r => exactEq r row) = rows'.any fun r => exactEq r row := by
  induction h with
  | nil => rfl
  | cons hr _ ih => rw [List.any_cons, List.any_cons, exactEq_left hr, ih]

theorem Agree.filter {rows rows' : List Value} (h : Agree rows rows') (row : Value) :
    Agree (rows.filter fun r => !exactEq r row) (rows'.filter fun r => !exactEq r row) := by
  induction h with
  | nil => exact .nil
  | cons hr _ ih =>
    rw [List.filter_cons, List.filter_cons, exactEq_left hr]
    split
    · exact .cons hr ih
    · exact ih

theorem Agree.isEmpty {rows rows' : List Value} (h : Agree rows rows') :
    rows.isEmpty = rows'.isEmpty := by
  cases h <;> rfl

theorem agree_inlined (row : Value) : Agree [inlined row] [row] := by
  refine .cons ?_ .nil
  rw [exactEq_inlined_left, exactEq_refl]

/-! ## How a table holds its contents -/

/-- How a kind of table is read: the rows of an entry, the key test, the keys on which it is one,
and what the key of a row has to do with the key of its entry. -/
structure View (V : Type) where
  rowsOf : V → List Value
  same : Value → Value → Bool
  domain : Set Value
  keyed : Value → Value → Prop
  sameOn : SameOn domain same

namespace View

variable {V : Type} (view : View V) (keypos : ℕ)

/-- The rows found under a key. -/
def rows (entries : List (Value × V)) (key : Value) : List Value :=
  ((get view.same entries key).map view.rowsOf).getD []

/-- An entry has rows, and their keys are copies that belong to it. -/
structure Filled (e : Value × V) : Prop where
  rows : view.rowsOf e.2 ≠ []
  keys : ∀ row ∈ view.rowsOf e.2, ∃ k, tupleKey keypos row = .ok k ∧ copyTerm k = .ok k ∧
    view.keyed k e.1

structure Represents (entries : List (Value × V)) (c : Contents) : Prop where
  keysIn : Over view.domain entries
  distinct : Distinct view.same entries
  filled : ∀ e ∈ entries, view.Filled keypos e
  holds : ∀ k ∈ view.domain, Agree (view.rows entries k) (c k)

variable {view keypos} {entries entries' : List (Value × V)} {c : Contents} {key : Value}

/-- A change at one key, described by what is found afterwards. -/
theorem Represents.of_get (h : view.Represents keypos entries c) (new : Option V)
    {rows : List Value} (hover : Over view.domain entries')
    (hdistinct : Distinct view.same entries')
    (hfilled : ∀ e ∈ entries', e ∈ entries ∨ view.Filled keypos e)
    (hget : ∀ k ∈ view.domain, get view.same entries' k =
      if view.same key k then new else get view.same entries k)
    (hrows : Agree ((new.map view.rowsOf).getD []) rows) :
    view.Represents keypos entries' (c.update view.same key rows) := by
  refine ⟨hover, hdistinct, fun e he => (hfilled e he).elim (h.filled e) id, fun k hk => ?_⟩
  rw [View.rows, hget k hk, Contents.update]
  split
  · exact hrows
  · exact h.holds k hk

theorem Represents.put (h : view.Represents keypos entries c) (hkey : key ∈ view.domain) {v : V}
    (hfilled : view.Filled keypos (key, v)) {rows : List Value}
    (hrows : Agree (view.rowsOf v) rows) :
    view.Represents keypos (put view.same key v entries) (c.update view.same key rows) := by
  refine h.of_get (some v) (h.keysIn.put hkey v) (h.distinct.put view.sameOn h.keysIn hkey v) ?_
    (fun k hk => get_put view.sameOn h.keysIn hkey hk v) hrows
  intro e he
  rcases mem_put _ he with rfl | he
  · exact .inr hfilled
  · exact .inl he

theorem Represents.erase (h : view.Represents keypos entries c) (hkey : key ∈ view.domain) :
    view.Represents keypos (erase view.same key entries) (c.update view.same key []) := by
  refine h.of_get none h.keysIn.erase h.distinct.erase ?_
    (fun k hk => get_erase view.sameOn h.keysIn hkey hk) .nil
  intro e he
  exact .inl (List.mem_filter.mp he).1

/-- Nothing changes when the rows stay the same. -/
theorem Represents.same_rows (h : view.Represents keypos entries c) (hkey : key ∈ view.domain)
    {rows : List Value} (hrows : Agree (view.rows entries key) rows) :
    view.Represents keypos entries (c.update view.same key rows) := by
  refine h.of_get (get view.same entries key) h.keysIn h.distinct (fun e he => .inl he) ?_ hrows
  intro k hk
  split
  next hsame => exact (get_congr view.sameOn h.keysIn hkey hk hsame).symm
  next => rfl

theorem Represents.isSome_get (h : view.Represents keypos entries c) (hkey : key ∈ view.domain) :
    (get view.same entries key).isSome = !(c key).isEmpty := by
  rw [← (h.holds key hkey).isEmpty, View.rows]
  rcases hget : get view.same entries key with _ | v
  · rfl
  · obtain ⟨e, he, -, rfl⟩ := exists_of_get hget
    simpa using (h.filled e he).rows

/-- There are rows under a key exactly when it has an entry. -/
theorem Represents.ne_nil_iff (h : view.Represents keypos entries c) (hkey : key ∈ view.domain) :
    c key ≠ [] ↔ ∃ e ∈ entries, view.same e.1 key = true := by
  have hsome : c key ≠ [] ↔ (get view.same entries key).isSome = true := by
    rw [h.isSome_get hkey]
    simp
  rw [hsome, Option.isSome_iff_exists]
  constructor
  · rintro ⟨v, hv⟩
    obtain ⟨e, he, hsame, -⟩ := exists_of_get hv
    exact ⟨e, he, hsame⟩
  · rintro ⟨e, he, hsame⟩
    exact ⟨e.2, get_of_mem view.sameOn h.keysIn h.distinct hkey he hsame⟩

theorem Represents.deleteKey (h : view.Represents keypos entries c) (hkey : key ∈ view.domain) :
    (get view.same entries key).isSome = !(c key).isEmpty ∧
      view.Represents keypos (Entries.erase view.same key entries) (c.update view.same key []) :=
  ⟨h.isSome_get hkey, h.erase hkey⟩

/-- Where an entry is one row, deleting the row is deleting the key if the row is there. -/
theorem Represents.deleteObject {view : View Value} {entries : List (Value × Value)}
    (hrows : ∀ row, view.rowsOf row = [row]) (h : view.Represents keypos entries c)
    (hkey : key ∈ view.domain) (tuple : Value) {result : Bool × List (Value × Value)}
    (hresult : result = if (get view.same entries key).any fun value => exactEq value tuple then
      (true, Entries.erase view.same key entries) else (false, entries)) :
    result.1 = ((c key).any fun r => exactEq r tuple) ∧ view.Represents keypos result.2
      (c.update view.same key ((c key).filter fun r => !exactEq r tuple)) := by
  have hlookup : view.rows entries key = (get view.same entries key).toList := by
    rw [View.rows]
    cases get view.same entries key with
    | none => rfl
    | some v => exact hrows v
  have hany := (h.holds key hkey).any tuple
  have hfilter := (h.holds key hkey).filter tuple
  rw [hlookup] at hany hfilter
  rcases hget : get view.same entries key with _ | v
  · rw [hget] at hany hfilter hlookup hresult
    rw [hresult]
    exact ⟨hany, h.same_rows hkey (hlookup ▸ hfilter)⟩
  · rw [hget] at hany hfilter hlookup hresult
    by_cases heq : exactEq v tuple = true
    · have hnone : ((c key).filter fun r => !exactEq r tuple) = [] := by
        simpa [heq, Agree] using hfilter
      rw [if_pos (by simpa using heq)] at hresult
      rw [hresult, hnone, ← hany]
      exact ⟨by simp [heq], h.erase hkey⟩
    · have hkept : [v].filter (fun r => !exactEq r tuple) = [v] := by simp [heq]
      rw [if_neg (by simpa using heq)] at hresult
      rw [hresult, ← hany]
      refine ⟨by simp [heq], h.same_rows hkey ?_⟩
      rw [hlookup]
      rw [Option.toList_some, hkept] at hfilter
      exact hfilter

end View

section Views

variable {atoms : AtomTable} {s : Set Value} {keypos : ℕ} {c : Contents} {key tuple : Value}

theorem sameKey_eq_exactEq : sameKey = exactEq := funext₂ sameKey_eq

theorem exactEq_sameOn : SameOn Set.univ exactEq := sameKey_eq_exactEq ▸ sameKey_sameOn

/-- Terms whose copies are copies of terms of `s`. -/
def CopiesOf (s : Set Value) : Set Value := {v | ∃ u ∈ s, inlined v = inlined u}

theorem subset_copiesOf (s : Set Value) : s ⊆ CopiesOf s := fun v hv => ⟨v, hv, rfl⟩

theorem inlined_mem_copiesOf (hkey : key ∈ s) : inlined key ∈ CopiesOf s :=
  ⟨key, hkey, inlined_inlined key⟩

theorem copiesOf_preorderOn (hs : PreorderOn s (cmp atoms)) :
    PreorderOn (CopiesOf s) (cmp atoms) := by
  have hcmp : ∀ {a b u w : Value}, inlined a = inlined u → inlined b = inlined w →
      cmp atoms a b = cmp atoms u w := by
    intro a b u w hau hbw
    rw [← cmp_inlined_inlined (cmp_isTermOrder atoms) a b, hau, hbw,
      cmp_inlined_inlined (cmp_isTermOrder atoms)]
  refine ⟨?_, ?_⟩
  · rintro a ⟨u, hu, hau⟩ b ⟨w, hw, hbw⟩
    rw [hcmp hau hbw, hcmp hbw hau]
    exact hs.swap u hu w hw
  · rintro a ⟨u, hu, hau⟩ b ⟨w, hw, hbw⟩ d ⟨x, hx, hdx⟩
    rw [hcmp hau hbw, hcmp hbw hdx, hcmp hau hdx]
    exact hs.trans u hu w hw x hx

def setView : View Value where
  rowsOf row := [row]
  same := exactEq
  domain := Set.univ
  keyed k key := exactEq k key = true
  sameOn := exactEq_sameOn

def orderedView (hs : PreorderOn s (cmp atoms)) : View Value where
  rowsOf row := [row]
  same := tied (cmp atoms)
  domain := CopiesOf s
  keyed k key := k = key
  sameOn := tied_sameOn (copiesOf_preorderOn hs)

def bagView : View (List Value) where
  rowsOf rows := rows
  same := exactEq
  domain := Set.univ
  keyed k key := exactEq k key = true
  sameOn := exactEq_sameOn

theorem update_inlined_exactEq (c : Contents) (key : Value) (rows : List Value) :
    c.update exactEq (inlined key) rows = c.update exactEq key rows := by
  funext k
  rw [Contents.update, Contents.update, exactEq_inlined_left]

theorem update_inlined_tied (c : Contents) (key : Value) (rows : List Value) :
    c.update (tied (cmp atoms)) (inlined key) rows = c.update (tied (cmp atoms)) key rows := by
  funext k
  rw [Contents.update, Contents.update, tied, tied, cmp_inlined_left (cmp_isTermOrder atoms)]

theorem copyTerm_storable (h : Storable tuple) : copyTerm tuple = .ok (inlined tuple) :=
  (copyTerm_eq_ok _ _).mpr ⟨h, rfl⟩

theorem tupleKey_copy (hkey : tupleKey keypos tuple = .ok key) :
    tupleKey keypos (inlined tuple) = .ok (inlined key) := by
  rw [tupleKey_inlined, hkey]
  rfl

theorem filled_copy {view : View Value} (hrows : ∀ row, view.rowsOf row = [row])
    (hkeyed : view.keyed (inlined key) (inlined key)) (hkey : tupleKey keypos tuple = .ok key)
    (hstorable : Storable tuple) : view.Filled keypos (inlined key, inlined tuple) := by
  refine ⟨by simp [hrows], ?_⟩
  intro row hrow
  rw [hrows, List.mem_singleton] at hrow
  rw [hrow]
  exact ⟨inlined key, tupleKey_copy hkey, copyTerm_inlined (hstorable.tupleKey hkey), hkeyed⟩

end Views

/-! ## Steps of a set -/

namespace EtsSet

variable {keypos : ℕ} {entries : List (Value × Value)} {c : Contents} {key tuple : Value}

theorem lookup_eq (entries : List (Value × Value)) (key : Value) :
    lookup entries key = setView.rows entries key := by
  rw [lookup, View.rows, sameKey_eq_exactEq]
  show (get exactEq entries key).toList = ((get exactEq entries key).map fun row => [row]).getD []
  cases get exactEq entries key <;> rfl

theorem insert_represents (h : setView.Represents keypos entries c)
    (hkey : tupleKey keypos tuple = .ok key) (hstorable : Storable tuple) :
    ∃ entries', insert keypos entries tuple = .ok entries' ∧
      setView.Represents keypos entries' (c.update exactEq key [tuple]) := by
  refine ⟨put exactEq (inlined key) (inlined tuple) entries, ?_, ?_⟩
  · simp only [insert, hkey, copyTerm_storable hstorable,
      copyTerm_storable (hstorable.tupleKey hkey), sameKey_eq_exactEq, bind, Except.bind]
  · rw [← update_inlined_exactEq]
    exact h.put trivial (filled_copy (fun _ => rfl) (exactEq_refl _) hkey hstorable)
      (agree_inlined tuple)

theorem deleteKey_represents (h : setView.Represents keypos entries c) (key : Value) :
    (deleteKey entries key).1 = !(c key).isEmpty ∧
      setView.Represents keypos (deleteKey entries key).2 (c.update exactEq key []) := by
  rw [deleteKey, sameKey_eq_exactEq]
  exact h.deleteKey trivial

theorem deleteObject_represents (h : setView.Represents keypos entries c)
    (hkey : tupleKey keypos tuple = .ok key) :
    (deleteObject keypos entries tuple).1 = ((c key).any fun r => exactEq r tuple) ∧
      setView.Represents keypos (deleteObject keypos entries tuple).2
        (c.update exactEq key ((c key).filter fun r => !exactEq r tuple)) := by
  refine h.deleteObject (fun _ => rfl) (show key ∈ setView.domain from trivial) tuple ?_
  rw [deleteObject, hkey, sameKey_eq_exactEq]
  rfl

end EtsSet

/-! ## Steps of an ordered set -/

namespace EtsOrderedSet

variable {atoms : AtomTable} {s : Set Value} {hs : PreorderOn s (cmp atoms)} {keypos : ℕ}
  {rows : List (Value × Value)} {c : Contents} {key tuple : Value}

/-- The rows stand for the contents, in the order of their keys. -/
structure Represents (hs : PreorderOn s (cmp atoms)) (keypos : ℕ) (rows : List (Value × Value))
    (c : Contents) : Prop where
  view : (orderedView hs).Represents keypos rows c
  sorted : Sorted (cmp atoms) rows

theorem lookup_eq (hs : PreorderOn s (cmp atoms)) (rows : List (Value × Value)) (key : Value) :
    lookup atoms rows key = (orderedView hs).rows rows key := by
  rw [lookup, View.rows]
  show (get _ rows key).toList = ((get (tied (cmp atoms)) rows key).map fun row => [row]).getD []
  cases get (tied (cmp atoms)) rows key <;> rfl

/-- Erasing first makes room for the new key. -/
theorem place_erase_represents (h : Represents hs keypos rows c)
    (hkey : key ∈ CopiesOf s) {row : Value} (hfilled : (orderedView hs).Filled keypos (key, row))
    {new : List Value} (hrows : Agree [row] new) :
    Represents hs keypos (place (cmp atoms) key row (erase (tied (cmp atoms)) key rows))
      (c.update (tied (cmp atoms)) key new) := by
  have hpre := copiesOf_preorderOn hs
  have hover : Over (CopiesOf s) (erase (tied (cmp atoms)) key rows) := h.view.keysIn.erase
  have hsorted : Sorted (cmp atoms) (erase (tied (cmp atoms)) key rows) := h.sorted.erase
  have hplaced : Sorted (cmp atoms)
      (place (cmp atoms) key row (erase (tied (cmp atoms)) key rows)) :=
    hsorted.place hpre hover hkey
  refine ⟨h.view.of_get (some row) (place_over hover hkey) hplaced.distinct ?_ ?_ hrows, hplaced⟩
  · intro e he
    rcases mem_place he with rfl | hold | ⟨x, hx, htie, -⟩
    · exact .inr hfilled
    · exact .inl (List.mem_filter.mp hold).1
    · obtain ⟨hin, hnot⟩ := List.mem_filter.mp hx
      have hback : cmp atoms x.1 key = .eq := by
        rw [hpre.swap key hkey x.1 (h.view.keysIn x hin), htie]
        rfl
      simp [tied, hback] at hnot
  · intro k hk
    have hgetErase := get_erase (orderedView hs).sameOn h.view.keysIn hkey hk
    show get (tied (cmp atoms)) _ k = if tied (cmp atoms) key k then some row else _
    rw [get_place hpre hsorted hover hkey hk]
    split
    next => rfl
    next hne => exact hgetErase.trans (if_neg hne)

theorem insert_represents (h : Represents hs keypos rows c)
    (hkey : tupleKey keypos tuple = .ok key) (hmem : key ∈ s) (hstorable : Storable tuple) :
    ∃ rows', insert atoms keypos rows tuple = .ok rows' ∧
      Represents hs keypos rows' (c.update (tied (cmp atoms)) key [tuple]) := by
  refine ⟨place (cmp atoms) (inlined key) (inlined tuple)
    (erase (tied (cmp atoms)) (inlined key) rows), ?_, ?_⟩
  · simp only [insert, hkey, copyTerm_storable hstorable,
      copyTerm_storable (hstorable.tupleKey hkey), bind, Except.bind]
  · rw [← update_inlined_tied]
    exact place_erase_represents h (inlined_mem_copiesOf hmem)
      (filled_copy (fun _ => rfl) rfl hkey hstorable) (agree_inlined tuple)

theorem deleteKey_represents (h : Represents hs keypos rows c) (hmem : key ∈ s) :
    (deleteKey atoms rows key).1 = !(c key).isEmpty ∧
      Represents hs keypos (deleteKey atoms rows key).2 (c.update (tied (cmp atoms)) key []) := by
  obtain ⟨hreply, hview⟩ := h.view.deleteKey (subset_copiesOf s hmem)
  exact ⟨hreply, hview, h.sorted.erase⟩

theorem deleteObject_represents (h : Represents hs keypos rows c)
    (hkey : tupleKey keypos tuple = .ok key) (hmem : key ∈ s) :
    (deleteObject atoms keypos rows tuple).1 = ((c key).any fun r => exactEq r tuple) ∧
      Represents hs keypos (deleteObject atoms keypos rows tuple).2
        (c.update (tied (cmp atoms)) key ((c key).filter fun r => !exactEq r tuple)) := by
  have hresult : deleteObject atoms keypos rows tuple =
      if (get (tied (cmp atoms)) rows key).any fun value => exactEq value tuple then
        (true, erase (tied (cmp atoms)) key rows) else (false, rows) := by
    rw [deleteObject, hkey]
  obtain ⟨hreply, hview⟩ :=
    h.view.deleteObject (fun _ => rfl) (subset_copiesOf s hmem) tuple hresult
  refine ⟨hreply, hview, ?_⟩
  rw [hresult]
  split
  · exact h.sorted.erase
  · exact h.sorted

end EtsOrderedSet

/-! ## Steps of a bag -/

section Bags

variable {keypos : ℕ} {storage : BagStorage} {c : Contents} {key tuple : Value}

theorem lookupKey_eq (storage : BagStorage) (key : Value) :
    lookupKey storage key = bagView.rows storage key := by
  rw [lookupKey, sameKey_eq_exactEq, View.rows]
  show _ = ((get exactEq storage key).map fun rows => rows).getD []
  rw [Option.map_id']

/-- Editing the bucket of a key. -/
theorem modify_represents (h : bagView.Represents keypos storage c) {values rows new : List Value}
    (hget : get exactEq storage key = some values) (hne : new ≠ [])
    (hkeys : ∀ row ∈ new, row ∈ values ∨
      ∃ k, tupleKey keypos row = .ok k ∧ copyTerm k = .ok k ∧ exactEq k key = true)
    (hrows : Agree new rows) {f : List Value → List Value} (hf : f values = new) :
    bagView.Represents keypos (modify exactEq key f storage) (c.update exactEq key rows) := by
  refine h.of_get (some new) (h.keysIn.modify f) (h.distinct.modify f) ?_ ?_ hrows
  · intro e he
    obtain ⟨x, hx, rfl⟩ := List.mem_map.mp he
    split
    next hsame =>
      have hvalues : x.2 = values := by
        have hfound := get_of_mem exactEq_sameOn (over_univ storage) h.distinct trivial hx hsame
        rw [hget] at hfound
        exact (Option.some.inj hfound).symm
      refine .inr ⟨?_, ?_⟩
      · rw [hvalues, hf]
        exact hne
      · rw [hvalues, hf]
        intro row hrow
        rcases hkeys row hrow with hold | ⟨k, hk, hcopy, heq⟩
        · exact (h.filled x hx).keys row (hvalues ▸ hold)
        · refine ⟨k, hk, hcopy, ?_⟩
          show exactEq k x.1 = true
          rw [exactEq_right hsame, heq]
    next => exact .inl hx
  · intro k hk
    show get exactEq _ k = if exactEq key k then some new else _
    rw [get_modify exactEq_sameOn (over_univ storage) trivial trivial]
    split
    next hsame =>
      rw [← get_congr exactEq_sameOn (over_univ storage) trivial trivial hsame, hget, ← hf]
      rfl
    next => rfl

theorem insertBagTuple_represents (h : bagView.Represents keypos storage c)
    (hkey : tupleKey keypos tuple = .ok key) (hstorable : Storable tuple) (dup : Bool) :
    ∃ storage', insertBagTuple storage key tuple dup = .ok storage' ∧
      bagView.Represents keypos storage' (c.update exactEq key
        (if dup || !(c key).any fun r => exactEq r tuple then c key ++ [tuple] else c key)) := by
  have hnew : ∃ k, tupleKey keypos (inlined tuple) = .ok k ∧ copyTerm k = .ok k ∧
      exactEq k (inlined key) = true :=
    ⟨inlined key, tupleKey_copy hkey, copyTerm_inlined (hstorable.tupleKey hkey), exactEq_refl _⟩
  have hholds : Agree (bagView.rows storage (inlined key)) (c key) := by
    have hsame := get_congr exactEq_sameOn (over_univ storage) trivial trivial
      (show exactEq (inlined key) key = true by rw [exactEq_inlined_left, exactEq_refl])
    have hkeyHolds := h.holds key trivial
    rw [View.rows] at hkeyHolds ⊢
    rwa [show get bagView.same storage (inlined key) = get bagView.same storage key from hsame]
  rw [insertBagTuple, copyTerm_storable hstorable, copyTerm_storable (hstorable.tupleKey hkey),
    sameKey_eq_exactEq, ← update_inlined_exactEq]
  simp only [bind, Except.bind]
  rcases hget : get exactEq storage (inlined key) with _ | values
  · rw [View.rows, show get bagView.same storage (inlined key) = none from hget] at hholds
    have hempty : c key = [] := List.forall₂_nil_left_iff.mp hholds
    refine ⟨_, rfl, ?_⟩
    rw [hempty, List.any_nil, Bool.not_false, Bool.or_true, if_pos rfl, List.nil_append]
    refine h.put trivial ⟨List.cons_ne_nil _ _, ?_⟩ (agree_inlined tuple)
    intro row hrow
    rw [List.mem_singleton.mp hrow]
    exact hnew
  · have hvalues : bagView.rows storage (inlined key) = values := by
      rw [View.rows, show get bagView.same storage (inlined key) = some values from hget]
      rfl
    rw [hvalues] at hholds
    have hany : (values.any fun value => exactEq value (inlined tuple)) =
        (c key).any fun r => exactEq r tuple := by
      simp only [exactEq_inlined_right]
      exact hholds.any tuple
    simp only [hany]
    split
    · refine ⟨_, rfl, modify_represents h hget (by simp) ?_
        (List.rel_append hholds (agree_inlined tuple)) rfl⟩
      intro row hrow
      rcases List.mem_append.mp hrow with hold | hnew'
      · exact .inl hold
      · rw [List.mem_singleton.mp hnew']
        exact .inr hnew
    · exact ⟨_, rfl, h.same_rows trivial (hvalues.symm ▸ hholds)⟩

theorem deleteKey_represents (h : bagView.Represents keypos storage c) (key : Value) :
    (deleteKey storage key).1 = !(c key).isEmpty ∧
      bagView.Represents keypos (deleteKey storage key).2 (c.update exactEq key []) := by
  rw [deleteKey, sameKey_eq_exactEq]
  exact h.deleteKey trivial

theorem deleteObject_represents (h : bagView.Represents keypos storage c)
    (hkey : tupleKey keypos tuple = .ok key) :
    (deleteObject storage tuple keypos).1 = ((c key).any fun r => exactEq r tuple) ∧
      bagView.Represents keypos (deleteObject storage tuple keypos).2
        (c.update exactEq key ((c key).filter fun r => !exactEq r tuple)) := by
  have hlookup := lookupKey_eq storage key
  have hholds := h.holds key trivial
  rw [← hlookup, lookupKey, sameKey_eq_exactEq] at hholds
  have hany := hholds.any tuple
  have hfilter := hholds.filter tuple
  simp only [deleteObject, hkey, retainOthers, sameKey_eq_exactEq]
  rcases hget : get exactEq storage key with _ | values
  · rw [hget] at hany hfilter
    refine ⟨hany, h.same_rows trivial ?_⟩
    rwa [← hlookup, lookupKey, sameKey_eq_exactEq, hget]
  rw [hget, Option.getD_some] at hany hfilter
  have hdeleted : ((values.filter fun value => !exactEq value tuple).length != values.length) =
      (c key).any fun r => exactEq r tuple := by
    rw [← hany, Bool.eq_iff_iff, bne_iff_ne, ne_eq, List.length_filter_eq_length_iff]
    simp
  by_cases hempty : (values.filter fun value => !exactEq value tuple) = []
  · simp only [hempty, List.isEmpty_nil]
    rw [hempty] at hfilter hdeleted
    rw [List.forall₂_nil_left_iff.mp hfilter]
    refine ⟨hdeleted,
      h.of_get none (h.keysIn.modify _).erase (h.distinct.modify _).erase ?_ ?_ .nil⟩
    · intro e he
      obtain ⟨hmodified, hother⟩ := List.mem_filter.mp he
      obtain ⟨x, hx, rfl⟩ := List.mem_map.mp hmodified
      split at hother
      next hsame => simp [hsame] at hother
      next hsame =>
        rw [if_neg hsame]
        exact .inl hx
    · intro k hk
      show get exactEq _ k = if exactEq key k then none else _
      rw [get_erase exactEq_sameOn (over_univ _) trivial trivial,
        get_modify exactEq_sameOn (over_univ storage) trivial trivial]
      split
      next => rfl
      next => rfl
  · simp only [List.isEmpty_eq_false_iff.mpr hempty]
    refine ⟨hdeleted, modify_represents h hget hempty (fun row hrow => ?_) hfilter rfl⟩
    exact .inl (List.mem_filter.mp hrow).1

end Bags

/-! ## Steps of any table -/

/-- A row that has a key can be copied. -/
def Update.Storable (keypos : ℕ) : Update → Prop
  | .insert tuple => ∀ key, tupleKey keypos tuple = .ok key → Ets.Storable tuple
  | _ => True

/-- The key of the update is one of `s`. -/
def Update.KeyIn (keypos : ℕ) (s : Set Value) : Update → Prop
  | .insert tuple => ∀ key, tupleKey keypos tuple = .ok key → key ∈ s
  | .deleteKey key => key ∈ s
  | .deleteObject tuple => ∀ key, tupleKey keypos tuple = .ok key → key ∈ s

namespace Table

variable {atoms : AtomTable} {s : Set Value} {hs : PreorderOn s (cmp atoms)} {keypos : ℕ}
  {kind : TableType} {t : Table} {c : Contents}

/-- A table of the kind stands for the contents. -/
inductive Represents (hs : PreorderOn s (cmp atoms)) (keypos : ℕ) :
    TableType → Table → Contents → Prop
  | set {entries : List (Value × Value)} {c : Contents}
      (h : setView.Represents keypos entries c) : Represents hs keypos .set (.set entries) c
  | orderedSet {rows : List (Value × Value)} {c : Contents}
      (h : EtsOrderedSet.Represents hs keypos rows c) :
      Represents hs keypos .orderedSet (.orderedSet rows) c
  | bag {storage : BagStorage} {c : Contents} (h : bagView.Represents keypos storage c) :
      Represents hs keypos .bag (.bag storage) c
  | duplicateBag {storage : BagStorage} {c : Contents}
      (h : bagView.Represents keypos storage c) :
      Represents hs keypos .duplicateBag (.duplicateBag storage) c

theorem new_represents (hs : PreorderOn s (cmp atoms)) (keypos : ℕ) (kind : TableType) :
    Represents hs keypos kind (new kind) fun _ => [] := by
  have hempty : ∀ {V : Type} (view : View V), view.Represents keypos [] fun _ => [] := fun view =>
    ⟨nofun, .nil, nofun, fun _ _ => .nil⟩
  cases kind with
  | set => exact .set (hempty setView)
  | orderedSet => exact .orderedSet ⟨hempty _, .nil⟩
  | bag => exact .bag (hempty bagView)
  | duplicateBag => exact .duplicateBag (hempty bagView)

theorem insert_represents (h : Represents hs keypos kind t c) {tuple key : Value}
    (hkey : tupleKey keypos tuple = .ok key) (hstorable : Storable tuple)
    (hmem : kind = .orderedSet → key ∈ s) :
    ∃ t', t.insert atoms keypos tuple = .ok t' ∧ Represents hs keypos kind t'
      (c.update (kind.same atoms) key (kind.added tuple (c key))) := by
  cases h with
  | set h =>
    obtain ⟨entries', hinsert, h'⟩ := EtsSet.insert_represents h hkey hstorable
    exact ⟨.set entries', by rw [insert, hinsert]; rfl, .set h'⟩
  | orderedSet h =>
    obtain ⟨rows', hinsert, h'⟩ := EtsOrderedSet.insert_represents h hkey (hmem rfl) hstorable
    exact ⟨.orderedSet rows', by rw [insert, hinsert]; rfl, .orderedSet h'⟩
  | bag h =>
    obtain ⟨storage', hinsert, h'⟩ := insertBagTuple_represents h hkey hstorable false
    have hrows : TableType.bag.added tuple (c key) =
        if false || !(c key).any fun r => exactEq r tuple then c key ++ [tuple] else c key := by
      rw [TableType.added]
      cases (c key).any fun r => exactEq r tuple <;> rfl
    rw [← hrows] at h'
    exact ⟨.bag storage', by rw [insert, hkey]; exact congrArg (bag <$> ·) hinsert, .bag h'⟩
  | duplicateBag h =>
    obtain ⟨storage', hinsert, h'⟩ := insertBagTuple_represents h hkey hstorable true
    refine ⟨.duplicateBag storage', ?_, .duplicateBag h'⟩
    rw [insert, hkey]
    exact congrArg (duplicateBag <$> ·) hinsert

theorem insert_refused {tuple : Value} {e : EtsError} (hkey : tupleKey keypos tuple = .error e) :
    t.insert atoms keypos tuple = .error e := by
  cases t with
  | set entries => rw [insert, EtsSet.insert, hkey]; rfl
  | orderedSet rows => rw [insert, EtsOrderedSet.insert, hkey]; rfl
  | bag storage => rw [insert, hkey]; rfl
  | duplicateBag storage => rw [insert, hkey]; rfl

theorem deleteKey_represents (h : Represents hs keypos kind t c) {key : Value}
    (hmem : kind = .orderedSet → key ∈ s) :
    (t.deleteKey atoms key).1 = !(c key).isEmpty ∧ Represents hs keypos kind
      (t.deleteKey atoms key).2 (c.update (kind.same atoms) key []) := by
  cases h with
  | set h => exact (EtsSet.deleteKey_represents h key).imp id .set
  | orderedSet h => exact (EtsOrderedSet.deleteKey_represents h (hmem rfl)).imp id .orderedSet
  | bag h => exact (Ets.deleteKey_represents h key).imp id .bag
  | duplicateBag h => exact (Ets.deleteKey_represents h key).imp id .duplicateBag

theorem deleteObject_represents (h : Represents hs keypos kind t c) {tuple key : Value}
    (hkey : tupleKey keypos tuple = .ok key) (hmem : kind = .orderedSet → key ∈ s) :
    (t.deleteObject atoms keypos tuple).1 = ((c key).any fun r => exactEq r tuple) ∧
      Represents hs keypos kind (t.deleteObject atoms keypos tuple).2
        (c.update (kind.same atoms) key ((c key).filter fun r => !exactEq r tuple)) := by
  cases h with
  | set h => exact (EtsSet.deleteObject_represents h hkey).imp id .set
  | orderedSet h =>
    exact (EtsOrderedSet.deleteObject_represents h hkey (hmem rfl)).imp id .orderedSet
  | bag h => exact (Ets.deleteObject_represents h hkey).imp id .bag
  | duplicateBag h => exact (Ets.deleteObject_represents h hkey).imp id .duplicateBag

theorem deleteObject_missing {tuple : Value} {e : EtsError}
    (hkey : tupleKey keypos tuple = .error e) : t.deleteObject atoms keypos tuple = (false, t) := by
  cases t with
  | set entries => rw [deleteObject, EtsSet.deleteObject, hkey]; rfl
  | orderedSet rows => rw [deleteObject, EtsOrderedSet.deleteObject, hkey]; rfl
  | bag storage => rw [deleteObject, Ets.deleteObject, hkey]; rfl
  | duplicateBag storage => rw [deleteObject, Ets.deleteObject, hkey]; rfl

/-- A table makes the abstract step, with the same reply. -/
theorem step_represents (h : Represents hs keypos kind t c) {u : Update}
    (hstorable : u.Storable keypos) (hmem : kind = .orderedSet → u.KeyIn keypos s) :
    (t.step atoms keypos u).1 = (c.step kind atoms keypos u).1 ∧
      Represents hs keypos kind (t.step atoms keypos u).2 (c.step kind atoms keypos u).2 := by
  cases u with
  | insert tuple =>
    rw [step, Contents.step]
    rcases hkey : tupleKey keypos tuple with e | key
    · rw [insert_refused hkey]
      exact ⟨rfl, h⟩
    · obtain ⟨t', hinsert, h'⟩ := insert_represents h hkey (hstorable key hkey)
        fun hkind => hmem hkind key hkey
      rw [hinsert]
      exact ⟨rfl, h'⟩
  | deleteKey key =>
    obtain ⟨hreply, h'⟩ := deleteKey_represents h hmem
    exact ⟨congrArg Reply.deleted hreply, h'⟩
  | deleteObject tuple =>
    rw [step, Contents.step]
    rcases hkey : tupleKey keypos tuple with e | key
    · rw [deleteObject_missing hkey]
      exact ⟨rfl, h⟩
    · obtain ⟨hreply, h'⟩ := deleteObject_represents h hkey fun hkind => hmem hkind key hkey
      exact ⟨congrArg Reply.deleted hreply, h'⟩

end Table

end Beamr.Ets
