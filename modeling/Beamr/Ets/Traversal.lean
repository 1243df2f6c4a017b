import Beamr.Ets.Semantics

/-!
# Walking a table

`first`, `next`, `last` and `prev` of a table and the keys of its contents. An ordered set is walked
in the order of its keys. The keys of a hash table are sorted for each call and ties are dropped,
so that a walk meets every key only when keys that tie are exactly equal.
-/
namespace Beamr.Ets

open Term Comparison Entries SortedEntries

/-! ## The keys of a table -/

/-- The keys of the rows. -/
def Table.rowKeys (keypos : ℕ) (t : Table) : List Value :=
  t.tab2list.filterMap fun row => (tupleKey keypos row).toOption

theorem mem_rowKeys {keypos : ℕ} {t : Table} {k : Value} :
    k ∈ t.rowKeys keypos ↔ ∃ row ∈ t.tab2list, tupleKey keypos row = .ok k := by
  rw [Table.rowKeys, List.mem_filterMap]
  refine exists_congr fun row => and_congr_right fun _ => ?_
  cases tupleKey keypos row <;> simp [Except.toOption]

theorem mapM_tupleKey {keypos : ℕ} {rows : List Value}
    (h : ∀ row ∈ rows, ∃ k, tupleKey keypos row = .ok k) :
    rows.mapM (tupleKey keypos) =
      .ok (rows.filterMap fun row => (tupleKey keypos row).toOption) := by
  induction rows with
  | nil => rfl
  | cons row rest ih =>
    obtain ⟨⟨k, hk⟩, hrest⟩ := List.forall_mem_cons.mp h
    rw [List.mapM_cons, hk, ih hrest, List.filterMap_cons, hk]
    rfl

/-- Keys of the table that tie are exactly equal and the other way round, and the order is one on
them. -/
def Table.TiesAreExact (atoms : AtomTable) (keypos : ℕ) (s : Set Value) (t : Table) : Prop :=
  ∀ k ∈ t.rowKeys keypos, k ∈ s ∧
    ∀ k' ∈ t.rowKeys keypos, cmp atoms k k' = .eq ↔ exactEq k k' = true

/-- The keys with which a table may be asked. -/
def TableType.cursors (s : Set Value) : TableType → Set Value
  | .orderedSet => s
  | _ => Set.univ

/-- The list is the keys of the contents, each once, and the table is walked along it both ways. -/
structure Traverses (kind : TableType) (atoms : AtomTable) (keypos : ℕ) (s : Set Value)
    (t : Table) (c : Contents) (keys : List Value) : Prop where
  inTable : ∀ k ∈ keys, c k ≠ []
  complete : ∀ k ∈ kind.cursors s, c k ≠ [] → ∃ k' ∈ keys, kind.same atoms k k' = true
  distinct : keys.Pairwise fun a b => kind.same atoms a b = false
  first : bifFirst atoms keypos t = .ok keys.head?
  last : bifLast atoms keypos t = .ok keys.getLast?
  next : ∀ i k, keys[i]? = some k → ∀ cursor ∈ kind.cursors s, kind.same atoms k cursor = true →
    bifNext atoms keypos t cursor = .ok keys[i + 1]?
  prev : ∀ i k, keys[i]? = some k → ∀ cursor ∈ kind.cursors s, kind.same atoms k cursor = true →
    bifPrev atoms keypos t cursor = .ok (keys.take i).getLast?

/-- Keys that are copies are handed out as they are. -/
theorem copyEtsSubtermToProcess_eq {key : Option Value} (h : ∀ k ∈ key, copyTerm k = .ok k) :
    copyEtsSubtermToProcess key = .ok key := by
  cases key with
  | none => rfl
  | some k =>
    rw [copyEtsSubtermToProcess, h k rfl]
    rfl

theorem getLast?_take_succ {α : Type*} {xs : List α} {i : ℕ} {x : α} (h : xs[i + 1]? = some x) :
    (xs.take (i + 1)).getLast? = xs[i]? := by
  obtain ⟨hi, -⟩ := List.getElem?_eq_some_iff.mp h
  rw [List.getLast?_take, if_neg (Nat.succ_ne_zero i), Nat.add_sub_cancel,
    List.getElem?_eq_getElem (by omega)]
  rfl

/-! ## Hash tables -/

section Hash

variable {V : Type} {view : View V} {atoms : AtomTable} {keypos : ℕ} {s : Set Value}
  {kind : TableType} {t : Table} {entries : List (Value × V)} {c : Contents}

theorem same_eq_exactEq (hkind : kind ≠ .orderedSet) : kind.same atoms = exactEq := by
  cases kind <;> first | rfl | exact absurd rfl hkind

/-- What is known of the keys of the rows. -/
theorem View.Represents.rowKeys (h : view.Represents keypos entries c)
    (hrows : t.tab2list = entries.flatMap fun e => view.rowsOf e.2) :
    (∀ row ∈ t.tab2list, ∃ k, tupleKey keypos row = .ok k) ∧
      (∀ k ∈ t.rowKeys keypos, copyTerm k = .ok k ∧ ∃ e ∈ entries, view.keyed k e.1) ∧
      ∀ e ∈ entries, ∃ k ∈ t.rowKeys keypos, view.keyed k e.1 := by
  refine ⟨?_, ?_, ?_⟩
  · intro row hrow
    rw [hrows, List.mem_flatMap] at hrow
    obtain ⟨e, he, hrow⟩ := hrow
    obtain ⟨k, hk, -⟩ := (h.filled e he).keys row hrow
    exact ⟨k, hk⟩
  · intro k hk
    obtain ⟨row, hrow, hkey⟩ := mem_rowKeys.mp hk
    rw [hrows, List.mem_flatMap] at hrow
    obtain ⟨e, he, hrow⟩ := hrow
    obtain ⟨k', hk', hcopy, hkeyed⟩ := (h.filled e he).keys row hrow
    rw [hkey] at hk'
    cases hk'
    exact ⟨hcopy, e, he, hkeyed⟩
  · intro e he
    obtain ⟨row, hrow⟩ := List.exists_mem_of_ne_nil _ (h.filled e he).rows
    obtain ⟨k, hk, -, hkeyed⟩ := (h.filled e he).keys row hrow
    refine ⟨k, mem_rowKeys.mpr ⟨row, ?_, hk⟩, hkeyed⟩
    rw [hrows]
    exact List.mem_flatMap.mpr ⟨e, he, hrow⟩

theorem tableSnapshotKeys_hash (hkind : t.tableType ≠ .orderedSet)
    (hrows : ∀ row ∈ t.tab2list, ∃ k, tupleKey keypos row = .ok k) :
    tableSnapshotKeys atoms keypos t = .ok (ascending (cmp atoms) (t.rowKeys keypos)) := by
  rw [tableSnapshotKeys, mapM_tupleKey hrows]
  exact if_neg hkind

/-- In a list without two exactly equal keys a cursor is found at its key. -/
theorem findIdx?_exactEq {keys : List Value} (h : keys.Pairwise fun a b => exactEq a b = false)
    {i : ℕ} {k cursor : Value} (hk : keys[i]? = some k) (hcursor : exactEq k cursor = true) :
    (keys.findIdx? fun candidate => exactEq candidate cursor) = some i := by
  obtain ⟨hi, rfl⟩ := List.getElem?_eq_some_iff.mp hk
  refine List.findIdx?_eq_some_iff_getElem.mpr ⟨hi, hcursor, ?_⟩
  intro j hj
  rw [← exactEq_right hcursor]
  simpa using List.pairwise_iff_getElem.mp h j i (by omega) hi hj

theorem cursorNeighbor_hash {keys : List Value} (hne : t.tableType ≠ .orderedSet)
    (h : keys.Pairwise fun a b => exactEq a b = false) {i : ℕ} {k cursor : Value}
    (hk : keys[i]? = some k) (hcursor : exactEq k cursor = true) :
    cursorNeighbor atoms t keys cursor .next = copyEtsSubtermToProcess keys[i + 1]? ∧
      cursorNeighbor atoms t keys cursor .prev =
        copyEtsSubtermToProcess (keys.take i).getLast? := by
  have hkeys : keys ≠ [] := List.ne_nil_of_mem (List.mem_of_getElem? hk)
  unfold cursorNeighbor
  rw [if_neg hkeys, if_neg hne, if_neg hkeys, if_neg hne, findIdx?_exactEq h hk hcursor]
  refine ⟨rfl, ?_⟩
  cases i with
  | zero => rfl
  | succ i => rw [getLast?_take_succ hk]

/-- A hash table is walked along its keys in ascending order. -/
theorem traverses_hash (hs : PreorderOn s (cmp atoms)) (h : view.Represents keypos entries c)
    (hsame : view.same = exactEq) (hdomain : view.domain = Set.univ)
    (hkeyed : ∀ k key, view.keyed k key → exactEq k key = true) (htype : t.tableType = kind)
    (hkind : kind ≠ .orderedSet) (hrows : t.tab2list = entries.flatMap fun e => view.rowsOf e.2)
    (hties : t.TiesAreExact atoms keypos s) :
    Traverses kind atoms keypos s t c (ascending (cmp atoms) (t.rowKeys keypos)) := by
  obtain ⟨hkeys, hentry, hentries⟩ := h.rowKeys hrows
  have hin : ∀ k ∈ t.rowKeys keypos, k ∈ s := fun k hk => (hties k hk).1
  have hsnapshot : tableSnapshotKeys atoms keypos t = _ :=
    tableSnapshotKeys_hash (htype ▸ hkind) hkeys
  have hmem : ∀ k ∈ ascending (cmp atoms) (t.rowKeys keypos), k ∈ t.rowKeys keypos :=
    fun k hk => mem_of_mem_ascending hk
  have hcopy : ∀ k ∈ ascending (cmp atoms) (t.rowKeys keypos), copyTerm k = .ok k :=
    fun k hk => (hentry k (hmem k hk)).1
  have hdistinct : (ascending (cmp atoms) (t.rowKeys keypos)).Pairwise
      fun a b => exactEq a b = false := by
    refine (pairwise_ascending hs hin).imp_of_mem fun {a b} ha hb hlt => ?_
    rw [Bool.eq_false_iff, ne_eq, ← (hties a (hmem a ha)).2 b (hmem b hb), hlt]
    simp
  have hcases : ∀ k, c k ≠ [] ↔ ∃ e ∈ entries, exactEq e.1 k = true := by
    intro k
    rw [h.ne_nil_iff (hdomain ▸ trivial), hsame]
  have hne : t.tableType ≠ .orderedSet := htype ▸ hkind
  refine ⟨?_, ?_, ?_, ?_, ?_, ?_, ?_⟩
  · intro k hk
    obtain ⟨-, e, he, hke⟩ := hentry k (hmem k hk)
    refine (hcases k).mpr ⟨e, he, ?_⟩
    rw [exactEq_comm, hkeyed _ _ hke]
  · intro k _ hk
    obtain ⟨e, he, hek⟩ := (hcases k).mp hk
    obtain ⟨k', hk', hke⟩ := hentries e he
    obtain ⟨kept, hkept, htie⟩ := exists_mem_ascending hs hin hk'
    refine ⟨kept, hkept, ?_⟩
    rw [same_eq_exactEq hkind, ← exactEq_left hek, ← exactEq_left (hkeyed _ _ hke)]
    exact ((hties k' hk').2 kept (hmem kept hkept)).mp htie
  · rw [same_eq_exactEq hkind]
    exact hdistinct
  · rw [bifFirst, hsnapshot]
    exact copyEtsSubtermToProcess_eq fun k hk => hcopy k (List.mem_of_head? hk)
  · rw [bifLast, hsnapshot]
    exact copyEtsSubtermToProcess_eq fun k hk => hcopy k (List.mem_of_getLast? hk)
  · intro i k hk cursor _ hcursor
    rw [same_eq_exactEq hkind] at hcursor
    rw [bifNext, hsnapshot]
    show cursorNeighbor atoms t _ cursor .next = _
    rw [(cursorNeighbor_hash hne hdistinct hk hcursor).1]
    exact copyEtsSubtermToProcess_eq fun k hk => hcopy k (List.mem_of_getElem? hk)
  · intro i k hk cursor _ hcursor
    rw [same_eq_exactEq hkind] at hcursor
    rw [bifPrev, hsnapshot]
    show cursorNeighbor atoms t _ cursor .prev = _
    rw [(cursorNeighbor_hash hne hdistinct hk hcursor).2]
    refine copyEtsSubtermToProcess_eq fun k hk => hcopy k ?_
    exact (List.take_sublist _ _).mem (List.mem_of_getLast? hk)

end Hash

/-! ## Ordered sets -/

section Ordered

variable {atoms : AtomTable} {keypos : ℕ} {s d : Set Value} {t : Table} {keys : List Value}
  {cursor : Value}

/-- The search of an ordered set finds the neighbours of any cursor. -/
theorem cursorNeighbor_ordered (htype : t.tableType = .orderedSet) (hd : PreorderOn d (cmp atoms))
    (hsorted : keys.Pairwise fun a b => cmp atoms a b = .lt) (hin : ∀ k ∈ keys, k ∈ d)
    (hcursor : cursor ∈ d) :
    cursorNeighbor atoms t keys cursor .next =
        copyEtsSubtermToProcess (after (cmp atoms) cursor keys) ∧
      cursorNeighbor atoms t keys cursor .prev =
        copyEtsSubtermToProcess (before (cmp atoms) cursor keys) := by
  obtain ⟨low, mid, high, rfl, hmid, hcut⟩ := exists_cut hd hsorted hin hcursor
  have hlast : ∀ n rest, low.length = n + 1 → (low ++ rest)[n]? = low.getLast? := by
    intro n rest hn
    rw [List.getElem?_append_left (by omega), List.getLast?_eq_getElem?, hn, Nat.add_sub_cancel]
  rw [hcut.after_eq, hcut.before_eq]
  unfold cursorNeighbor
  by_cases hkeys : low ++ mid ++ high = []
  · rw [if_pos hkeys, if_pos hkeys]
    simp only [List.append_eq_nil_iff] at hkeys
    rw [hkeys.1.1, hkeys.2]
    exact ⟨rfl, rfl⟩
  rw [if_neg hkeys, if_pos htype, if_neg hkeys, if_pos htype, hcut.binarySearchBy_eq]
  by_cases hnone : mid = []
  · rw [if_pos hnone, hnone, List.append_nil]
    constructor
    · dsimp only
      rw [List.getElem?_append_right (Nat.le_refl _), Nat.sub_self, List.head?_eq_getElem?]
    · cases hlow : low.length with
      | zero => rw [List.eq_nil_of_length_eq_zero hlow]; rfl
      | succ n =>
        dsimp only
        rw [hlast n high hlow]
  · rw [if_neg hnone]
    have hone : mid.length = 1 := by
      have := List.length_pos_of_ne_nil hnone
      omega
    constructor
    · dsimp only
      rw [List.getElem?_append_right (by simp [hone]), List.length_append, hone, Nat.sub_self,
        List.head?_eq_getElem?]
    · cases hlow : low.length with
      | zero => rw [List.eq_nil_of_length_eq_zero hlow]; rfl
      | succ n =>
        dsimp only
        rw [List.append_assoc, hlast n (mid ++ high) hlow]

end Ordered

namespace EtsOrderedSet

variable {atoms : AtomTable} {keypos : ℕ} {s : Set Value} {hs : PreorderOn s (cmp atoms)}
  {rows : List (Value × Value)} {c : Contents}

/-- The keys ascend, a cursor need not be there, and the table's own methods return the rows. -/
structure InOrder (atoms : AtomTable) (keypos : ℕ) (s : Set Value) (rows : List (Value × Value))
    (keys : List Value) : Prop where
  sorted : keys.Pairwise fun a b => cmp atoms a b = .lt
  bifNext : ∀ cursor ∈ s, bifNext atoms keypos (.orderedSet rows) cursor =
    .ok (after (cmp atoms) cursor keys)
  bifPrev : ∀ cursor ∈ s, bifPrev atoms keypos (.orderedSet rows) cursor =
    .ok (before (cmp atoms) cursor keys)
  first : first rows = keys.head?.bind fun k => (lookup atoms rows k).head?
  last : last rows = keys.getLast?.bind fun k => (lookup atoms rows k).head?
  next : ∀ cursor, next atoms rows cursor =
    (after (cmp atoms) cursor keys).bind fun k => (lookup atoms rows k).head?
  prev : ∀ cursor, prev atoms rows cursor =
    (before (cmp atoms) cursor keys).bind fun k => (lookup atoms rows k).head?

/-- The keys of the table, which are copies, and the snapshot of them. -/
theorem Represents.rowKeys (h : Represents hs keypos rows c) :
    (∀ k ∈ rows.map (·.1), k ∈ CopiesOf s ∧ copyTerm k = .ok k) ∧
      tableSnapshotKeys atoms keypos (.orderedSet rows) = .ok (rows.map (·.1)) := by
  have hentry : ∀ e ∈ rows, tupleKey keypos e.2 = .ok e.1 ∧ copyTerm e.1 = .ok e.1 := by
    intro e he
    obtain ⟨k, hk, hcopy, rfl⟩ := (h.view.filled e he).keys e.2 (List.mem_singleton_self _)
    exact ⟨hk, hcopy⟩
  constructor
  · intro k hk
    obtain ⟨e, he, rfl⟩ := List.mem_map.mp hk
    exact ⟨h.view.keysIn e he, (hentry e he).2⟩
  have hrows : (rows.map (·.2)).filterMap (fun row => (tupleKey keypos row).toOption) =
      rows.map (·.1) := by
    rw [List.filterMap_map, ← List.filterMap_eq_map]
    refine List.filterMap_congr fun e he => ?_
    rw [Function.comp_apply, (hentry e he).1]
    rfl
  rw [tableSnapshotKeys, Table.tab2list, mapM_tupleKey, hrows]
  · rfl
  · intro row hrow
    obtain ⟨e, he, rfl⟩ := List.mem_map.mp hrow
    exact ⟨e.1, (hentry e he).1⟩

/-- The row of an entry is what its key looks up. -/
theorem Represents.row_of_key (h : Represents hs keypos rows c) {e : Option (Value × Value)}
    (he : ∀ x ∈ e, x ∈ rows) :
    e.map (·.2) = (e.map (·.1)).bind fun k => (lookup atoms rows k).head? := by
  cases e with
  | none => rfl
  | some e =>
    have hin := he e rfl
    have hkey := h.view.keysIn e hin
    have hget : get (tied (cmp atoms)) rows e.1 = some e.2 :=
      get_of_mem (orderedView hs).sameOn h.view.keysIn h.view.distinct hkey hin
        ((orderedView hs).sameOn.refl e.1 hkey)
    simp [lookup, hget]

theorem Represents.inOrder (h : Represents hs keypos rows c) :
    InOrder atoms keypos s rows (rows.map (·.1)) := by
  obtain ⟨hkeys, hsnapshot⟩ := h.rowKeys
  have hin : ∀ k ∈ rows.map (·.1), k ∈ CopiesOf s := fun k hk => (hkeys k hk).1
  have hcopy : ∀ k ∈ rows.map (·.1), copyTerm k = .ok k := fun k hk => (hkeys k hk).2
  have hsorted : (rows.map (·.1)).Pairwise fun a b => cmp atoms a b = .lt :=
    List.pairwise_map.mpr h.sorted
  have hneighbor := fun cursor (hcursor : cursor ∈ s) =>
    cursorNeighbor_ordered (t := .orderedSet rows) rfl (copiesOf_preorderOn hs) hsorted hin
      (subset_copiesOf s hcursor)
  refine ⟨hsorted, ?_, ?_, ?_, ?_, ?_, ?_⟩
  · intro cursor hcursor
    rw [Ets.bifNext, hsnapshot]
    refine (hneighbor cursor hcursor).1.trans (copyEtsSubtermToProcess_eq fun k hk => hcopy k ?_)
    exact List.mem_of_find?_eq_some hk
  · intro cursor hcursor
    rw [Ets.bifPrev, hsnapshot]
    refine (hneighbor cursor hcursor).2.trans (copyEtsSubtermToProcess_eq fun k hk => hcopy k ?_)
    exact (List.mem_filter.mp (List.mem_of_getLast? hk)).1
  · rw [List.head?_map]
    exact h.row_of_key fun e he => List.mem_of_head? he
  · rw [List.getLast?_map]
    exact h.row_of_key fun e he => List.mem_of_getLast? he
  · intro cursor
    rw [after, List.find?_map]
    exact h.row_of_key fun e he => List.mem_of_find?_eq_some he
  · intro cursor
    rw [before, List.filter_map, List.getLast?_map]
    exact h.row_of_key fun e he => (List.mem_filter.mp (List.mem_of_getLast? he)).1

/-- An ordered set is walked along its keys. -/
theorem Represents.traverses (h : Represents hs keypos rows c) :
    Traverses .orderedSet atoms keypos s (.orderedSet rows) c (rows.map (·.1)) := by
  have horder := h.inOrder
  have hpre := copiesOf_preorderOn hs
  obtain ⟨hkeys, hsnapshot⟩ := h.rowKeys
  have hin : ∀ k ∈ rows.map (·.1), k ∈ CopiesOf s := fun k hk => (hkeys k hk).1
  have hcopy : ∀ k ∈ rows.map (·.1), copyTerm k = .ok k := fun k hk => (hkeys k hk).2
  refine ⟨?_, ?_, ?_, ?_, ?_, ?_, ?_⟩
  · intro k hk
    obtain ⟨e, he, rfl⟩ := List.mem_map.mp hk
    refine (h.view.ne_nil_iff (hin _ hk)).mpr ⟨e, he, ?_⟩
    exact (orderedView hs).sameOn.refl e.1 (hin _ hk)
  · intro k hk hne
    obtain ⟨e, he, hsame⟩ := (h.view.ne_nil_iff (subset_copiesOf s hk)).mp hne
    refine ⟨e.1, List.mem_map_of_mem he, ?_⟩
    exact (orderedView hs).sameOn.symm _ (h.view.keysIn e he) _ (subset_copiesOf s hk) hsame
  · refine horder.sorted.imp fun hlt => ?_
    simp [TableType.same, tied, hlt]
  · rw [bifFirst, hsnapshot]
    exact copyEtsSubtermToProcess_eq fun k hk => hcopy k (List.mem_of_head? hk)
  · rw [bifLast, hsnapshot]
    exact copyEtsSubtermToProcess_eq fun k hk => hcopy k (List.mem_of_getLast? hk)
  · intro i k hk cursor hcursor hsame
    rw [horder.bifNext cursor hcursor, (neighbours_of_tie hpre horder.sorted hin
      (subset_copiesOf s hcursor) hk (tied_iff.mp hsame)).1]
  · intro i k hk cursor hcursor hsame
    rw [horder.bifPrev cursor hcursor, (neighbours_of_tie hpre horder.sorted hin
      (subset_copiesOf s hcursor) hk (tied_iff.mp hsame)).2]

end EtsOrderedSet

/-! ## Any table in any order of iteration -/

section Reordering

variable {atoms : AtomTable} {keypos : ℕ} {s : Set Value} {hs : PreorderOn s (cmp atoms)}
  {kind : TableType} {t t' : Table} {c : Contents}

theorem View.Represents.perm {V : Type} {view : View V} {entries entries' : List (Value × V)}
    (h : view.Represents keypos entries c) (hperm : entries.Perm entries') :
    view.Represents keypos entries' c := by
  have hover : Over view.domain entries' := fun e he => h.keysIn e (hperm.mem_iff.mpr he)
  refine ⟨hover, h.distinct.perm view.sameOn h.keysIn hperm,
    fun e he => h.filled e (hperm.mem_iff.mpr he), fun k hk => ?_⟩
  rw [View.rows, get_perm view.sameOn h.keysIn h.distinct hk hperm]
  exact h.holds k hk

theorem Table.Represents.reordered (h : t.Represents hs keypos kind c)
    (hreordered : t.Reordered t') : t'.Represents hs keypos kind c := by
  cases hreordered with
  | set hperm =>
    cases h with
    | set h => exact .set (h.perm hperm)
  | orderedSet rows => exact h
  | bag hperm =>
    cases h with
    | bag h => exact .bag (h.perm hperm)
  | duplicateBag hperm =>
    cases h with
    | duplicateBag h => exact .duplicateBag (h.perm hperm)

theorem Table.Reordered.mem_tab2list (h : t.Reordered t') {row : Value} :
    row ∈ t'.tab2list ↔ row ∈ t.tab2list := by
  cases h with
  | set hperm => exact (hperm.map _).symm.mem_iff
  | orderedSet rows => rfl
  | bag hperm => exact (hperm.flatMap_right _).symm.mem_iff
  | duplicateBag hperm => exact (hperm.flatMap_right _).symm.mem_iff

theorem Table.TiesAreExact.reordered (h : t.TiesAreExact atoms keypos s)
    (hreordered : t.Reordered t') : t'.TiesAreExact atoms keypos s := by
  have hmem : ∀ k, k ∈ t'.rowKeys keypos ↔ k ∈ t.rowKeys keypos := by
    intro k
    simp only [mem_rowKeys, hreordered.mem_tab2list]
  intro k hk
  obtain ⟨hin, hties⟩ := h k ((hmem k).mp hk)
  exact ⟨hin, fun k' hk' => hties k' ((hmem k').mp hk')⟩

theorem Table.Represents.lookup (h : t.Represents hs keypos kind c) {k : Value}
    (hk : k ∈ kind.cursors s) : Agree (t.lookup atoms k) (c k) := by
  cases h with
  | set h =>
    rw [Table.lookup, EtsSet.lookup_eq]
    exact h.holds k trivial
  | orderedSet h =>
    rw [Table.lookup, EtsOrderedSet.lookup_eq hs]
    exact h.view.holds k (subset_copiesOf s hk)
  | bag h =>
    rw [Table.lookup, lookupKey_eq]
    exact h.holds k trivial
  | duplicateBag h =>
    rw [Table.lookup, lookupKey_eq]
    exact h.holds k trivial

/-- A table is walked along the keys of its contents. -/
theorem Table.Represents.traverses (h : t.Represents hs keypos kind c)
    (hties : kind ≠ .orderedSet → t.TiesAreExact atoms keypos s) :
    ∃ keys, Traverses kind atoms keypos s t c keys ∧
      ∀ rows, t = .orderedSet rows → EtsOrderedSet.InOrder atoms keypos s rows keys := by
  cases h with
  | set h =>
    refine ⟨_, traverses_hash hs h rfl rfl (fun _ _ => id) rfl nofun ?_ (hties nofun), nofun⟩
    exact List.map_eq_flatMap
  | orderedSet h =>
    refine ⟨_, h.traverses, ?_⟩
    rintro _ ⟨⟩
    exact h.inOrder
  | bag h =>
    exact ⟨_, traverses_hash hs h rfl rfl (fun _ _ => id) rfl nofun rfl (hties nofun), nofun⟩
  | duplicateBag h =>
    exact ⟨_, traverses_hash hs h rfl rfl (fun _ _ => id) rfl nofun rfl (hties nofun), nofun⟩

end Reordering

/-! ## Whole runs -/

section Runs

variable (kind : TableType) (atoms : AtomTable) (keypos : ℕ)

def Table.run (updates : List Update) : List Reply × Table :=
  updates.foldl (logged (Table.step atoms keypos)) ([], .new kind)

def Contents.run (updates : List Update) : List Reply × Contents :=
  updates.foldl (logged (Contents.step kind atoms keypos)) ([], fun _ => [])

theorem run_represents {s : Set Value} (hs : PreorderOn s (cmp atoms)) (updates : List Update)
    (hstorable : ∀ u ∈ updates, u.Storable keypos)
    (hkeys : kind = .orderedSet → ∀ u ∈ updates, u.KeyIn keypos s) :
    (Table.run kind atoms keypos updates).1 = (Contents.run kind atoms keypos updates).1 ∧
      (Table.run kind atoms keypos updates).2.Represents hs keypos kind
        (Contents.run kind atoms keypos updates).2 := by
  induction updates using List.reverseRecOn with
  | nil => exact ⟨rfl, Table.new_represents hs keypos kind⟩
  | append_singleton before u ih =>
    obtain ⟨hreplies, hrepresents⟩ := ih
      (fun u hu => hstorable u (List.mem_append_left _ hu))
      fun hkind u hu => hkeys hkind u (List.mem_append_left _ hu)
    have hu : u ∈ before ++ [u] := List.mem_append_right _ (List.mem_singleton_self u)
    obtain ⟨hreply, hnext⟩ := Table.step_represents hrepresents (hstorable u hu)
      fun hkind => hkeys hkind u hu
    rw [Table.run, Contents.run, List.foldl_concat, List.foldl_concat]
    exact ⟨congrArg₂ List.cons hreply hreplies, hnext⟩

/-- Over any run every kind of table is the map that it is for, provided that the rows inserted can
be copied. A hash table is moreover walked along all its keys, whatever order it iterates in, if
ties among them are exact; an ordered set is walked in order without that. -/
theorem run_refines_contents {s : Set Value} (hs : PreorderOn s (cmp atoms))
    (updates : List Update) (hstorable : ∀ u ∈ updates, u.Storable keypos)
    (hkeys : kind = .orderedSet → ∀ u ∈ updates, u.KeyIn keypos s) :
    (Table.run kind atoms keypos updates).1 = (Contents.run kind atoms keypos updates).1 ∧
      (∀ k ∈ kind.cursors s,
        Agree ((Table.run kind atoms keypos updates).2.lookup atoms k)
            ((Contents.run kind atoms keypos updates).2 k) ∧
          bifMember atoms (Table.run kind atoms keypos updates).2 k =
            !((Contents.run kind atoms keypos updates).2 k).isEmpty) ∧
      ((kind ≠ .orderedSet →
          (Table.run kind atoms keypos updates).2.TiesAreExact atoms keypos s) →
        ∀ t, (Table.run kind atoms keypos updates).2.Reordered t →
          ∃ keys, Traverses kind atoms keypos s t (Contents.run kind atoms keypos updates).2 keys ∧
            ∀ rows, t = .orderedSet rows → EtsOrderedSet.InOrder atoms keypos s rows keys) := by
  obtain ⟨hreplies, hrepresents⟩ := run_represents kind atoms keypos hs updates hstorable hkeys
  refine ⟨hreplies, fun k hk => ?_, fun hties t ht => ?_⟩
  · have hagree := hrepresents.lookup hk
    exact ⟨hagree, congrArg (!·) hagree.isEmpty⟩
  · exact (hrepresents.reordered ht).traverses fun hkind => (hties hkind).reordered ht

/-- One row with the key `[]` in an ordered set. -/
theorem run_refines_contents_single :
    (Table.run .orderedSet ⟨[], List.nodup_nil, by simp⟩ 1 [.insert (.tuple [.nil])]).1 =
      (Contents.run .orderedSet ⟨[], List.nodup_nil, by simp⟩ 1 [.insert (.tuple [.nil])]).1 :=
  (run_refines_contents .orderedSet ⟨[], List.nodup_nil, by simp⟩ 1
    (PreorderOn.of_subsingleton (s := {Value.nil}) (by
      rintro _ rfl _ rfl
      decide +kernel))
    [.insert (.tuple [.nil])]
    (by
      intro u hu
      rw [List.mem_singleton.mp hu]
      exact fun _ _ => ((copyTerm_eq_ok _ _).mp rfl).1)
    (by
      rintro - u hu
      rw [List.mem_singleton.mp hu]
      rintro key ⟨⟩
      rfl)).1

/-- A set with two keys that tie is walked as if it had the one that is met first. -/
theorem not_traverses_of_tie {s : Set Value} {c : Contents} {a b : Value}
    (hab : cmp atoms a b = .eq) (hba : cmp atoms b a = .eq) (hne : exactEq b a = false)
    (hcopy : copyTerm a = .ok a) (hb : c b ≠ []) (keys : List Value) :
    ¬ Traverses .set atoms 1 s (.set [(a, .tuple [a]), (b, .tuple [b])]) c keys := by
  intro h
  have hsnapshot : tableSnapshotKeys atoms 1 (.set [(a, .tuple [a]), (b, .tuple [b])]) =
      .ok [a] := by
    rw [tableSnapshotKeys_hash (by simp [Table.tableType]) (by simp [Table.tab2list, tupleKey])]
    simp [ascending, Table.rowKeys, Table.tab2list, tupleKey, Except.toOption, sortBy, hab,
      List.destutter_pair, hba]
  have hfirst : keys.head? = some a := by
    have hcall : bifFirst atoms 1 (.set [(a, .tuple [a]), (b, .tuple [b])]) = .ok (some a) := by
      rw [bifFirst, hsnapshot]
      show copyEtsSubtermToProcess (some a) = _
      rw [copyEtsSubtermToProcess, hcopy]
      rfl
    rw [h.first] at hcall
    exact Except.ok.inj hcall
  have hnext : keys[1]? = none := by
    have hcall : bifNext atoms 1 (.set [(a, .tuple [a]), (b, .tuple [b])]) a = .ok none := by
      rw [bifNext, hsnapshot]
      have hat : [a][0]? = some a := rfl
      exact (cursorNeighbor_hash (by simp [Table.tableType]) (List.pairwise_singleton _ _) hat
        (exactEq_refl a)).1
    rw [h.next 0 a (List.head?_eq_getElem? ▸ hfirst) a trivial (exactEq_refl a)] at hcall
    exact Except.ok.inj hcall
  have hkeys : keys = [a] := by
    cases keys with
    | nil => cases hfirst
    | cons k rest =>
      cases rest with
      | nil => rw [Option.some.inj hfirst]
      | cons k' rest => cases hnext
  obtain ⟨k, hk, hsame⟩ := h.complete b trivial hb
  rw [hkeys, List.mem_singleton] at hk
  change exactEq b k = true at hsame
  rw [hk, hne] at hsame
  cases hsame

/-- The keys `1` and `1.0` of a set: the walk meets one of them. -/
theorem not_run_traverses :
    ∃ (atoms : AtomTable) (s : Set Value) (updates : List Update), PreorderOn s (cmp atoms) ∧
      (∀ u ∈ updates, u.Storable 1 ∧ u.KeyIn 1 s) ∧
      ¬ ∃ keys, Traverses .set atoms 1 s (Table.run .set atoms 1 updates).2
        (Contents.run .set atoms 1 updates).2 keys := by
  let atoms : AtomTable := ⟨[], List.nodup_nil, by simp⟩
  let one : Value := .number (.smallInt ⟨1, by norm_num, by norm_num⟩)
  let oneFloat : Value := .number (.float ⟨false, 0x3FF0000000000000, by norm_num⟩)
  refine ⟨atoms, {one, oneFloat}, [.insert (.tuple [one]), .insert (.tuple [oneFloat])], ?_, ?_, ?_⟩
  · refine .of_subsingleton ?_
    rintro _ (rfl | rfl) _ (rfl | rfl) <;> decide +kernel
  · simp only [List.forall_mem_cons]
    refine ⟨⟨fun _ _ => ((copyTerm_eq_ok _ _).mp rfl).1, ?_⟩,
      ⟨fun _ _ => ((copyTerm_eq_ok _ _).mp rfl).1, ?_⟩, nofun⟩
    · rintro key ⟨⟩
      exact .inl rfl
    · rintro key ⟨⟩
      exact .inr rfl
  · rintro ⟨keys, h⟩
    have htable : (Table.run .set atoms 1
        [.insert (.tuple [one]), .insert (.tuple [oneFloat])]).2 =
        .set [(one, .tuple [one]), (oneFloat, .tuple [oneFloat])] := rfl
    rw [htable] at h
    exact not_traverses_of_tie atoms (by decide +kernel) (by decide +kernel) (by decide +kernel) rfl
      (List.cons_ne_nil _ _) keys h

end Runs

end Beamr.Ets
