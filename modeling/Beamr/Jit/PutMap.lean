import Beamr.Jit.Select
import Beamr.Lib.SortedEntries
import Beamr.Term.Ties

/-!
# Compiled map updates

Both update the entries of the source map one by one and sort the result by key. The
interpreter sorts through the atom table, compiled code by the order of atom indices.
The results are the same map; their entries are stored in one order where the two orders
agree on the keys.
-/
namespace Beamr.Jit

open Loader Term Interpreter Comparison

/-! ## Interpreter -/

/-- Whether an update may add keys. -/
inductive PutMapMode
  | assoc
  | exact
  deriving DecidableEq

/-- An update goes to its fail label or on with a new map. -/
inductive PutMapOutcome
  | fail (label : ℕ)
  | built (entries : List (Value × Value))

/-- The first entry of the key takes the value, or a new entry is appended. -/
def setEntry (key value : Value) : List (Value × Value) → List (Value × Value)
  | [] => [(key, value)]
  | entry :: rest =>
    if exactEq entry.1 key then (entry.1, value) :: rest else entry :: setEntry key value rest

/-- The loop over the updates, the same in both. -/
def mergeUpdates (entries updates : List (Value × Value)) : List (Value × Value) :=
  updates.foldl (fun entries update => setEntry update.1 update.2 entries) entries

def readPairs (registers : Registers) (literals : List Word) (items : List Operand) :
    Except ExecError (List (Word × Word)) :=
  (chunkPairs items).mapM fun pair => do
    let key ← readTerm registers literals pair.1
    let value ← readTerm registers literals pair.2
    .ok (key, value)

def pairTerms (memory : Memory) (pairs : List (Word × Word)) : List (Value × Value) :=
  pairs.map fun pair => (memory.read pair.1, memory.read pair.2)

def putMap (memory : Memory) (table : Option AtomTable) (registers : Registers)
    (literals : List Word) (mode : PutMapMode) :
    List Operand → Except ExecError PutMapOutcome
  | [fail, source, _, _, .list items] =>
    if items.length % 2 ≠ 0 then .error (.invalidOperand "put_map pairs")
    else do
      match memory.read (← readTerm registers literals source) with
      | .map entries =>
        let updates := pairTerms memory (← readPairs registers literals items)
        if mode = .exact ∧ updates.any fun update => (Entries.get exactEq entries update.1).isNone
        then .fail <$> operandLabel fail
        else .ok (.built (sortBy (fun left right => order table left.1 right.1)
          (mergeUpdates entries updates)))
      | _ => .fail <$> operandLabel fail
  | _ => .error (.invalidOperand "put_map operands")

/-! ## Compiled code -/

/-- The runtime's update; `none` for a null result. -/
def mapUpdate (memory : Memory) (source : Word) (pairs : List (Word × Word)) (exact : Bool) :
    Option (List (Value × Value)) :=
  match memory.read source with
  | .map entries =>
    let updates := pairTerms memory pairs
    if exact && updates.any fun update => entries.all fun entry => !exactEq entry.1 update.1
    then none
    else some (sortBy (fun left right => rawCmp left.1 right.1) (mergeUpdates entries updates))
  | _ => none

def stagePairs (registers : Registers) (items : List Operand) :
    Except JitError (List (Word × Word)) :=
  (chunkPairs items).mapM fun pair => do
    let key ← readOperandTerm registers pair.1
    let value ← readOperandTerm registers pair.2
    .ok (key, value)

/-- The compiled update, run on the registers. -/
def lowerPutMap (memory : Memory) (registers : Registers) (labels : List ℕ) (mode : PutMapMode)
    (operands : List Operand) : Except JitError PutMapOutcome := do
  let op ← parsePutMapOperands operands
  let failBlock ← knownLabel labels (← labelOperand op.fail)
  let source ← readOperandTerm registers op.source
  let pairs ← stagePairs registers op.pairs
  match mapUpdate memory source pairs (mode = .exact) with
  | some entries => .ok (.built entries)
  | none => .ok (.fail failBlock)

/-! ## Merged entries -/

/-- The keys of the source and of the updates, without the update keys that equal one before
them. -/
def mergedKeys : List Value → List Value → List Value
  | keys, [] => keys
  | keys, key :: rest =>
    mergedKeys (if keys.any fun k => exactEq k key then keys else keys ++ [key]) rest

theorem map_fst_setEntry (key value : Value) (entries : List (Value × Value)) :
    (setEntry key value entries).map Prod.fst =
      if (entries.map Prod.fst).any (fun k => exactEq k key) then entries.map Prod.fst
      else entries.map Prod.fst ++ [key] := by
  induction entries with
  | nil => rfl
  | cons entry rest ih =>
    rw [setEntry]
    by_cases hkey : exactEq entry.1 key = true
    · simp [hkey]
    · rw [if_neg hkey, List.map_cons, ih, List.map_cons, List.any_cons, eq_false_of_ne_true hkey,
        Bool.false_or]
      split <;> rfl

theorem map_fst_mergeUpdates (entries updates : List (Value × Value)) :
    (mergeUpdates entries updates).map Prod.fst =
      mergedKeys (entries.map Prod.fst) (updates.map Prod.fst) := by
  induction updates generalizing entries with
  | nil => rfl
  | cons update rest ih =>
    rw [mergeUpdates, List.foldl_cons, ← mergeUpdates, ih, map_fst_setEntry]
    rfl

/-- Both tests for a key the source does not have say the same. -/
theorem isNone_get_eq (entries : List (Value × Value)) (key : Value) :
    (Entries.get exactEq entries key).isNone = entries.all fun entry => !exactEq entry.1 key := by
  induction entries with
  | nil => rfl
  | cons entry rest ih =>
    rw [Entries.get_cons, List.all_cons]
    cases exactEq entry.1 key with
    | true => rfl
    | false => exact ih

/-! ## The update with any order of the keys -/

/-- The update with its entries sorted by the comparison; `none` when it is refused. -/
def updateWith (c : Value → Value → Ordering) (mode : PutMapMode) (source : Value)
    (updates : List (Value × Value)) : Option (List (Value × Value)) :=
  match source with
  | .map entries =>
    if mode = .exact ∧ updates.any fun update => (Entries.get exactEq entries update.1).isNone
    then none
    else some (sortBy (fun left right => c left.1 right.1) (mergeUpdates entries updates))
  | _ => none

/-- The keys an accepted update stores. -/
def newKeys (source : Value) (updates : List (Value × Value)) : List Value :=
  match source with
  | .map entries => mergedKeys (entries.map Prod.fst) (updates.map Prod.fst)
  | _ => []

/-- The source is no map, or an exact update has a key the source does not have. -/
def Refused (mode : PutMapMode) (source : Value) (updates : List (Value × Value)) : Prop :=
  match source with
  | .map entries =>
    mode = .exact ∧ ∃ update ∈ updates, ∀ entry ∈ entries, exactEq entry.1 update.1 = false
  | _ => True

theorem updateWith_eq_none_iff (c : Value → Value → Ordering) (mode : PutMapMode) (source : Value)
    (updates : List (Value × Value)) :
    updateWith c mode source updates = none ↔ Refused mode source updates := by
  unfold updateWith Refused
  split
  · simp [isNone_get_eq]
  · simp

theorem mapUpdate_eq (memory : Memory) (source : Word) (pairs : List (Word × Word))
    (mode : PutMapMode) : mapUpdate memory source pairs (mode = .exact) =
      updateWith rawCmp mode (memory.read source) (pairTerms memory pairs) := by
  unfold mapUpdate updateWith
  split
  · simp only [isNone_get_eq, Bool.and_eq_true, decide_eq_true_eq]
  · rfl

/-- The interpreter's update, on operands it can read. -/
theorem putMap_eq {memory : Memory} {registers : Registers} {literals : List Word}
    {fail source destination live : Operand} {items : List Operand} {word : Word}
    {pairs : List (Word × Word)} {label : ℕ} (table : Option AtomTable) (mode : PutMapMode)
    (heven : items.length % 2 = 0) (hsource : readTerm registers literals source = .ok word)
    (hpairs : readPairs registers literals items = .ok pairs)
    (hfail : operandLabel fail = .ok label) :
    putMap memory table registers literals mode [fail, source, destination, live, .list items] =
      .ok ((updateWith (order table) mode (memory.read word) (pairTerms memory pairs)).elim
        (.fail label) .built) := by
  rw [putMap, if_neg (not_not_intro heven), hsource, except_ok_bind]
  cases hmap : memory.read word with
  | map entries =>
    simp only [hpairs, except_ok_bind, hfail, updateWith]
    split <;> rfl
  | _ => rw [hfail]; rfl

/-- Sorted by orders that agree on the keys, the maps are one list of entries. -/
theorem updateWith_congr {c d : Value → Value → Ordering} {mode : PutMapMode} {source : Value}
    {updates : List (Value × Value)}
    (h : ∀ a ∈ newKeys source updates, ∀ b ∈ newKeys source updates, c a b = d a b) :
    updateWith c mode source updates = updateWith d mode source updates := by
  unfold updateWith
  split
  · next entries =>
    have hkey : ∀ entry ∈ mergeUpdates entries updates,
        entry.1 ∈ newKeys (.map entries) updates := by
      intro entry hentry
      rw [newKeys, ← map_fst_mergeUpdates]
      exact List.mem_map_of_mem hentry
    rw [sortBy_congr fun a ha b hb => h a.1 (hkey a ha) b.1 (hkey b hb)]
  · rfl

/-- The keys of an accepted update in the order it stores them. -/
theorem keys_updateWith {c : Value → Value → Ordering} {mode : PutMapMode} {source : Value}
    {updates entries : List (Value × Value)} (h : updateWith c mode source updates = some entries) :
    entries.map Prod.fst = sortBy c (newKeys source updates) := by
  unfold updateWith at h
  split at h
  · split at h
    · cases h
    · obtain rfl := Option.some.inj h
      rw [newKeys, ← map_fst_mergeUpdates, sortBy_map]
  · cases h

/-! ## The two orders -/

/-- Atoms the order can compare: those the table names, or all without a table. -/
def comparable : Option AtomTable → Set Atom
  | some table => knownAtoms table
  | none => Set.univ

section Laws

variable {N : Set Number} {A : Set Atom}

theorem rawCmp_preorderOn (hN : ¬ SharedFloat N) : PreorderOn (Value.Over N A) rawCmp :=
  rawCmp_isTermOrder.preorderOn (PreorderOn.of_ord A)
    fun _ => ((compareNumbers_preorderOn_iff N).mpr hN).mono fun _ hn => hn.1

theorem order_preorderOn (table : Option AtomTable) (hN : ¬ SharedFloat N) :
    PreorderOn (Value.Over N (comparable table)) (order table) := by
  cases table with
  | none => exact rawCmp_preorderOn hN
  | some table =>
    exact (cmp_isTermOrder table).preorderOn (compareAtomsByName_preorderOn table)
      fun _ => ((compareNumbers_preorderOn_iff N).mpr hN).mono fun _ hn => hn.1

theorem rawCmp_number (a b : Number) :
    rawCmp (.number a) (.number b) = compareNumbers a b := by
  rw [rawCmp_isTermOrder.unfold]
  rfl

/-- The orders differ in the order of atoms only, so they tie on the same terms. -/
theorem rawCmp_eq_iff (table : Option AtomTable) (hN : ¬ SharedFloat N) {a b : Value}
    (ha : a ∈ Value.Over N (comparable table)) (hb : b ∈ Value.Over N (comparable table)) :
    rawCmp a b = .eq ↔ order table a b = .eq := by
  cases table with
  | none => rfl
  | some table =>
    refine rawCmp_isTermOrder.tie_iff (cmp_isTermOrder table)
      (fun x hx y hy => (compareAtomsByName_eq_iff table x hx y hy).symm) (rawCmp_preorderOn hN)
      (order_preorderOn (some table) hN) (fun x _ y _ => ?_) ha hb
    rw [rawCmp_number, cmp_number]

end Laws

/-- A compiled update meets the interpreter's: both are refused, or the maps are exactly equal and
the compiled one stores its keys in the term order. -/
def MeetsUpdate (table : Option AtomTable) : PutMapOutcome → PutMapOutcome → Prop
  | .fail label, .fail label' => label = label'
  | .built entries, .built entries' =>
    exactEq (.map entries) (.map entries') = true ∧
      (entries'.map Prod.fst).Pairwise fun a b => (order table a b).isLE
  | _, _ => False

/-- The words staged for the runtime are those the interpreter reads. -/
theorem stagePairs_eq {registers : Registers} {literals : List Word} {items : List Operand}
    {staged pairs : List (Word × Word)} (hstaged : stagePairs registers items = .ok staged)
    (hpairs : readPairs registers literals items = .ok pairs) : staged = pairs := by
  unfold stagePairs at hstaged
  unfold readPairs at hpairs
  generalize chunkPairs items = chunks at hstaged hpairs
  induction chunks generalizing staged pairs with
  | nil =>
    cases hstaged
    cases hpairs
    rfl
  | cons pair rest ih =>
    obtain ⟨_, stagedRest, hstage, hstagedRest, rfl⟩ := except_mapM_cons_ok hstaged
    obtain ⟨_, pairsRest, hpair, hpairsRest, rfl⟩ := except_mapM_cons_ok hpairs
    obtain ⟨key, hkey, hstage⟩ := except_bind_ok_iff.mp hstage
    obtain ⟨value, hvalue, hstage⟩ := except_bind_ok_iff.mp hstage
    obtain ⟨key', hkey', hpair⟩ := except_bind_ok_iff.mp hpair
    obtain ⟨value', hvalue', hpair⟩ := except_bind_ok_iff.mp hpair
    cases hstage
    cases hpair
    rw [readOperandTerm_eq hkey hkey', readOperandTerm_eq hvalue hvalue', ih hstagedRest hpairsRest]

/-- The parts of the compiled update. -/
theorem lowerPutMap_ok {memory : Memory} {registers : Registers} {literals : List Word}
    {labels : List ℕ} {mode : PutMapMode} {fail source destination live : Operand}
    {items : List Operand} {word : Word} {pairs : List (Word × Word)} {compiled : PutMapOutcome}
    (hsource : readTerm registers literals source = .ok word)
    (hpairs : readPairs registers literals items = .ok pairs)
    (h : lowerPutMap memory registers labels mode [fail, source, destination, live, .list items] =
      .ok compiled) :
    ∃ label, items.length % 2 = 0 ∧ operandLabel fail = .ok label ∧
      compiled = (updateWith rawCmp mode (memory.read word) (pairTerms memory pairs)).elim
        (.fail label) .built := by
  obtain ⟨op, hop, htail⟩ := except_bind_ok_iff.mp h
  obtain ⟨name, hname, hafterName⟩ := except_bind_ok_iff.mp htail
  obtain ⟨label, hlabel, hafterLabel⟩ := except_bind_ok_iff.mp hafterName
  obtain ⟨word', hword', hafterSource⟩ := except_bind_ok_iff.mp hafterLabel
  obtain ⟨pairs', hpairs', hresult⟩ := except_bind_ok_iff.mp hafterSource
  rw [parsePutMapOperands] at hop
  split at hop
  · next heven =>
    cases hop
    obtain rfl := readOperandTerm_eq hword' hsource
    obtain rfl := stagePairs_eq hpairs' hpairs
    refine ⟨label, heven, knownLabel_ok (except_bind_ok_iff.mpr ⟨name, hname, hlabel⟩), ?_⟩
    rw [mapUpdate_eq] at hresult
    cases hupdate : updateWith rawCmp mode (memory.read word') (pairTerms memory pairs') with
    | none =>
      rw [hupdate] at hresult
      exact (Except.ok.inj hresult).symm
    | some entries =>
      rw [hupdate] at hresult
      exact (Except.ok.inj hresult).symm
  · cases hop

/-- The orders of the keys agree. -/
def KeysAgree (table : Option AtomTable) (keys : List Value) : Prop :=
  ∀ a ∈ keys, ∀ b ∈ keys, rawCmp a b = order table a b

/-- Stored in the term order, the keys of a compiled update are ordered alike by both orders. -/
theorem keysAgree_of_pairwise {table : Option AtomTable} {N : Set Number} {mode : PutMapMode}
    {source : Value} {updates entries : List (Value × Value)} (hN : ¬ SharedFloat N)
    (hkeys : ∀ k ∈ newKeys source updates, k ∈ Value.Over N (comparable table))
    (hbuilt : updateWith rawCmp mode source updates = some entries)
    (hstored : (entries.map Prod.fst).Pairwise fun a b => (order table a b).isLE) :
    KeysAgree table (newKeys source updates) := by
  rw [keys_updateWith hbuilt] at hstored
  have hsorted : ∀ k ∈ sortBy rawCmp (newKeys source updates),
      k ∈ Value.Over N (comparable table) := fun k hk => hkeys k (mem_sortBy.mp hk)
  have hagree := eq_of_pairwise_isLE (rawCmp_preorderOn hN) (order_preorderOn table hN)
    (fun a ha b hb => rawCmp_eq_iff table hN ha hb) hsorted
    (pairwise_sortBy_of_mem (rawCmp_preorderOn hN) hkeys) hstored
  exact fun a ha b hb => hagree a (mem_sortBy.mpr ha) b (mem_sortBy.mpr hb)

/-- An accepted update compiled code makes is the interpreter's where the orders agree on the keys,
and only there does it store them in the term order. -/
theorem put_map_agrees_iff (memory : Memory) (table : Option AtomTable) (registers : Registers)
    (literals : List Word) (labels : List ℕ) (mode : PutMapMode)
    (fail source destination live : Operand) (items : List Operand) (word : Word)
    (pairs : List (Word × Word)) (compiled : PutMapOutcome)
    (hsource : readTerm registers literals source = .ok word)
    (hpairs : readPairs registers literals items = .ok pairs)
    (hcode : lowerPutMap memory registers labels mode
      [fail, source, destination, live, .list items] = .ok compiled) :
    ∃ interpreted, putMap memory table registers literals mode
        [fail, source, destination, live, .list items] = .ok interpreted ∧
      (Refused mode (memory.read word) (pairTerms memory pairs) ∨
        KeysAgree table (newKeys (memory.read word) (pairTerms memory pairs)) →
          interpreted = compiled) ∧
      ∀ N, ¬ SharedFloat N →
        (∀ k ∈ newKeys (memory.read word) (pairTerms memory pairs),
          k ∈ Value.Over N (comparable table)) →
        (MeetsUpdate table interpreted compiled ↔
          Refused mode (memory.read word) (pairTerms memory pairs) ∨
            KeysAgree table (newKeys (memory.read word) (pairTerms memory pairs))) := by
  obtain ⟨label, heven, hfail, rfl⟩ := lowerPutMap_ok hsource hpairs hcode
  refine ⟨_, putMap_eq table mode heven hsource hpairs hfail, ?_, ?_⟩
  · rintro (hrefused | hagree)
    · rw [(updateWith_eq_none_iff _ _ _ _).mpr hrefused,
        (updateWith_eq_none_iff _ _ _ _).mpr hrefused]
    · rw [updateWith_congr fun a ha b hb => hagree a ha b hb]
  · intro N hN hkeys
    cases hcompiled : updateWith rawCmp mode (memory.read word) (pairTerms memory pairs) with
    | none =>
      have hrefused := (updateWith_eq_none_iff _ _ _ _).mp hcompiled
      rw [(updateWith_eq_none_iff (order table) _ _ _).mpr hrefused]
      exact ⟨fun _ => .inl hrefused, fun _ => rfl⟩
    | some built =>
      have haccepted : ¬ Refused mode (memory.read word) (pairTerms memory pairs) := by
        rw [← updateWith_eq_none_iff rawCmp, hcompiled]
        exact Option.some_ne_none built
      rw [or_iff_right haccepted]
      cases hinterpreted :
          updateWith (order table) mode (memory.read word) (pairTerms memory pairs) with
      | none => exact absurd ((updateWith_eq_none_iff _ _ _ _).mp hinterpreted) haccepted
      | some entries =>
        constructor
        · exact fun hmeets => keysAgree_of_pairwise hN hkeys hcompiled hmeets.2
        · intro hagree
          rw [updateWith_congr fun a ha b hb => hagree a ha b hb, hinterpreted] at hcompiled
          obtain rfl := Option.some.inj hcompiled
          refine ⟨exactEq_refl _, ?_⟩
          rw [keys_updateWith hinterpreted]
          exact pairwise_sortBy_of_mem (order_preorderOn table hN) hkeys

/-- Every pointer leads to the empty map. -/
def emptyMapMemory : Memory where
  object _ := .map []
  boxed _ h := h
  other _ _ h := by cases h

/-- The atom `b`, then the atom `a`. -/
def backwardTable : AtomTable := ⟨[[98], [97]], by decide, by decide⟩

/-- An update of the empty map at address 8. -/
def sampleUpdate (items : List Operand) : List Operand :=
  [.label 1, .x 0, .x 1, .unsigned 1, .list items]

/-- With one key there is nothing to order. -/
theorem put_map_agrees_single :
    putMap emptyMapMemory (some backwardTable) sampleRegisters [] .assoc
        (sampleUpdate [.atom (some 1), .integer 2]) =
      .ok (.built [(emptyMapMemory.read 9, emptyMapMemory.read 16)]) := by
  obtain ⟨interpreted, hrun, hsame, -⟩ := put_map_agrees_iff emptyMapMemory (some backwardTable)
    sampleRegisters [] [1] .assoc (.label 1) (.x 0) (.x 1) (.unsigned 1)
    [.atom (some 1), .integer 2] 12 [(9, 16)]
    (.built [(emptyMapMemory.read 9, emptyMapMemory.read 16)])
    (readTerm_x.mpr ⟨by norm_num, by decide, rfl⟩) rfl rfl
  have hagree : KeysAgree (some backwardTable) [.atom 1] := by
    unfold KeysAgree
    decide +kernel
  rw [← hsame (.inr hagree)]
  exact hrun

/-- Of `b => 1` and `a => 2`, `b` interned first, compiled code stores `b` first. -/
theorem not_put_map_agrees :
    ¬ ∀ (memory : Memory) (table : Option AtomTable) (registers : Registers) (literals : List Word)
      (labels : List ℕ) (mode : PutMapMode) (operands : List Operand)
      (interpreted compiled : PutMapOutcome),
      putMap memory table registers literals mode operands = .ok interpreted →
      lowerPutMap memory registers labels mode operands = .ok compiled →
      MeetsUpdate table interpreted compiled := by
  intro h
  have hmeets : MeetsUpdate (some backwardTable)
      (.built [(.atom 1, emptyMapMemory.read 16), (.atom 0, emptyMapMemory.read 8)])
      (.built [(.atom 0, emptyMapMemory.read 8), (.atom 1, emptyMapMemory.read 16)]) :=
    h emptyMapMemory (some backwardTable) sampleRegisters [] [1] .assoc
      (sampleUpdate [.atom (some 0), .integer 1, .atom (some 1), .integer 2]) _ _ rfl rfl
  have hle := (List.pairwise_cons.mp hmeets.2).1 (.atom 1) (by simp)
  have hgt : cmp backwardTable (.atom 0) (.atom 1) = .gt := by decide +kernel
  rw [show order (some backwardTable) (.atom 0) (.atom 1) = .gt from hgt] at hle
  cases hle

end Beamr.Jit
