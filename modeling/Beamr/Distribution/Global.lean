import Beamr.Lib.Entries
import Beamr.Lib.Keep
import Beamr.Term.Order

/-!
# The global name registry

`distribution::global`: registries of one cluster exchange snapshots of their names and settle
conflicts by the name of the owning node, then by the process id. A pid that is registered twice
under one name with two resolvers is a tie, and the entry merged first stays.
-/
namespace Beamr.Distribution

open Comparison Term

@[ext] structure GlobalPid where
  node : Atom
  pidNumber : UInt64
  serial : UInt64
  deriving DecidableEq

structure GlobalNameEntry where
  name : Atom
  pid : GlobalPid
  resolver : Option Value

structure GlobalNameNotification where
  name : Atom
  loser : GlobalPid
  winner : GlobalPid
  resolver : Option Value

inductive GlobalRegistrationOutcome
  | inserted
  | existingWon (notification : GlobalNameNotification)
  | newWon (notification : GlobalNameNotification)
  | unchanged

/-- Resolvers are compared as terms. -/
def sameResolver : Option Value → Option Value → Bool
  | some left, some right => exactEq left right
  | none, none => true
  | _, _ => false

/-- `==` of entries. -/
def sameEntry (left right : GlobalNameEntry) : Bool :=
  left.name == right.name && left.pid == right.pid && sameResolver left.resolver right.resolver

/-! ## Which entry wins -/

section Wins

variable (atoms : AtomTable)

def compareNodeNames (left right : Atom) : Ordering :=
  match atoms.resolve left, atoms.resolve right with
  | some leftName, some rightName => compare leftName rightName
  | some _, none => .lt
  | none, some _ => .gt
  | none, none => compare left right

def entryWins (candidate incumbent : GlobalNameEntry) : Bool :=
  match compareNodeNames atoms candidate.pid.node incumbent.pid.node with
  | .lt => true
  | .gt => false
  | .eq => ((compare candidate.pid.pidNumber incumbent.pid.pidNumber).then
      (compare candidate.pid.serial incumbent.pid.serial)).isLT

end Wins

def loserNotification (winner loser : GlobalNameEntry) : GlobalNameNotification where
  name := winner.name
  loser := loser.pid
  winner := winner.pid
  resolver := winner.resolver.or loser.resolver

/-! ## The registry -/

/-- Names are unique, and each is the name of its entry. -/
structure GlobalNameRegistry where
  entries : List (Atom × GlobalNameEntry)
  notifications : List ((Atom × UInt64 × UInt64) × GlobalNameNotification)
  keyed : ∀ e ∈ entries, e.1 = e.2.name
  distinct : Entries.Distinct (· == ·) entries

namespace GlobalNameRegistry

variable (r : GlobalNameRegistry) (entry : GlobalNameEntry)

def new : GlobalNameRegistry where
  entries := []
  notifications := []
  keyed := List.forall_mem_nil _
  distinct := List.Pairwise.nil

def whereis (name : Atom) : Option GlobalNameEntry := Entries.get (· == ·) r.entries name

theorem keyed_put : ∀ e ∈ Entries.put (· == ·) entry.name entry r.entries, e.1 = e.2.name := by
  intro e he
  rcases Entries.mem_put _ he with rfl | he
  · rfl
  · exact r.keyed e he

theorem distinct_put :
    Entries.Distinct (· == ·) (Entries.put (· == ·) entry.name entry r.entries) :=
  r.distinct.put Entries.sameOn_univ (Entries.over_univ _) trivial entry

def insert : GlobalNameRegistry where
  entries := Entries.put (· == ·) entry.name entry r.entries
  notifications := r.notifications
  keyed := r.keyed_put entry
  distinct := r.distinct_put entry

def recordNotification (notification : GlobalNameNotification) : GlobalNameRegistry where
  entries := r.entries
  notifications := Entries.put (· == ·)
    (notification.name, notification.loser.pidNumber, notification.loser.serial) notification
    r.notifications
  keyed := r.keyed
  distinct := r.distinct

/-- Entries in the order of this map; `DashMap` may yield them in any order. -/
def snapshot : List GlobalNameEntry := r.entries.map (·.2)

variable (atoms : AtomTable)

def mergeEntry (incoming : GlobalNameEntry) : GlobalRegistrationOutcome × GlobalNameRegistry :=
  match r.whereis incoming.name with
  | none => (.inserted, r.insert incoming)
  | some existing =>
    if sameEntry existing incoming then (.unchanged, r)
    else if !entryWins atoms incoming existing then
      let notification := loserNotification existing incoming
      (.existingWon notification, r.recordNotification notification)
    else
      let notification := loserNotification incoming existing
      (.newWon notification, (r.insert incoming).recordNotification notification)

end GlobalNameRegistry

/-- Merges the entries in the order given. -/
def GlobalNameRegistry.mergeSnapshot (atoms : AtomTable) : GlobalNameRegistry →
    List GlobalNameEntry → List GlobalRegistrationOutcome × GlobalNameRegistry
  | r, [] => ([], r)
  | r, incoming :: rest =>
    let (outcome, merged) := r.mergeEntry atoms incoming
    let (outcomes, merged) := mergeSnapshot atoms merged rest
    (outcome :: outcomes, merged)

/-- Registries that can be built from the entries seen: single entries and snapshots of other
registries are merged in any order, and a snapshot lists its entries in any order. -/
inductive Merged (atoms : AtomTable) : List GlobalNameEntry → GlobalNameRegistry → Prop
  | new : Merged atoms [] .new
  | entry {seen : List GlobalNameEntry} {r : GlobalNameRegistry} (e : GlobalNameEntry)
      (hr : Merged atoms seen r) : Merged atoms (e :: seen) (r.mergeEntry atoms e).2
  | snapshot {seen seen' : List GlobalNameEntry} {r r' : GlobalNameRegistry}
      {entries : List GlobalNameEntry} (hr : Merged atoms seen r) (hr' : Merged atoms seen' r')
      (hentries : entries.Perm r'.snapshot) :
      Merged atoms (seen' ++ seen) (r.mergeSnapshot atoms entries).2

/-! ## The order of entries -/

theorem sameResolver_refl (resolver : Option Value) : sameResolver resolver resolver = true := by
  cases resolver with
  | none => rfl
  | some term => simp [sameResolver, exactEq, exactCmp_preorderOn.refl (Set.mem_univ term)]

theorem sameEntry_refl (e : GlobalNameEntry) : sameEntry e e = true := by
  simp [sameEntry, sameResolver_refl]

section Order

variable (atoms : AtomTable)

/-- Node names first, then the process id. -/
def compareEntries (left right : GlobalNameEntry) : Ordering :=
  (compareNodeNames atoms left.pid.node right.pid.node).then <|
    (compare left.pid.pidNumber right.pid.pidNumber).then
      (compare left.pid.serial right.pid.serial)

theorem compareNodeNames_eq (left right : Atom) : compareNodeNames atoms left right =
    (compare (atoms.resolve left).isNone (atoms.resolve right).isNone).then
      ((compare (atoms.resolve left) (atoms.resolve right)).then (compare left right)) := by
  rw [compareNodeNames]
  cases hl : atoms.resolve left with
  | none => cases hr : atoms.resolve right <;> rfl
  | some leftName =>
    cases hr : atoms.resolve right with
    | none => rfl
    | some rightName =>
      have hnames : compare (some leftName) (some rightName) = compare leftName rightName := rfl
      simp only [Option.isNone_some, Std.ReflOrd.compare_self, Ordering.eq_then, hnames]
      cases hc : compare leftName rightName with
      | lt => rfl
      | gt => rfl
      | eq =>
        -- no two atoms carry one name
        have hname : leftName = rightName := Std.LawfulEqOrd.eq_of_compare hc
        subst hname
        have hatom := (AtomTable.lookup_of_resolve hl).symm.trans (AtomTable.lookup_of_resolve hr)
        cases hatom
        simp

theorem compareNodeNames_preorderOn : PreorderOn Set.univ (compareNodeNames atoms) := by
  have h : compareNodeNames atoms = fun left right =>
      (compare (atoms.resolve left).isNone (atoms.resolve right).isNone).then
        ((compare (atoms.resolve left) (atoms.resolve right)).then (compare left right)) := by
    funext left right
    exact compareNodeNames_eq atoms left right
  rw [h]
  exact (PreorderOn.of_key _ fun a => (atoms.resolve a).isNone).thenBy
    ((PreorderOn.of_key _ atoms.resolve).thenBy (PreorderOn.of_ord _))

theorem eq_of_compareNodeNames {left right : Atom} (h : compareNodeNames atoms left right = .eq) :
    left = right := by
  rw [compareNodeNames_eq, Ordering.then_eq_eq, Ordering.then_eq_eq] at h
  exact Std.LawfulEqOrd.eq_of_compare h.2.2

theorem compareEntries_preorderOn : PreorderOn Set.univ (compareEntries atoms) :=
  ((compareNodeNames_preorderOn atoms).comap (fun e : GlobalNameEntry => e.pid.node)
    (fun _ _ => trivial) fun _ _ _ _ => rfl).thenBy
    ((PreorderOn.of_key _ fun e : GlobalNameEntry => e.pid.pidNumber).thenBy
      (PreorderOn.of_key _ fun e : GlobalNameEntry => e.pid.serial))

theorem compareEntries_eq_iff {left right : GlobalNameEntry} :
    compareEntries atoms left right = .eq ↔ left.pid = right.pid := by
  constructor
  · intro h
    rw [compareEntries, Ordering.then_eq_eq, Ordering.then_eq_eq] at h
    obtain ⟨hnode, hnumber, hserial⟩ := h
    exact GlobalPid.ext (eq_of_compareNodeNames atoms hnode)
      (Std.LawfulEqOrd.eq_of_compare hnumber) (Std.LawfulEqOrd.eq_of_compare hserial)
  · intro h
    rw [compareEntries, h, (compareNodeNames_preorderOn atoms).refl (Set.mem_univ _)]
    simp

theorem entryWins_iff {candidate incumbent : GlobalNameEntry} :
    entryWins atoms candidate incumbent = true ↔
      compareEntries atoms candidate incumbent = .lt := by
  rw [entryWins, compareEntries]
  cases compareNodeNames atoms candidate.pid.node incumbent.pid.node with
  | lt => simp
  | gt => simp
  | eq => simp [Ordering.isLT_iff_eq_lt]

end Order

/-! ## What a merge keeps -/

namespace GlobalNameRegistry

variable {atoms : AtomTable} {r : GlobalNameRegistry}

theorem whereis_insert (entry : GlobalNameEntry) (name : Atom) :
    (r.insert entry).whereis name = if entry.name = name then some entry else r.whereis name := by
  rw [whereis, insert, Entries.get_put Entries.sameOn_univ (Entries.over_univ _) trivial trivial]
  simp only [beq_iff_eq]
  rfl

theorem name_of_whereis {name : Atom} {entry : GlobalNameEntry}
    (h : r.whereis name = some entry) : entry.name = name := by
  obtain ⟨e, he, hname, rfl⟩ := Entries.exists_of_get h
  rw [← r.keyed e he]
  exact beq_iff_eq.mp hname

theorem mem_snapshot {entry : GlobalNameEntry} :
    entry ∈ r.snapshot ↔ r.whereis entry.name = some entry := by
  rw [whereis, Entries.get_eq_some_iff Entries.sameOn_univ (Entries.over_univ _) r.distinct trivial,
    snapshot, List.mem_map]
  refine exists_congr fun e => and_congr_right fun he => ⟨?_, And.right⟩
  rintro rfl
  exact ⟨beq_iff_eq.mpr (r.keyed e he), rfl⟩

/-- A merge keeps the first of the two entries under the name and touches no other name. -/
theorem whereis_mergeEntry (incoming : GlobalNameEntry) (name : Atom) :
    (r.mergeEntry atoms incoming).2.whereis name =
      if incoming.name = name then keep (compareEntries atoms) (r.whereis name) incoming
      else r.whereis name := by
  by_cases hname : incoming.name = name
  · subst hname
    rw [if_pos rfl, mergeEntry]
    cases hw : r.whereis incoming.name with
    | none => simp only [whereis_insert, keep, if_true]
    | some existing =>
      dsimp only
      rw [keep]
      split
      next hsame =>
        -- an equal entry has the same pid, so it does not come before
        have hpid : existing.pid = incoming.pid := by
          rw [sameEntry, Bool.and_eq_true, Bool.and_eq_true, beq_iff_eq, beq_iff_eq] at hsame
          exact hsame.1.2
        rw [(compareEntries_eq_iff atoms).mpr hpid.symm, hw]
        rfl
      next hother =>
        by_cases hwins : entryWins atoms incoming existing = true
        · rw [if_pos ((entryWins_iff atoms).mp hwins)]
          simp only [hwins, Bool.not_true, Bool.false_eq_true, if_false]
          exact (whereis_insert incoming incoming.name).trans (if_pos rfl)
        · rw [if_neg fun h => hwins ((entryWins_iff atoms).mpr h)]
          simp only [hwins, Bool.not_false, if_true]
          exact hw
  · rw [if_neg hname, mergeEntry]
    cases r.whereis incoming.name with
    | none => rw [whereis_insert, if_neg hname]
    | some existing =>
      dsimp only
      split
      · rfl
      · split
        · rfl
        · exact (whereis_insert incoming name).trans (if_neg hname)

/-- The entries of one name. -/
def named (name : Atom) (seen : List GlobalNameEntry) : Set GlobalNameEntry :=
  {e | e ∈ seen ∧ e.name = name}

theorem firstOf_mergeEntry {seen : List GlobalNameEntry} {name : Atom}
    (h : FirstOf (compareEntries atoms) (named name seen) (r.whereis name))
    (incoming : GlobalNameEntry) :
    FirstOf (compareEntries atoms) (named name (incoming :: seen))
      ((r.mergeEntry atoms incoming).2.whereis name) := by
  rw [whereis_mergeEntry]
  split
  next hname =>
    have hnamed : named name (incoming :: seen) = Insert.insert incoming (named name seen) := by
      ext e
      simp only [named, List.mem_cons, Set.mem_ofPred_eq, Set.mem_insert_iff]
      constructor
      · rintro ⟨rfl | he, hn⟩
        · exact .inl rfl
        · exact .inr ⟨he, hn⟩
      · rintro (rfl | ⟨he, hn⟩)
        · exact ⟨.inl rfl, hname⟩
        · exact ⟨.inr he, hn⟩
    rw [hnamed]
    exact h.keep (compareEntries_preorderOn atoms) incoming
  next hname =>
    have hnamed : named name (incoming :: seen) = named name seen := by
      ext e
      simp only [named, List.mem_cons, Set.mem_ofPred_eq]
      constructor
      · rintro ⟨rfl | he, hn⟩
        · exact absurd hn hname
        · exact ⟨he, hn⟩
      · rintro ⟨he, hn⟩
        exact ⟨.inr he, hn⟩
    rw [hnamed]
    exact h

theorem firstOf_mergeSnapshot {seen : List GlobalNameEntry} {name : Atom}
    (h : FirstOf (compareEntries atoms) (named name seen) (r.whereis name))
    (entries : List GlobalNameEntry) :
    FirstOf (compareEntries atoms) (named name (entries ++ seen))
      ((r.mergeSnapshot atoms entries).2.whereis name) := by
  induction entries generalizing r seen with
  | nil => exact h
  | cons incoming rest ih =>
    have hrest := ih (firstOf_mergeEntry h incoming)
    have hnamed : named name (rest ++ incoming :: seen) = named name (incoming :: rest ++ seen) := by
      ext e
      simp only [named, List.mem_append, List.mem_cons, Set.mem_ofPred_eq]
      tauto
    rw [← hnamed]
    exact hrest

/-- Merging entries that are already there changes nothing. -/
theorem mergeSnapshot_of_mem {entries : List GlobalNameEntry} (h : ∀ e ∈ entries, e ∈ r.snapshot) :
    (r.mergeSnapshot atoms entries).2 = r := by
  induction entries with
  | nil => rfl
  | cons e rest ih =>
    have hfound : r.whereis e.name = some e := mem_snapshot.mp (h e (List.mem_cons_self ..))
    have hmerge : (r.mergeEntry atoms e).2 = r := by
      rw [mergeEntry, hfound]
      simp only [sameEntry_refl, if_true]
    have hrest := ih fun x hx => h x (List.mem_cons_of_mem _ hx)
    simp only [mergeSnapshot, hmerge, hrest]

end GlobalNameRegistry

open GlobalNameRegistry

/-- Under each name a registry holds a first one of the entries it has seen. -/
theorem Merged.firstOf {atoms : AtomTable} {seen : List GlobalNameEntry} {r : GlobalNameRegistry}
    (h : Merged atoms seen r) (name : Atom) :
    FirstOf (compareEntries atoms) (named name seen) (r.whereis name) := by
  induction h with
  | new =>
    refine Set.eq_empty_of_forall_notMem ?_
    rintro e ⟨he, -⟩
    cases he
  | entry e hr ih => exact firstOf_mergeEntry ih e
  | @snapshot seen seen' r r' entries hr hr' hentries ih ih' =>
    have hpreorder := compareEntries_preorderOn atoms
    have hmem : ∀ e ∈ entries, r'.whereis e.name = some e := fun e he =>
      mem_snapshot.mp (hentries.mem_iff.mp he)
    refine (firstOf_mergeSnapshot ih entries).mono hpreorder ?_ ?_
    · rintro e ⟨he, hname⟩
      refine ⟨?_, hname⟩
      rcases List.mem_append.mp he with he | he
      · subst hname
        rw [hmem e he] at ih'
        exact List.mem_append_left _ ih'.1.1
      · exact List.mem_append_right _ he
    · rintro e ⟨he, hname⟩
      rcases List.mem_append.mp he with he | he
      · -- the other registry holds a first one of its own, and the snapshot lists it
        cases hw : r'.whereis name with
        | none =>
          rw [hw] at ih'
          have hnone : named name seen' = ∅ := ih'
          have hin : e ∈ named name seen' := ⟨he, hname⟩
          rw [hnone] at hin
          exact absurd hin (Set.notMem_empty e)
        | some a =>
          rw [hw] at ih'
          have ha : a.name = name := name_of_whereis hw
          have hlisted : a ∈ r'.snapshot := by rw [mem_snapshot, ha]; exact hw
          exact ⟨a, ⟨List.mem_append_left _ (hentries.mem_iff.mpr hlisted), ha⟩,
            ih'.2 e ⟨he, hname⟩⟩
      · refine ⟨e, ⟨List.mem_append_right _ he, hname⟩, ?_⟩
        rw [hpreorder.refl (Set.mem_univ e)]
        rfl

/-! ## Convergence -/

/-- `==` of what two registries hold under a name. -/
def sameHolding : Option GlobalNameEntry → Option GlobalNameEntry → Bool
  | some left, some right => sameEntry left right
  | none, none => true
  | _, _ => false

/-- An entry that no merged entry comes before stays. -/
theorem whereis_mergeSnapshot_of_first {atoms : AtomTable} {r : GlobalNameRegistry}
    {e : GlobalNameEntry} {entries : List GlobalNameEntry} (h : r.whereis e.name = some e)
    (hfirst : ∀ b ∈ entries, b.name = e.name → entryWins atoms b e = false) :
    (r.mergeSnapshot atoms entries).2.whereis e.name = some e := by
  induction entries generalizing r with
  | nil => exact h
  | cons b rest ih =>
    have hb : (r.mergeEntry atoms b).2.whereis e.name = some e := by
      rw [whereis_mergeEntry, h]
      split
      next hname =>
        have hloses := hfirst b (List.mem_cons_self ..) hname
        have hnot : compareEntries atoms b e ≠ .lt := by
          intro hlt
          rw [(entryWins_iff atoms).mpr hlt] at hloses
          cases hloses
        exact if_neg hnot
      next => rfl
    exact ih hb fun x hx => hfirst x (List.mem_cons_of_mem _ hx)

theorem Merged.mergeSnapshot {atoms : AtomTable} {seen : List GlobalNameEntry}
    {r : GlobalNameRegistry} (h : Merged atoms seen r) (entries : List GlobalNameEntry) :
    Merged atoms (entries.reverse ++ seen) (r.mergeSnapshot atoms entries).2 := by
  induction entries generalizing r seen with
  | nil => exact h
  | cons e rest ih =>
    have hrest := ih (h.entry e)
    rw [List.reverse_cons, List.append_assoc]
    exact hrest

/-- A registry that merged `e` before all the others holds it when nothing wins over it. -/
theorem exists_merged_holding {atoms : AtomTable} {entries : List GlobalNameEntry}
    {e : GlobalNameEntry} (he : e ∈ entries)
    (hfirst : ∀ b ∈ entries, b.name = e.name → entryWins atoms b e = false) :
    ∃ seen r, Merged atoms seen r ∧ (∀ x, x ∈ seen ↔ x ∈ entries) ∧
      r.whereis e.name = some e := by
  refine ⟨entries.reverse ++ [e], _, (Merged.new.entry e).mergeSnapshot entries, fun x => ?_,
    whereis_mergeSnapshot_of_first ?_ hfirst⟩
  · rw [List.mem_append, List.mem_reverse, List.mem_singleton]
    constructor
    · rintro (hx | rfl)
      · exact hx
      · exact he
    · exact .inl
  · exact (whereis_mergeEntry e e.name).trans (if_pos rfl)

theorem entryWins_congr {atoms : AtomTable} {b e e' : GlobalNameEntry} (h : e.pid = e'.pid) :
    entryWins atoms b e = entryWins atoms b e' := by
  rw [entryWins, entryWins, h]

/-- Registries that have seen the same entries, in any order and grouping and any number of
times, hold the same entries exactly when no pid that is first under a name comes with two
resolvers. Merging its own snapshot never changes a registry. -/
theorem merge_converges_iff (atoms : AtomTable) (entries : List GlobalNameEntry) :
    ((∀ seen seen' r r', Merged atoms seen r → Merged atoms seen' r' →
        (∀ e, e ∈ seen ↔ e ∈ entries) → (∀ e, e ∈ seen' ↔ e ∈ entries) →
        ∀ name, sameHolding (r.whereis name) (r'.whereis name) = true) ∧
      ∀ seen r own, Merged atoms seen r → own.Perm r.snapshot →
        (r.mergeSnapshot atoms own).2 = r) ↔
    ∀ e ∈ entries, ∀ e' ∈ entries, e.name = e'.name → e.pid = e'.pid →
      sameResolver e.resolver e'.resolver = false →
      ∃ b ∈ entries, b.name = e.name ∧ entryWins atoms b e = true := by
  constructor
  · rintro ⟨hconverge, -⟩ e he e' he' hname hpid hresolver
    by_contra hnone
    have hfirst : ∀ b ∈ entries, b.name = e.name → entryWins atoms b e = false := by
      intro b hb hbname
      rw [Bool.eq_false_iff]
      exact fun hwins => hnone ⟨b, hb, hbname, hwins⟩
    have hfirst' : ∀ b ∈ entries, b.name = e'.name → entryWins atoms b e' = false := by
      intro b hb hbname
      rw [← entryWins_congr hpid]
      exact hfirst b hb (hbname.trans hname.symm)
    obtain ⟨seen, r, hr, hseen, hholds⟩ := exists_merged_holding he hfirst
    obtain ⟨seen', r', hr', hseen', hholds'⟩ := exists_merged_holding he' hfirst'
    have hsame := hconverge seen seen' r r' hr hr' hseen hseen' e.name
    rw [hholds, hname, hholds', sameHolding, sameEntry, hresolver, Bool.and_false] at hsame
    cases hsame
  · intro hresolvers
    refine ⟨?_, ?_⟩
    · intro seen seen' r r' hr hr' hseen hseen' name
      have hnamed : ∀ s : List GlobalNameEntry, (∀ e, e ∈ s ↔ e ∈ entries) →
          named name s = named name entries := by
        intro s hs
        ext e
        exact and_congr_left fun _ => hs e
      have hfirst := hr.firstOf name
      have hfirst' := hr'.firstOf name
      rw [hnamed seen hseen] at hfirst
      rw [hnamed seen' hseen'] at hfirst'
      rcases hfirst.tie (compareEntries_preorderOn atoms) hfirst' with
        ⟨hnone, hnone'⟩ | ⟨a, ⟨ha, haname⟩, b, ⟨hb, hbname⟩, hholds, hholds', htie⟩
      · rw [hnone, hnone']
        rfl
      · have hpid := (compareEntries_eq_iff atoms).mp htie
        rw [hholds] at hfirst
        rw [hholds, hholds', sameHolding, sameEntry, haname, hbname, hpid]
        simp only [beq_self_eq_true, Bool.true_and]
        by_contra hdiffer
        obtain ⟨x, hx, hxname, hwins⟩ := hresolvers a ha b hb (haname.trans hbname.symm) hpid
          (Bool.eq_false_iff.mpr hdiffer)
        -- what is kept cannot come after another entry
        have hle := hfirst.2 x ⟨hx, hxname.trans haname⟩
        rw [(compareEntries_preorderOn atoms).swap x trivial a trivial,
          (entryWins_iff atoms).mp hwins] at hle
        cases hle
    · intro seen r own hr hown
      exact mergeSnapshot_of_mem fun e he => hown.mem_iff.mp he

/-- One pid registered under `ok` without a resolver and with the resolver `ok`. -/
theorem not_merge_converges :
    ∃ (atoms : AtomTable) (e e' : GlobalNameEntry) (r r' : GlobalNameRegistry),
      Merged atoms [e, e'] r ∧ Merged atoms [e', e] r' ∧
      sameHolding (r.whereis 0) (r'.whereis 0) = false := by
  refine ⟨.withCommonAtoms, ⟨0, ⟨0, 1, 0⟩, none⟩, ⟨0, ⟨0, 1, 0⟩, some (.atom 0)⟩, _, _,
    (Merged.new.entry _).entry _, (Merged.new.entry _).entry _, ?_⟩
  rw [whereis_mergeEntry, whereis_mergeEntry, whereis_mergeEntry, whereis_mergeEntry]
  rfl

end Beamr.Distribution
