import Beamr.Atom
import Beamr.Lib.Entries
import Mathlib.Data.Finset.Basic

/-!
# Process groups

The registry of `distribution::pg`. A group of a scope has members of this node and members that
other nodes advertise. An operation on the local members returns the updates that its caller
broadcasts once the state is unlocked.
-/
namespace Beamr.Distribution

structure RemoteMember where
  node : Atom
  pidNumber : UInt64
  serial : UInt64
  deriving DecidableEq

inductive PgUpdate
  | join (scope group : Atom) (pid : UInt64)
  | leave (scope group : Atom) (pid : UInt64)
  deriving DecidableEq

structure GroupMembers where
  localMembers : Finset UInt64
  remoteMembers : Finset RemoteMember

instance : EmptyCollection GroupMembers := ⟨∅, ∅⟩

/-- The groups by scope and name. -/
structure PgState where
  groups : List ((Atom × Atom) × GroupMembers)
  distinct : Entries.Distinct (· == ·) groups

namespace PgState

instance : EmptyCollection PgState := ⟨[], List.Pairwise.nil⟩

variable (s : PgState) (scope group : Atom)

def members : GroupMembers := (Entries.get (· == ·) s.groups (scope, group)).getD ∅

/-- Puts the members of a group that may be new. -/
def entryOrDefault (f : GroupMembers → GroupMembers) : PgState where
  groups := Entries.put (· == ·) (scope, group) (f (s.members scope group)) s.groups
  distinct := s.distinct.put Entries.sameOn_univ (Entries.over_univ _) trivial _

/-- Edits the members of a group that is there. -/
def getMut (f : GroupMembers → GroupMembers) : PgState where
  groups := Entries.modify (· == ·) (scope, group) f s.groups
  distinct := s.distinct.modify f

/-- Edits every group. -/
def valuesMut (f : GroupMembers → GroupMembers) : PgState where
  groups := Entries.mapValues f s.groups
  distinct := s.distinct.mapValues f

/-! ## Operations -/

def join (pid : UInt64) : List PgUpdate × PgState :=
  (if pid ∈ (s.members scope group).localMembers then [] else [.join scope group pid],
    s.entryOrDefault scope group fun m => { m with localMembers := insert pid m.localMembers })

def leave (pid : UInt64) : List PgUpdate × PgState :=
  (if pid ∈ (s.members scope group).localMembers then [.leave scope group pid] else [],
    s.getMut scope group fun m => { m with localMembers := m.localMembers.erase pid })

def applyRemoteJoin (node : Atom) (pidNumber serial : UInt64) : PgState :=
  s.entryOrDefault scope group fun m =>
    { m with remoteMembers := insert ⟨node, pidNumber, serial⟩ m.remoteMembers }

def applyRemoteLeave (node : Atom) (pidNumber serial : UInt64) : PgState :=
  s.getMut scope group fun m =>
    { m with remoteMembers := m.remoteMembers.erase ⟨node, pidNumber, serial⟩ }

def removePidFromAllScopesLocal (pid : UInt64) : List PgUpdate × PgState :=
  (s.groups.filterMap fun e =>
      if pid ∈ e.2.localMembers then some (.leave e.1.1 e.1.2 pid) else none,
    s.valuesMut fun m => { m with localMembers := m.localMembers.erase pid })

/-! ## What they do to the members -/

section Members

variable {s scope group} {scope' group' : Atom} (f : GroupMembers → GroupMembers)

theorem members_entryOrDefault : (s.entryOrDefault scope group f).members scope' group' =
    if scope = scope' ∧ group = group' then f (s.members scope group)
    else s.members scope' group' := by
  rw [members, entryOrDefault,
    Entries.get_put Entries.sameOn_univ (Entries.over_univ _) trivial trivial]
  by_cases hkey : scope = scope' ∧ group = group'
  · obtain ⟨rfl, rfl⟩ := hkey
    simp
  · rw [if_neg (by simpa using hkey), if_neg hkey, members]

/-- An edit that leaves an empty group empty does the same to groups that are not there. -/
theorem members_getMut (hf : f ∅ = ∅) : (s.getMut scope group f).members scope' group' =
    if scope = scope' ∧ group = group' then f (s.members scope group)
    else s.members scope' group' := by
  rw [members, getMut,
    Entries.get_modify Entries.sameOn_univ (Entries.over_univ _) trivial trivial]
  by_cases hkey : scope = scope' ∧ group = group'
  · obtain ⟨rfl, rfl⟩ := hkey
    rw [if_pos (beq_self_eq_true _), if_pos ⟨rfl, rfl⟩, members]
    cases Entries.get (· == ·) s.groups (scope, group) with
    | none => exact hf.symm
    | some m => rfl
  · rw [if_neg (by simpa using hkey), if_neg hkey, members]

theorem members_valuesMut (hf : f ∅ = ∅) :
    (s.valuesMut f).members scope group = f (s.members scope group) := by
  rw [members, members, valuesMut, Entries.get_mapValues]
  cases Entries.get (· == ·) s.groups (scope, group) with
  | none => exact hf.symm
  | some m => rfl

theorem mem_join {pid pid' : UInt64} :
    pid' ∈ ((s.join scope group pid).2.members scope' group').localMembers ↔
      (scope = scope' ∧ group = group' ∧ pid = pid') ∨
        pid' ∈ (s.members scope' group').localMembers := by
  rw [join, members_entryOrDefault]
  split
  next hkey =>
    rw [Finset.mem_insert, hkey.1, hkey.2]
    simp [eq_comm]
  next hkey =>
    rw [or_iff_right]
    rintro ⟨hscope, hgroup, -⟩
    exact hkey ⟨hscope, hgroup⟩

theorem mem_leave {pid pid' : UInt64} :
    pid' ∈ ((s.leave scope group pid).2.members scope' group').localMembers ↔
      ¬ (scope = scope' ∧ group = group' ∧ pid = pid') ∧
        pid' ∈ (s.members scope' group').localMembers := by
  rw [leave, members_getMut _ rfl]
  split
  next hkey =>
    rw [Finset.mem_erase, hkey.1, hkey.2]
    simp [eq_comm]
  next hkey =>
    rw [and_iff_right]
    rintro ⟨hscope, hgroup, -⟩
    exact hkey ⟨hscope, hgroup⟩

theorem mem_removePid_members {pid pid' : UInt64} :
    pid' ∈ ((s.removePidFromAllScopesLocal pid).2.members scope group).localMembers ↔
      pid' ≠ pid ∧ pid' ∈ (s.members scope group).localMembers := by
  rw [removePidFromAllScopesLocal, members_valuesMut _ rfl, Finset.mem_erase]

theorem localMembers_applyRemoteJoin (node : Atom) (pidNumber serial : UInt64) :
    ((s.applyRemoteJoin scope group node pidNumber serial).members scope' group').localMembers =
      (s.members scope' group').localMembers := by
  rw [applyRemoteJoin, members_entryOrDefault]
  split
  next hkey => rw [hkey.1, hkey.2]
  next => rfl

theorem mem_applyRemoteJoin {node : Atom} {pidNumber serial : UInt64} {m : RemoteMember} :
    m ∈ ((s.applyRemoteJoin scope group node pidNumber serial).members scope' group').remoteMembers ↔
      (scope = scope' ∧ group = group' ∧ m = ⟨node, pidNumber, serial⟩) ∨
        m ∈ (s.members scope' group').remoteMembers := by
  rw [applyRemoteJoin, members_entryOrDefault]
  split
  next hkey =>
    rw [Finset.mem_insert, hkey.1, hkey.2]
    simp
  next hkey =>
    rw [or_iff_right]
    rintro ⟨hscope, hgroup, -⟩
    exact hkey ⟨hscope, hgroup⟩

/-- A remote join changes whether its own member is there, if it was not. -/
theorem applyRemoteJoin_changes {node : Atom} {pidNumber serial : UInt64} {m : RemoteMember} :
    ¬ (m ∈ ((s.applyRemoteJoin scope group node pidNumber serial).members
        scope' group').remoteMembers ↔ m ∈ (s.members scope' group').remoteMembers) ↔
      (scope = scope' ∧ group = group' ∧ m = ⟨node, pidNumber, serial⟩) ∧
        m ∉ (s.members scope' group').remoteMembers := by
  rw [mem_applyRemoteJoin]
  tauto

theorem localMembers_applyRemoteLeave (node : Atom) (pidNumber serial : UInt64) :
    ((s.applyRemoteLeave scope group node pidNumber serial).members scope' group').localMembers =
      (s.members scope' group').localMembers := by
  rw [applyRemoteLeave, members_getMut _ rfl]
  split
  next hkey => rw [hkey.1, hkey.2]
  next => rfl

theorem mem_applyRemoteLeave {node : Atom} {pidNumber serial : UInt64} {m : RemoteMember} :
    m ∈ ((s.applyRemoteLeave scope group node pidNumber serial).members scope' group').remoteMembers ↔
      ¬ (scope = scope' ∧ group = group' ∧ m = ⟨node, pidNumber, serial⟩) ∧
        m ∈ (s.members scope' group').remoteMembers := by
  rw [applyRemoteLeave, members_getMut _ rfl]
  split
  next hkey =>
    rw [Finset.mem_erase, hkey.1, hkey.2]
    simp
  next hkey =>
    rw [and_iff_right]
    rintro ⟨hscope, hgroup, -⟩
    exact hkey ⟨hscope, hgroup⟩

/-- A remote leave changes whether its own member is there, if it was. -/
theorem applyRemoteLeave_changes {node : Atom} {pidNumber serial : UInt64} {m : RemoteMember} :
    ¬ (m ∈ ((s.applyRemoteLeave scope group node pidNumber serial).members
        scope' group').remoteMembers ↔ m ∈ (s.members scope' group').remoteMembers) ↔
      (scope = scope' ∧ group = group' ∧ m = ⟨node, pidNumber, serial⟩) ∧
        m ∈ (s.members scope' group').remoteMembers := by
  rw [mem_applyRemoteLeave]
  tauto

/-- The groups that a process leaves are those it was in. -/
theorem mem_removePid {pid : UInt64} {u : PgUpdate} :
    u ∈ (s.removePidFromAllScopesLocal pid).1 ↔
      ∃ scope group, u = .leave scope group pid ∧ pid ∈ (s.members scope group).localMembers := by
  rw [removePidFromAllScopesLocal, List.mem_filterMap]
  constructor
  · rintro ⟨e, he, hu⟩
    split at hu
    next hpid =>
      refine ⟨e.1.1, e.1.2, (Option.some.inj hu).symm, ?_⟩
      rw [members, Entries.get_of_mem Entries.sameOn_univ (Entries.over_univ _) s.distinct trivial
        he (beq_self_eq_true _)]
      exact hpid
    next => cases hu
  · rintro ⟨scope, group, rfl, hpid⟩
    rw [members] at hpid
    cases hget : Entries.get (· == ·) s.groups (scope, group) with
    | none =>
      rw [hget] at hpid
      exact absurd hpid (Finset.notMem_empty _)
    | some m =>
      rw [hget] at hpid
      obtain ⟨e, he, hkey, rfl⟩ := Entries.exists_of_get hget
      obtain ⟨⟨scope', group'⟩, m⟩ := e
      obtain ⟨rfl, rfl⟩ := Prod.mk.inj (eq_of_beq hkey)
      exact ⟨_, he, if_pos hpid⟩

end Members

end PgState

end Beamr.Distribution
