import Beamr.Distribution.PgFrame
import Beamr.Lib.Replay
import Beamr.Lib.Runs

/-!
# Propagation of process groups

Two connected nodes. The first changes its members under a lock and broadcasts the updates after
it has let go of it, so the broadcasts of two threads can overtake each other. The other node
applies the frames in the order they arrive in.
-/
namespace Beamr.Distribution

open Etf Term

/-- The first node with its atoms and its name, and what the other node receives with. -/
structure Cluster (H : Type) where
  table : AtomTable
  localNode : Atom
  heap : ControlHeap H
  inflate : InflateStream
  sinks : ControlSinks
  pg : sinks.pg = true

/-- The registry of the first node, its updates that are not broadcast yet in the order of the
changes, the frames in flight, and the other node. -/
structure Propagation where
  pg : PgState
  outstanding : List PgUpdate
  channel : List (List UInt8)
  other : Received

inductive PgAction
  | join (scope group : Atom) (pid : UInt64)
  | leave (scope group : Atom) (pid : UInt64)
  | exit (pid : UInt64)
  /-- Any of the updates: each belongs to a thread of its own, and those of an exiting process come
  in the order of a hash map. -/
  | broadcast (i : ℕ)
  | deliver
  deriving DecidableEq

namespace Cluster

variable {H : Type} (c : Cluster H)

def encode (update : PgUpdate) : Except EncodeError (List UInt8) :=
  encodePgUpdateFrame c.table update c.localNode

/-- A broadcast that cannot be encoded is dropped. -/
def broadcast (update : PgUpdate) (channel : List (List UInt8)) : List (List UInt8) :=
  match c.encode update with
  | .error _ => channel
  | .ok frame => channel ++ [frame]

def receive (frame : List UInt8) (r : Received) : Received :=
  match splitFrame frame with
  | .error _ => r
  | .ok (control, payload) => (dispatchFrame c.heap c.inflate c.sinks control payload r).2

def step (s : Propagation) : PgAction → Propagation
  | .join scope group pid =>
    let (updates, pg) := s.pg.join scope group pid
    { s with pg, outstanding := s.outstanding ++ updates }
  | .leave scope group pid =>
    let (updates, pg) := s.pg.leave scope group pid
    { s with pg, outstanding := s.outstanding ++ updates }
  | .exit pid =>
    let (updates, pg) := s.pg.removePidFromAllScopesLocal pid
    { s with pg, outstanding := s.outstanding ++ updates }
  | .broadcast i =>
    match s.outstanding[i]? with
    | none => s
    | some update => { s with
        outstanding := s.outstanding.eraseIdx i
        channel := c.broadcast update s.channel }
  | .deliver =>
    match s.channel with
    | [] => s
    | frame :: rest => { s with channel := rest, other := c.receive frame s.other }

end Cluster

/-! ## Views -/

/-- A process as a member of a group, under the names of the first node. -/
abbrev MemberKey := Atom × Atom × UInt64

def PgUpdate.key : PgUpdate → MemberKey
  | .join scope group pid => (scope, group, pid)
  | .leave scope group pid => (scope, group, pid)

/-- Whether the process is a member afterwards. -/
def PgUpdate.joins : PgUpdate → Prop
  | .join _ _ _ => True
  | .leave _ _ _ => False

def PgState.localView (pg : PgState) (k : MemberKey) : Prop :=
  k.2.2 ∈ (pg.members k.1 k.2.1).localMembers

section Views

variable {H : Type} (c : Cluster H)

/-- The member as the other node has it, under its own atoms for the same names. -/
def Cluster.remoteView (r : Received) (k : MemberKey) : Prop :=
  ∃ a b n, SameName c.table r.atoms k.1 a ∧ SameName c.table r.atoms k.2.1 b ∧
    SameName c.table r.atoms c.localNode n ∧ ⟨n, k.2.2, 0⟩ ∈ (r.pg.members a b).remoteMembers

/-- What the other node attributes to the first node are processes, and groups the first node has
names for. -/
def Cluster.Attributed (r : Received) : Prop :=
  ∀ a b m, m ∈ (r.pg.members a b).remoteMembers → SameName c.table r.atoms c.localNode m.node →
    m.serial = 0 ∧ ∃ scope group, SameName c.table r.atoms scope a ∧ SameName c.table r.atoms group b

/-- The other node has the members of the first node, group by group, and no more of them. -/
structure Cluster.Agree (s : Propagation) : Prop where
  members : ∀ scope group pid,
    c.remoteView s.other (scope, group, pid) ↔ pid ∈ (s.pg.members scope group).localMembers
  attributed : c.Attributed s.other

/-- Every atom in the groups is interned. -/
def Received.Named (r : Received) : Prop :=
  ∀ a b m, m ∈ (r.pg.members a b).remoteMembers →
    (∃ name, r.atoms.resolve a = some name) ∧ (∃ name, r.atoms.resolve b = some name) ∧
      ∃ name, r.atoms.resolve m.node = some name

/-- An update is broadcast before no earlier one of the same member, and its frame can be encoded. -/
def Cluster.Ordered (s : Propagation) : PgAction → Prop
  | .broadcast i => ∀ update, s.outstanding[i]? = some update →
      (∃ frame, c.encode update = .ok frame) ∧ ∀ v ∈ s.outstanding.take i, v.key ≠ update.key
  | _ => True

end Views

/-! ## The first node -/

section First

variable {pg : PgState} {scope group : Atom} {pid : UInt64}

/-- The updates of an operation turn the old view into the new one. -/
def Records (pg : PgState) (result : List PgUpdate × PgState) : Prop :=
  Replay.settle PgUpdate.key PgUpdate.joins pg.localView result.1 = result.2.localView

/-- Updates of one kind, of just the members that change. -/
theorem records_of {result : List PgUpdate × PgState} {b : Prop}
    (hvalue : ∀ u ∈ result.1, u.joins = b)
    (hchanged : ∀ u ∈ result.1, result.2.localView u.key = b)
    (hsame : ∀ k, (¬ ∃ u ∈ result.1, u.key = k) → result.2.localView k = pg.localView k) :
    Records pg result := by
  funext k
  have hconst := Replay.settle_const PgUpdate.key pg.localView hvalue k
  rcases hconst with ⟨h, u, hu, rfl⟩ | ⟨h, hnone⟩
  · exact h.trans (hchanged u hu).symm
  · exact h.trans (hsame k hnone).symm

theorem records_join : Records pg (pg.join scope group pid) := by
  have hview : ∀ k, (pg.join scope group pid).2.localView k ↔
      (scope, group, pid) = k ∨ pg.localView k := by
    rintro ⟨scope', group', pid'⟩
    rw [PgState.localView, PgState.mem_join, Prod.mk.injEq, Prod.mk.injEq]
    exact Iff.rfl
  by_cases hin : pg.localView (scope, group, pid)
  · have hupdates : (pg.join scope group pid).1 = [] := if_pos hin
    refine records_of (b := True) (by simp [hupdates]) (by simp [hupdates]) ?_
    intro k _
    rw [eq_iff_iff, hview k, or_iff_right_iff_imp]
    rintro rfl
    exact hin
  · have hupdates : (pg.join scope group pid).1 = [.join scope group pid] := if_neg hin
    refine records_of (b := True) (by simp [hupdates, PgUpdate.joins]) ?_ ?_
    · intro u hu
      obtain rfl := List.mem_singleton.mp (hupdates ▸ hu)
      exact eq_true ((hview _).mpr (.inl rfl))
    · intro k hk
      rw [eq_iff_iff, hview k, or_iff_right]
      rintro rfl
      exact hk ⟨_, by rw [hupdates]; exact List.mem_singleton_self _, rfl⟩

theorem records_leave : Records pg (pg.leave scope group pid) := by
  have hview : ∀ k, (pg.leave scope group pid).2.localView k ↔
      (scope, group, pid) ≠ k ∧ pg.localView k := by
    rintro ⟨scope', group', pid'⟩
    rw [PgState.localView, PgState.mem_leave, ne_eq, Prod.mk.injEq, Prod.mk.injEq]
    exact Iff.rfl
  by_cases hin : pg.localView (scope, group, pid)
  · have hupdates : (pg.leave scope group pid).1 = [.leave scope group pid] := if_pos hin
    refine records_of (b := False) (by simp [hupdates, PgUpdate.joins]) ?_ ?_
    · intro u hu
      obtain rfl := List.mem_singleton.mp (hupdates ▸ hu)
      exact eq_false fun h => ((hview _).mp h).1 rfl
    · intro k hk
      rw [eq_iff_iff, hview k, and_iff_right]
      rintro rfl
      exact hk ⟨_, by rw [hupdates]; exact List.mem_singleton_self _, rfl⟩
  · have hupdates : (pg.leave scope group pid).1 = [] := if_neg hin
    refine records_of (b := False) (by simp [hupdates]) (by simp [hupdates]) ?_
    intro k _
    rw [eq_iff_iff, hview k, and_iff_right_iff_imp]
    rintro hk rfl
    exact hin hk

theorem records_exit : Records pg (pg.removePidFromAllScopesLocal pid) := by
  have hview : ∀ k, (pg.removePidFromAllScopesLocal pid).2.localView k ↔
      k.2.2 ≠ pid ∧ pg.localView k :=
    fun _ => PgState.mem_removePid_members
  refine records_of (b := False) ?_ ?_ ?_
  · intro u hu
    obtain ⟨scope, group, rfl, -⟩ := PgState.mem_removePid.mp hu
    rfl
  · intro u hu
    obtain ⟨scope, group, rfl, -⟩ := PgState.mem_removePid.mp hu
    exact eq_false fun h => ((hview _).mp h).1 rfl
  · rintro ⟨scope, group, pid'⟩ hk
    rw [eq_iff_iff, hview, and_iff_right_iff_imp]
    rintro hin rfl
    exact hk ⟨_, PgState.mem_removePid.mpr ⟨scope, group, rfl, hin⟩, rfl⟩

end First

/-! ## The other node -/

section Other

variable {H : Type} {c : Cluster H}

theorem SameName.inj_right {t u : AtomTable} {a b b' : Atom} (h : SameName t u a b)
    (h' : SameName t u a b') : b = b' := by
  obtain ⟨name, ha, hb⟩ := h
  obtain ⟨name', ha', hb'⟩ := h'
  obtain rfl := Option.some.inj (ha.symm.trans ha')
  exact Option.some.inj ((AtomTable.lookup_of_resolve hb).symm.trans
    (AtomTable.lookup_of_resolve hb'))

theorem SameName.inj_left {t u : AtomTable} {a a' b : Atom} (h : SameName t u a b)
    (h' : SameName t u a' b) : a = a' := by
  obtain ⟨name, ha, hb⟩ := h
  obtain ⟨name', ha', hb'⟩ := h'
  obtain rfl := Option.some.inj (hb.symm.trans hb')
  exact Option.some.inj ((AtomTable.lookup_of_resolve ha).symm.trans
    (AtomTable.lookup_of_resolve ha'))

/-- An atom that was interned before names what it named. -/
theorem SameName.shrink {t u v : AtomTable} {a b : Atom} (h : SameName t v a b)
    (hv : v.Extends u) {name : List UInt8} (hb : u.resolve b = some name) : SameName t u a b := by
  obtain ⟨name', ha, hb'⟩ := h
  obtain rfl := Option.some.inj ((hv.resolve hb).symm.trans hb')
  exact ⟨name, ha, hb⟩

/-- The members after a frame: the one it is about, and the others as before. -/
theorem mem_apply {pg : PgState} {a b n a' b' : Atom} {update : PgUpdate} {m : RemoteMember} :
    m ∈ ((pg.apply a b n update).members a' b').remoteMembers ↔
      if a = a' ∧ b = b' ∧ m = ⟨n, update.key.2.2, 0⟩ then update.joins
      else m ∈ (pg.members a' b').remoteMembers := by
  cases update with
  | join scope group pid =>
    rw [PgState.apply, PgState.mem_applyRemoteJoin]
    split
    next h => exact iff_of_true (.inl h) trivial
    next h => exact or_iff_right h
  | leave scope group pid =>
    rw [PgState.apply, PgState.mem_applyRemoteLeave]
    split
    next h => exact iff_of_false (fun hm => hm.1 h) id
    next h => exact and_iff_right h

theorem key_eq (update : PgUpdate) : update.key = (update.scope, update.group, update.key.2.2) := by
  cases update <;> rfl

variable {r : Received} {atoms : AtomTable} {a b n : Atom} {update : PgUpdate}

/-- A frame sets the view of its member. -/
theorem remoteView_apply (hnamed : r.Named) (hext : atoms.Extends r.atoms)
    (ha : SameName c.table atoms update.scope a) (hb : SameName c.table atoms update.group b)
    (hn : SameName c.table atoms c.localNode n) :
    c.remoteView { r with atoms, pg := r.pg.apply a b n update } =
      Function.update (c.remoteView r) update.key update.joins := by
  funext k
  obtain ⟨scope, group, pid⟩ := k
  rw [key_eq update]
  by_cases hkey : (scope, group, pid) = (update.scope, update.group, update.key.2.2)
  · rw [hkey, Function.update_self]
    refine propext ⟨?_, fun hjoins => ⟨a, b, n, ha, hb, hn, mem_apply.mpr ?_⟩⟩
    · rintro ⟨a', b', n', ha', hb', hn', hm⟩
      rw [mem_apply, if_pos ⟨ha.inj_right ha', hb.inj_right hb', by rw [hn.inj_right hn']⟩] at hm
      exact hm
    · rwa [if_pos ⟨rfl, rfl, rfl⟩]
  · rw [Function.update_of_ne hkey]
    refine propext ⟨?_, ?_⟩
    · rintro ⟨a', b', n', ha', hb', hn', hm⟩
      have hother : ¬ (a = a' ∧ b = b' ∧ (⟨n', pid, 0⟩ : RemoteMember) = ⟨n, update.key.2.2, 0⟩) := by
        rintro ⟨rfl, rfl, hmember⟩
        injection hmember with _ hpid
        exact hkey (Prod.ext (ha'.inj_left ha) (Prod.ext (hb'.inj_left hb) hpid))
      rw [mem_apply, if_neg hother] at hm
      obtain ⟨⟨_, hname⟩, ⟨_, hname'⟩, ⟨_, hname''⟩⟩ := hnamed a' b' _ hm
      exact ⟨a', b', n', ha'.shrink hext hname, hb'.shrink hext hname', hn'.shrink hext hname'', hm⟩
    · rintro ⟨a', b', n', ha', hb', hn', hm⟩
      refine ⟨a', b', n', ha'.extends hext, hb'.extends hext, hn'.extends hext, mem_apply.mpr ?_⟩
      rwa [if_neg]
      rintro ⟨rfl, rfl, hmember⟩
      injection hmember with _ hpid
      exact hkey (Prod.ext ((ha'.extends hext).inj_left ha)
        (Prod.ext ((hb'.extends hext).inj_left hb) hpid))

theorem named_apply (hnamed : r.Named) (hext : atoms.Extends r.atoms)
    (ha : SameName c.table atoms update.scope a) (hb : SameName c.table atoms update.group b)
    (hn : SameName c.table atoms c.localNode n) :
    Received.Named { r with atoms, pg := r.pg.apply a b n update } := by
  intro a' b' m hm
  rw [mem_apply] at hm
  split at hm
  next h =>
    obtain ⟨rfl, rfl, rfl⟩ := h
    obtain ⟨name, -, hname⟩ := ha
    obtain ⟨name', -, hname'⟩ := hb
    obtain ⟨name'', -, hname''⟩ := hn
    exact ⟨⟨name, hname⟩, ⟨name', hname'⟩, ⟨name'', hname''⟩⟩
  next =>
    obtain ⟨⟨name, hname⟩, ⟨name', hname'⟩, ⟨name'', hname''⟩⟩ := hnamed a' b' m hm
    exact ⟨⟨name, hext.resolve hname⟩, ⟨name', hext.resolve hname'⟩, ⟨name'', hext.resolve hname''⟩⟩

theorem attributed_apply (h : c.Attributed r) (hnamed : r.Named) (hext : atoms.Extends r.atoms)
    (ha : SameName c.table atoms update.scope a) (hb : SameName c.table atoms update.group b) :
    c.Attributed { r with atoms, pg := r.pg.apply a b n update } := by
  intro a' b' m hm hnode
  rw [mem_apply] at hm
  split at hm
  next hmember =>
    obtain ⟨rfl, rfl, rfl⟩ := hmember
    exact ⟨rfl, _, _, ha, hb⟩
  next =>
    obtain ⟨-, -, ⟨_, hname⟩⟩ := hnamed a' b' m hm
    obtain ⟨hserial, scope, group, hscope, hgroup⟩ := h a' b' m hm (hnode.shrink hext hname)
    exact ⟨hserial, scope, group, hscope.extends hext, hgroup.extends hext⟩

end Other

/-! ## Runs -/

section Runs

variable {H : Type} {c : Cluster H} {s : Propagation}

/-- The frames in flight and the updates that wait, replayed in order on the members that the other
node has, give the members of the first node. -/
structure Cluster.Converging (c : Cluster H) (s : Propagation) : Prop where
  replay : ∃ sent, List.Forall₂ (fun u frame => c.encode u = .ok frame) sent s.channel ∧
    Replay.settle PgUpdate.key PgUpdate.joins (c.remoteView s.other) (sent ++ s.outstanding) =
      s.pg.localView
  named : s.other.Named
  attributed : c.Attributed s.other

/-- A change of the members with the updates it records. -/
theorem Cluster.Converging.change (h : c.Converging s) {result : List PgUpdate × PgState}
    (hresult : Records s.pg result) :
    c.Converging { s with pg := result.2, outstanding := s.outstanding ++ result.1 } where
  replay := by
    obtain ⟨sent, hsent, hreplay⟩ := h.replay
    refine ⟨sent, hsent, ?_⟩
    rw [← List.append_assoc, Replay.settle_append, hreplay]
    exact hresult
  named := h.named
  attributed := h.attributed

theorem Cluster.Converging.broadcast (h : c.Converging s) {i : ℕ} {update : PgUpdate}
    (hi : s.outstanding[i]? = some update) {frame : List UInt8}
    (hframe : c.encode update = .ok frame)
    (hfirst : ∀ v ∈ s.outstanding.take i, v.key ≠ update.key) :
    c.Converging { s with
      outstanding := s.outstanding.eraseIdx i
      channel := s.channel ++ [frame] } where
  replay := by
    obtain ⟨sent, hsent, hreplay⟩ := h.replay
    refine ⟨sent ++ [update], List.rel_append hsent (.cons hframe .nil), ?_⟩
    obtain ⟨hlt, hget⟩ := List.getElem?_eq_some_iff.mp hi
    have hsplit : s.outstanding = s.outstanding.take i ++ update :: s.outstanding.drop (i + 1) := by
      rw [← hget, List.getElem_cons_drop, List.take_append_drop]
    rw [← hreplay, List.eraseIdx_eq_take_drop_succ, List.append_assoc, Replay.settle_append,
      Replay.settle_append]
    conv_rhs => rw [hsplit, Replay.settle_append, Replay.settle_move hfirst]
    rfl
  named := h.named
  attributed := h.attributed

/-- A frame of the first node sets the view of its member and leaves the rest as it was. -/
theorem Cluster.receive_encoded {frame : List UInt8} {update : PgUpdate}
    (hframe : c.encode update = .ok frame) {r : Received} (hnamed : r.Named)
    (hattributed : c.Attributed r) :
    c.remoteView (c.receive frame r) =
        Function.update (c.remoteView r) update.key update.joins ∧
      (c.receive frame r).Named ∧ c.Attributed (c.receive frame r) := by
  obtain ⟨control, payload, a, b, n, atoms, hsplit, hdispatch, hext, ha, hb, hn⟩ :=
    dispatchFrame_pgUpdate c.heap c.inflate c.pg r hframe
  have hreceive : c.receive frame r = { r with atoms, pg := r.pg.apply a b n update } := by
    rw [Cluster.receive, hsplit]
    dsimp only
    rw [hdispatch]
  rw [hreceive]
  exact ⟨remoteView_apply hnamed hext ha hb hn, named_apply hnamed hext ha hb hn,
    attributed_apply hattributed hnamed hext ha hb⟩

theorem Cluster.Converging.deliver (h : c.Converging s) {frame : List UInt8}
    {rest : List (List UInt8)} (hchannel : s.channel = frame :: rest) :
    c.Converging { s with channel := rest, other := c.receive frame s.other } := by
  obtain ⟨sent, hsent, hreplay⟩ := h.replay
  rw [hchannel] at hsent
  obtain ⟨update, waiting, hframe, hrest, rfl⟩ := List.forall₂_cons_right_iff.mp hsent
  obtain ⟨hview, hnamed, hattributed⟩ := Cluster.receive_encoded hframe h.named h.attributed
  refine ⟨⟨waiting, hrest, ?_⟩, hnamed, hattributed⟩
  rw [hview]
  exact hreplay

theorem Cluster.Converging.step (h : c.Converging s) {a : PgAction} (ha : c.Ordered s a) :
    c.Converging (c.step s a) := by
  cases a with
  | join scope group pid => exact h.change records_join
  | leave scope group pid => exact h.change records_leave
  | exit pid => exact h.change records_exit
  | broadcast i =>
    rw [Cluster.step]
    split
    next => exact h
    next update hi =>
      obtain ⟨⟨frame, hframe⟩, hfirst⟩ := ha update hi
      rw [Cluster.broadcast, hframe]
      exact h.broadcast hi hframe hfirst
  | deliver =>
    rw [Cluster.step]
    split
    next => exact h
    next frame rest hchannel => exact h.deliver hchannel

/-- Nothing waits and nothing is in flight. -/
def Propagation.Idle (s : Propagation) : Prop := s.outstanding = [] ∧ s.channel = []

theorem Cluster.Converging.agree (h : c.Converging s) (hidle : s.Idle) : c.Agree s where
  members scope group pid := by
    obtain ⟨sent, hsent, hreplay⟩ := h.replay
    rw [hidle.2] at hsent
    obtain rfl := List.forall₂_nil_right_iff.mp hsent
    rw [hidle.1] at hreplay
    exact iff_of_eq (congrFun hreplay (scope, group, pid))
  attributed := h.attributed

theorem Cluster.Agree.converging (h : c.Agree s) (hidle : s.Idle) (hnamed : s.other.Named) :
    c.Converging s where
  replay := by
    refine ⟨[], ?_, ?_⟩
    · rw [hidle.2]
      exact .nil
    · rw [hidle.1]
      funext k
      exact propext (h.members k.1 k.2.1 k.2.2)
  named := hnamed
  attributed := h.attributed

/-- From nodes that agree, every run whose broadcasts keep the updates of a member in the order of
the changes, and can all be encoded, ends in agreement once everything is delivered. -/
theorem pg_views_converge (c : Cluster H) {s : Propagation} (hs : c.Agree s) (hidle : s.Idle)
    (hnamed : s.other.Named) (actions : List PgAction)
    (h : Runs.Meets c.step c.Ordered s actions) (hdone : (actions.foldl c.step s).Idle) :
    c.Agree (actions.foldl c.step s) :=
  (h.invariant (fun _ _ hi ha => hi.step ha) (hs.converging hidle hnamed)).agree hdone

end Runs

/-! ## Broadcasts out of order -/

/-- Two nodes with the common atoms, the first named by the atom 1. -/
def commonCluster : Cluster ℕ where
  table := .withCommonAtoms
  localNode := 1
  heap := countingHeap
  inflate := fun _ _ => none
  sinks := ⟨fun _ _ => true, none, true, true, none, none⟩
  pg := rfl

/-- No groups yet. -/
def Propagation.start : Propagation := ⟨∅, [], [], ⟨.withCommonAtoms, ∅, [], []⟩⟩

theorem named_start : Propagation.start.other.Named :=
  fun _ _ _ hm => absurd hm (Finset.notMem_empty _)

theorem agree_start (c : Cluster ℕ) : c.Agree .start where
  members _ _ _ := by
    refine iff_of_false ?_ (Finset.notMem_empty _)
    rintro ⟨a, b, n, -, -, -, hm⟩
    exact Finset.notMem_empty _ hm
  attributed _ _ _ hm := absurd hm (Finset.notMem_empty _)

theorem encode_common (update : PgUpdate)
    (h : (commonCluster.encode update).toOption.isSome = true) :
    ∃ frame, commonCluster.encode update = .ok frame := by
  cases hframe : commonCluster.encode update with
  | ok frame => exact ⟨frame, rfl⟩
  | error e =>
    rw [hframe] at h
    cases h

theorem pg_views_converge_join : commonCluster.Agree
    ([.join 0 0 7, .broadcast 0, .deliver].foldl commonCluster.step .start) := by
  refine pg_views_converge commonCluster (agree_start _) ⟨rfl, rfl⟩ named_start
    [.join 0 0 7, .broadcast 0, .deliver] ⟨trivial, ?_, trivial, trivial⟩ ?_
  · intro update hupdate
    obtain rfl : .join 0 0 7 = update := Option.some.inj hupdate
    exact ⟨encode_common _ (by decide +kernel), by simp⟩
  · exact ⟨by decide +kernel, by decide +kernel⟩

/-- A process joins and leaves, and the leave is broadcast first: it stays a member elsewhere. -/
theorem not_pg_views_converge :
    ([.join 0 0 7, .leave 0 0 7, .broadcast 1, .broadcast 0, .deliver, .deliver].foldl
      commonCluster.step .start).Idle ∧ ¬ commonCluster.Agree
    ([.join 0 0 7, .leave 0 0 7, .broadcast 1, .broadcast 0, .deliver, .deliver].foldl
      commonCluster.step .start) := by
  refine ⟨⟨by decide +kernel, by decide +kernel⟩, ?_⟩
  obtain ⟨joinFrame, hjoin⟩ := encode_common (.join 0 0 7) (by decide +kernel)
  obtain ⟨leaveFrame, hleave⟩ := encode_common (.leave 0 0 7) (by decide +kernel)
  intro hagree
  have hlocal : (7 : UInt64) ∉ ((([.join 0 0 7, .leave 0 0 7, .broadcast 1, .broadcast 0, .deliver,
      .deliver].foldl commonCluster.step .start).pg.members 0 0).localMembers) := by
    decide +kernel
  have hother : ([.join 0 0 7, .leave 0 0 7, .broadcast 1, .broadcast 0, .deliver,
      .deliver].foldl commonCluster.step .start).other =
      commonCluster.receive joinFrame (commonCluster.receive leaveFrame Propagation.start.other) := by
    have hsent : ∀ s : Propagation, s.outstanding = [.join 0 0 7, .leave 0 0 7] → s.channel = [] →
        ([.broadcast 1, .broadcast 0, .deliver, .deliver].foldl commonCluster.step s).other =
          commonCluster.receive joinFrame (commonCluster.receive leaveFrame s.other) := by
      rintro ⟨pg, outstanding, channel, other⟩ rfl rfl
      simp [Cluster.step, Cluster.broadcast, hjoin, hleave]
    have hchanged : ([.join 0 0 7, .leave 0 0 7].foldl commonCluster.step .start).outstanding =
        [.join 0 0 7, .leave 0 0 7] := by decide +kernel
    have happend : (([.join 0 0 7, .leave 0 0 7] : List PgAction) ++ ([.broadcast 1, .broadcast 0,
        .deliver, .deliver] : List PgAction)).foldl commonCluster.step .start =
        [.broadcast 1, .broadcast 0, .deliver, .deliver].foldl commonCluster.step
          ([.join 0 0 7, .leave 0 0 7].foldl commonCluster.step .start) := List.foldl_append
    exact (congrArg Propagation.other happend).trans (hsent _ hchanged rfl)
  have hstart := agree_start commonCluster
  obtain ⟨hview, hnamed, hattributed⟩ :=
    Cluster.receive_encoded hleave named_start hstart.attributed
  obtain ⟨hview', -, -⟩ := Cluster.receive_encoded hjoin hnamed hattributed
  refine hlocal ((hagree.members 0 0 7).mp ?_)
  rw [hother, hview']
  exact of_eq_true (Function.update_self ..)

end Beamr.Distribution
