import Beamr.Distribution.PgFrame

/-!
# A peer speaks for itself

What a frame of an authenticated origin may change, and the one kind of frame that changes more.
The controls of links and exits are checked against the origin; a membership update is not, so a
peer can add and remove the members of any other node.
-/
namespace Beamr.Distribution

open Etf Term

/-! ## What a control tuple has to be -/

theorem refuseIf_ok {p : Bool} {e : ControlError} {u : Unit} :
    refuseIf p e = .ok u ↔ p = false := by
  unfold refuseIf
  cases p with
  | true => simp
  | false => simp

/-- The frame is for a process of this node. A send may leave the node out or carry the marker of
terms without one, and a registered name is one of the node it is sent to. -/
inductive AddressedTo (atoms : AtomTable) (node : Atom) (elements : List Value) : Prop
  | send (target : PidRef) (hop : elements[0]?.bind asSmallInt = some ControlOp.send)
      (htarget : elements[2]?.bind asPid = some target)
      (hnode : ∀ n, target.node = some n → n = node ∨ isNodeLessMarker atoms n = true)
  | registered (name : Atom) (hop : elements[0]?.bind asSmallInt = some ControlOp.regSend)
      (hname : elements[3]?.bind asAtom = some name)
  | linked (target : RemotePid) (htarget : PidAt elements 2 target) (hnode : target.node = node)

theorem elsewhere_some {node other : Atom} : elsewhere (some node) other = false ↔ other = node := by
  rw [elsewhere, Option.any_some, bne_eq_false_iff_eq]
  exact eq_comm

theorem sendTarget_ok {atoms : AtomTable} {node : Atom} {elements : List Value} {toPid : UInt64}
    (hop : elements[0]?.bind asSmallInt = some ControlOp.send)
    (h : sendTarget atoms (some node) elements = .ok toPid) : AddressedTo atoms node elements := by
  obtain ⟨target, htarget, h⟩ := except_bind_ok_iff.mp h
  obtain ⟨_, hnode, -⟩ := except_bind_ok_iff.mp h
  refine .send target hop (field_ok.mp htarget) ?_
  intro n hn
  have hrefuse := refuseIf_ok.mp hnode
  rw [hn, Option.any_some, Bool.and_eq_false_iff, elsewhere_some, Bool.not_eq_false'] at hrefuse
  exact hrefuse

theorem linkEndpoints_ok {atoms : AtomTable} {node : Atom} {elements : List Value}
    {ends : RemotePid × UInt64} (h : linkEndpoints atoms (some node) elements = .ok ends) :
    AddressedTo atoms node elements := by
  obtain ⟨source, -, h⟩ := except_bind_ok_iff.mp h
  obtain ⟨_, -, h⟩ := except_bind_ok_iff.mp h
  obtain ⟨target, htarget, h⟩ := except_bind_ok_iff.mp h
  obtain ⟨_, -, h⟩ := except_bind_ok_iff.mp h
  obtain ⟨_, hnode, -⟩ := except_bind_ok_iff.mp h
  exact .linked target (field_ok.mp htarget) (elsewhere_some.mp (refuseIf_ok.mp hnode))

theorem decodePgUpdate_ok {elements : List Value} {message : ControlMessage}
    (harity : elements.length = 5) (hop : elements[0]?.bind asSmallInt = some pgUpdate)
    (h : decodePgUpdate elements = .ok message) :
    ∃ scope group member,
      (message = .pgJoin scope group member.node member.pidNumber member.serial ∧
        PgTerm elements pgJoinTag scope group member) ∨
      (message = .pgLeave scope group member.node member.pidNumber member.serial ∧
        PgTerm elements pgLeaveTag scope group member) := by
  obtain ⟨tag, htag, h⟩ := except_bind_ok_iff.mp h
  obtain ⟨scope, hscope, h⟩ := except_bind_ok_iff.mp h
  obtain ⟨group, hgroup, h⟩ := except_bind_ok_iff.mp h
  obtain ⟨member, hmember, h⟩ := except_bind_ok_iff.mp h
  have hterm : PgTerm elements tag scope group member :=
    ⟨harity, hop, field_ok.mp htag, field_ok.mp hscope, field_ok.mp hgroup, field_ok.mp hmember⟩
  refine ⟨scope, group, member, ?_⟩
  split at h
  next hjoin =>
    rw [hjoin] at hterm
    exact .inl ⟨(Except.ok.inj h).symm, hterm⟩
  next =>
    split at h
    next hleave =>
      rw [hleave] at hterm
      exact .inr ⟨(Except.ok.inj h).symm, hterm⟩
    next => cases h

/-- What a message of a tuple comes from. -/
inductive Origin (atoms : AtomTable) (node : Atom) (elements : List Value) : ControlMessage → Prop
  | send (toPid : UInt64) (h : AddressedTo atoms node elements) :
      Origin atoms node elements (.send toPid)
  | regSend (toName : Atom) (h : AddressedTo atoms node elements) :
      Origin atoms node elements (.regSend toName)
  | pgJoin (scope group : Atom) (member : RemotePid)
      (h : PgTerm elements pgJoinTag scope group member) :
      Origin atoms node elements
        (.pgJoin scope group member.node member.pidNumber member.serial)
  | pgLeave (scope group : Atom) (member : RemotePid)
      (h : PgTerm elements pgLeaveTag scope group member) :
      Origin atoms node elements
        (.pgLeave scope group member.node member.pidNumber member.serial)
  | link (source : RemotePid) (toPid : UInt64) (h : AddressedTo atoms node elements) :
      Origin atoms node elements (.link source toPid)
  | unlink (source : RemotePid) (toPid : UInt64) (h : AddressedTo atoms node elements) :
      Origin atoms node elements (.unlink source toPid)
  | exit (source : RemotePid) (toPid : UInt64) (reason : Scheduler.ExitReason)
      (h : AddressedTo atoms node elements) : Origin atoms node elements (.exit source toPid reason)
  | exit2 (source : RemotePid) (toPid : UInt64) (reason : Scheduler.ExitReason)
      (h : AddressedTo atoms node elements) :
      Origin atoms node elements (.exit2 source toPid reason)

theorem controlMessage_ok {atoms : AtomTable} {node : Atom} {term : Value}
    {message : ControlMessage} (h : controlMessage atoms (some node) term = .ok message) :
    ∃ elements, term = .tuple elements ∧ Origin atoms node elements message := by
  cases term with
  | tuple elements =>
    refine ⟨elements, rfl, ?_⟩
    rw [controlMessage] at h
    split at h
    next hop =>
      obtain ⟨toPid, hto, h⟩ := except_bind_ok_iff.mp h
      obtain rfl := Except.ok.inj h
      exact .send toPid (sendTarget_ok hop.1 hto)
    next =>
    split at h
    next hop =>
      obtain ⟨name, hname, h⟩ := except_bind_ok_iff.mp h
      obtain rfl := Except.ok.inj h
      exact .regSend name (.registered name hop.1 (field_ok.mp hname))
    next =>
    split at h
    next hop =>
      obtain ⟨scope, group, member, ⟨rfl, hterm⟩ | ⟨rfl, hterm⟩⟩ :=
        decodePgUpdate_ok hop.2 hop.1 h
      · exact .pgJoin scope group member hterm
      · exact .pgLeave scope group member hterm
    next =>
    split at h
    next =>
      obtain ⟨ends, hends, h⟩ := except_bind_ok_iff.mp h
      obtain rfl := Except.ok.inj h
      exact .link _ _ (linkEndpoints_ok hends)
    next =>
    split at h
    next =>
      obtain ⟨ends, hends, h⟩ := except_bind_ok_iff.mp h
      obtain rfl := Except.ok.inj h
      exact .unlink _ _ (linkEndpoints_ok hends)
    next =>
    split at h
    next =>
      obtain ⟨ends, hends, h⟩ := except_bind_ok_iff.mp h
      obtain ⟨reason, -, h⟩ := except_bind_ok_iff.mp h
      obtain rfl := Except.ok.inj h
      exact .exit _ _ reason (linkEndpoints_ok hends)
    next =>
    split at h
    next =>
      obtain ⟨ends, hends, h⟩ := except_bind_ok_iff.mp h
      obtain ⟨reason, -, h⟩ := except_bind_ok_iff.mp h
      obtain rfl := Except.ok.inj h
      exact .exit2 _ _ reason (linkEndpoints_ok hends)
    next => cases h
  | _ => cases h

/-! ## What a frame may change -/

/-- A frame of the origin, read as a tuple, changes the members, links and processes only as the
origin may. -/
structure SpeaksFor (origin node : Atom) (elements : List Value) (before after : Received) :
    Prop where
  /-- No member of this node changes, and none of another node than the origin. -/
  localMembers : ∀ scope group, (after.pg.members scope group).localMembers =
    (before.pg.members scope group).localMembers
  remoteMembers : ∀ scope group (m : RemoteMember), m.node ≠ origin →
    (m ∈ (after.pg.members scope group).remoteMembers ↔
      m ∈ (before.pg.members scope group).remoteMembers)
  /-- Links and exits are those of processes of the origin. -/
  links : ∃ calls, after.links = before.links ++ calls ∧ ∀ c ∈ calls, c.source.node = origin
  /-- A process of this node is reached only by a frame for this node. -/
  addressed : after.payloads = before.payloads ∧ after.links = before.links ∨
    AddressedTo after.atoms node elements

/-- The update is of a member of another node than the origin, and is news to the registry. -/
def Forges (origin : Atom) (pg : PgState) (elements : List Value) : Prop :=
  ∃ tag scope group member, PgTerm elements tag scope group member ∧ member.node ≠ origin ∧
    (tag = pgJoinTag ∧ ⟨member.node, member.pidNumber, member.serial⟩ ∉
        (pg.members scope group).remoteMembers ∨
      tag = pgLeaveTag ∧ ⟨member.node, member.pidNumber, member.serial⟩ ∈
        (pg.members scope group).remoteMembers)

/-- The forged updates among the messages. -/
def Forged (origin : Atom) (pg : PgState) : ControlMessage → Prop
  | .pgJoin scope group node pidNumber serial => node ≠ origin ∧
      ⟨node, pidNumber, serial⟩ ∉ (pg.members scope group).remoteMembers
  | .pgLeave scope group node pidNumber serial => node ≠ origin ∧
      ⟨node, pidNumber, serial⟩ ∈ (pg.members scope group).remoteMembers
  | _ => False

theorem forges_iff {atoms : AtomTable} {node origin : Atom} {pg : PgState} {elements : List Value}
    {message : ControlMessage}
    (hmessage : controlMessage atoms (some node) (.tuple elements) = .ok message)
    (h : Origin atoms node elements message) :
    Forges origin pg elements ↔ Forged origin pg message := by
  constructor
  · rintro ⟨tag, scope, group, member, hterm, hnode, hchange⟩
    rw [hterm.message] at hmessage
    rcases hchange with ⟨rfl, hnot⟩ | ⟨rfl, hin⟩
    · obtain rfl := Except.ok.inj hmessage
      exact ⟨hnode, hnot⟩
    · obtain rfl := Except.ok.inj hmessage
      exact ⟨hnode, hin⟩
  · intro hforged
    cases h with
    | pgJoin scope group member hterm =>
      exact ⟨_, scope, group, member, hterm, hforged.1, .inl ⟨rfl, hforged.2⟩⟩
    | pgLeave scope group member hterm =>
      exact ⟨_, scope, group, member, hterm, hforged.1, .inr ⟨rfl, hforged.2⟩⟩
    | _ => exact hforged.elim

section Dispatch

variable {origin node : Atom} {elements : List Value} {sinks : ControlSinks} {r r' : Received}

/-- The groups, links and payloads are the same; the frame may have interned atoms. -/
theorem speaksFor_same (hpg : r'.pg = r.pg) (hlinks : r'.links = r.links)
    (hpayloads : r'.payloads = r.payloads) : SpeaksFor origin node elements r r' where
  localMembers scope group := by rw [hpg]
  remoteMembers scope group m _ := by rw [hpg]
  links := ⟨[], by rw [hlinks, List.append_nil], by simp⟩
  addressed := .inl ⟨hpayloads, hlinks⟩

theorem speaksFor_deliver {atoms : AtomTable} (h : AddressedTo atoms node elements)
    (toPid : UInt64) (payload : List UInt8) :
    SpeaksFor origin node elements r (sinks.deliver toPid payload { r with atoms }).2 where
  localMembers _ _ := rfl
  remoteMembers _ _ _ _ := Iff.rfl
  links := ⟨[], (List.append_nil _).symm, by simp⟩
  addressed := .inr h

/-- The link sink is called only for a process of the origin. -/
theorem speaksFor_callLink {atoms : AtomTable} (horigin : sinks.originNode = some origin)
    (h : AddressedTo atoms node elements) (call : LinkCall) :
    SpeaksFor origin node elements r (sinks.callLink call { r with atoms }).2 := by
  unfold ControlSinks.callLink
  split
  next hsink =>
    have hsource : call.source.node = origin := by
      rw [ControlSinks.linkSink, horigin, Option.any_some] at hsink
      by_contra hother
      rw [if_pos (by simpa using hother)] at hsink
      cases hsink
    exact {
      localMembers := fun _ _ => rfl
      remoteMembers := fun _ _ _ _ => Iff.rfl
      links := ⟨[call], rfl, by simpa using hsource⟩
      addressed := .inr h }
  next => exact speaksFor_same rfl rfl rfl

/-- An edit of the groups that leaves the members of this node alone. -/
theorem speaksFor_callPg {atoms : AtomTable} {edit : PgState → PgState}
    (hlocal : ∀ scope group, ((edit r.pg).members scope group).localMembers =
      (r.pg.members scope group).localMembers) :
    SpeaksFor origin node elements r (sinks.callPg edit { r with atoms }).2 ↔
      ¬ (sinks.pg = true ∧ ∃ scope group, ∃ m : RemoteMember, m.node ≠ origin ∧
        ¬ (m ∈ ((edit r.pg).members scope group).remoteMembers ↔
          m ∈ (r.pg.members scope group).remoteMembers)) := by
  unfold ControlSinks.callPg
  split
  next hpg =>
    constructor
    · rintro h ⟨-, scope, group, m, hother, hchange⟩
      exact hchange (h.remoteMembers scope group m hother)
    · intro h
      refine ⟨hlocal, ?_, ⟨[], (List.append_nil _).symm, by simp⟩, .inl ⟨rfl, rfl⟩⟩
      intro scope group m hother
      by_contra hchange
      exact h ⟨hpg, scope, group, m, hother, hchange⟩
  next hpg => exact iff_of_true (speaksFor_same rfl rfl rfl) fun h => hpg h.1

theorem dispatch_speaksFor_iff (sinks : ControlSinks) {atoms : AtomTable} {message : ControlMessage}
    (horigin : sinks.originNode = some origin) (h : Origin atoms node elements message)
    (payload : List UInt8) :
    SpeaksFor origin node elements r (sinks.dispatch payload { r with atoms } message).2 ↔
      ¬ (sinks.pg = true ∧ Forged origin r.pg message) := by
  cases h with
  | send toPid h => exact iff_of_true (speaksFor_deliver h toPid payload) (And.right · |>.elim)
  | regSend toName h =>
    refine iff_of_true ?_ (And.right · |>.elim)
    rw [ControlSinks.dispatch]
    split
    next => exact speaksFor_same rfl rfl rfl
    next pid _ => exact speaksFor_deliver h pid payload
  | pgJoin scope group member hterm =>
    rw [ControlSinks.dispatch, speaksFor_callPg fun _ _ => PgState.localMembers_applyRemoteJoin ..,
      Forged, not_iff_not]
    refine and_congr_right fun _ => ⟨?_, ?_⟩
    · rintro ⟨scope', group', m, hother, hchange⟩
      obtain ⟨⟨rfl, rfl, hm⟩, hnot⟩ := PgState.applyRemoteJoin_changes.mp hchange
      rw [hm] at hother hnot
      exact ⟨hother, hnot⟩
    · rintro ⟨hother, hnot⟩
      exact ⟨scope, group, _, hother, PgState.applyRemoteJoin_changes.mpr ⟨⟨rfl, rfl, rfl⟩, hnot⟩⟩
  | pgLeave scope group member hterm =>
    rw [ControlSinks.dispatch, speaksFor_callPg fun _ _ => PgState.localMembers_applyRemoteLeave ..,
      Forged, not_iff_not]
    refine and_congr_right fun _ => ⟨?_, ?_⟩
    · rintro ⟨scope', group', m, hother, hchange⟩
      obtain ⟨⟨rfl, rfl, hm⟩, hin⟩ := PgState.applyRemoteLeave_changes.mp hchange
      rw [hm] at hother hin
      exact ⟨hother, hin⟩
    · rintro ⟨hother, hin⟩
      exact ⟨scope, group, _, hother, PgState.applyRemoteLeave_changes.mpr ⟨⟨rfl, rfl, rfl⟩, hin⟩⟩
  | link source toPid h => exact iff_of_true (speaksFor_callLink horigin h _) (And.right · |>.elim)
  | unlink source toPid h => exact iff_of_true (speaksFor_callLink horigin h _) (And.right · |>.elim)
  | exit source toPid reason h =>
    exact iff_of_true (speaksFor_callLink horigin h _) (And.right · |>.elim)
  | exit2 source toPid reason h =>
    exact iff_of_true (speaksFor_callLink horigin h _) (And.right · |>.elim)

end Dispatch

/-! ## Every frame -/

section Frames

variable {H : Type} (heap : ControlHeap H) (inflate : InflateStream)

/-- The elements of the control tuple of a frame, none if it is no tuple. -/
def controlElements (atoms : AtomTable) (controlEtf : List UInt8) : List Value :=
  match decodeControlTerm heap inflate atoms controlEtf with
  | .ok (.tuple elements, _) => elements
  | _ => []

theorem not_forges_nil (origin : Atom) (pg : PgState) : ¬ Forges origin pg [] := by
  rintro ⟨tag, scope, group, member, hterm, -⟩
  exact absurd hterm.arity (by decide)

/-- A frame of the origin changes only what the origin may change, unless it is a membership update
of another node's process that the registry takes as news. -/
theorem dispatchFrame_speaksFor_iff (sinks : ControlSinks) (origin node : Atom)
    (controlEtf payloadEtf : List UInt8) (r : Received) :
    SpeaksFor origin node (controlElements heap inflate r.atoms controlEtf) r
        (dispatchFrame heap inflate { sinks with originNode := some origin, localNode := some node }
          controlEtf payloadEtf r).2 ↔
      ¬ (sinks.pg = true ∧ Forges origin r.pg (controlElements heap inflate r.atoms controlEtf)) := by
  rw [dispatchFrame, decodeControlAddressed, controlElements]
  cases hterm : decodeControlTerm heap inflate r.atoms controlEtf with
  | error e => exact iff_of_true (speaksFor_same rfl rfl rfl) fun h => not_forges_nil origin r.pg h.2
  | ok decoded =>
    obtain ⟨term, atoms⟩ := decoded
    dsimp only
    cases hmessage : controlMessage atoms (some node) term with
    | error e =>
      refine iff_of_true (speaksFor_same rfl rfl rfl) ?_
      rintro ⟨-, hforges⟩
      cases term with
      | tuple elements =>
        obtain ⟨tag, scope, group, member, hupdate, -, ⟨rfl, -⟩ | ⟨rfl, -⟩⟩ := hforges
        · rw [hupdate.message, if_pos rfl] at hmessage
          cases hmessage
        · rw [hupdate.message, if_neg (by decide), if_pos rfl] at hmessage
          cases hmessage
      | _ => exact not_forges_nil origin r.pg hforges
    | ok message =>
      obtain ⟨elements, rfl, horigin⟩ := controlMessage_ok hmessage
      dsimp only
      rw [forges_iff hmessage horigin]
      exact dispatch_speaksFor_iff
        { sinks with originNode := some origin, localNode := some node } rfl horigin payloadEtf

end Frames

/-- The node named by atom 0 makes the process 7 of the node named by atom 1 a member of a group
here. -/
theorem not_dispatchFrame_speaksFor : ∃ (sinks : ControlSinks) (frame control payload : List UInt8)
    (r : Received), sinks.originNode = some 0 ∧ sinks.localNode = some 2 ∧
      encodePgUpdateFrame .withCommonAtoms (.join 0 0 7) 1 = .ok frame ∧
      splitFrame frame = .ok (control, payload) ∧
      ¬ SpeaksFor 0 2 (controlElements countingHeap (fun _ _ => none) r.atoms control) r
        (dispatchFrame countingHeap (fun _ _ => none) sinks control payload r).2 := by
  have hframe : encodePgUpdateFrame .withCommonAtoms (.join 0 0 7) 1 = .ok [0, 0, 0, 35, 0, 0, 0,
      2, 131, 104, 5, 97, 101, 97, 1, 119, 2, 111, 107, 119, 2, 111, 107, 88, 119, 5, 101, 114, 114,
      111, 114, 0, 0, 0, 7, 0, 0, 0, 0, 0, 0, 0, 0, 131, 106] := by decide +kernel
  obtain ⟨control, payload, a, b, c, atoms, hsplit, hdispatch, hext, -, -, name, hname, hnode⟩ :=
    dispatchFrame_pgUpdate countingHeap (fun _ _ => none)
      (show (⟨fun _ _ => true, none, true, true, some 0, some 2⟩ : ControlSinks).pg = true from rfl)
      ⟨.withCommonAtoms, ∅, [], []⟩ hframe
  refine ⟨⟨fun _ _ => true, none, true, true, some 0, some 2⟩, _, control, payload, ⟨.withCommonAtoms, ∅, [], []⟩, rfl, rfl, hframe, hsplit, ?_⟩
  intro h
  rw [hdispatch] at h
  -- the node is still the atom 1 here
  have hother : c = 1 := Option.some.inj ((AtomTable.lookup_of_resolve hnode).symm.trans
    (AtomTable.lookup_of_resolve (hext.resolve hname)))
  have hmem := (h.remoteMembers a b ⟨c, 7, 0⟩ (by rw [hother]; decide)).mp
    (PgState.mem_applyRemoteJoin.mpr (.inl ⟨rfl, rfl, rfl⟩))
  exact absurd hmem (Finset.notMem_empty _)

end Beamr.Distribution
