import Beamr.Distribution.PgFrame

/-!
# Link controls on the wire

`encode_link_frame` and its siblings, with what the addressed decoder makes of their frames. The
reasons of exits are a closed set of atoms to the decoder, which takes any other for an error, and
the reason of a process whose worker crashed is not among them.
-/
namespace Beamr.Distribution

open Etf Term ByteOrder Decoder
open Scheduler (ExitReason)

/-! ## Encoding -/

/-- The numeric control operations. -/
inductive WireOp
  | link
  | send
  | exit
  | unlink
  | regSend
  | exit2
  | monitorP
  | demonitorP
  | monitorPExit
  | spawnRequest
  | spawnReply
  deriving DecidableEq

def WireOp.opcode : WireOp → UInt8
  | .link => 1
  | .send => 2
  | .exit => 3
  | .unlink => 4
  | .regSend => 6
  | .exit2 => 8
  | .monitorP => 19
  | .demonitorP => 20
  | .monitorPExit => 21
  | .spawnRequest => 29
  | .spawnReply => 31

/-- `ExitReason::as_atom`. -/
def reasonAtom : ExitReason → Atom
  | .normal => atomNormal
  | .kill => atomKill
  | .killed => atomKilled
  | .error => 1
  | .noConnection => atomNoconnection
  | .noProc => atomNoproc
  | .workerCrashed => 77

/-- Both ends as pids of named nodes, and the reason as an atom. -/
def controlTuple (op : WireOp) (localNode : Atom) (fromPid : UInt64) (target : RemotePid)
    (reason : Option ExitReason) : List Value :=
  [smallInt op.opcode, .pid (.remote localNode fromPid 0),
    .pid (.remote target.node target.pidNumber target.serial)] ++
    reason.toList.map fun reason => .atom (reasonAtom reason)

/-- The process with 64 words on whose heap the tuple is built has room for it. -/
def encodeControlFrame (table : AtomTable) (op : WireOp) (localNode : Atom) (fromPid : UInt64)
    (target : RemotePid) (reason : Option ExitReason) : Except EncodeError (List UInt8) :=
  encodeFrame table (.tuple (controlTuple op localNode fromPid target reason)) .nil

def encodeLinkFrame (table : AtomTable) (localNode : Atom) (fromPid : UInt64)
    (target : RemotePid) : Except EncodeError (List UInt8) :=
  encodeControlFrame table .link localNode fromPid target none

def encodeUnlinkFrame (table : AtomTable) (localNode : Atom) (fromPid : UInt64)
    (target : RemotePid) : Except EncodeError (List UInt8) :=
  encodeControlFrame table .unlink localNode fromPid target none

def encodeExitFrame (table : AtomTable) (op : WireOp) (localNode : Atom) (fromPid : UInt64)
    (target : RemotePid) (reason : ExitReason) : Except EncodeError (List UInt8) :=
  if op = .exit ∨ op = .exit2 then
    encodeControlFrame table op localNode fromPid target (some reason)
  else .error .unsupportedTerm

/-! ## Messages and their frames -/

/-- What a node sends to another about links and groups. -/
inductive OutgoingControl
  | link (fromPid : UInt64) (target : RemotePid)
  | unlink (fromPid : UInt64) (target : RemotePid)
  | exit (fromPid : UInt64) (target : RemotePid) (reason : ExitReason)
  | exit2 (fromPid : UInt64) (target : RemotePid) (reason : ExitReason)
  | pg (update : PgUpdate)
  deriving DecidableEq

namespace OutgoingControl

def encode (table : AtomTable) (localNode : Atom) :
    OutgoingControl → Except EncodeError (List UInt8)
  | .link fromPid target => encodeLinkFrame table localNode fromPid target
  | .unlink fromPid target => encodeUnlinkFrame table localNode fromPid target
  | .exit fromPid target reason => encodeExitFrame table .exit localNode fromPid target reason
  | .exit2 fromPid target reason => encodeExitFrame table .exit2 localNode fromPid target reason
  | .pg update => encodePgUpdateFrame table update localNode

/-- The node that a link control is for. -/
def target : OutgoingControl → Option Atom
  | .link _ target => some target.node
  | .unlink _ target => some target.node
  | .exit _ target _ => some target.node
  | .exit2 _ target _ => some target.node
  | .pg _ => none

def reason : OutgoingControl → Option ExitReason
  | .exit _ _ reason => some reason
  | .exit2 _ _ reason => some reason
  | _ => none

/-- The message as the other node is to see it. -/
def message (localNode : Atom) : OutgoingControl → ControlMessage
  | .link fromPid target => .link ⟨localNode, fromPid, 0⟩ target.pidNumber
  | .unlink fromPid target => .unlink ⟨localNode, fromPid, 0⟩ target.pidNumber
  | .exit fromPid target reason => .exit ⟨localNode, fromPid, 0⟩ target.pidNumber reason
  | .exit2 fromPid target reason => .exit2 ⟨localNode, fromPid, 0⟩ target.pidNumber reason
  | .pg (.join scope group pid) => .pgJoin scope group localNode pid 0
  | .pg (.leave scope group pid) => .pgLeave scope group localNode pid 0

/-- The control tuple of the frame. -/
def parts (localNode : Atom) : OutgoingControl → List Value
  | .link fromPid target => controlTuple .link localNode fromPid target none
  | .unlink fromPid target => controlTuple .unlink localNode fromPid target none
  | .exit fromPid target reason => controlTuple .exit localNode fromPid target (some reason)
  | .exit2 fromPid target reason => controlTuple .exit2 localNode fromPid target (some reason)
  | .pg (.join scope group pid) => [smallInt 101, smallInt 1, .atom scope, .atom group,
      .pid (.remote localNode pid 0)]
  | .pg (.leave scope group pid) => [smallInt 101, smallInt 2, .atom scope, .atom group,
      .pid (.remote localNode pid 0)]

theorem encode_eq (table : AtomTable) (localNode : Atom) (c : OutgoingControl) :
    c.encode table localNode = encodeFrame table (.tuple (c.parts localNode)) .nil := by
  cases c with
  | link fromPid target => rfl
  | unlink fromPid target => rfl
  | exit fromPid target reason => rfl
  | exit2 fromPid target reason => rfl
  | pg update =>
    cases update with
    | join scope group pid => rfl
    | leave scope group pid => rfl

theorem controlTuple_parts (op : WireOp) (localNode : Atom) (fromPid : UInt64) (target : RemotePid)
    (reason : Option ExitReason) :
    ∀ v ∈ controlTuple op localNode fromPid target reason, ControlPart v := by
  cases reason with
  | none =>
    simp only [controlTuple, Option.toList, List.map_nil, List.append_nil, List.forall_mem_cons]
    exact ⟨.smallInt _, .pid _ _ _, .pid _ _ _, List.forall_mem_nil _⟩
  | some reason =>
    simp only [controlTuple, Option.toList, List.map_cons, List.map_nil, List.cons_append,
      List.nil_append, List.forall_mem_cons]
    exact ⟨.smallInt _, .pid _ _ _, .pid _ _ _, .atom _, List.forall_mem_nil _⟩

theorem parts_controlPart (localNode : Atom) (c : OutgoingControl) :
    ∀ v ∈ c.parts localNode, ControlPart v := by
  cases c with
  | link fromPid target => exact controlTuple_parts _ _ _ _ _
  | unlink fromPid target => exact controlTuple_parts _ _ _ _ _
  | exit fromPid target reason => exact controlTuple_parts _ _ _ _ _
  | exit2 fromPid target reason => exact controlTuple_parts _ _ _ _ _
  | pg update =>
    cases update with
    | join scope group pid =>
      simp only [parts, List.forall_mem_cons]
      exact ⟨.smallInt _, .smallInt _, .atom _, .atom _, .pid _ _ _, List.forall_mem_nil _⟩
    | leave scope group pid =>
      simp only [parts, List.forall_mem_cons]
      exact ⟨.smallInt _, .smallInt _, .atom _, .atom _, .pid _ _ _, List.forall_mem_nil _⟩

/-- The largest tuples take fourteen words. -/
theorem parts_room (localNode : Atom) (c : OutgoingControl) :
    ((c.parts localNode).flatMap partWords).sum + (1 + (c.parts localNode).length) ≤ 64 := by
  cases c with
  | link fromPid target => simp [parts, controlTuple, partWords, smallInt]
  | unlink fromPid target => simp [parts, controlTuple, partWords, smallInt]
  | exit fromPid target reason => simp [parts, controlTuple, partWords, smallInt]
  | exit2 fromPid target reason => simp [parts, controlTuple, partWords, smallInt]
  | pg update => cases update <;> simp [parts, partWords, smallInt]

end OutgoingControl

/-! ## Names -/

theorem resolve_injective {t : AtomTable} {a b : Atom} {name : List UInt8}
    (ha : t.resolve a = some name) (hb : t.resolve b = some name) : a = b :=
  Option.some.inj ((AtomTable.lookup_of_resolve ha).symm.trans (AtomTable.lookup_of_resolve hb))

theorem SameName.left_unique {t u : AtomTable} {a a' b : Atom} (h : SameName t u a b)
    (h' : SameName t u a' b) : a = a' := by
  obtain ⟨name, ha, hb⟩ := h
  obtain ⟨name', ha', hb'⟩ := h'
  obtain rfl := Option.some.inj (hb.symm.trans hb')
  exact resolve_injective ha ha'

theorem SameName.right_unique {t u : AtomTable} {a b b' : Atom} (h : SameName t u a b)
    (h' : SameName t u a b') : b = b' := by
  obtain ⟨name, ha, hb⟩ := h
  obtain ⟨name', ha', hb'⟩ := h'
  obtain rfl := Option.some.inj (ha.symm.trans ha')
  exact resolve_injective hb hb'

/-- A table that has all of another's atoms has them in their places. -/
theorem SameName.eq_of_extends {t u : AtomTable} (hu : u.Extends t) {a b : Atom}
    (h : SameName t u a b) : a = b := by
  obtain ⟨name, ha, hb⟩ := h
  exact resolve_injective (hu.resolve ha) hb

/-- The parts can be told from what they were renamed to. -/
theorem Renamed.left_unique {R : Atom → Atom → Prop}
    (hR : ∀ a a' b, R a b → R a' b → a = a') {v v' w : Value} (hv : ControlPart v)
    (hv' : ControlPart v') (h : Renamed R v w) (h' : Renamed R v' w) : v = v' := by
  cases hv with
  | smallInt b =>
    obtain rfl : w = smallInt b := h
    cases hv' with
    | smallInt b' => exact h'
    | atom a' =>
      obtain ⟨_, -, hw⟩ := h'
      cases hw
    | pid node number serial =>
      obtain ⟨_, -, hw⟩ := h'
      cases hw
  | atom a =>
    obtain ⟨b, hb, rfl⟩ := h
    cases hv' with
    | smallInt b' => cases (h' : Value.atom b = smallInt b')
    | atom a' =>
      obtain ⟨b', hb', hw⟩ := h'
      obtain rfl : b = b' := Value.atom.inj hw
      rw [hR _ _ _ hb hb']
    | pid node number serial =>
      obtain ⟨_, -, hw⟩ := h'
      cases hw
  | pid node number serial =>
    obtain ⟨b, hb, rfl⟩ := h
    cases hv' with
    | smallInt b' => cases (h' : Value.pid (.remote b number serial) = smallInt b')
    | atom a' =>
      obtain ⟨_, -, hw⟩ := h'
      cases hw
    | pid node' number' serial' =>
      obtain ⟨b', hb', hw⟩ := h'
      obtain ⟨rfl, rfl, rfl⟩ := PidRef.remote.inj (Value.pid.inj hw)
      rw [hR _ _ _ hb hb']

theorem renamed_left_unique {R : Atom → Atom → Prop}
    (hR : ∀ a a' b, R a b → R a' b → a = a') {vs vs' ws : List Value}
    (hvs : ∀ v ∈ vs, ControlPart v) (hvs' : ∀ v ∈ vs', ControlPart v)
    (h : List.Forall₂ (Renamed R) vs ws) (h' : List.Forall₂ (Renamed R) vs' ws) : vs = vs' := by
  induction h generalizing vs' with
  | nil => exact (List.forall₂_nil_right_iff.mp h').symm
  | cons hhead _ ih =>
    obtain ⟨v', rest, hhead', hrest, rfl⟩ := List.forall₂_cons_right_iff.mp h'
    rw [Renamed.left_unique hR (hvs _ List.mem_cons_self) (hvs' _ List.mem_cons_self) hhead hhead',
      ih (fun v hv => hvs v (List.mem_cons_of_mem _ hv))
        (fun v hv => hvs' v (List.mem_cons_of_mem _ hv)) hrest]

/-- Messages that differ in their atoms only. -/
inductive SameMessage (R : Atom → Atom → Prop) : ControlMessage → ControlMessage → Prop
  | pgJoin {scope group node scope' group' node' : Atom} (hscope : R scope scope')
      (hgroup : R group group') (hnode : R node node') (number serial : UInt64) :
      SameMessage R (.pgJoin scope group node number serial)
        (.pgJoin scope' group' node' number serial)
  | pgLeave {scope group node scope' group' node' : Atom} (hscope : R scope scope')
      (hgroup : R group group') (hnode : R node node') (number serial : UInt64) :
      SameMessage R (.pgLeave scope group node number serial)
        (.pgLeave scope' group' node' number serial)
  | link {node node' : Atom} (hnode : R node node') (number serial toPid : UInt64) :
      SameMessage R (.link ⟨node, number, serial⟩ toPid) (.link ⟨node', number, serial⟩ toPid)
  | unlink {node node' : Atom} (hnode : R node node') (number serial toPid : UInt64) :
      SameMessage R (.unlink ⟨node, number, serial⟩ toPid) (.unlink ⟨node', number, serial⟩ toPid)
  | exit {node node' : Atom} (hnode : R node node') (number serial toPid : UInt64)
      (reason : ExitReason) : SameMessage R (.exit ⟨node, number, serial⟩ toPid reason)
        (.exit ⟨node', number, serial⟩ toPid reason)
  | exit2 {node node' : Atom} (hnode : R node node') (number serial toPid : UInt64)
      (reason : ExitReason) : SameMessage R (.exit2 ⟨node, number, serial⟩ toPid reason)
        (.exit2 ⟨node', number, serial⟩ toPid reason)

theorem SameMessage.eq {R : Atom → Atom → Prop} (hR : ∀ {a b}, R a b → a = b)
    {m m' : ControlMessage} (h : SameMessage R m m') : m = m' := by
  cases h with
  | pgJoin hscope hgroup hnode number serial => rw [hR hscope, hR hgroup, hR hnode]
  | pgLeave hscope hgroup hnode number serial => rw [hR hscope, hR hgroup, hR hnode]
  | link hnode number serial toPid => rw [hR hnode]
  | unlink hnode number serial toPid => rw [hR hnode]
  | exit hnode number serial toPid reason => rw [hR hnode]
  | exit2 hnode number serial toPid reason => rw [hR hnode]

/-! ## Decoding -/

section Decode

variable {table atoms : AtomTable}

/-- The names of the common atoms are where every table has them. -/
theorem sameName_common (htable : table.Extends .withCommonAtoms)
    (hatoms : atoms.Extends .withCommonAtoms) {a b : Atom} {name : List UInt8}
    (ha : AtomTable.withCommonAtoms.resolve a = some name) (h : SameName table atoms a b) :
    b = a := by
  obtain ⟨name', htaken, hb⟩ := h
  obtain rfl := Option.some.inj ((htable.resolve ha).symm.trans htaken)
  exact resolve_injective hb (hatoms.resolve ha)

theorem reasonAtom_common (reason : ExitReason) :
    ∃ name, AtomTable.withCommonAtoms.resolve (reasonAtom reason) = some name := by
  cases reason <;> exact ⟨_, rfl⟩

theorem reasonAtom_injective : Function.Injective reasonAtom := by
  intro r r' h
  cases r <;> cases r' <;> first | rfl | exact absurd h (by decide)

/-- Every reason but that of a crashed worker comes back. -/
theorem exitReasonFromWire_reasonAtom (reason : ExitReason) :
    exitReasonFromWire (reasonAtom reason) =
      if reason = .workerCrashed then .error else reason := by
  cases reason <;> rfl

theorem isNodeLessMarker_of_sameName {a b : Atom} (h : SameName table atoms a b)
    (ha : table.resolve a ≠ some nonodeNohost) : isNodeLessMarker atoms b = false := by
  obtain ⟨name, hname, hb⟩ := h
  rw [isNodeLessMarker, hb, beq_eq_false_iff_ne]
  rw [hname] at ha
  exact ha

theorem linkEndpoints_eq {here a b : Atom} {number number' serial serial' : UInt64} {op : Value}
    {rest : List Value} (ha : isNodeLessMarker atoms a = false)
    (hb : isNodeLessMarker atoms b = false) :
    linkEndpoints atoms (some here) (op :: .pid (.remote a number serial) ::
      .pid (.remote b number' serial') :: rest) =
      if here = b then .ok (⟨a, number, serial⟩, number') else .error .misAddressed := by
  have helsewhere : elsewhere (some here) b = !decide (here = b) := by
    rw [elsewhere, Option.any_some]
    by_cases h : here = b
    · simp [h]
    · simp [h]
  change (refuseIf (isNodeLessMarker atoms a) .invalidControl >>= fun _ =>
    refuseIf (isNodeLessMarker atoms b) .invalidControl >>= fun _ =>
      refuseIf (elsewhere (some here) b) .misAddressed >>= fun _ =>
        Except.ok ((⟨a, number, serial⟩ : RemotePid), number')) = _
  rw [ha, hb, helsewhere]
  by_cases h : here = b
  · rw [if_pos h, decide_eq_true h]
    rfl
  · rw [if_neg h, decide_eq_false h]
    rfl

/-- A link control gets through to the node of its target alone. -/
theorem linkEndpoints_addressed {here target a b : Atom} {number number' serial serial' : UInt64}
    {op : Value} {rest : List Value} (ha : isNodeLessMarker atoms a = false)
    (hb : isNodeLessMarker atoms b = false) (hsame : SameName table atoms target b)
    (f : RemotePid × UInt64 → Except ControlError ControlMessage) :
    ((∀ node ∈ some target, SameName table atoms node here) →
      (linkEndpoints atoms (some here) (op :: .pid (.remote a number serial) ::
        .pid (.remote b number' serial') :: rest) >>= f) = f (⟨a, number, serial⟩, number')) ∧
    ((∃ node ∈ some target, ¬ SameName table atoms node here) →
      (linkEndpoints atoms (some here) (op :: .pid (.remote a number serial) ::
        .pid (.remote b number' serial') :: rest) >>= f) = .error .misAddressed) := by
  rw [linkEndpoints_eq ha hb]
  constructor
  · intro hhere
    obtain rfl := (hhere target rfl).right_unique hsame
    rw [if_pos rfl]
    rfl
  · rintro ⟨node, hnode, hother⟩
    obtain rfl := Option.some.inj hnode
    have hne : here ≠ b := by
      rintro rfl
      exact hother hsame
    rw [if_neg hne]
    rfl

end Decode

/-! ## Frames round trip -/

theorem controlTuple_renamed {R : Atom → Atom → Prop} {op : WireOp} {localNode : Atom}
    {fromPid : UInt64} {target : RemotePid} {reason : Option ExitReason} {ws : List Value}
    (h : List.Forall₂ (Renamed R) (controlTuple op localNode fromPid target reason) ws) :
    ∃ a b rest, R localNode a ∧ R target.node b ∧
      List.Forall₂ (Renamed R) (reason.toList.map fun reason => .atom (reasonAtom reason)) rest ∧
      ws = smallInt op.opcode :: .pid (.remote a fromPid 0) ::
        .pid (.remote b target.pidNumber target.serial) :: rest := by
  obtain ⟨_, _, rfl, hends, rfl⟩ := List.forall₂_cons_left_iff.mp h
  obtain ⟨_, _, ⟨a, ha, rfl⟩, hend, rfl⟩ := List.forall₂_cons_left_iff.mp hends
  obtain ⟨_, rest, ⟨b, hb, rfl⟩, hrest, rfl⟩ := List.forall₂_cons_left_iff.mp hend
  exact ⟨a, b, rest, ha, hb, hrest, rfl⟩

section RoundTrip

variable {table atoms : AtomTable} (htable : table.Extends .withCommonAtoms)
  (hatoms : atoms.Extends .withCommonAtoms) {localNode : Atom}

include htable hatoms

/-- A renamed reason is read as the reason, or as an error. -/
theorem reason_renamed {rest : List Value} {reason : ExitReason}
    (hrest : List.Forall₂ (Renamed (SameName table atoms)) [.atom (reasonAtom reason)] rest) :
    ∃ c, rest = [.atom c] ∧
      exitReasonFromWire c = if reason = .workerCrashed then .error else reason := by
  obtain ⟨_, _, ⟨c, hc, rfl⟩, hnil, rfl⟩ := List.forall₂_cons_left_iff.mp hrest
  obtain rfl := List.forall₂_nil_left_iff.mp hnil
  obtain ⟨name, hname⟩ := reasonAtom_common reason
  obtain rfl := sameName_common htable hatoms hname hc
  exact ⟨_, rfl, exitReasonFromWire_reasonAtom reason⟩

/-- The message of the frame, and at the wrong node the refusal. -/
theorem message_parts (here : Atom) (c : OutgoingControl)
    (hlocal : table.resolve localNode ≠ some nonodeNohost)
    (htarget : ∀ node ∈ c.target, table.resolve node ≠ some nonodeNohost) {ws : List Value}
    (hws : List.Forall₂ (Renamed (SameName table atoms)) (c.parts localNode) ws) :
    ((∀ node ∈ c.target, SameName table atoms node here) →
      ∃ m, controlMessage atoms (some here) (.tuple ws) = .ok m ∧
        (SameMessage (SameName table atoms) (c.message localNode) m ↔
          c.reason ≠ some .workerCrashed)) ∧
    ((∃ node ∈ c.target, ¬ SameName table atoms node here) →
      controlMessage atoms (some here) (.tuple ws) = .error .misAddressed) := by
  -- what holds of the four link controls
  have hlink : ∀ {op fromPid target reason ws},
      List.Forall₂ (Renamed (SameName table atoms))
        (controlTuple op localNode fromPid target reason) ws →
      table.resolve target.node ≠ some nonodeNohost → ∃ a b rest,
        SameName table atoms localNode a ∧
        List.Forall₂ (Renamed (SameName table atoms))
          (reason.toList.map fun reason => .atom (reasonAtom reason)) rest ∧
        ws = smallInt op.opcode :: .pid (.remote a fromPid 0) ::
          .pid (.remote b target.pidNumber target.serial) :: rest ∧
        ∀ f : RemotePid × UInt64 → Except ControlError ControlMessage,
          ((∀ node ∈ some target.node, SameName table atoms node here) →
            (linkEndpoints atoms (some here) ws >>= f) = f (⟨a, fromPid, 0⟩, target.pidNumber)) ∧
          ((∃ node ∈ some target.node, ¬ SameName table atoms node here) →
            (linkEndpoints atoms (some here) ws >>= f) = .error .misAddressed) := by
    intro op fromPid target reason ws hws hnode
    obtain ⟨a, b, rest, ha, hb, hrest, rfl⟩ := controlTuple_renamed hws
    refine ⟨a, b, rest, ha, hrest, rfl, fun f => ?_⟩
    exact linkEndpoints_addressed (isNodeLessMarker_of_sameName ha hlocal)
      (isNodeLessMarker_of_sameName hb hnode) hb f
  cases c with
  | link fromPid target =>
    obtain ⟨a, b, rest, ha, hrest, rfl, hends⟩ := hlink hws (htarget _ rfl)
    obtain rfl := List.forall₂_nil_left_iff.mp hrest
    obtain ⟨hthere, helse⟩ := hends fun ends => .ok (.link ends.1 ends.2)
    refine ⟨fun hhere => ⟨_, hthere hhere, ?_⟩, helse⟩
    exact iff_of_true (.link ha _ _ _) nofun
  | unlink fromPid target =>
    obtain ⟨a, b, rest, ha, hrest, rfl, hends⟩ := hlink hws (htarget _ rfl)
    obtain rfl := List.forall₂_nil_left_iff.mp hrest
    obtain ⟨hthere, helse⟩ := hends fun ends => .ok (.unlink ends.1 ends.2)
    refine ⟨fun hhere => ⟨_, hthere hhere, ?_⟩, helse⟩
    exact iff_of_true (.unlink ha _ _ _) nofun
  | exit fromPid target reason =>
    obtain ⟨a, b, rest, ha, hrest, rfl, hends⟩ := hlink hws (htarget _ rfl)
    obtain ⟨c, rfl, hc⟩ := reason_renamed htable hatoms hrest
    obtain ⟨hthere, helse⟩ := hends fun ends => .ok (.exit ends.1 ends.2 (exitReasonFromWire c))
    refine ⟨fun hhere => ⟨_, hthere hhere, ?_⟩, helse⟩
    by_cases hcrash : reason = .workerCrashed
    · rw [hc, if_pos hcrash, hcrash]
      exact iff_of_false (fun h => by cases h) fun h => h rfl
    · rw [hc, if_neg hcrash]
      exact iff_of_true (.exit ha _ _ _ _) fun h => hcrash (Option.some.inj h)
  | exit2 fromPid target reason =>
    obtain ⟨a, b, rest, ha, hrest, rfl, hends⟩ := hlink hws (htarget _ rfl)
    obtain ⟨c, rfl, hc⟩ := reason_renamed htable hatoms hrest
    obtain ⟨hthere, helse⟩ := hends fun ends => .ok (.exit2 ends.1 ends.2 (exitReasonFromWire c))
    refine ⟨fun hhere => ⟨_, hthere hhere, ?_⟩, helse⟩
    by_cases hcrash : reason = .workerCrashed
    · rw [hc, if_pos hcrash, hcrash]
      exact iff_of_false (fun h => by cases h) fun h => h rfl
    · rw [hc, if_neg hcrash]
      exact iff_of_true (.exit2 ha _ _ _ _) fun h => hcrash (Option.some.inj h)
  | pg update =>
    refine ⟨fun _ => ?_, fun ⟨node, hnode, _⟩ => by cases hnode⟩
    cases update with
    | join scope group pid =>
      obtain ⟨_, _, rfl, h₁, rfl⟩ := List.forall₂_cons_left_iff.mp hws
      obtain ⟨_, _, rfl, h₂, rfl⟩ := List.forall₂_cons_left_iff.mp h₁
      obtain ⟨_, _, ⟨a, ha, rfl⟩, h₃, rfl⟩ := List.forall₂_cons_left_iff.mp h₂
      obtain ⟨_, _, ⟨b, hb, rfl⟩, h₄, rfl⟩ := List.forall₂_cons_left_iff.mp h₃
      obtain ⟨_, _, ⟨c, hc, rfl⟩, h₅, rfl⟩ := List.forall₂_cons_left_iff.mp h₄
      obtain rfl := List.forall₂_nil_left_iff.mp h₅
      exact ⟨_, rfl, iff_of_true (.pgJoin ha hb hc _ _) nofun⟩
    | leave scope group pid =>
      obtain ⟨_, _, rfl, h₁, rfl⟩ := List.forall₂_cons_left_iff.mp hws
      obtain ⟨_, _, rfl, h₂, rfl⟩ := List.forall₂_cons_left_iff.mp h₁
      obtain ⟨_, _, ⟨a, ha, rfl⟩, h₃, rfl⟩ := List.forall₂_cons_left_iff.mp h₂
      obtain ⟨_, _, ⟨b, hb, rfl⟩, h₄, rfl⟩ := List.forall₂_cons_left_iff.mp h₃
      obtain ⟨_, _, ⟨c, hc, rfl⟩, h₅, rfl⟩ := List.forall₂_cons_left_iff.mp h₄
      obtain rfl := List.forall₂_nil_left_iff.mp h₅
      exact ⟨_, rfl, iff_of_true (.pgLeave ha hb hc _ _) nofun⟩

end RoundTrip

theorem smallInt_injective : Function.Injective smallInt := by
  intro b b' h
  have hvalue := congrArg SmallInt.value (Number.smallInt.inj (Value.number.inj h))
  exact UInt8.toNat_inj.mp (Int.ofNat.inj hvalue)

/-- The ends and the reason can be taken from a control tuple. -/
theorem controlTuple_injective {op op' : WireOp} {localNode localNode' : Atom}
    {fromPid fromPid' : UInt64} {target target' : RemotePid} {reason reason' : Option ExitReason}
    (h : controlTuple op localNode fromPid target reason =
      controlTuple op' localNode' fromPid' target' reason') :
    op.opcode = op'.opcode ∧ localNode = localNode' ∧ fromPid = fromPid' ∧ target = target' ∧
      reason = reason' := by
  obtain ⟨hop, h⟩ := List.cons.inj h
  obtain ⟨hfrom, h⟩ := List.cons.inj h
  obtain ⟨hto, hrest⟩ := List.cons.inj h
  obtain ⟨rfl, rfl, -⟩ := PidRef.remote.inj (Value.pid.inj hfrom)
  obtain ⟨hnode, hnumber, hserial⟩ := PidRef.remote.inj (Value.pid.inj hto)
  refine ⟨smallInt_injective hop, rfl, rfl, ?_, ?_⟩
  · cases target
    cases target'
    exact congr (congr (congrArg RemotePid.mk hnode) hnumber) hserial
  · cases reason with
    | none =>
      cases reason' with
      | none => rfl
      | some reason' => cases hrest
    | some reason =>
      cases reason' with
      | none => cases hrest
      | some reason' =>
        rw [reasonAtom_injective (Value.atom.inj (List.cons.inj hrest).1)]

def OutgoingControl.opcode : OutgoingControl → UInt8
  | .link _ _ => WireOp.link.opcode
  | .unlink _ _ => WireOp.unlink.opcode
  | .exit _ _ _ => WireOp.exit.opcode
  | .exit2 _ _ _ => WireOp.exit2.opcode
  | .pg _ => 101

theorem opcode_eq_of_parts {localNode localNode' : Atom} {c c' : OutgoingControl}
    (h : c.parts localNode = c'.parts localNode') : c.opcode = c'.opcode := by
  have hhead : ∀ (c : OutgoingControl) (localNode : Atom),
      (c.parts localNode).head? = some (smallInt c.opcode) := by
    intro c localNode
    rcases c with _ | _ | _ | _ | (_ | _) <;> rfl
  have hheads := congrArg List.head? h
  rw [hhead, hhead] at hheads
  exact smallInt_injective (Option.some.inj hheads)

/-- The parts of a message say which it is. -/
theorem parts_injective {localNode localNode' : Atom} {c c' : OutgoingControl}
    (h : c.parts localNode = c'.parts localNode') : localNode = localNode' ∧ c = c' := by
  have hop := opcode_eq_of_parts h
  cases c with
  | link fromPid target =>
    cases c' with
    | link fromPid' target' =>
      obtain ⟨-, rfl, rfl, rfl, -⟩ := controlTuple_injective h
      exact ⟨rfl, rfl⟩
    | _ => simp [OutgoingControl.opcode, WireOp.opcode] at hop
  | unlink fromPid target =>
    cases c' with
    | unlink fromPid' target' =>
      obtain ⟨-, rfl, rfl, rfl, -⟩ := controlTuple_injective h
      exact ⟨rfl, rfl⟩
    | _ => simp [OutgoingControl.opcode, WireOp.opcode] at hop
  | exit fromPid target reason =>
    cases c' with
    | exit fromPid' target' reason' =>
      obtain ⟨-, rfl, rfl, rfl, hreason⟩ := controlTuple_injective h
      exact ⟨rfl, congrArg _ (Option.some.inj hreason)⟩
    | _ => simp [OutgoingControl.opcode, WireOp.opcode] at hop
  | exit2 fromPid target reason =>
    cases c' with
    | exit2 fromPid' target' reason' =>
      obtain ⟨-, rfl, rfl, rfl, hreason⟩ := controlTuple_injective h
      exact ⟨rfl, congrArg _ (Option.some.inj hreason)⟩
    | _ => simp [OutgoingControl.opcode, WireOp.opcode] at hop
  | pg update =>
    cases c' with
    | pg update' =>
      cases update with
      | join scope group pid =>
        cases update' with
        | join scope' group' pid' =>
          simp only [OutgoingControl.parts, List.cons.injEq, Value.atom.injEq, Value.pid.injEq,
            PidRef.remote.injEq, true_and, and_true] at h
          obtain ⟨rfl, rfl, rfl, rfl⟩ := h
          exact ⟨rfl, rfl⟩
        | leave scope' group' pid' =>
          exact absurd (smallInt_injective (List.cons.inj (List.cons.inj h).2).1) (by decide)
      | leave scope group pid =>
        cases update' with
        | join scope' group' pid' =>
          exact absurd (smallInt_injective (List.cons.inj (List.cons.inj h).2).1) (by decide)
        | leave scope' group' pid' =>
          simp only [OutgoingControl.parts, List.cons.injEq, Value.atom.injEq, Value.pid.injEq,
            PidRef.remote.injEq, true_and, and_true] at h
          obtain ⟨rfl, rfl, rfl, rfl⟩ := h
          exact ⟨rfl, rfl⟩
    | _ => simp [OutgoingControl.opcode, WireOp.opcode] at hop

/-! ## Encoding succeeds -/

/-- The atoms of a message. -/
def OutgoingControl.atoms (localNode : Atom) : OutgoingControl → List Atom
  | .link _ target => [localNode, target.node]
  | .unlink _ target => [localNode, target.node]
  | .exit _ target reason => [localNode, target.node, reasonAtom reason]
  | .exit2 _ target reason => [localNode, target.node, reasonAtom reason]
  | .pg (.join scope group _) => [scope, group, localNode]
  | .pg (.leave scope group _) => [scope, group, localNode]

/-- The numbers and the serial of its pids. -/
def OutgoingControl.numbers : OutgoingControl → List UInt64
  | .link fromPid target => [fromPid, target.pidNumber, target.serial]
  | .unlink fromPid target => [fromPid, target.pidNumber, target.serial]
  | .exit fromPid target _ => [fromPid, target.pidNumber, target.serial]
  | .exit2 fromPid target _ => [fromPid, target.pidNumber, target.serial]
  | .pg (.join _ _ pid) => [pid]
  | .pg (.leave _ _ pid) => [pid]

/-- The name of the atom goes in an `ATOM_UTF8_EXT`. -/
def NameFits (table : AtomTable) (a : Atom) : Prop :=
  ∃ name, table.resolve a = some name ∧ name.length < 2 ^ 16

/-- The pids fit the fields of 32 bits, and the names those of atoms. -/
structure OutgoingControl.Fits (table : AtomTable) (localNode : Atom) (c : OutgoingControl) :
    Prop where
  names : ∀ a ∈ c.atoms localNode, NameFits table a
  numbers : ∀ n ∈ c.numbers, n.toNat < 2 ^ 32

/-- What a part needs to be encoded. -/
def PartFits (table : AtomTable) : Value → Prop
  | .atom a => NameFits table a
  | .pid (.remote node number serial) =>
    NameFits table node ∧ number.toNat < 2 ^ 32 ∧ serial.toNat < 2 ^ 32
  | _ => True

theorem OutgoingControl.Fits.parts {table : AtomTable} {localNode : Atom} {c : OutgoingControl}
    (h : c.Fits table localNode) : ∀ v ∈ c.parts localNode, PartFits table v := by
  obtain ⟨hnames, hnumbers⟩ := h
  rcases c with _ | _ | _ | _ | (_ | _) <;>
    simp_all [OutgoingControl.parts, controlTuple, OutgoingControl.atoms, OutgoingControl.numbers,
      PartFits, smallInt]

theorem encodeAtom_fits {table : AtomTable} {a : Atom} (h : NameFits table a) :
    ∃ bytes, encodeAtom table a = .ok bytes ∧ bytes.length < 2 ^ 17 := by
  obtain ⟨name, hname, hlen⟩ := h
  rw [encodeAtom, hname]
  dsimp only
  rw [encodeAtomName]
  by_cases hshort : name.length < 256
  · rw [if_pos hshort]
    exact ⟨_, rfl, by simp only [List.length_cons]; omega⟩
  · rw [if_neg hshort, u16Of, if_pos hlen, except_ok_bind]
    exact ⟨_, rfl, by simp only [List.length_cons, List.length_append, beBytes_length]; omega⟩

theorem encodePart_fits {table : AtomTable} {v : Value} (hv : ControlPart v)
    (h : PartFits table v) : ∃ bytes,
      encodeTermInner table maxEtfDepth v = .ok bytes ∧ bytes.length < 2 ^ 18 := by
  cases hv with
  | smallInt b => exact ⟨_, encode_smallInt 255 b, by simp⟩
  | atom a =>
    obtain ⟨bytes, hbytes, hlen⟩ := encodeAtom_fits h
    exact ⟨bytes, hbytes, by omega⟩
  | pid node number serial =>
    obtain ⟨hnode, hnumber, hserial⟩ := h
    obtain ⟨bytes, hbytes, hlen⟩ := encodeAtom_fits hnode
    have hpid : encodeExternalPid table node number serial = .ok (Tags.newPidExt :: bytes ++
        beBytes 4 number.toNat ++ beBytes 4 serial.toNat ++ beBytes 4 0) := by
      rw [encodeExternalPid, hbytes, except_ok_bind, u32Of, if_pos hnumber, except_ok_bind, u32Of,
        if_pos hserial, except_ok_bind]
    refine ⟨_, hpid, ?_⟩
    simp only [List.length_cons, List.length_append, beBytes_length]
    omega

theorem encodeParts_fits {table : AtomTable} {vs : List Value} (hvs : ∀ v ∈ vs, ControlPart v)
    (h : ∀ v ∈ vs, PartFits table v) : ∃ body,
      vs.mapM (encodeTermInner table maxEtfDepth) = .ok body ∧
        body.flatten.length ≤ vs.length * 2 ^ 18 := by
  induction vs with
  | nil => exact ⟨[], rfl, by simp⟩
  | cons v vs ih =>
    obtain ⟨bytes, hbytes, hlen⟩ := encodePart_fits (hvs v List.mem_cons_self)
      (h v List.mem_cons_self)
    obtain ⟨body, hbody, hlens⟩ := ih (fun w hw => hvs w (List.mem_cons_of_mem v hw))
      (fun w hw => h w (List.mem_cons_of_mem v hw))
    refine ⟨bytes :: body, ?_, ?_⟩
    · rw [List.mapM_cons, hbytes, except_ok_bind, hbody]
      rfl
    · rw [List.flatten_cons, List.length_append, List.length_cons]
      omega

/-- A message that fits has a frame. -/
theorem OutgoingControl.Fits.encode {table : AtomTable} {localNode : Atom} {c : OutgoingControl}
    (h : c.Fits table localNode) : ∃ frame, c.encode table localNode = .ok frame := by
  obtain ⟨body, hbody, hlen⟩ :=
    encodeParts_fits (OutgoingControl.parts_controlPart localNode c) h.parts
  have harity : (c.parts localNode).length ≤ 5 := by
    rcases c with _ | _ | _ | _ | (_ | _) <;> simp [OutgoingControl.parts, controlTuple]
  have hinner : encodeTermInner table (maxEtfDepth + 1) (.tuple (c.parts localNode)) =
      .ok ([Tags.smallTupleExt, UInt8.ofNat (c.parts localNode).length] ++ body.flatten) := by
    rw [encodeTermInner, tupleHeader, if_pos (by omega), except_ok_bind, hbody, except_ok_bind]
  have hcontrol : encodeTerm table (.tuple (c.parts localNode)) = .ok (Tags.version ::
      ([Tags.smallTupleExt, UInt8.ofNat (c.parts localNode).length] ++ body.flatten)) := by
    rw [encodeTerm, hinner, except_ok_bind]
  have hnil : encodeTerm table .nil = .ok [Tags.version, Tags.nilExt] := rfl
  rw [OutgoingControl.encode_eq, encodeFrame, hcontrol, except_ok_bind, hnil, except_ok_bind, u32Of,
    if_pos, except_ok_bind, u32Of, if_pos (by decide), except_ok_bind]
  · exact ⟨_, rfl⟩
  · simp only [List.length_cons, List.length_append, List.length_nil]
    omega

/-! ## Frames -/

section Frames

variable {H : Type} (heap : ControlHeap H) (inflate : InflateStream) (table atoms : AtomTable)

/-- The control is read, at the node whose atom for itself is `here`, as the message. -/
def ReadsBack (localNode here : Atom) (c : OutgoingControl) (control : List UInt8) : Prop :=
  ∃ message atoms',
    decodeControlAddressed heap inflate atoms (some here) control = .ok (message, atoms') ∧
      atoms'.Extends atoms ∧
      SameMessage (SameName table atoms') (c.message localNode) message ∧
      (atoms.Extends table → message = c.message localNode)

/-- The node `here` is another than the one a link control is for. -/
def Elsewhere (here : Atom) (c : OutgoingControl) : Prop :=
  ∃ node ∈ c.target, ∃ name, atoms.resolve here = some name ∧ table.resolve node ≠ some name

variable {heap inflate table atoms}

theorem Elsewhere.extends {atoms' : AtomTable} (hext : atoms'.Extends atoms) {here : Atom}
    {c : OutgoingControl} (h : Elsewhere table atoms here c) :
    ∃ node ∈ c.target, ¬ SameName table atoms' node here := by
  obtain ⟨node, hnode, name, hname, hother⟩ := h
  refine ⟨node, hnode, ?_⟩
  rintro ⟨name', htarget, hhere⟩
  obtain rfl := Option.some.inj ((hext.resolve hname).symm.trans hhere)
  exact hother htarget

variable (heap inflate) (htable : table.Extends .withCommonAtoms)
  (hatoms : atoms.Extends .withCommonAtoms) {localNode : Atom}

include htable hatoms

/-- What the nodes of a cluster make of the frame of a message. -/
theorem frame_decoded {c : OutgoingControl} (hlocal : table.resolve localNode ≠ some nonodeNohost)
    (htarget : ∀ node ∈ c.target, table.resolve node ≠ some nonodeNohost) {frame : List UInt8}
    (hframe : c.encode table localNode = .ok frame) : ∃ control payload,
      splitFrame frame = .ok (control, payload) ∧
      (∀ here, (∀ node ∈ c.target, SameName table atoms node here) →
        (ReadsBack heap inflate table atoms localNode here c control ↔
          c.reason ≠ some .workerCrashed)) ∧
      (∀ here, Elsewhere table atoms here c →
        decodeControlAddressed heap inflate atoms (some here) control = .error .misAddressed) := by
  rw [OutgoingControl.encode_eq] at hframe
  obtain ⟨control, payload, hcontrol, -, hsplit⟩ := splitFrame_encodeFrame hframe
  obtain ⟨ws, atoms', hterm, hext, hws⟩ := decodeControlTerm_tuple heap inflate atoms
    (OutgoingControl.parts_controlPart localNode c) (OutgoingControl.parts_room localNode c)
    hcontrol
  have hcommon : atoms'.Extends .withCommonAtoms := hext.trans hatoms
  refine ⟨control, payload, hsplit, fun here hhere => ?_, fun here hhere => ?_⟩
  · obtain ⟨hthere, -⟩ := message_parts htable hcommon here c hlocal htarget hws
    obtain ⟨m, hm, hsame⟩ := hthere fun node hnode => (hhere node hnode).extends hext
    have hdecode : decodeControlAddressed heap inflate atoms (some here) control =
        .ok (m, atoms') := by
      rw [decodeControlAddressed, hterm]
      dsimp only
      rw [hm]
    constructor
    · rintro ⟨message, atoms'', hdecode', -, hmessage, -⟩
      obtain ⟨rfl, rfl⟩ := Prod.mk.inj (Except.ok.inj (hdecode.symm.trans hdecode'))
      exact hsame.mp hmessage
    · intro hreason
      refine ⟨m, atoms', hdecode, hext, hsame.mpr hreason, fun htables => ?_⟩
      exact ((hsame.mpr hreason).eq fun h => h.eq_of_extends (hext.trans htables)).symm
  · obtain ⟨-, helse⟩ := message_parts htable hcommon here c hlocal htarget hws
    rw [decodeControlAddressed, hterm]
    dsimp only
    rw [helse (hhere.extends hext)]

omit htable hatoms in
/-- A frame is the frame of one message of one node. -/
theorem encode_injective {localNode' : Atom} {c c' : OutgoingControl} {frame : List UInt8}
    (h : c.encode table localNode = .ok frame) (h' : c'.encode table localNode' = .ok frame) :
    localNode = localNode' ∧ c = c' := by
  rw [OutgoingControl.encode_eq] at h h'
  obtain ⟨control, payload, hcontrol, -, hsplit⟩ := splitFrame_encodeFrame h
  obtain ⟨control', payload', hcontrol', -, hsplit'⟩ := splitFrame_encodeFrame h'
  obtain ⟨rfl, rfl⟩ := Prod.mk.inj (Except.ok.inj (hsplit.symm.trans hsplit'))
  obtain ⟨ws, atoms', hterm, -, hws⟩ := decodeControlTerm_tuple countingHeap (fun _ _ => none)
    table (OutgoingControl.parts_controlPart localNode c) (OutgoingControl.parts_room localNode c)
    hcontrol
  obtain ⟨ws', atoms'', hterm', -, hws'⟩ := decodeControlTerm_tuple countingHeap (fun _ _ => none)
    table (OutgoingControl.parts_controlPart localNode' c')
    (OutgoingControl.parts_room localNode' c') hcontrol'
  obtain ⟨heq, rfl⟩ := Prod.mk.inj (Except.ok.inj (hterm.symm.trans hterm'))
  obtain rfl := Value.tuple.inj heq
  exact parts_injective (renamed_left_unique (fun a a' b h h' => h.left_unique h')
    (OutgoingControl.parts_controlPart localNode c)
    (OutgoingControl.parts_controlPart localNode' c') hws hws')

/-- The frame of a message that fits comes back as the message at the node of its target, unless
its reason is that of a crashed worker. It is refused as misaddressed at every other node, and no
other message has it. -/
theorem control_frame_round_trip_iff (c : OutgoingControl) (hfits : c.Fits table localNode)
    (hlocal : table.resolve localNode ≠ some nonodeNohost)
    (htarget : ∀ node ∈ c.target, table.resolve node ≠ some nonodeNohost) :
    ∃ frame control payload, c.encode table localNode = .ok frame ∧
      splitFrame frame = .ok (control, payload) ∧
      (∀ here, (∀ node ∈ c.target, SameName table atoms node here) →
        (ReadsBack heap inflate table atoms localNode here c control ↔
          c.reason ≠ some .workerCrashed)) ∧
      (∀ here, Elsewhere table atoms here c →
        decodeControlAddressed heap inflate atoms (some here) control = .error .misAddressed) ∧
      (∀ c' localNode', c'.encode table localNode' = .ok frame →
        localNode' = localNode ∧ c' = c) := by
  obtain ⟨frame, hframe⟩ := hfits.encode
  obtain ⟨control, payload, hsplit, hthere, helse⟩ :=
    frame_decoded heap inflate htable hatoms hlocal htarget hframe
  exact ⟨frame, control, payload, hframe, hsplit, hthere, helse,
    fun c' localNode' h => encode_injective h hframe⟩

end Frames

/-- An `EXIT` between processes of two nodes with common atoms for names. -/
def sampleExit (reason : ExitReason) : OutgoingControl := .exit 7 ⟨atomKill, 9, 0⟩ reason

theorem sampleExit_fits (reason : ExitReason) :
    (sampleExit reason).Fits .withCommonAtoms atomNormal where
  names := by
    have hname : ∀ a < 78, NameFits .withCommonAtoms a := by
      intro a ha
      obtain ⟨name, hname⟩ : ∃ name, AtomTable.withCommonAtoms.resolve a = some name :=
        ⟨_, List.getElem?_eq_getElem ha⟩
      have hshort : ∀ name ∈ AtomTable.commonAtomNames, name.length < 2 ^ 16 := by decide +kernel
      exact ⟨name, hname, hshort name (List.mem_of_getElem? hname)⟩
    have hreason : reasonAtom reason < 78 := by cases reason <;> decide
    simp only [sampleExit, OutgoingControl.atoms, List.forall_mem_cons]
    exact ⟨hname _ (by decide), hname _ (by decide), hname _ hreason, List.forall_mem_nil _⟩
  numbers := by
    simp [sampleExit, OutgoingControl.numbers]

theorem control_frame_round_trip_iff_kill :
    ∃ frame control payload,
      (sampleExit .kill).encode .withCommonAtoms atomNormal = .ok frame ∧
      splitFrame frame = .ok (control, payload) ∧
      ReadsBack countingHeap (fun _ _ => none) .withCommonAtoms .withCommonAtoms atomNormal atomKill
        (sampleExit .kill) control ∧
      decodeControlAddressed countingHeap (fun _ _ => none) .withCommonAtoms (some atomNormal)
        control = .error .misAddressed := by
  obtain ⟨frame, control, payload, hframe, hsplit, hthere, helse, -⟩ :=
    control_frame_round_trip_iff countingHeap (fun _ _ => none) (AtomTable.Extends.refl _)
      (AtomTable.Extends.refl _) (sampleExit .kill) (sampleExit_fits .kill) (by decide +kernel)
      (by rintro node ⟨⟩; decide +kernel)
  refine ⟨frame, control, payload, hframe, hsplit, (hthere atomKill ?_).mpr nofun,
    helse atomNormal ?_⟩
  · rintro node ⟨⟩
    exact ⟨_, rfl, rfl⟩
  · exact ⟨atomKill, rfl, _, rfl, by decide +kernel⟩

/-- The exit of a process whose worker crashed arrives as that of a process with an error. -/
theorem not_control_frame_round_trip :
    (sampleExit .workerCrashed).Fits .withCommonAtoms atomNormal ∧
    ∃ frame control payload,
      (sampleExit .workerCrashed).encode .withCommonAtoms atomNormal = .ok frame ∧
      splitFrame frame = .ok (control, payload) ∧
      ¬ ReadsBack countingHeap (fun _ _ => none) .withCommonAtoms .withCommonAtoms atomNormal
        atomKill (sampleExit .workerCrashed) control := by
  obtain ⟨frame, hframe⟩ := (sampleExit_fits .workerCrashed).encode
  obtain ⟨control, payload, hsplit, hthere, -⟩ := frame_decoded countingHeap (fun _ _ => none)
    (AtomTable.Extends.refl _) (AtomTable.Extends.refl _) (by decide +kernel)
    (by rintro node ⟨⟩; decide +kernel) hframe
  refine ⟨sampleExit_fits .workerCrashed, frame, control, payload, hframe, hsplit, fun h => ?_⟩
  refine (hthere atomKill ?_).mp h rfl
  rintro node ⟨⟩
  exact ⟨_, rfl, rfl⟩

end Beamr.Distribution
