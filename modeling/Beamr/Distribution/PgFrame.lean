import Beamr.Distribution.Control
import Beamr.Etf.RoundTrip

/-!
# Membership updates on the wire

The frame of an update, read by another node. That node has an atom table of its own, so each name
comes back as the atom it has there, interned if it is new.
-/
namespace Beamr.Distribution

open Etf Term ByteOrder Decoder

/-! ## The tuple of an update -/

theorem field_ok {α : Type} {elements : List Value} {i : ℕ} {kind : Value → Option α} {a : α} :
    field elements i kind = .ok a ↔ elements[i]?.bind kind = some a := by
  unfold field
  split
  next b hb => rw [hb, Except.ok.injEq, Option.some.injEq]
  next hnone =>
    rw [hnone]
    constructor
    · intro h
      cases h
    · intro h
      cases h

/-- A process of a named node stands at the place. -/
def PidAt (elements : List Value) (i : ℕ) (pid : RemotePid) : Prop :=
  (elements[i]?.bind fun v => (asPid v).bind remotePid) = some pid

/-- The tuple of a membership update. -/
structure PgTerm (elements : List Value) (tag : ℤ) (scope group : Atom) (member : RemotePid) :
    Prop where
  arity : elements.length = 5
  op : elements[0]?.bind asSmallInt = some pgUpdate
  tag : elements[1]?.bind asSmallInt = some tag
  scope : elements[2]?.bind asAtom = some scope
  group : elements[3]?.bind asAtom = some group
  member : PidAt elements 4 member

/-- The message of a tuple of an update. -/
theorem PgTerm.message {elements : List Value} {tag : ℤ} {scope group : Atom} {member : RemotePid}
    (h : PgTerm elements tag scope group member) (atoms : AtomTable) (localNode : Option Atom) :
    controlMessage atoms localNode (.tuple elements) =
      if tag = pgJoinTag then
        .ok (.pgJoin scope group member.node member.pidNumber member.serial)
      else if tag = pgLeaveTag then
        .ok (.pgLeave scope group member.node member.pidNumber member.serial)
      else .error .invalidControl := by
  rw [controlMessage]
  rw [h.op, h.arity, if_neg (by decide), if_neg (by decide), if_pos ⟨rfl, rfl⟩, decodePgUpdate,
    field_ok.mpr h.tag, except_ok_bind, field_ok.mpr h.scope, except_ok_bind,
    field_ok.mpr h.group, except_ok_bind, field_ok.mpr h.member, except_ok_bind]

/-! ## Names -/

/-- The atom `b` of `u` has the name that `a` has in `t`. -/
def SameName (t u : AtomTable) (a b : Atom) : Prop :=
  ∃ name, t.resolve a = some name ∧ u.resolve b = some name

theorem SameName.extends {t u v : AtomTable} {a b : Atom} (h : SameName t u a b)
    (hv : v.Extends u) : SameName t v a b := by
  obtain ⟨name, ha, hb⟩ := h
  exact ⟨name, ha, hv.resolve hb⟩

section Reads

variable {H : Type} {context : DecodeContext H} {table : AtomTable}

theorem reads_tagged {left : ℕ} {s s' : DecodeState H} {tag : UInt8} {rest : List UInt8} {v : Value}
    (h : Reads (decodeBody context {} (decodeOne context {} left) tag) s rest v s') :
    Reads (decodeOne context {} (left + 1)) s (tag :: rest) v s' :=
  (reads_readU8 s tag).bind h

/-- An atom is read as the atom of its name. -/
theorem reads_atom (context : DecodeContext H) {a : Atom} {bytes : List UInt8}
    (hbytes : encodeAtom table a = .ok bytes) (s : DecodeState H) (left : ℕ) : ∃ b atoms,
      Reads (decodeOne context {} (left + 1)) s bytes (.atom b) { s with atoms } ∧
        atoms.Extends s.atoms ∧ SameName table atoms a b := by
  unfold encodeAtom at hbytes
  split at hbytes
  · cases hbytes
  next name hname =>
  have hvalid := AtomTable.valid_of_resolve hname
  refine ⟨_, _, ?_, AtomTable.intern_extends s.atoms name hvalid,
    name, hname, AtomTable.resolve_intern s.atoms name hvalid⟩
  have hatom : Reads (decodeAtom {} name) s [] (.atom (s.atoms.intern name hvalid).1)
      { s with atoms := (s.atoms.intern name hvalid).2 } := by
    rw [decodeAtom, dif_pos hvalid]
    refine (Reads.getState s).bind_nil ?_
    exact (Reads.setState s _).bind_nil (Reads.pure _ _)
  unfold encodeAtomName at hbytes
  split at hbytes
  next hlen =>
    obtain rfl := Except.ok.inj hbytes
    refine reads_tagged ((reads_readU8 s _).bind ?_)
    exact (reads_readBytes s (toNat_byte hlen).symm).bind_pure hatom
  next =>
    obtain ⟨n, hn, hbytes⟩ := except_bind_ok_iff.mp hbytes
    obtain ⟨rfl, hlt⟩ := u16Of_ok hn
    obtain rfl := Except.ok.inj hbytes
    refine reads_tagged ((reads_readU16 s hlt).bind ?_)
    exact (reads_readBytes s rfl).bind_pure hatom

theorem reads_alloc {s : DecodeState H} {words : ℕ} {heap : H} (v : Value)
    (h : context.allocWords s.heap words = some heap) :
    Reads (alloc context words v) s [] v { s with heap } :=
  (Reads.getState s).bind_nil
    ((Reads.ofOption _ s h).bind_nil ((Reads.setState s _).bind_nil (Reads.pure _ _)))

theorem reads_smallInt (s : DecodeState H) (left : ℕ) (b : UInt8) :
    Reads (decodeOne context {} (left + 1)) s [Tags.smallIntegerExt, b] (smallInt b) s :=
  reads_tagged ((reads_readU8 s b).bind_pure (Reads.pure _ s))

/-- A pid of a named node is read as a pid of the node of that name. -/
theorem reads_externalPid {node : Atom} {number serial : UInt64} {bytes : List UInt8}
    (hbytes : encodeExternalPid table node number serial = .ok bytes) (s : DecodeState H)
    {heap : H} (hheap : context.allocWords s.heap 4 = some heap) (left : ℕ) : ∃ b atoms,
      Reads (decodeOne context {} (left + 2)) s bytes (.pid (.remote b number serial))
        ⟨atoms, heap⟩ ∧ atoms.Extends s.atoms ∧ SameName table atoms node b := by
  obtain ⟨name, hname, hbytes⟩ := except_bind_ok_iff.mp hbytes
  obtain ⟨id, hid, hbytes⟩ := except_bind_ok_iff.mp hbytes
  obtain ⟨ser, hser, hbytes⟩ := except_bind_ok_iff.mp hbytes
  obtain ⟨rfl, hidLt⟩ := u32Of_ok hid
  obtain ⟨rfl, hserLt⟩ := u32Of_ok hser
  obtain rfl := Except.ok.inj hbytes
  obtain ⟨b, atoms, hreads, hextends, hsame⟩ := reads_atom context hname s left
  refine ⟨b, atoms, ?_, hextends, hsame⟩
  have hnode : Reads (decodeNode (decodeOne context {} (left + 1)) Tags.newPidExt) s name b
      { s with atoms } := hreads.bind_pure (Reads.pure _ _)
  rw [List.append_assoc, List.append_assoc]
  refine reads_tagged (hnode.bind ?_)
  refine (reads_readU32 _ hidLt).bind ((reads_readU32 _ hserLt).bind ?_)
  have halloc : Reads (alloc context 4
      (.pid (.remote b (UInt64.ofNat number.toNat) (UInt64.ofNat serial.toNat))))
      ⟨atoms, s.heap⟩ [] (.pid (.remote b number serial)) ⟨atoms, heap⟩ := by
    rw [UInt64.ofNat_toNat, UInt64.ofNat_toNat]
    exact reads_alloc (s := ⟨atoms, s.heap⟩) _ hheap
  exact (reads_readBytes _ (beBytes_length 4 0)).bind_pure halloc

end Reads

/-! ## Frames -/

theorem splitFrame_encodeFrame {table : AtomTable} {control message : Value} {frame : List UInt8}
    (h : encodeFrame table control message = .ok frame) : ∃ controlEtf payloadEtf,
      encodeTerm table control = .ok controlEtf ∧ encodeTerm table message = .ok payloadEtf ∧
        splitFrame frame = .ok (controlEtf, payloadEtf) := by
  obtain ⟨controlEtf, hcontrol, h⟩ := except_bind_ok_iff.mp h
  obtain ⟨payloadEtf, hpayload, h⟩ := except_bind_ok_iff.mp h
  obtain ⟨n, hn, h⟩ := except_bind_ok_iff.mp h
  obtain ⟨k, hk, h⟩ := except_bind_ok_iff.mp h
  obtain ⟨rfl, hnLt⟩ := u32Of_ok hn
  obtain ⟨rfl, hkLt⟩ := u32Of_ok hk
  obtain rfl := Except.ok.inj h
  refine ⟨controlEtf, payloadEtf, hcontrol, hpayload, ?_⟩
  have hcontrolLen : beNat (beBytes 4 controlEtf.length) = controlEtf.length := by
    rw [beNat_beBytes, Nat.mod_eq_of_lt (by norm_num at hnLt ⊢; exact hnLt)]
  have hpayloadLen : beNat (beBytes 4 payloadEtf.length) = payloadEtf.length := by
    rw [beNat_beBytes, Nat.mod_eq_of_lt (by norm_num at hkLt ⊢; exact hkLt)]
  rw [List.append_assoc, List.append_assoc]
  have htail : (beBytes 4 controlEtf.length ++ (beBytes 4 payloadEtf.length ++
      (controlEtf ++ payloadEtf))).drop 4 = beBytes 4 payloadEtf.length ++
        (controlEtf ++ payloadEtf) := List.drop_left' (beBytes_length ..)
  have hparts : (beBytes 4 controlEtf.length ++ (beBytes 4 payloadEtf.length ++
      (controlEtf ++ payloadEtf))).drop 8 = controlEtf ++ payloadEtf := by
    rw [← List.append_assoc]
    exact List.drop_left' (by simp)
  have hpayloadPart : (beBytes 4 controlEtf.length ++ (beBytes 4 payloadEtf.length ++
      (controlEtf ++ payloadEtf))).drop (8 + controlEtf.length) = payloadEtf := by
    rw [← List.drop_drop, hparts]
    exact List.drop_left
  rw [splitFrame, if_neg (by simp; omega), List.take_left' (beBytes_length ..), htail,
    List.take_left' (beBytes_length ..), hcontrolLen, hpayloadLen, hparts]
  dsimp only
  rw [hpayloadPart, List.take_left' rfl, List.take_of_length_le (Nat.le_refl _)]
  exact if_pos (by simp; omega)

/-! ## Updates -/

section Updates

variable {H : Type} (heap : ControlHeap H) (inflate : InflateStream) {table : AtomTable}

theorem encode_smallInt (left : ℕ) (b : UInt8) :
    encodeTermInner table (left + 1) (smallInt b) = .ok [Tags.smallIntegerExt, b] := by
  have hb := b.toNat_lt
  rw [smallInt, encodeTermInner, encodeInteger, if_pos ⟨by positivity, by dsimp only; omega⟩]
  simp

/-- The values that control tuples are made of. -/
inductive ControlPart : Value → Prop
  | smallInt (b : UInt8) : ControlPart (smallInt b)
  | atom (a : Atom) : ControlPart (.atom a)
  | pid (node : Atom) (number serial : UInt64) : ControlPart (.pid (.remote node number serial))

/-- `w` is `v` with the atoms of another table. -/
def Renamed (R : Atom → Atom → Prop) : Value → Value → Prop
  | .atom a, w => ∃ b, R a b ∧ w = .atom b
  | .pid (.remote a number serial), w => ∃ b, R a b ∧ w = .pid (.remote b number serial)
  | v, w => w = v

theorem Renamed.mono {R S : Atom → Atom → Prop} (hRS : ∀ a b, R a b → S a b) {v w : Value}
    (hv : ControlPart v) (h : Renamed R v w) : Renamed S v w := by
  cases hv with
  | smallInt b => exact h
  | atom a =>
    obtain ⟨b, hb, rfl⟩ := h
    exact ⟨b, hRS a b hb, rfl⟩
  | pid node number serial =>
    obtain ⟨b, hb, rfl⟩ := h
    exact ⟨b, hRS node b hb, rfl⟩

/-- The heap words that a part asks for. -/
def partWords : Value → List ℕ
  | .pid _ => [4]
  | _ => []

variable {context : DecodeContext H}

theorem reads_part {v : Value} (hv : ControlPart v) {bytes : List UInt8}
    (hbytes : encodeTermInner table maxEtfDepth v = .ok bytes) (s : DecodeState H) {after : H}
    (hheap : (partWords v).foldlM context.allocWords s.heap = some after) : ∃ w atoms,
      Reads (decodeOne context {} maxEtfDepth) s bytes w ⟨atoms, after⟩ ∧
        atoms.Extends s.atoms ∧ Renamed (SameName table atoms) v w := by
  cases hv with
  | smallInt b =>
    obtain rfl := Except.ok.inj ((encode_smallInt 255 b).symm.trans hbytes)
    obtain rfl := Option.some.inj hheap
    exact ⟨smallInt b, s.atoms, reads_smallInt s 255 b, AtomTable.Extends.refl _, rfl⟩
  | atom a =>
    obtain rfl := Option.some.inj hheap
    obtain ⟨b, atoms, hreads, hext, hsame⟩ := reads_atom context hbytes s 255
    exact ⟨.atom b, atoms, hreads, hext, b, hsame, rfl⟩
  | pid node number serial =>
    have hfour : context.allocWords s.heap 4 = some after := by
      obtain ⟨heap', hfirst, hlast⟩ := Option.bind_eq_some_iff.mp hheap
      rw [← Option.some.inj hlast]
      exact hfirst
    obtain ⟨b, atoms, hreads, hext, hsame⟩ := reads_externalPid hbytes s hfour 254
    exact ⟨_, atoms, hreads, hext, b, hsame, rfl⟩

theorem reads_parts {vs : List Value} (hvs : ∀ v ∈ vs, ControlPart v) {body : List (List UInt8)}
    (hbody : vs.mapM (encodeTermInner table maxEtfDepth) = .ok body) (s : DecodeState H)
    {after : H} (hheap : (vs.flatMap partWords).foldlM context.allocWords s.heap = some after) :
    ∃ ws atoms, Reads (many (decodeOne context {} maxEtfDepth) vs.length) s body.flatten ws
        ⟨atoms, after⟩ ∧
      atoms.Extends s.atoms ∧ List.Forall₂ (Renamed (SameName table atoms)) vs ws := by
  induction vs generalizing body s with
  | nil =>
    obtain rfl := Except.ok.inj hbody
    obtain rfl := Option.some.inj hheap
    exact ⟨[], s.atoms, Reads.pure [] s, AtomTable.Extends.refl _, .nil⟩
  | cons v vs ih =>
    have hparts : ∀ w ∈ vs, ControlPart w := fun w hw => hvs w (List.mem_cons_of_mem v hw)
    obtain ⟨first, rest, hfirst, hrest, rfl⟩ := except_mapM_cons_ok hbody
    rw [List.flatMap_cons, List.foldlM_append] at hheap
    obtain ⟨middle, hhead, htail⟩ := Option.bind_eq_some_iff.mp hheap
    obtain ⟨w, atoms, hw, hext, hren⟩ := reads_part (hvs v List.mem_cons_self) hfirst s hhead
    obtain ⟨ws, atoms', hws, hext', hrens⟩ := ih hparts hrest ⟨atoms, middle⟩ htail
    refine ⟨w :: ws, atoms', hw.many_cons hws, hext'.trans hext, .cons ?_ hrens⟩
    exact hren.mono (fun a b h => h.extends hext') (hvs v List.mem_cons_self)

/-- A control tuple comes back with the names of the other node. -/
theorem decodeControlTerm_tuple (atoms : AtomTable) {vs : List Value}
    (hvs : ∀ v ∈ vs, ControlPart v)
    (hroom : (vs.flatMap partWords).sum + (1 + vs.length) ≤ 64) {bytes : List UInt8}
    (hbytes : encodeTerm table (.tuple vs) = .ok bytes) : ∃ ws atoms',
      decodeControlTerm heap inflate atoms bytes = .ok (.tuple ws, atoms') ∧
        atoms'.Extends atoms ∧ List.Forall₂ (Renamed (SameName table atoms')) vs ws := by
  obtain ⟨inner, hinner, hbytes⟩ := except_bind_ok_iff.mp hbytes
  obtain rfl := Except.ok.inj hbytes
  rw [encodeTermInner] at hinner
  obtain ⟨header, hheader, hinner⟩ := except_bind_ok_iff.mp hinner
  obtain ⟨body, hbody, hinner⟩ := except_bind_ok_iff.mp hinner
  obtain rfl := Except.ok.inj hinner
  have hsmall : vs.length < 256 := by omega
  rw [tupleHeader, if_pos hsmall] at hheader
  obtain rfl := Except.ok.inj hheader
  obtain ⟨heap', hgrants⟩ := heap.grants (vs.flatMap partWords ++ [1 + vs.length])
    (by simpa using hroom)
  rw [List.foldlM_append] at hgrants
  obtain ⟨heapParts, hparts, hgrants⟩ := Option.bind_eq_some_iff.mp hgrants
  obtain ⟨heapTuple, htuple, -⟩ := Option.bind_eq_some_iff.mp hgrants
  obtain ⟨ws, atoms', hws, hext, hren⟩ := reads_parts hvs hbody ⟨atoms, heap.fresh⟩ hparts
  refine ⟨ws, atoms', ?_, hext, hren⟩
  have hlength : ws.length = vs.length := hren.length_eq.symm
  have hmany : Reads (decodeTuple heap.context (decodeOne heap.context {} maxEtfDepth) vs.length)
      ⟨atoms, heap.fresh⟩ body.flatten (.tuple ws) ⟨atoms', heapTuple⟩ := by
    have hlimit := heap.limit
    refine (Reads.require _ _ ?_).bind_nil (hws.bind_pure ?_)
    · exact decide_eq_true (by omega)
    · rw [hlength]
      exact reads_alloc (s := ⟨atoms', heapParts⟩) _ htuple
  have hone : Reads (decodeOne heap.context {} (maxEtfDepth + 1)) ⟨atoms, heap.fresh⟩
      (Tags.smallTupleExt :: [UInt8.ofNat vs.length] ++ body.flatten) (.tuple ws)
      ⟨atoms', heapTuple⟩ := by
    refine reads_tagged ((reads_readU8 _ _).bind ?_)
    rw [toNat_byte hsmall]
    exact hmany
  have hversioned : decodeVersioned heap.context {} inflate ⟨atoms, heap.fresh⟩
      (Tags.version :: ([Tags.smallTupleExt, UInt8.ofNat vs.length] ++ body.flatten)) =
      .ok (.tuple ws, ⟨atoms', heapTuple⟩, []) :=
    (decodeVersioned_plain inflate _ (by simp [Tags.smallTupleExt, Tags.compressedExt])).trans
      hone.all
  rw [decodeControlTerm, decodeTermWithOptions, hversioned]
  rfl

/-- The tuple of an update needs ten words. -/
theorem decodeControlTerm_pgTuple (atoms : AtomTable) {tag : UInt8} {scope group node : Atom}
    {pid : UInt64} {bytes : List UInt8}
    (hbytes : encodeTerm table (.tuple [smallInt 101, smallInt tag, .atom scope, .atom group,
      .pid (.remote node pid 0)]) = .ok bytes) : ∃ a b c atoms',
      decodeControlTerm heap inflate atoms bytes = .ok (.tuple [smallInt 101, smallInt tag,
        .atom a, .atom b, .pid (.remote c pid 0)], atoms') ∧ atoms'.Extends atoms ∧
      SameName table atoms' scope a ∧ SameName table atoms' group b ∧
      SameName table atoms' node c := by
  have hparts : ∀ v ∈ [smallInt 101, smallInt tag, .atom scope, .atom group,
      .pid (.remote node pid 0)], ControlPart v := by
    simp only [List.forall_mem_cons]
    exact ⟨.smallInt _, .smallInt _, .atom _, .atom _, .pid _ _ _, List.forall_mem_nil _⟩
  obtain ⟨ws, atoms', hdecode, hext, hren⟩ :=
    decodeControlTerm_tuple heap inflate atoms hparts (by simp [partWords, smallInt]) hbytes
  obtain ⟨_, _, rfl, hren₁, rfl⟩ := List.forall₂_cons_left_iff.mp hren
  obtain ⟨_, _, rfl, hren₂, rfl⟩ := List.forall₂_cons_left_iff.mp hren₁
  obtain ⟨_, _, ⟨a, ha, rfl⟩, hren₃, rfl⟩ := List.forall₂_cons_left_iff.mp hren₂
  obtain ⟨_, _, ⟨b, hb, rfl⟩, hren₄, rfl⟩ := List.forall₂_cons_left_iff.mp hren₃
  obtain ⟨_, _, ⟨c, hc, rfl⟩, hren₅, rfl⟩ := List.forall₂_cons_left_iff.mp hren₄
  obtain rfl := List.forall₂_nil_left_iff.mp hren₅
  exact ⟨a, b, c, atoms', hdecode, hext, ha, hb, hc⟩

/-- What an update does to the registry of a node that knows it under atoms of its own. -/
def PgState.apply (pg : PgState) (scope group node : Atom) : PgUpdate → PgState
  | .join _ _ pid => pg.applyRemoteJoin scope group node pid 0
  | .leave _ _ pid => pg.applyRemoteLeave scope group node pid 0

def PgUpdate.scope : PgUpdate → Atom
  | .join scope _ _ => scope
  | .leave scope _ _ => scope

def PgUpdate.group : PgUpdate → Atom
  | .join _ group _ => group
  | .leave _ group _ => group

/-- The frame of an update does to the other node what the update says. -/
theorem dispatchFrame_pgUpdate {sinks : ControlSinks} (hpg : sinks.pg = true) (r : Received)
    {update : PgUpdate} {localNode : Atom} {frame : List UInt8}
    (hframe : encodePgUpdateFrame table update localNode = .ok frame) :
    ∃ control payload a b c atoms, splitFrame frame = .ok (control, payload) ∧
      dispatchFrame heap inflate sinks control payload r =
        (.ok true, { r with atoms, pg := r.pg.apply a b c update }) ∧
      atoms.Extends r.atoms ∧ SameName table atoms update.scope a ∧
      SameName table atoms update.group b ∧ SameName table atoms localNode c := by
  obtain ⟨control, payload, hcontrol, -, hsplit⟩ := splitFrame_encodeFrame hframe
  cases update with
  | join scope group pid =>
    obtain ⟨a, b, c, atoms, hterm, hext, hscope, hgroup, hnode⟩ :=
      decodeControlTerm_pgTuple heap inflate r.atoms hcontrol
    refine ⟨control, payload, a, b, c, atoms, hsplit, ?_, hext, hscope, hgroup, hnode⟩
    have hupdate : PgTerm [smallInt 101, smallInt 1, .atom a, .atom b, .pid (.remote c pid 0)]
        pgJoinTag a b ⟨c, pid, 0⟩ := ⟨rfl, rfl, rfl, rfl, rfl, rfl⟩
    rw [dispatchFrame, decodeControlAddressed, hterm]
    dsimp only
    rw [hupdate.message, if_pos rfl]
    simp only [ControlSinks.dispatch, ControlSinks.callPg, if_pos hpg]
    rfl
  | leave scope group pid =>
    obtain ⟨a, b, c, atoms, hterm, hext, hscope, hgroup, hnode⟩ :=
      decodeControlTerm_pgTuple heap inflate r.atoms hcontrol
    refine ⟨control, payload, a, b, c, atoms, hsplit, ?_, hext, hscope, hgroup, hnode⟩
    have hupdate : PgTerm [smallInt 101, smallInt 2, .atom a, .atom b, .pid (.remote c pid 0)]
        pgLeaveTag a b ⟨c, pid, 0⟩ := ⟨rfl, rfl, rfl, rfl, rfl, rfl⟩
    rw [dispatchFrame, decodeControlAddressed, hterm]
    dsimp only
    rw [hupdate.message, if_neg (by decide), if_pos rfl]
    simp only [ControlSinks.dispatch, ControlSinks.callPg, if_pos hpg]
    rfl

end Updates

end Beamr.Distribution
