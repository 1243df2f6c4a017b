import Beamr.Distribution.TermFates

/-!
# Bytes that come back

Every term meets its fate. So the bytes of a term come back exactly if no pid or reference stands at
the deepest level and every bignum is one that the decoder keeps.
-/
namespace Beamr.Distribution.TermCodec

open Term ByteOrder Decoder PrefixCode
open Etf (EncodeError DecodeState maxEtfDepth)

/-! ## Atoms, pids and references -/

section Identities

variable {left : ℕ} {pre : AtomTable → Prop} {name bytes : List UInt8}

theorem reads_atomName (hvalid : utf8Valid name = true)
    (hbytes : Etf.encodeAtomName name = .ok bytes) (s : DecodeState ℕ) :
    Reads (decodeOne (left + 1)) s bytes (.atom (s.atoms.intern name hvalid).1)
      { s with atoms := (s.atoms.intern name hvalid).2 } := by
  have hatom : Reads (decodeAtom name) s [] (.atom (s.atoms.intern name hvalid).1)
      { s with atoms := (s.atoms.intern name hvalid).2 } := by
    rw [decodeAtom, dif_pos hvalid]
    exact (Reads.getState s).bind_nil ((Reads.setState s _).bind_nil (Reads.pure _ _))
  unfold Etf.encodeAtomName at hbytes
  split_ifs at hbytes with hlen
  · obtain rfl := Except.ok.inj hbytes
    exact reads_ofTag ((reads_readU8 s _).bind
      ((reads_readBytes s (Etf.toNat_byte hlen).symm).bind_pure hatom))
  · obtain ⟨n, hn, hbytes⟩ := except_bind_ok_iff.mp hbytes
    obtain ⟨rfl, hlt⟩ := Etf.u16Of_ok hn
    obtain rfl := Except.ok.inj hbytes
    exact reads_ofTag ((reads_readU16 s hlt).bind ((reads_readBytes s rfl).bind_pure hatom))

/-- A name needs a level of its own. -/
theorem comes_atomName (left : ℕ) (hvalid : utf8Valid name = true)
    (hbytes : Etf.encodeAtomName name = .ok bytes) :
    Comes pre 0 (if left = 0 then none else some true) (decodeOne left) bytes
      fun t v code => ∃ atom, v = .atom atom ∧ t.resolve atom = some name ∧ code = bytes := by
  cases left with
  | zero => exact Comes.of_fails fun s => ⟨.tooDeep, Fails.fail _ s bytes⟩
  | succ left =>
    rw [if_neg (Nat.succ_ne_zero left)]
    refine Comes.of_reads fun s _ _ => ?_
    exact ⟨_, _, bytes, reads_atomName hvalid hbytes s, le_rfl, AtomTable.intern_extends _ _ hvalid,
      ⟨_, rfl, AtomTable.resolve_intern _ _ hvalid, rfl⟩, rfl⟩

theorem encodeAtom_of_resolve {t u : AtomTable} {atom : Atom} (hu : u.Extends t)
    (h : t.resolve atom = some name) : Etf.encodeAtom u atom = Etf.encodeAtomName name := by
  rw [Etf.encodeAtom, hu.resolve h]

theorem encodeAtom_ok {table : AtomTable} {a : Atom} (h : Etf.encodeAtom table a = .ok bytes) :
    ∃ name, utf8Valid name = true ∧ Etf.encodeAtomName name = .ok bytes := by
  unfold Etf.encodeAtom at h
  split at h
  next => cases h
  next name hresolve => exact ⟨name, AtomTable.valid_of_resolve hresolve, h⟩

theorem foretold_atom (a : Atom) : Foretold (left + 1) (.atom a) := by
  intro table bytes hbytes
  obtain ⟨name, hvalid, hname⟩ := encodeAtom_ok hbytes
  refine ⟨0, ?_⟩
  rw [fate_leaf rfl]
  refine Comes.imp (comes_atomName (left + 1) hvalid hname) ?_
  rintro t v code ⟨atom, rfl, hresolve, rfl⟩
  exact ⟨rfl, fun u hu => (encodeAtom_of_resolve hu hresolve).trans hname⟩

/-- The node of a pid or a reference is a name. -/
theorem comes_nodeAtom (left : ℕ) (hpre : Grows pre) (hvalid : utf8Valid name = true)
    (hbytes : Etf.encodeAtomName name = .ok bytes) :
    Comes pre 0 (if left = 0 then none else some true) (decodeNodeAtom (decodeOne left)) bytes
      fun t atom code => t.resolve atom = some name ∧ code = bytes := by
  change Comes pre (0 + 0) _ _ _ _
  refine Comes.bind_last hpre (comes_atomName left hvalid hbytes) fun v code =>
    Comes.of_pre fun t ht => ?_
  obtain ⟨-, atom, rfl, -, rfl⟩ := ht
  refine Comes.pure ?_
  rintro t ⟨-, atom', hatom, hresolve, -⟩
  obtain rfl := Value.atom.inj hatom
  exact ⟨hresolve, List.append_nil _⟩

theorem grows_true : Grows fun _ => True := fun _ _ _ _ => trivial

theorem ofNat_toNat_word {n : ℕ} (h : n < 2 ^ 32) : (UInt64.ofNat n).toNat = n :=
  UInt64.toNat_ofNat_of_lt' (h.trans (by decide))

theorem u32Of_of_lt {n : ℕ} (h : n < 2 ^ 32) : Etf.u32Of n = .ok n := if_pos h

/-- The bytes of a pid, whichever node it is of, come back as those of a pid of that node. -/
theorem comes_pid {v : Value} (hv : isList v = false) (left : ℕ) {node : List UInt8}
    (hvalid : utf8Valid name = true) (hnode : Etf.encodeAtomName name = .ok node) {id serial : ℕ}
    (hid : id < 2 ^ 32) (hserial : serial < 2 ^ 32) :
    Comes (fun _ => True) 4 (if left = 0 then none else some true) (decodeOne (left + 1))
      (Etf.Tags.newPidExt :: (node ++ (beBytes 4 id ++ (beBytes 4 serial ++ (beBytes 4 0 ++ [])))))
      (Reencodes (left + 1) v) := by
  refine comes_ofTag ?_
  change Comes _ (0 + 4) _ (decodeNewPid (decodeOne left)) _ _
  refine Comes.bind_sure grows_true (comes_nodeAtom left grows_true hvalid hnode) fun atom code => ?_
  refine Comes.read (fun s => reads_readU32 s hid) (Comes.read (fun s => reads_readU32 s hserial)
    (Comes.read (fun s => reads_readU32 s (by norm_num)) (comes_alloc ?_)))
  rintro t ⟨-, hresolve, rfl⟩
  refine ⟨hv.symm, fun u hu => ?_⟩
  rw [encodeTermInner, Etf.encodeExternalPid, encodeAtom_of_resolve hu hresolve, hnode,
    ofNat_toNat_word hid, ofNat_toNat_word hserial, u32Of_of_lt hid, u32Of_of_lt hserial]
  simp

theorem foretold_pid (p : PidRef) : Foretold (left + 1) (.pid p) := by
  intro table bytes hbytes
  refine ⟨4, ?_⟩
  rw [fate_leaf rfl, ownFate]
  cases p with
  | «local» number =>
    obtain ⟨node, hnode, hbytes⟩ := except_bind_ok_iff.mp hbytes
    obtain ⟨id, hid, hbytes⟩ := except_bind_ok_iff.mp hbytes
    obtain ⟨rfl, hlt⟩ := Etf.u32Of_ok hid
    obtain rfl := Except.ok.inj hbytes
    simpa using comes_pid (v := .pid (.local number)) rfl left Etf.utf8Valid_nonodeNohost hnode hlt
      (by norm_num : 0 < 2 ^ 32)
  | remote node number serial =>
    obtain ⟨code, hcode, hbytes⟩ := except_bind_ok_iff.mp hbytes
    obtain ⟨id, hid, hbytes⟩ := except_bind_ok_iff.mp hbytes
    obtain ⟨ser, hser, hbytes⟩ := except_bind_ok_iff.mp hbytes
    obtain ⟨rfl, hidLt⟩ := Etf.u32Of_ok hid
    obtain ⟨rfl, hserLt⟩ := Etf.u32Of_ok hser
    obtain rfl := Except.ok.inj hbytes
    obtain ⟨name, hvalid, hname⟩ := encodeAtom_ok hcode
    simpa using comes_pid (v := .pid (.remote node number serial)) rfl left hvalid hname hidLt hserLt

theorem reads_idWords (s : DecodeState ℕ) (id : UInt64) :
    Reads (many readU32 2) s (beBytes 4 (id.toNat / 2 ^ 32) ++ beBytes 4 (id.toNat % 2 ^ 32))
      [id.toNat / 2 ^ 32, id.toNat % 2 ^ 32] s := by
  have hid := id.toNat_lt
  have hhigh : Reads readU32 s (beBytes 4 (id.toNat / 2 ^ 32)) (id.toNat / 2 ^ 32) s :=
    reads_readU32 s (by omega)
  have hlow : Reads readU32 s (beBytes 4 (id.toNat % 2 ^ 32)) (id.toNat % 2 ^ 32) s :=
    reads_readU32 s (by omega)
  have hone : Reads (many readU32 1) s (beBytes 4 (id.toNat % 2 ^ 32) ++ [])
      [id.toNat % 2 ^ 32] s := Reads.many_cons hlow (Reads.pure [] s)
  rw [List.append_nil] at hone
  exact Reads.many_cons hhigh hone

/-- As for a pid. -/
theorem comes_reference {v : Value} (hv : isList v = false) (left : ℕ) {node : List UInt8}
    (hvalid : utf8Valid name = true) (hnode : Etf.encodeAtomName name = .ok node) (id : UInt64) :
    Comes (fun _ => True) 3 (if left = 0 then none else some true) (decodeOne (left + 1))
      (Etf.Tags.newerReferenceExt :: (beBytes 2 2 ++ (node ++ (beBytes 4 0 ++
        ((beBytes 4 (id.toNat / 2 ^ 32) ++ beBytes 4 (id.toNat % 2 ^ 32)) ++ [])))))
      (Reencodes (left + 1) v) := by
  refine comes_ofTag ?_
  change Comes _ (0 + 3) _ (decodeNewerReference (decodeOne left)) _ _
  refine Comes.read (fun s => reads_readU16 s (by norm_num)) ?_
  refine Comes.read_nil (fun s => Reads.require _ s (by decide)) ?_
  refine Comes.bind_sure grows_true (comes_nodeAtom left grows_true hvalid hnode) fun atom code => ?_
  refine Comes.read (fun s => reads_readU32 s (by norm_num))
    (Comes.read (fun s => reads_idWords s id) (comes_alloc ?_))
  rintro t ⟨-, hresolve, rfl⟩
  refine ⟨hv.symm, fun u hu => ?_⟩
  rw [Etf.foldl_idWords, encodeTermInner, encodeExternalReference,
    encodeAtom_of_resolve hu hresolve, hnode]
  simp

theorem foretold_reference (r : ReferenceRef) : Foretold (left + 1) (.reference r) := by
  intro table bytes hbytes
  refine ⟨3, ?_⟩
  rw [fate_leaf rfl, ownFate]
  cases r with
  | «local» id =>
    obtain ⟨node, hnode, hbytes⟩ := except_bind_ok_iff.mp hbytes
    obtain rfl := Except.ok.inj hbytes
    simpa using comes_reference (v := .reference (.local id)) rfl left Etf.utf8Valid_nonodeNohost
      hnode id
  | remote node id =>
    obtain ⟨code, hcode, hbytes⟩ := except_bind_ok_iff.mp hbytes
    obtain rfl := Except.ok.inj hbytes
    obtain ⟨name, hvalid, hname⟩ := encodeAtom_ok hcode
    simpa using comes_reference (v := .reference (.remote node id)) rfl left hvalid hname id

end Identities

/-! ## Binaries, tuples, maps and lists -/

section Nested

variable {left : ℕ}

theorem foretold_binary (b : BinaryRef) : Foretold (left + 1) (.binary b) := by
  refine foretold_of_reads (Etf.allocBinaryWordCount b.asBytes.length)
    (.binary (Etf.storedBinary b.asBytes)) (fate_leaf rfl) rfl fun _ bytes hbytes => ?_
  obtain ⟨n, hn, hcode⟩ := except_bind_ok_iff.mp hbytes
  obtain ⟨rfl, hlt⟩ := Etf.u32Of_ok hn
  obtain rfl := Except.ok.inj hcode
  refine ⟨fun u => ?_, fun s hs => ?_⟩
  · rw [encodeTermInner, Etf.encodeBinary, Etf.asBytes_storedBinary, u32Of_of_lt hlt]
    rfl
  · exact reads_ofTag ((reads_readU32 s hlt).bind ((reads_readBytes s rfl).bind_pure
      (reads_allocated hs _)))

theorem foretold_nil : Foretold (left + 1) .nil :=
  foretold_of_reads 0 .nil (fate_leaf rfl) rfl fun _ _ hbytes => by
    obtain rfl := Except.ok.inj hbytes
    exact ⟨fun _ => rfl, fun s _ => reads_ofTag (Reads.pure _ s)⟩

/-- The terms are encoded one after the other as `code`. -/
def ReencodeAll (left n : ℕ) (t : AtomTable) (as : List Value) (code : List UInt8) : Prop :=
  as.length = n ∧ ∀ u : AtomTable, u.Extends t →
    ∃ body, as.mapM (encodeTermInner u left) = .ok body ∧ body.flatten = code

/-- The fate of terms one after the other. -/
def fates (left : ℕ) (vs : List Value) : Option Bool := (vs.mapM (fate left)).map (·.all id)

theorem fates_cons (v : Value) (vs : List Value) :
    fates left (v :: vs) = both (fate left v) (fates left vs) := by
  rw [fates, fates, List.mapM_cons]
  cases fate left v with
  | none => rfl
  | some same =>
    cases vs.mapM (fate left) with
    | none => rfl
    | some rest => simp

theorem fates_append (vs ws : List Value) :
    fates left (vs ++ ws) = both (fates left vs) (fates left ws) := by
  induction vs with
  | nil =>
    have hnil : fates left [] = some true := rfl
    rw [List.nil_append, hnil]
    cases fates left ws <;> simp
  | cons v vs ih => rw [List.cons_append, fates_cons, fates_cons, ih, both_assoc]

/-- Terms one after the other. -/
theorem comes_many {vs : List Value} (hvs : ∀ v ∈ vs, Foretold left v) {table : AtomTable}
    {body : List (List UInt8)} (hbody : vs.mapM (encodeTermInner table left) = .ok body) :
    ∃ words, Comes (fun _ => True) words (fates left vs) (many (decodeOne left) vs.length)
      body.flatten (ReencodeAll left vs.length) := by
  induction vs generalizing body with
  | nil =>
    obtain rfl := Except.ok.inj hbody
    exact ⟨0, Comes.pure fun t _ => ⟨rfl, fun u _ => ⟨[], rfl, rfl⟩⟩⟩
  | cons v vs ih =>
    obtain ⟨first, rest, hfirst, hrest, rfl⟩ := except_mapM_cons_ok hbody
    obtain ⟨words, hv⟩ := hvs v List.mem_cons_self table first hfirst
    obtain ⟨words', hvs⟩ := ih (fun w hw => hvs w (List.mem_cons_of_mem v hw)) hrest
    refine ⟨words + (words' + 0), ?_⟩
    rw [fates_cons, List.flatten_cons]
    refine Comes.bind grows_true hv fun a code => ?_
    have hgrows : Grows fun t => True ∧ Reencodes left v t a code :=
      fun t u hu h => ⟨trivial, Reencodes.grows t u hu h.2⟩
    refine Comes.bind_last hgrows (hvs.mono le_rfl fun _ _ => trivial) fun as code' => ?_
    refine Comes.pure ?_
    rintro t ⟨⟨-, -, ha⟩, hlength, has⟩
    refine ⟨congrArg Nat.succ hlength, fun u hu => ?_⟩
    obtain ⟨body, hbody, rfl⟩ := has u hu
    refine ⟨code :: body, ?_, by simp⟩
    rw [List.mapM_cons, ha u hu, hbody]
    rfl

theorem pos_of_startsPlain {code : List UInt8} (h : Etf.StartsPlain code) : 0 < code.length := by
  obtain ⟨tag, rest, rfl, -⟩ := h
  exact Nat.succ_pos _

/-- Every term takes a byte at least. -/
theorem encodeTermInner_pos {table : AtomTable} {v : Value} {code : List UInt8}
    (h : encodeTermInner table left v = .ok code) : 0 < code.length := by
  cases left with
  | zero => cases h
  | succ left =>
    cases v with
    | number n =>
      cases n with
      | smallInt n =>
        rw [encodeTermInner, Etf.encodeInteger] at h
        split_ifs at h
        · exact pos_of_startsPlain (Etf.startsPlain_ok h (by decide))
        · exact pos_of_startsPlain (Etf.startsPlain_ok h (by decide))
        · exact pos_of_startsPlain (Etf.startsPlain_bigBytes h)
      | float x => exact pos_of_startsPlain (Etf.startsPlain_ok h (by decide))
      | bigInt negative limbs => exact pos_of_startsPlain (Etf.startsPlain_bigBytes h)
    | atom a => exact pos_of_startsPlain (Etf.startsPlain_atom h)
    | pid p =>
      cases p with
      | «local» number =>
        obtain ⟨name, -, h⟩ := except_bind_ok_iff.mp h
        obtain ⟨id, -, h⟩ := except_bind_ok_iff.mp h
        exact pos_of_startsPlain (Etf.startsPlain_ok h (by decide))
      | remote node number serial =>
        obtain ⟨name, -, h⟩ := except_bind_ok_iff.mp h
        obtain ⟨id, -, h⟩ := except_bind_ok_iff.mp h
        obtain ⟨ser, -, h⟩ := except_bind_ok_iff.mp h
        exact pos_of_startsPlain (Etf.startsPlain_ok h (by decide))
    | reference r =>
      cases r with
      | «local» id =>
        obtain ⟨name, -, h⟩ := except_bind_ok_iff.mp h
        exact pos_of_startsPlain (Etf.startsPlain_ok h (by decide))
      | remote node id =>
        obtain ⟨name, -, h⟩ := except_bind_ok_iff.mp h
        exact pos_of_startsPlain (Etf.startsPlain_ok h (by decide))
    | tuple elements =>
      obtain ⟨header, hheader, h⟩ := except_bind_ok_iff.mp h
      obtain ⟨body, -, h⟩ := except_bind_ok_iff.mp h
      rw [← Except.ok.inj h]
      exact pos_of_startsPlain ((Etf.startsPlain_tupleHeader hheader).append _)
    | binary b =>
      obtain ⟨n, -, h⟩ := except_bind_ok_iff.mp h
      exact pos_of_startsPlain (Etf.startsPlain_ok h (by decide))
    | map entries =>
      obtain ⟨header, hheader, h⟩ := except_bind_ok_iff.mp h
      obtain ⟨body, -, h⟩ := except_bind_ok_iff.mp h
      obtain ⟨n, -, hheader⟩ := except_bind_ok_iff.mp hheader
      rw [← Except.ok.inj h]
      exact pos_of_startsPlain ((Etf.startsPlain_ok hheader (by decide)).append _)
    | nil => exact pos_of_startsPlain (Etf.startsPlain_ok h (by decide))
    | cons head tail =>
      obtain ⟨header, hheader, h⟩ := except_bind_ok_iff.mp h
      obtain ⟨body, -, h⟩ := except_bind_ok_iff.mp h
      obtain ⟨n, -, hheader⟩ := except_bind_ok_iff.mp hheader
      rw [← Except.ok.inj h]
      exact pos_of_startsPlain ((Etf.startsPlain_ok hheader (by decide)).append _)
    | closure c free => cases h
    | other raw => cases h

theorem length_le_flatten {vs : List Value} {table : AtomTable} {body : List (List UInt8)}
    (hbody : vs.mapM (encodeTermInner table left) = .ok body) :
    vs.length ≤ body.flatten.length := by
  induction vs generalizing body with
  | nil => exact Nat.zero_le _
  | cons v vs ih =>
    obtain ⟨first, rest, hfirst, hrest, rfl⟩ := except_mapM_cons_ok hbody
    have hone := encodeTermInner_pos hfirst
    have hmore := ih hrest
    rw [List.flatten_cons, List.length_append, List.length_cons]
    omega

/-- The contents of a term with a header are all there is to its fate. -/
theorem fate_nested {v : Value} (hown : ownFate left v = some true) :
    fate (left + 1) v = fates left (Etf.nested v) := by
  rw [fate, hown, fates]
  cases (Etf.nested v).mapM (fate left) <;> simp

theorem foretold_tuple {vs : List Value} (hvs : ∀ v ∈ vs, Foretold left v) :
    Foretold (left + 1) (.tuple vs) := by
  intro table bytes hbytes
  obtain ⟨header, hheader, hbytes⟩ := except_bind_ok_iff.mp hbytes
  obtain ⟨body, hbody, hbytes⟩ := except_bind_ok_iff.mp hbytes
  obtain rfl := Except.ok.inj hbytes
  obtain ⟨words, hmany⟩ := comes_many hvs hbody
  refine ⟨words + (1 + vs.length), ?_⟩
  rw [fate_nested rfl, Etf.nested]
  have htuple : Comes (fun _ => True) (words + (1 + vs.length)) (fates left vs)
      (decodeTuple (decodeOne left) vs.length) body.flatten
      fun t v code => Reencodes (left + 1) (.tuple vs) t v (header ++ code) := by
    refine Comes.ensured (length_le_flatten hbody) (Comes.bind_last grows_true hmany
      fun as code => Comes.of_pre fun t ht => ?_)
    have hlength := ht.2.1
    rw [← hlength]
    refine comes_alloc ?_
    rintro t ⟨-, -, has⟩
    refine ⟨rfl, fun u hu => ?_⟩
    obtain ⟨body', hbody', rfl⟩ := has u hu
    rw [encodeTermInner, hlength, hheader, hbody']
    simp
  unfold Etf.tupleHeader at hheader
  split_ifs at hheader with hlen
  · obtain rfl := Except.ok.inj hheader
    refine comes_ofTag (Comes.read (fun s => reads_readU8 s _) ?_)
    rw [Etf.toNat_byte hlen]
    exact htuple
  · obtain ⟨n, hn, hheader⟩ := except_bind_ok_iff.mp hheader
    obtain ⟨rfl, hlt⟩ := Etf.u32Of_ok hn
    obtain rfl := Except.ok.inj hheader
    exact comes_ofTag (Comes.read (fun s => reads_readU32 s hlt) htuple)

/-- The two terms are encoded one after the other as `code`. -/
def ReencodeEntry (left : ℕ) (t : AtomTable) (e : Value × Value) (code : List UInt8) : Prop :=
  ∃ first second, code = first ++ second ∧ ∀ u : AtomTable, u.Extends t →
    encodeTermInner u left e.1 = .ok first ∧ encodeTermInner u left e.2 = .ok second

theorem comes_entry {k v : Value} {words words' : ℕ} {first second : List UInt8}
    (hk : Comes (fun _ => True) words (fate left k) (decodeOne left) first (Reencodes left k))
    (hv : Comes (fun _ => True) words' (fate left v) (decodeOne left) second (Reencodes left v)) :
    Comes (fun _ => True) (words + (words' + 0)) (both (fate left k) (fate left v))
      (decodeEntry (decodeOne left)) (first ++ second) (ReencodeEntry left) := by
  refine Comes.bind grows_true hk fun a code => ?_
  have hgrows : Grows fun t => True ∧ Reencodes left k t a code :=
    fun t u hu h => ⟨trivial, Reencodes.grows t u hu h.2⟩
  refine Comes.bind_last hgrows (hv.mono le_rfl fun _ _ => trivial) fun b code' => ?_
  refine Comes.pure ?_
  rintro t ⟨⟨-, -, ha⟩, -, hb⟩
  exact ⟨code, code', by simp, fun u hu => ⟨ha u hu, hb u hu⟩⟩

/-- Keys and values one after the other. -/
theorem comes_entries {es : List (Value × Value)}
    (hes : ∀ v ∈ es.flatMap fun e => [e.1, e.2], Foretold left v) {table : AtomTable}
    {body : List (List UInt8)}
    (hbody : (es.flatMap fun e => [e.1, e.2]).mapM (encodeTermInner table left) = .ok body) :
    ∃ words, Comes (fun _ => True) words (fates left (es.flatMap fun e => [e.1, e.2]))
      (many (decodeEntry (decodeOne left)) es.length) body.flatten
      fun t es' code => es'.length = es.length ∧ ∀ u : AtomTable, u.Extends t →
        ∃ body, (es'.flatMap fun e => [e.1, e.2]).mapM (encodeTermInner u left) = .ok body ∧
          body.flatten = code := by
  induction es generalizing body with
  | nil =>
    obtain rfl := Except.ok.inj hbody
    exact ⟨0, Comes.pure fun t _ => ⟨rfl, fun u _ => ⟨[], rfl, rfl⟩⟩⟩
  | cons e es ih =>
    obtain ⟨k, v⟩ := e
    rw [List.flatMap_cons, List.cons_append, List.cons_append, List.nil_append] at hes hbody ⊢
    obtain ⟨first, others, hfirst, hothers, rfl⟩ := except_mapM_cons_ok hbody
    obtain ⟨second, rest, hsecond, hrest, rfl⟩ := except_mapM_cons_ok hothers
    obtain ⟨words, hk⟩ := hes k (by simp) table first hfirst
    obtain ⟨words', hv⟩ := hes v (by simp) table second hsecond
    obtain ⟨words'', hmany⟩ := ih (fun w hw => hes w (by simp [hw])) hrest
    refine ⟨words + (words' + 0) + (words'' + 0), ?_⟩
    rw [fates_cons, fates_cons, ← both_assoc, List.flatten_cons, List.flatten_cons,
      ← List.append_assoc]
    refine Comes.bind grows_true (comes_entry hk hv) fun e code => ?_
    have hgrows : Grows fun t => True ∧ ReencodeEntry left t e code := by
      rintro t u hu ⟨-, first, second, rfl, hcode⟩
      exact ⟨trivial, first, second, rfl, fun u' hu' => hcode u' (hu'.trans hu)⟩
    refine Comes.bind_last hgrows (hmany.mono le_rfl fun _ _ => trivial) fun es' code' => ?_
    refine Comes.pure ?_
    rintro t ⟨⟨-, first', second', rfl, hcode⟩, hlength, hes'⟩
    refine ⟨congrArg Nat.succ hlength, fun u hu => ?_⟩
    obtain ⟨body', hbody', rfl⟩ := hes' u hu
    obtain ⟨hfirst', hsecond'⟩ := hcode u hu
    refine ⟨first' :: second' :: body', ?_, by simp⟩
    rw [List.flatMap_cons, List.cons_append, List.cons_append, List.nil_append, List.mapM_cons,
      List.mapM_cons, hfirst', hsecond', hbody']
    rfl

theorem length_pairs (es : List (Value × Value)) :
    (es.flatMap fun e => [e.1, e.2]).length = es.length * 2 := by
  simp [List.length_flatMap]

theorem foretold_map {es : List (Value × Value)}
    (hes : ∀ v ∈ es.flatMap fun e => [e.1, e.2], Foretold left v) :
    Foretold (left + 1) (.map es) := by
  intro table bytes hbytes
  obtain ⟨header, hheader, hbytes⟩ := except_bind_ok_iff.mp hbytes
  obtain ⟨body, hbody, hbytes⟩ := except_bind_ok_iff.mp hbytes
  obtain ⟨n, hn, hheader⟩ := except_bind_ok_iff.mp hheader
  obtain ⟨rfl, hlt⟩ := Etf.u32Of_ok hn
  obtain rfl := Except.ok.inj hheader
  obtain rfl := Except.ok.inj hbytes
  obtain ⟨words, hmany⟩ := comes_entries hes hbody
  have hlength := length_le_flatten hbody
  rw [length_pairs] at hlength
  refine ⟨words + (2 + es.length + es.length), ?_⟩
  rw [fate_nested rfl, Etf.nested]
  refine comes_ofTag (Comes.read (fun s => reads_readU32 s hlt) (Comes.ensured hlength
    (Comes.bind_last grows_true hmany fun es' code => Comes.of_pre fun t ht => ?_)))
  have hcount := ht.2.1
  rw [← hcount]
  refine comes_alloc ?_
  rintro t ⟨-, -, hes'⟩
  refine ⟨rfl, fun u hu => ?_⟩
  obtain ⟨body', hbody', rfl⟩ := hes' u hu
  rw [encodeTermInner, Etf.mapHeader, u32Of_of_lt (hcount ▸ hlt), hbody']
  simp

/-- The cells of a list are its elements in front of what follows the last one. -/
theorem reads_allocList (elements : List Value) (last : Value) {s : DecodeState ℕ}
    (h : elements.length * 2 ≤ s.heap) :
    Reads (allocList elements last) s [] (Etf.listWithTail elements last)
      { s with heap := s.heap - elements.length * 2 } := by
  induction elements generalizing s with
  | nil => exact Reads.pure last s
  | cons v vs ih =>
    rw [List.length_cons] at h ⊢
    have hheap : s.heap - (vs.length + 1) * 2 = s.heap - vs.length * 2 - 2 := by omega
    rw [hheap]
    exact (ih (by omega)).bind_nil (reads_allocated (by simp; omega) _)

theorem collectList_listWithTail (elements : List Value) {last : Value} (h : isList last = false) :
    Etf.collectList (Etf.listWithTail elements last) = (elements, last) := by
  induction elements with
  | nil =>
    cases last with
    | cons head tail => cases h
    | _ => rfl
  | cons v vs ih =>
    have hcons : Etf.listWithTail (v :: vs) last = .cons v (Etf.listWithTail vs last) := rfl
    rw [hcons, Etf.collectList, ih]

theorem comes_allocList {pre : AtomTable → Prop} {result : AtomTable → Value → List UInt8 → Prop}
    {elements : List Value} {last : Value}
    (h : ∀ t, pre t → result t (Etf.listWithTail elements last) []) :
    Comes pre (elements.length * 2) (some true) (allocList elements last) [] result :=
  Comes.of_reads fun _ hs ht => ⟨_, _, [], reads_allocList elements last hs,
    (Nat.sub_add_cancel hs).ge, AtomTable.Extends.refl _, h _ ht, rfl⟩

theorem isList_collectList (v : Value) : isList (Etf.collectList v).2 = false := by
  induction v using Etf.collectList.induct with
  | case1 head tail ih =>
    rw [Etf.collectList]
    exact ih
  | case2 v hv =>
    rw [Etf.collectList]
    · cases v with
      | cons head tail => exact absurd rfl (hv head tail)
      | _ => rfl
    · exact hv

theorem foretold_cons {head tail : Value}
    (hvs : ∀ v ∈ Etf.nested (.cons head tail), Foretold left v) :
    Foretold (left + 1) (.cons head tail) := by
  intro table bytes hbytes
  have hlast := isList_collectList (.cons head tail)
  have hcells := Etf.listWithTail_collectList (.cons head tail)
  rw [encodeTermInner] at hbytes
  dsimp only at hbytes
  obtain ⟨header, hheader, hbytes⟩ := except_bind_ok_iff.mp hbytes
  obtain ⟨body, hbody, hbytes⟩ := except_bind_ok_iff.mp hbytes
  obtain ⟨n, hn, hheader⟩ := except_bind_ok_iff.mp hheader
  obtain ⟨rfl, hlt⟩ := Etf.u32Of_ok hn
  obtain rfl := Except.ok.inj hheader
  obtain rfl := Except.ok.inj hbytes
  rw [fate_nested rfl]
  rw [Etf.nested] at hvs ⊢
  have hsome : (Etf.collectList (.cons head tail)).1 ≠ [] := by
    rw [Etf.collectList]
    exact List.cons_ne_nil _ _
  generalize Etf.collectList (.cons head tail) = cells at *
  obtain ⟨elements, last⟩ := cells
  dsimp only at *
  have hlength := length_le_flatten hbody
  obtain ⟨first, final, hfirst, hfinal, rfl⟩ := except_mapM_concat_ok_iff.mp hbody
  obtain ⟨words, hmany⟩ := comes_many (fun v hv => hvs v (List.mem_append_left _ hv)) hfirst
  obtain ⟨words', hone⟩ := hvs last (by simp) table final hfinal
  refine ⟨words + (words' + elements.length * 2), ?_⟩
  have hfates : fates left (elements ++ [last]) = both (fates left elements) (fate left last) := by
    have hlast : fates left [last] = fate left last := by
      rw [fates_cons]
      exact both_true _
    rw [fates_append, hlast]
  have hflat : (first ++ [final]).flatten = first.flatten ++ final := by simp
  rw [hflat, List.length_append, List.length_append, List.length_singleton] at hlength
  rw [hfates, hflat]
  refine comes_ofTag (Comes.read (fun s => reads_readU32 s hlt) (Comes.ensured ?_ ?_))
  · rwa [List.length_append]
  refine Comes.bind grows_true hmany fun elements' code => ?_
  have hgrows : Grows fun t => True ∧ ReencodeAll left elements.length t elements' code :=
    fun t u hu h => ⟨trivial, h.2.1, fun u' hu' => h.2.2 u' (hu'.trans hu)⟩
  refine Comes.bind_last hgrows (hone.mono le_rfl fun _ _ => trivial) fun last' code' =>
    Comes.of_pre fun t ht => ?_
  have hcount := ht.1.2.1
  have hend := ht.2.1
  rw [hlast] at hend
  rw [← hcount]
  refine comes_allocList ?_
  rintro t ⟨⟨-, -, has⟩, -, hlast'⟩
  have hcollect := collectList_listWithTail elements' hend
  have hne : elements' ≠ [] := by
    rintro rfl
    exact hsome (List.length_eq_zero_iff.mp hcount.symm)
  obtain ⟨head', tail', hcons⟩ : ∃ head' tail',
      Etf.listWithTail elements' last' = .cons head' tail' := by
    obtain ⟨v, vs, rfl⟩ := List.exists_cons_of_ne_nil hne
    exact ⟨v, _, rfl⟩
  rw [hcons] at hcollect ⊢
  refine ⟨rfl, fun u hu => ?_⟩
  obtain ⟨body, hbody, rfl⟩ := has u hu
  have hall := except_mapM_concat_ok_iff.mpr ⟨body, code', hbody, hlast' u hu, rfl⟩
  rw [encodeTermInner, hcollect]
  dsimp only
  rw [Etf.listHeader, hcount, u32Of_of_lt hlt, hall]
  simp

end Nested

/-- Every term meets its fate, whatever it holds. -/
theorem foretold (left : ℕ) (v : Value) : Foretold left v := by
  induction left generalizing v with
  | zero =>
    intro table bytes hbytes
    cases hbytes
  | succ left ih =>
    cases v with
    | number n =>
      cases n with
      | smallInt n => exact foretold_smallInt n
      | float x => exact foretold_float x
      | bigInt negative limbs => exact foretold_bigInt
    | atom a => exact foretold_atom a
    | reference r => exact foretold_reference r
    | pid p => exact foretold_pid p
    | tuple elements => exact foretold_tuple fun v _ => ih v
    | map entries => exact foretold_map fun v _ => ih v
    | nil => exact foretold_nil
    | cons head tail => exact foretold_cons fun v _ => ih v
    | binary b => exact foretold_binary b
    | closure c free =>
      intro table bytes hbytes
      cases hbytes
    | other raw =>
      intro table bytes hbytes
      cases hbytes

/-! ## The terms that come back -/

/-- A bignum of more than 64 bits, or of 64 bits with its sign but not of 32. -/
def KeptHere : Value → Prop
  | .number (.bigInt negative limbs) => 2 ^ 64 ≤ limbsNat (limbs.map UInt64.toNat) ∨
      FitsSigned 64 (Etf.signedValue negative limbs) ∧
        ¬ FitsSigned 32 (Etf.signedValue negative limbs)
  | _ => True

theorem bigFate_iff {negative : Bool} {limbs : List UInt64} :
    bigFate negative limbs = some true ↔ KeptHere (.number (.bigInt negative limbs)) := by
  rw [bigFate, KeptHere]
  split_ifs with hlong hfits
  · exact iff_of_true rfl (.inl hlong)
  · rw [or_iff_right hlong, and_iff_right hfits, Option.some.injEq, decide_eq_true_iff]
  · exact iff_of_false (by simp) fun h => h.elim hlong fun h => hfits h.1

theorem both_eq_true {first second : Option Bool} :
    both first second = some true ↔ first = some true ∧ second = some true := by
  cases first <;> cases second <;> simp

section Kept

variable {left : ℕ}

theorem fates_eq_true {vs : List Value} :
    fates left vs = some true ↔ ∀ v ∈ vs, fate left v = some true := by
  induction vs with
  | nil => exact iff_of_true rfl (by simp)
  | cons v vs ih => rw [fates_cons, both_eq_true, ih, List.forall_mem_cons]

theorem fate_eq_true {v : Value} : fate (left + 1) v = some true ↔
    ownFate left v = some true ∧ ∀ x ∈ Etf.nested v, fate left x = some true := by
  have hboth : fate (left + 1) v = both (ownFate left v) (fates left (Etf.nested v)) := by
    rw [fate, fates]
    cases ownFate left v with
    | none => rfl
    | some own => cases (Etf.nested v).mapM (fate left) <;> rfl
  rw [hboth, both_eq_true, fates_eq_true]

/-- A property that list cells have is looked for in the elements of a list. -/
theorem all_iff_nested {p : Value → Prop} (hcons : ∀ head tail, p (.cons head tail)) {v : Value}
    (hv : ∀ c free, v ≠ .closure c free) : v.All p ↔ p v ∧ ∀ x ∈ Etf.nested v, x.All p := by
  have hlist (v : Value) : v.All p ↔
      (∀ x ∈ (Etf.collectList v).1, x.All p) ∧ (Etf.collectList v).2.All p := by
    induction v using Etf.collectList.induct with
    | case1 head tail ih =>
      rw [Etf.collectList, Value.all_iff, and_iff_right (hcons head tail)]
      simp only [Value.children, List.forall_mem_cons, List.not_mem_nil, false_imp_iff, ih,
        implies_true, and_true, and_assoc]
    | case2 v hv =>
      rw [Etf.collectList]
      · simp
      · exact hv
  cases v with
  | cons head tail =>
    rw [hlist, and_iff_right (hcons head tail), Etf.nested, List.forall_mem_append]
    simp
  | closure c free => exact absurd rfl (hv c free)
  | _ => rw [Value.all_iff]; rfl

theorem mapM_encodes {vs : List Value} {table : AtomTable} {body : List (List UInt8)}
    (h : vs.mapM (encodeTermInner table left) = .ok body) :
    ∀ x ∈ vs, ∃ code, encodeTermInner table left x = .ok code := by
  induction vs generalizing body with
  | nil => simp
  | cons v vs ih =>
    obtain ⟨first, rest, hfirst, hrest, -⟩ := except_mapM_cons_ok h
    rw [List.forall_mem_cons]
    exact ⟨⟨first, hfirst⟩, ih hrest⟩

/-- What is in an encoded term is encoded a level further down. -/
theorem nested_encodes {v : Value} {table : AtomTable} {code : List UInt8}
    (h : encodeTermInner table (left + 1) v = .ok code) :
    ∀ x ∈ Etf.nested v, ∃ code, encodeTermInner table left x = .ok code := by
  cases v with
  | tuple elements =>
    obtain ⟨header, -, h⟩ := except_bind_ok_iff.mp h
    obtain ⟨body, hbody, -⟩ := except_bind_ok_iff.mp h
    exact mapM_encodes hbody
  | map entries =>
    obtain ⟨header, -, h⟩ := except_bind_ok_iff.mp h
    obtain ⟨body, hbody, -⟩ := except_bind_ok_iff.mp h
    exact mapM_encodes hbody
  | cons head tail =>
    obtain ⟨header, -, h⟩ := except_bind_ok_iff.mp h
    obtain ⟨body, hbody, -⟩ := except_bind_ok_iff.mp h
    exact mapM_encodes hbody
  | _ => simp [Etf.nested]

theorem ownFate_eq_true {v : Value} : ownFate left v = some true ↔
    (left = 0 → Etf.isIdentity v = false) ∧ KeptHere v := by
  have hidentity : (if left = 0 then none else some true) = some true ↔
      (left = 0 → true = false) ∧ True := by
    by_cases hleft : left = 0 <;> simp [hleft]
  cases v with
  | number n =>
    cases n with
    | bigInt negative limbs =>
      rw [ownFate, bigFate_iff]
      exact (and_iff_right fun _ => rfl).symm
    | _ => exact iff_of_true rfl ⟨fun _ => rfl, trivial⟩
  | pid p => exact hidentity
  | reference r => exact hidentity
  | _ => exact iff_of_true rfl ⟨fun _ => rfl, trivial⟩

/-- No pid or reference is at the deepest level, and every bignum is kept. -/
theorem fate_iff {v : Value} {table : AtomTable} {code : List UInt8}
    (h : encodeTermInner table (left + 1) v = .ok code) :
    fate (left + 1) v = some true ↔ Etf.identityAt left v = false ∧ v.All KeptHere := by
  have hclosure : ∀ c free, v ≠ .closure c free := by
    rintro c free rfl
    cases h
  have hinside := nested_encodes h
  rw [fate_eq_true, ownFate_eq_true, all_iff_nested (fun _ _ => trivial) hclosure]
  induction left generalizing v code with
  | zero =>
    have hnone : Etf.nested v = [] := by
      rw [List.eq_nil_iff_forall_not_mem]
      intro x hx
      obtain ⟨code, hcode⟩ := hinside x hx
      cases hcode
    rw [hnone, Etf.identityAt]
    simp
  | succ left ih =>
    have hfate : ∀ x ∈ Etf.nested v, fate (left + 1) x = some true ↔
        Etf.identityAt left x = false ∧ x.All KeptHere := by
      intro x hx
      obtain ⟨code, hcode⟩ := hinside x hx
      have hclosure : ∀ c free, x ≠ .closure c free := by
        rintro c free rfl
        cases hcode
      rw [fate_eq_true, ownFate_eq_true, all_iff_nested (fun _ _ => trivial) hclosure]
      exact ih hcode hclosure (nested_encodes hcode)
    rw [forall₂_congr hfate, Etf.identityAt, List.any_eq_false]
    simp only [Nat.add_one_ne_zero, false_imp_iff, true_and, Bool.not_eq_true]
    constructor
    · rintro ⟨hkept, hall⟩
      exact ⟨fun x hx => (hall x hx).1, hkept, fun x hx => (hall x hx).2⟩
    · rintro ⟨hidentity, hkept, hall⟩
      exact ⟨hkept, fun x hx => ⟨hidentity x hx, hall x hx⟩⟩

end Kept

/-! ## The whole input -/

/-- On a heap with enough room the bytes are decoded, and what is decoded is encoded as they are. -/
def ComesBack (atoms : AtomTable) (bytes : List UInt8) : Prop :=
  ∃ room, ∀ heap, room ≤ heap → ∃ term' s', decodeTerm ⟨atoms, heap⟩ bytes = .ok (term', s') ∧
    encodeTermResult s'.atoms term' = .ok bytes

theorem decodeTermPrefix_version (s : DecodeState ℕ) (inner : List UInt8) :
    decodeTermPrefix s (Etf.Tags.version :: inner) = decodeOne (maxEtfDepth + 1) s inner := rfl

theorem decodeTerm_reads {s s' : DecodeState ℕ} {inner : List UInt8} {v : Value}
    (h : Reads (decodeOne (maxEtfDepth + 1)) s inner v s') :
    decodeTerm s (Etf.Tags.version :: inner) = .ok (v, s') := by
  have hall : decodeOne (maxEtfDepth + 1) s inner = .ok (v, s', []) := h.all
  rw [decodeTerm, decodeTermPrefix_version, hall]
  rfl

theorem decodeTerm_fails {s : DecodeState ℕ} {inner : List UInt8} {e : DecodeError}
    (h : Fails (decodeOne (maxEtfDepth + 1)) s inner e) :
    decodeTerm s (Etf.Tags.version :: inner) = .error e := by
  have hall := h []
  rw [List.append_nil] at hall
  rw [decodeTerm, decodeTermPrefix_version, hall]

/-- The bytes of a term come back exactly if no pid or reference stands at the deepest level and
every bignum has more than 64 bits, or 64 with its sign but not 32. -/
theorem comesBack_iff (table atoms : AtomTable) (term : Value) (bytes : List UInt8)
    (h : encodeTermResult table term = .ok bytes) :
    ComesBack atoms bytes ↔ Etf.identityAt maxEtfDepth term = false ∧ term.All KeptHere := by
  obtain ⟨inner, hinner, hbytes⟩ := except_bind_ok_iff.mp h
  obtain rfl := Except.ok.inj hbytes
  obtain ⟨words, hcomes⟩ := foretold (maxEtfDepth + 1) term table inner hinner
  rw [← fate_iff hinner]
  constructor
  · rintro ⟨room, hroom⟩
    obtain ⟨hnone, hsome⟩ := hcomes ⟨atoms, max room words⟩ (le_max_right _ _) trivial
    obtain ⟨term', s', hdecode, hencode⟩ := hroom (max room words) (le_max_left _ _)
    cases hfate : fate (maxEtfDepth + 1) term with
    | none =>
      obtain ⟨e, hfails⟩ := hnone hfate
      rw [decodeTerm_fails hfails] at hdecode
      cases hdecode
    | some same =>
      obtain ⟨a, s'', code, hreads, -, -, ⟨-, hcode⟩, hcompares⟩ := hsome same hfate
      rw [decodeTerm_reads hreads] at hdecode
      cases hdecode
      rw [encodeTermResult, hcode _ (AtomTable.Extends.refl _)] at hencode
      have hsame : code = inner := List.tail_eq_of_cons_eq (Except.ok.inj hencode)
      rw [hcompares.eq_iff.1 hsame]
  · intro hfate
    refine ⟨words, fun heap hheap => ?_⟩
    obtain ⟨-, hsome⟩ := hcomes ⟨atoms, heap⟩ hheap trivial
    obtain ⟨a, s', code, hreads, -, -, ⟨-, hcode⟩, hcompares⟩ := hsome true hfate
    obtain rfl : code = inner := hcompares
    refine ⟨a, s', decodeTerm_reads hreads, ?_⟩
    rw [encodeTermResult, hcode _ (AtomTable.Extends.refl _)]
    rfl

/-- The bytes of `{-2^63}`. -/
def minBytes : List UInt8 := [131, 104, 1, 110, 8, 1, 0, 0, 0, 0, 0, 0, 0, 128]

/-- The least integer of 64 bits comes back. -/
theorem comesBack_min : ComesBack Etf.noAtoms minBytes :=
  (comesBack_iff Etf.noAtoms Etf.noAtoms
    (.tuple [.number (.bigInt true [0x8000000000000000])]) minBytes rfl).2
    ⟨by decide, Value.all_iff.2 ⟨trivial, List.forall_mem_singleton.2
      (Value.all_iff.2 ⟨.inr ⟨by decide, by decide⟩, by simp [Value.children]⟩)⟩⟩

/-- The bytes of `2^63`. -/
def refusedBytes : List UInt8 := [131, 110, 8, 0, 0, 0, 0, 0, 0, 0, 0, 128]

/-- `2^63` is encoded in eight bytes, and no heap is large enough to decode them. -/
theorem refused_bytes :
    encodeTermResult Etf.noAtoms (.number (.bigInt false [0x8000000000000000])) =
      .ok refusedBytes ∧
    ∀ s, decodeTerm s refusedBytes = .error .integerOutOfRange :=
  ⟨rfl, fun _ => rfl⟩

end Beamr.Distribution.TermCodec
