import Beamr.Ets.Copy
import Beamr.Etf.Decode
import Beamr.Term.Numbers

/-!
# What is encoded is decoded

The decoder on the bytes of the encoder. A term comes back with the same structure and its binaries
stored anew, if the heap takes it. The encoder lets a pid or a reference stand at the deepest level
it accepts; the decoder reads the node of one as a term a level further down and refuses it there.
-/
namespace Beamr.Etf

open Term ByteOrder Decoder

/-! ## What a term needs -/

/-- The terms a level of nesting further down: of a list, its elements and what follows them. -/
def nested : Value → List Value
  | .tuple elements => elements
  | .map entries => entries.flatMap fun e => [e.1, e.2]
  | .cons head tail => (collectList (.cons head tail)).1 ++ [(collectList (.cons head tail)).2]
  | _ => []

def isIdentity : Value → Bool
  | .pid _ => true
  | .reference _ => true
  | _ => false

/-- A pid or a reference stands exactly so many levels down. -/
def identityAt : ℕ → Value → Bool
  | 0, v => isIdentity v
  | level + 1, v => (nested v).any (identityAt level)

/-- A number of words the limit is checked for, and the number then asked for. -/
structure Request where
  checked : ℕ
  asked : ℕ

/-- What a term needs apart from the terms nested in it. -/
def ownRequests : Value → List Request
  | .number (.float _) => [⟨0, 2⟩]
  | .number (.bigInt _ limbs) =>
    [⟨if limbs.length ≤ 1 then 0 else limbs.length + 3, 3 + limbs.length⟩]
  | .reference _ => [⟨0, 2⟩]
  | .pid _ => [⟨0, 4⟩]
  | .tuple elements => [⟨elements.length + 1, 1 + elements.length⟩]
  | .map entries => [⟨entries.length * 2 + 2, 2 + entries.length + entries.length⟩]
  | .cons head tail =>
    [⟨(collectList (.cons head tail)).1.length * 2, (collectList (.cons head tail)).1.length * 2⟩]
  | .binary b =>
    [⟨packedWordCount b.asBytes.length + 2, allocBinaryWordCount b.asBytes.length⟩]
  | _ => []

/-- What a term of at most so many levels needs, the nested terms first. -/
def requests : ℕ → Value → List Request
  | 0, _ => []
  | left + 1, v => (nested v).flatMap (requests left) ++ ownRequests v

section Heap

variable {H : Type} (context : DecodeContext H)

def DecodeContext.grant (heap : H) (request : Request) : Option H :=
  if request.checked ≤ context.maxHeapWords then context.allocWords heap request.asked else none

/-- The heap after a term with so many levels left, if the term is accepted. -/
def heapAfter : ℕ → H → Value → Option H
  | 0, _, _ => none
  | left + 1, heap, v =>
    if identityAt left v then none else (requests (left + 1) v).foldlM context.grant heap

theorem foldlM_heapAfter (left : ℕ) (vs : List Value) (heap : H) :
    vs.foldlM (heapAfter context (left + 1)) heap =
      if vs.any (identityAt left) then none
      else (vs.flatMap (requests (left + 1))).foldlM context.grant heap := by
  induction vs generalizing heap with
  | nil => rfl
  | cons v vs ih =>
    rw [List.foldlM_cons, List.any_cons, List.flatMap_cons, List.foldlM_append, heapAfter]
    cases hv : identityAt left v with
    | true => rfl
    | false =>
      simp only [Bool.false_eq_true, if_false, Bool.false_or]
      cases hfirst : (requests (left + 1) v).foldlM context.grant heap with
      | none => exact (ite_self none).symm
      | some next => exact ih next

/-- A term that holds others is granted after them. -/
theorem heapAfter_nested {left : ℕ} {v : Value} {request : Request} (heap : H)
    (hown : ownRequests v = [request]) (hv : isIdentity v = false)
    (hempty : left = 0 → nested v = []) :
    heapAfter context (left + 1) heap v =
      ((nested v).foldlM (heapAfter context left) heap).bind fun heap =>
        context.grant heap request := by
  cases left with
  | zero =>
    rw [hempty rfl, heapAfter, identityAt, hv, requests, hempty rfl, hown]
    cases hgrant : context.grant heap request <;> simp [hgrant]
  | succ left =>
    rw [foldlM_heapAfter, heapAfter, identityAt, requests, hown, List.foldlM_append]
    cases (nested v).any (identityAt left) with
    | true => rfl
    | false =>
      simp only [Bool.false_eq_true, if_false]
      cases ((nested v).flatMap (requests (left + 1))).foldlM context.grant heap with
      | none => rfl
      | some next => cases hgrant : context.grant next request <;> simp [hgrant]

theorem heapAfter_leaf {left : ℕ} {v : Value} (heap : H) (hleaf : nested v = [])
    (hv : isIdentity v = false) :
    heapAfter context (left + 1) heap v = (ownRequests v).foldlM context.grant heap := by
  have hnone : identityAt left v = false := by
    cases left with
    | zero => exact hv
    | succ left => rw [identityAt, hleaf]; rfl
  rw [heapAfter, hnone, requests, hleaf]
  rfl

theorem grant_unchecked (heap : H) (words : ℕ) :
    context.grant heap ⟨0, words⟩ = context.allocWords heap words := if_pos (Nat.zero_le _)

end Heap

/-! ## Decoders that answer -/

section Answers

variable {H α β : Type} {context : DecodeContext H} {table : AtomTable} {s : DecodeState H}

/-- `d` reads the bytes and leaves the heap given, or it fails where none is. The atoms of the
encoder stay known. -/
def Answers (table : AtomTable) (d : Decoder DecodeError (DecodeState H) α) (s : DecodeState H)
    (bytes : List UInt8) (heap : Option H) (good : α → Prop) : Prop :=
  match heap with
  | some heap => ∃ a s', Reads d s bytes a s' ∧ good a ∧ s'.heap = heap ∧ s'.atoms.Extends table
  | none => ∃ e, Fails d s bytes e

namespace Answers

theorem pure {good : α → Prop} {a : α} (ha : good a) (hs : s.atoms.Extends table) :
    Answers table (Pure.pure a) s [] (some s.heap) good :=
  ⟨a, s, Reads.pure a s, ha, rfl, hs⟩

theorem bind {d : Decoder DecodeError (DecodeState H) α}
    {f : α → Decoder DecodeError (DecodeState H) β} {xs ys : List UInt8} {heap : Option H}
    {next : H → Option H} {good : α → Prop} {good' : β → Prop}
    (h : Answers table d s xs heap good)
    (hf : ∀ a s', good a → s'.atoms.Extends table →
      Answers table (f a) s' ys (next s'.heap) good') :
    Answers table (d >>= f) s (xs ++ ys) (heap.bind next) good' := by
  cases heap with
  | none =>
    obtain ⟨e, hfails⟩ := h
    exact ⟨e, (hfails.bind_first f).append ys⟩
  | some heap =>
    obtain ⟨a, s', hreads, ha, rfl, hs'⟩ := h
    have hnext := hf a s' ha hs'
    change Answers table (d >>= f) s (xs ++ ys) (next s'.heap) good'
    cases hheap : next s'.heap with
    | none =>
      rw [hheap] at hnext
      obtain ⟨e, hfails⟩ := hnext
      exact ⟨e, Fails.bind hreads hfails⟩
    | some heap' =>
      rw [hheap] at hnext
      obtain ⟨b, s'', hreads', hb, hlast⟩ := hnext
      exact ⟨b, s'', hreads.bind hreads', hb, hlast⟩

/-- A continuation that reads nothing. -/
theorem bind_last {d : Decoder DecodeError (DecodeState H) α}
    {f : α → Decoder DecodeError (DecodeState H) β} {xs : List UInt8} {heap : Option H}
    {next : H → Option H} {good : α → Prop} {good' : β → Prop}
    (h : Answers table d s xs heap good)
    (hf : ∀ a s', good a → s'.atoms.Extends table →
      Answers table (f a) s' [] (next s'.heap) good') :
    Answers table (d >>= f) s xs (heap.bind next) good' := by
  simpa using h.bind hf

theorem imp {d : Decoder DecodeError (DecodeState H) α} {xs : List UInt8} {heap : Option H}
    {good good' : α → Prop} (h : Answers table d s xs heap good) (himp : ∀ a, good a → good' a) :
    Answers table d s xs heap good' := by
  cases heap with
  | none => exact h
  | some heap =>
    obtain ⟨a, s', hreads, ha, hlast⟩ := h
    exact ⟨a, s', hreads, himp a ha, hlast⟩

/-- A first step that only reads. -/
theorem read {d : Decoder DecodeError (DecodeState H) α}
    {f : α → Decoder DecodeError (DecodeState H) β} {xs ys : List UInt8} {a : α} {heap : Option H}
    {good : β → Prop} (h : Reads d s xs a s) (hf : Answers table (f a) s ys heap good) :
    Answers table (d >>= f) s (xs ++ ys) heap good := by
  cases heap with
  | none =>
    obtain ⟨e, hfails⟩ := hf
    exact ⟨e, Fails.bind h hfails⟩
  | some heap =>
    obtain ⟨b, s', hreads, hb, hlast⟩ := hf
    exact ⟨b, s', h.bind hreads, hb, hlast⟩

theorem read_last {d : Decoder DecodeError (DecodeState H) α}
    {f : α → Decoder DecodeError (DecodeState H) β} {xs : List UInt8} {a : α} {heap : Option H}
    {good : β → Prop} (h : Reads d s xs a s) (hf : Answers table (f a) s [] heap good) :
    Answers table (d >>= f) s xs heap good := by
  simpa using read h hf

end Answers

theorem answers_alloc (hs : s.atoms.Extends table) (words : ℕ) (term : Value) :
    Answers table (alloc context words term) s [] (context.allocWords s.heap words)
      (· = term) := by
  refine Answers.read_last (Reads.getState s) ?_
  cases halloc : context.allocWords s.heap words with
  | none => exact ⟨_, Fails.bind_first (Fails.fail _ s []) _⟩
  | some heap =>
    refine ⟨term, { s with heap }, ?_, rfl, rfl, hs⟩
    exact (Reads.pure heap s).bind_nil ((Reads.setState s _).bind_nil (Reads.pure term _))

/-- A check before the contents of a term is as good as one after them. -/
theorem answers_ensure {rest : Decoder DecodeError (DecodeState H) α} {bytes : List UInt8}
    {heap : Option H} {good : α → Prop} {checked asked : ℕ}
    (h : Answers table rest s bytes (heap.bind fun heap => context.allocWords heap asked) good) :
    Answers table (do ensureHeapWords context checked; rest) s bytes
      (heap.bind fun heap => context.grant heap ⟨checked, asked⟩) good := by
  by_cases hchecked : checked ≤ context.maxHeapWords
  · have hrequire : Reads (ensureHeapWords context checked) s [] () s :=
      Reads.require _ s (by simpa using hchecked)
    simp only [DecodeContext.grant, hchecked, if_true]
    exact Answers.read hrequire h
  · have hnone : (heap.bind fun heap => context.grant heap ⟨checked, asked⟩) = none := by
      cases heap with
      | none => rfl
      | some heap => exact if_neg hchecked
    rw [hnone]
    refine ⟨.sizeLimitExceeded, ?_⟩
    have hrequire : Fails (ensureHeapWords context checked : Decoder _ (DecodeState H) Unit) s []
        .sizeLimitExceeded := by
      rw [ensureHeapWords, require, decide_eq_false hchecked]
      exact Fails.fail _ s []
    exact (hrequire.bind_first _).append bytes

end Answers

/-! ## Parts of the input -/

section Parts

variable {H : Type}

theorem reads_readU8 (s : DecodeState H) (b : UInt8) : Reads readU8 s [b] b s :=
  Reads.byte _ s b

theorem reads_readBytes (s : DecodeState H) {bytes : List UInt8} {n : ℕ} (h : bytes.length = n) :
    Reads (readBytes n) s bytes bytes s :=
  Reads.take _ s bytes h

theorem reads_readU16 (s : DecodeState H) {n : ℕ} (h : n < 2 ^ 16) :
    Reads readU16 s (beBytes 2 n) n s := by
  refine (reads_readBytes s (beBytes_length 2 n)).bind_pure ?_
  rw [beNat_beBytes, Nat.mod_eq_of_lt (by norm_num at h ⊢; exact h)]
  exact Reads.pure n s

theorem reads_readU32 (s : DecodeState H) {n : ℕ} (h : n < 2 ^ 32) :
    Reads readU32 s (beBytes 4 n) n s := by
  refine (reads_readBytes s (beBytes_length 4 n)).bind_pure ?_
  rw [beNat_beBytes, Nat.mod_eq_of_lt (by norm_num at h ⊢; exact h)]
  exact Reads.pure n s

theorem reads_readI32 (s : DecodeState H) {value : ℤ} (h : FitsSigned 32 value) :
    Reads readI32 s (beBytes 4 (ofSigned 32 value)) value s := by
  refine (reads_readU32 s (ofSigned_lt 32 value)).bind_pure ?_
  rw [toSigned_ofSigned (by norm_num) h]
  exact Reads.pure value s

theorem u32Of_ok {n m : ℕ} (h : u32Of n = .ok m) : m = n ∧ n < 2 ^ 32 := by
  unfold u32Of at h
  split_ifs at h with hlt
  exact ⟨(Except.ok.inj h).symm, hlt⟩

theorem u16Of_ok {n m : ℕ} (h : u16Of n = .ok m) : m = n ∧ n < 2 ^ 16 := by
  unfold u16Of at h
  split_ifs at h with hlt
  exact ⟨(Except.ok.inj h).symm, hlt⟩

theorem toNat_byte {n : ℕ} (h : n < 256) : (UInt8.ofNat n).toNat = n := by
  rw [UInt8.toNat_ofNat']
  omega

end Parts

section Tagged

variable {H : Type} {context : DecodeContext H} {options : DecodeOptions} {table : AtomTable}
  {s : DecodeState H} {left : ℕ} {tag : UInt8} {rest : List UInt8} {heap : Option H}
  {good : Value → Prop}

theorem answers_tagged
    (h : Answers table (decodeBody context options (decodeOne context options left) tag) s rest
      heap good) :
    Answers table (decodeOne context options (left + 1)) s (tag :: rest) heap good :=
  Answers.read (reads_readU8 s tag) h

/-- With nothing left the tag is read and refused. -/
theorem answers_zero :
    Answers table (decodeOne context options 0) s (tag :: rest) none good :=
  ⟨.tooDeep, Fails.bind (reads_readU8 s tag) (Fails.fail _ s rest)⟩

end Tagged

/-! ## Atoms, pids and references -/

section Identities

variable {H : Type} {context : DecodeContext H} {options : DecodeOptions} {table : AtomTable}
  {s : DecodeState H}

theorem intern_of_resolve {t : AtomTable} {a : Atom} {name : List UInt8}
    (h : t.resolve a = some name) (hvalid : utf8Valid name = true) :
    t.intern name hvalid = (a, t) := by
  have hlookup := AtomTable.lookup_of_resolve h
  unfold AtomTable.intern
  split
  next b hb =>
    rw [hlookup] at hb
    cases hb
    rfl
  next hnone =>
    rw [hlookup] at hnone
    cases hnone

/-- The atom of a name, which for a name of the encoder is the atom it resolved. -/
def Named (table : AtomTable) (name : List UInt8) (v : Value) : Prop :=
  ∃ atom, v = .atom atom ∧ ∀ a, table.resolve a = some name → atom = a

theorem answers_decodeAtom (hsafe : options.safe = false) (hs : s.atoms.Extends table)
    {name : List UInt8} (hvalid : utf8Valid name = true) :
    Answers table (decodeAtom options name) s [] (some s.heap) (Named table name) := by
  refine ⟨.atom (s.atoms.intern name hvalid).1, ⟨(s.atoms.intern name hvalid).2, s.heap⟩, ?_,
    ⟨_, rfl, ?_⟩, rfl, (AtomTable.intern_extends _ _ hvalid).trans hs⟩
  · rw [decodeAtom, dif_pos hvalid]
    refine (Reads.getState s).bind_nil ?_
    rw [hsafe]
    exact (Reads.setState s _).bind_nil (Reads.pure _ _)
  · intro a ha
    rw [intern_of_resolve (hs.resolve ha) hvalid]

theorem answers_atomName (hsafe : options.safe = false) (hs : s.atoms.Extends table)
    {name bytes : List UInt8} (hvalid : utf8Valid name = true)
    (hbytes : encodeAtomName name = .ok bytes) (left : ℕ) :
    Answers table (decodeOne context options left) s bytes
      (if left = 0 then none else some s.heap) (Named table name) := by
  have hatom := answers_decodeAtom hsafe hs hvalid
  unfold encodeAtomName at hbytes
  cases left with
  | zero =>
    split_ifs at hbytes with hlen
    · obtain rfl := Except.ok.inj hbytes
      exact answers_zero
    · obtain ⟨n, -, hbytes⟩ := except_bind_ok_iff.mp hbytes
      obtain rfl := Except.ok.inj hbytes
      exact answers_zero
  | succ left =>
    rw [if_neg (Nat.succ_ne_zero left)]
    split_ifs at hbytes with hlen
    · obtain rfl := Except.ok.inj hbytes
      refine answers_tagged (Answers.read (reads_readU8 s _) ?_)
      exact Answers.read_last (reads_readBytes s (toNat_byte hlen).symm) hatom
    · obtain ⟨n, hn, hbytes⟩ := except_bind_ok_iff.mp hbytes
      obtain ⟨rfl, hlt⟩ := u16Of_ok hn
      obtain rfl := Except.ok.inj hbytes
      exact answers_tagged (Answers.read (reads_readU16 s hlt)
        (Answers.read_last (reads_readBytes s rfl) hatom))

theorem answers_atom (hsafe : options.safe = false) (hs : s.atoms.Extends table) {a : Atom}
    {bytes : List UInt8} (hbytes : encodeAtom table a = .ok bytes) (left : ℕ) :
    Answers table (decodeOne context options left) s bytes
      (if left = 0 then none else some s.heap) (· = .atom a) := by
  unfold encodeAtom at hbytes
  split at hbytes
  · cases hbytes
  next name hresolve =>
  refine Answers.imp (answers_atomName hsafe hs (AtomTable.valid_of_resolve hresolve) hbytes left) ?_
  rintro v ⟨atom, rfl, hatom⟩
  rw [hatom a hresolve]

/-- The node of a pid or a reference needs a level of its own. -/
theorem answers_node {d : Decoder DecodeError (DecodeState H) Value} {bytes : List UInt8}
    {heap : Option H} {good : Value → Prop} (h : Answers table d s bytes heap good)
    (hatom : ∀ v, good v → ∃ atom, v = .atom atom) (tag : UInt8) :
    Answers table (decodeNode d tag) s bytes heap fun atom => good (.atom atom) := by
  rw [← Option.bind_fun_some heap]
  refine h.bind_last ?_
  intro v s' hv hs'
  obtain ⟨atom, rfl⟩ := hatom v hv
  exact Answers.pure hv hs'

theorem answers_externalPid (hsafe : options.safe = false) (hs : s.atoms.Extends table)
    {node : Atom} {number serial : UInt64} {bytes : List UInt8}
    (hbytes : encodeExternalPid table node number serial = .ok bytes) (left : ℕ) :
    Answers table (decodeOne context options (left + 1)) s bytes
      (if left = 0 then none else context.allocWords s.heap 4)
      (· = .pid (.remote node number serial)) := by
  unfold encodeExternalPid at hbytes
  obtain ⟨name, hname, hbytes⟩ := except_bind_ok_iff.mp hbytes
  obtain ⟨id, hid, hbytes⟩ := except_bind_ok_iff.mp hbytes
  obtain ⟨ser, hser, hbytes⟩ := except_bind_ok_iff.mp hbytes
  obtain ⟨rfl, hidLt⟩ := u32Of_ok hid
  obtain ⟨rfl, hserLt⟩ := u32Of_ok hser
  obtain rfl := Except.ok.inj hbytes
  have hatom : Answers table (decodeOne context options left) s name
      (if left = 0 then none else some s.heap) (· = .atom node) :=
    answers_atom hsafe hs hname left
  have hnode := answers_node hatom (fun v hv => ⟨node, hv⟩) Tags.newPidExt
  have hheap : (if left = 0 then none else context.allocWords s.heap 4) =
      (if left = 0 then none else some s.heap).bind fun heap => context.allocWords heap 4 := by
    split_ifs <;> rfl
  rw [hheap, List.append_assoc, List.append_assoc]
  refine answers_tagged (hnode.bind ?_)
  rintro atom s' hatom hs'
  obtain rfl := Value.atom.inj hatom
  refine Answers.read (reads_readU32 s' hidLt) (Answers.read (reads_readU32 s' hserLt)
    (Answers.read_last (reads_readBytes s' (beBytes_length 4 0)) ?_))
  rw [UInt64.ofNat_toNat, UInt64.ofNat_toNat]
  exact answers_alloc hs' 4 _

/-- The two words of an id put together again. -/
theorem joinWords (id : UInt64) :
    ((UInt64.ofNat (id.toNat / 2 ^ 32) <<< 32) ||| UInt64.ofNat (id.toNat % 2 ^ 32)) = id := by
  have hid := id.toNat_lt
  have hlow : id.toNat % 2 ^ 32 < 2 ^ 32 := Nat.mod_lt _ (by norm_num)
  have hhigh : id.toNat / 2 ^ 32 < 2 ^ 32 := by omega
  have hshift : (id.toNat / 2 ^ 32) <<< 32 < 2 ^ 64 := by
    rw [Nat.shiftLeft_eq]
    omega
  have h32 : (32 : UInt64).toNat % 64 = 32 := by decide
  apply UInt64.toNat_inj.mp
  rw [UInt64.toNat_or, UInt64.toNat_shiftLeft, UInt64.toNat_ofNat', UInt64.toNat_ofNat', h32,
    Nat.mod_eq_of_lt (hhigh.trans (by norm_num)), Nat.mod_eq_of_lt (hlow.trans (by norm_num)),
    Nat.mod_eq_of_lt hshift, ← Nat.shiftLeft_add_eq_or_of_lt hlow, Nat.shiftLeft_eq]
  omega

theorem reads_idWords (s : DecodeState H) (id : UInt64) :
    Reads (many readU32 2) s (beBytes 4 (id.toNat / 2 ^ 32) ++ beBytes 4 (id.toNat % 2 ^ 32))
      [id.toNat / 2 ^ 32, id.toNat % 2 ^ 32] s := by
  have hid := id.toNat_lt
  have hhigh : Reads readU32 s (beBytes 4 (id.toNat / 2 ^ 32)) (id.toNat / 2 ^ 32) s :=
    reads_readU32 s (by omega)
  have hlow : Reads readU32 s (beBytes 4 (id.toNat % 2 ^ 32)) (id.toNat % 2 ^ 32) s :=
    reads_readU32 s (by omega)
  have hend : Reads (many (readU32 : Decoder DecodeError (DecodeState H) ℕ) 0) s [] [] s :=
    Reads.pure [] s
  have hone : Reads (many readU32 1) s (beBytes 4 (id.toNat % 2 ^ 32)) [id.toNat % 2 ^ 32] s :=
    hlow.bind_pure (hend.bind_nil (Reads.pure _ s))
  exact hhigh.bind (hone.bind_pure (Reads.pure _ s))

theorem foldl_idWords (id : UInt64) : [id.toNat / 2 ^ 32, id.toNat % 2 ^ 32].foldl
    (fun (joined : UInt64) word => (joined <<< 32) ||| UInt64.ofNat word) 0 = id := by
  rw [List.foldl_cons, List.foldl_cons, List.foldl_nil, UInt64.zero_shiftLeft, UInt64.zero_or]
  exact joinWords id

theorem utf8Valid_nonodeNohost : utf8Valid nonodeNohost = true := by
  have hbytes : nonodeNohost = [110, 111, 110, 111, 100, 101, 64, 110, 111, 104, 111, 115, 116] :=
    rfl
  rw [hbytes]
  decide

theorem answers_reference (hsafe : options.safe = false) (hs : s.atoms.Extends table)
    {id : UInt64} {bytes : List UInt8} (hbytes : encodeReference id = .ok bytes) (left : ℕ) :
    Answers table (decodeOne context options (left + 1)) s bytes
      (if left = 0 then none else context.allocWords s.heap 2) (· = .reference (.local id)) := by
  unfold encodeReference at hbytes
  obtain ⟨name, hname, hbytes⟩ := except_bind_ok_iff.mp hbytes
  obtain rfl := Except.ok.inj hbytes
  have hatom : Answers table (decodeOne context options left) s name
      (if left = 0 then none else some s.heap) (Named table nonodeNohost) :=
    answers_atomName hsafe hs utf8Valid_nonodeNohost hname left
  have hnode := answers_node hatom (fun v hv => ⟨_, hv.choose_spec.1⟩) Tags.newerReferenceExt
  have hheap : (if left = 0 then none else context.allocWords s.heap 2) =
      (if left = 0 then none else some s.heap).bind fun heap => context.allocWords heap 2 := by
    split_ifs <;> rfl
  rw [hheap, List.append_assoc, List.append_assoc, List.append_assoc]
  refine answers_tagged (Answers.read (reads_readU16 s (by norm_num)) (hnode.bind ?_))
  rintro atom s' - hs'
  refine Answers.read (reads_readU32 s' (by norm_num)) (Answers.read_last (reads_idWords s' id) ?_)
  rw [foldl_idWords]
  exact answers_alloc hs' 2 _

end Identities

/-! ## Numbers -/

section Magnitudes

theorem trimmed_eq {bytes : List UInt8} (h : leNat bytes ≠ 0) :
    trimmed bytes = bytes.rdropWhile (· == 0) := by
  have hne : bytes.rdropWhile (· == 0) ≠ [] := by
    intro hnil
    have hvalue := leNat_rdropWhile bytes
    rw [hnil] at hvalue
    exact h hvalue.symm
  have hlen : 1 ≤ (bytes.rdropWhile (· == 0)).length := List.length_pos_iff.mpr hne
  rw [trimmed, max_eq_right hlen]
  exact (List.prefix_iff_eq_take.mp (List.rdropWhile_prefix (· == 0) bytes)).symm

theorem leNat_trimmed {bytes : List UInt8} (h : leNat bytes ≠ 0) :
    leNat (trimmed bytes) = leNat bytes := by
  rw [trimmed_eq h, leNat_rdropWhile]

theorem length_trimmed_le {bytes : List UInt8} (h : leNat bytes ≠ 0) :
    (trimmed bytes).length ≤ bytes.length := by
  rw [trimmed_eq h]
  exact (List.rdropWhile_prefix (· == 0) bytes).length_le

theorem chunks8_append {first rest : List UInt8} (h : first.length = 8) :
    chunks8 (first ++ rest) = first :: chunks8 rest := by
  match first, h with
  | [a, b, c, d, e, f, g, i], _ => rfl

theorem chunks8_short {bytes : List UInt8} (hne : bytes ≠ []) (h : bytes.length ≤ 8) :
    chunks8 bytes = [bytes] := by
  match bytes, hne, h with
  | [_], _, _ | [_, _], _, _ | [_, _, _], _, _ | [_, _, _, _], _, _ | [_, _, _, _, _], _, _
  | [_, _, _, _, _, _], _, _ | [_, _, _, _, _, _, _], _, _ | [_, _, _, _, _, _, _, _], _, _ => rfl

/-- Dropping zeros at the end stops before anything that is not zero. -/
theorem rdropWhile_append {xs ys : List UInt8} (h : ys.rdropWhile (· == 0) ≠ []) :
    (xs ++ ys).rdropWhile (· == 0) = xs ++ ys.rdropWhile (· == 0) := by
  have hne : (ys.reverse.dropWhile (· == 0)).isEmpty = false := by
    rw [List.isEmpty_eq_false_iff]
    intro hnil
    exact h (by rw [List.rdropWhile, hnil]; rfl)
  rw [List.rdropWhile, List.rdropWhile, List.reverse_append, List.dropWhile_append, hne]
  simp

def limbBytes (limbs : List UInt64) : List UInt8 := limbs.flatMap fun limb => leBytes 8 limb.toNat

theorem leNat_limbBytes (limbs : List UInt64) :
    leNat (limbBytes limbs) = limbsNat (limbs.map UInt64.toNat) := by
  rw [← leNat_flatMap_leBytes, limbBytes, List.flatMap_map]
  intro l hl
  obtain ⟨limb, -, rfl⟩ := List.mem_map.mp hl
  exact limb.toNat_lt

theorem leNat_limb (limb : UInt64) : leNat (leBytes 8 limb.toNat) = limb.toNat :=
  leNat_leBytes_of_lt (by have := limb.toNat_lt; norm_num at this ⊢; exact this)

/-- Limbs without a zero at the end are found again in their bytes without zeros at the end. -/
theorem limbs_of_trimmed {limbs : List UInt64} (hne : limbs ≠ [])
    (hlast : limbs.getLast hne ≠ 0) :
    (limbBytes limbs).rdropWhile (· == 0) ≠ [] ∧
      (chunks8 ((limbBytes limbs).rdropWhile (· == 0))).map leNat = limbs.map UInt64.toNat := by
  induction limbs with
  | nil => contradiction
  | cons limb rest ih =>
    by_cases hrest : rest = []
    · subst hrest
      have hlimb : limbBytes [limb] = leBytes 8 limb.toNat := by simp [limbBytes]
      have hvalue : leNat ((leBytes 8 limb.toNat).rdropWhile (· == 0)) = limb.toNat := by
        rw [leNat_rdropWhile, leNat_limb]
      have hsome : (leBytes 8 limb.toNat).rdropWhile (· == 0) ≠ [] := by
        intro hnil
        rw [hnil] at hvalue
        exact hlast (UInt64.toNat_inj.mp hvalue.symm)
      have hlen : ((leBytes 8 limb.toNat).rdropWhile (· == 0)).length ≤ 8 := by
        have := (List.rdropWhile_prefix (· == 0) (leBytes 8 limb.toNat)).length_le
        rwa [leBytes_length] at this
      rw [hlimb, chunks8_short hsome hlen, List.map_singleton, hvalue]
      exact ⟨hsome, rfl⟩
    · obtain ⟨hsome, hchunks⟩ := ih hrest (by rwa [List.getLast_cons hrest] at hlast)
      have hcons : limbBytes (limb :: rest) = leBytes 8 limb.toNat ++ limbBytes rest := by
        simp [limbBytes]
      rw [hcons, rdropWhile_append hsome, chunks8_append (leBytes_length 8 _), List.map_cons,
        hchunks, leNat_limb]
      exact ⟨by simp [hsome], rfl⟩

/-- So many bytes make so many limbs. -/
theorem length_chunks8 (bytes : List UInt8) : (chunks8 bytes).length = (bytes.length + 7) / 8 := by
  induction bytes using chunks8.induct with
  | case1 a b c d e f g h rest ih =>
    rw [chunks8, List.length_cons, ih]
    simp only [List.length_cons]
    omega
  | case2 => rfl
  | case3 short h1 h2 =>
    have hshort : short.length ≤ 8 := (length_lt_of_not_chunk h1).le
    have hpos : 0 < short.length := List.length_pos_iff.mpr fun h => h2 (by rw [h])
    rw [chunks8_short (List.length_pos_iff.mp hpos) hshort, List.length_singleton]
    omega

end Magnitudes

/-- The integer of a bignum. -/
def signedValue (negative : Bool) (limbs : List UInt64) : ℤ :=
  if negative then -(limbsNat (limbs.map UInt64.toNat) : ℤ) else limbsNat (limbs.map UInt64.toNat)

section Numbers

variable {H : Type} {context : DecodeContext H} {options : DecodeOptions} {table : AtomTable}
  {s : DecodeState H} {left : ℕ}

theorem trySmallInt_value (n : SmallInt) : trySmallInt n.value = some n :=
  dif_pos ⟨n.min_le, n.lt_max⟩

theorem reads_sign (s : DecodeState H) (negative : Bool) :
    Reads decodeSign s [if negative then 1 else 0] negative s := by
  cases negative with
  | false => exact (reads_readU8 s 0).bind_pure (Reads.pure false s)
  | true => exact (reads_readU8 s 1).bind_pure (Reads.pure true s)

/-- The magnitude of a bignum behind its length, in either width. -/
theorem answers_bigBytes {negative : Bool} {bytes out : List UInt8} {heap : Option H}
    {good : Value → Prop} (hout : encodeBigBytes negative bytes = .ok out)
    (h : Answers table (decodeBigInteger context (trimmed bytes).length) s
      ((if negative then 1 else 0) :: trimmed bytes) heap good) :
    Answers table (decodeOne context options (left + 1)) s out heap good := by
  unfold encodeBigBytes at hout
  dsimp only at hout
  by_cases hlen : (trimmed bytes).length < 256
  · rw [if_pos hlen] at hout
    obtain rfl := Except.ok.inj hout
    refine answers_tagged (Answers.read (reads_readU8 s _) ?_)
    rw [toNat_byte hlen]
    exact h
  · rw [if_neg hlen] at hout
    obtain ⟨n, hn, hout⟩ := except_bind_ok_iff.mp hout
    obtain ⟨rfl, hlt⟩ := u32Of_ok hn
    obtain rfl := Except.ok.inj hout
    exact answers_tagged (Answers.read (reads_readU32 s hlt) h)

theorem answers_integer (hs : s.atoms.Extends table) {n : SmallInt} {bytes : List UInt8}
    (hbytes : encodeInteger n.value = .ok bytes) :
    Answers table (decodeOne context options (left + 1)) s bytes (some s.heap)
      (· = .number (.smallInt n)) := by
  have hmin := n.min_le
  have hmax := n.lt_max
  unfold encodeInteger at hbytes
  split_ifs at hbytes with hbyte hword
  · obtain rfl := Except.ok.inj hbytes
    refine answers_tagged (Answers.read_last (reads_readU8 s _) (Answers.pure ?_ hs))
    have hvalue : ((UInt8.ofNat n.value.toNat).toNat : ℤ) = n.value := by
      rw [toNat_byte (by omega)]
      omega
    simp only [smallInt, hvalue]
  · obtain rfl := Except.ok.inj hbytes
    refine answers_tagged (Answers.read_last (reads_readI32 s hword) ?_)
    rw [decodeSmallInteger, trySmallInt_value]
    exact Answers.pure rfl hs
  · refine answers_bigBytes hbytes ?_
    have hmag : leNat (leBytes 8 n.value.natAbs) = n.value.natAbs :=
      leNat_leBytes_of_lt (by norm_num; omega)
    have hpos : leNat (leBytes 8 n.value.natAbs) ≠ 0 := by
      rw [hmag]
      omega
    have hlen : (trimmed (leBytes 8 n.value.natAbs)).length ≤ 8 := by
      have := length_trimmed_le hpos
      rwa [leBytes_length] at this
    have hread := reads_readBytes s (Eq.refl (trimmed (leBytes 8 n.value.natAbs)).length)
    refine Answers.read (reads_sign s _) (Answers.read_last hread ?_)
    rw [if_pos hlen, leNat_trimmed hpos, hmag]
    have hsigned : (if decide (n.value < 0) = true then -(n.value.natAbs : ℤ) else n.value.natAbs) =
        n.value := by
      split_ifs with hneg
      · have := of_decide_eq_true hneg
        omega
      · have := of_decide_eq_false (Bool.eq_false_iff.mpr hneg)
        omega
    dsimp only
    rw [if_pos (by omega), hsigned, trySmallInt_value]
    exact Answers.pure rfl hs

/-- Up to eight bytes make one limb, whichever branch they take. -/
theorem answers_oneLimb (hs : s.atoms.Extends table) {negative : Bool} {limb : UInt64}
    {magnitude : List UInt8} (hlen : magnitude.length ≤ 8) (hmag : leNat magnitude = limb.toNat)
    (hpos : limb.toNat ≠ 0) (hbig : trySmallInt (signedValue negative [limb]) = none) :
    Answers table (decodeBigInteger context magnitude.length) s
      ((if negative then 1 else 0) :: magnitude) (context.allocWords s.heap 4)
      (· = .number (.bigInt negative [limb])) := by
  have halloc : Answers table (allocBigint context negative [limb]) s []
      (context.allocWords s.heap 4) (· = .number (.bigInt negative [limb])) :=
    answers_alloc hs 4 _
  have hsigned : signedValue negative [limb] =
      if negative = true then -(limb.toNat : ℤ) else limb.toNat := by
    simp [signedValue, limbsNat]
  refine Answers.read (reads_sign s _) (Answers.read_last (reads_readBytes s rfl) ?_)
  rw [if_pos hlen, hmag]
  dsimp only
  by_cases hsmall : limb.toNat < 2 ^ 63
  · have hsign : decide (signedValue negative [limb] < 0) = negative := by
      rw [hsigned]
      cases negative with
      | false => simp
      | true => simp; omega
    have habs : (signedValue negative [limb]).natAbs = limb.toNat := by
      rw [hsigned]
      cases negative <;> simp
    rw [if_pos hsmall, ← hsigned, hbig]
    dsimp only
    rw [hsign, habs, UInt64.ofNat_toNat]
    exact halloc
  · rw [if_neg hsmall]
    by_cases hmin : negative = true ∧ limb.toNat = 2 ^ 63
    · rw [if_pos hmin, ← hmin.2, UInt64.ofNat_toNat, ← hmin.1]
      exact halloc
    · rw [if_neg hmin, UInt64.ofNat_toNat]
      exact halloc

theorem answers_bigint (hs : s.atoms.Extends table) {negative : Bool} {limbs : List UInt64}
    {bytes : List UInt8} (hlast : limbs.getLast? ≠ some 0)
    (hbig : trySmallInt (signedValue negative limbs) = none)
    (hbytes : encodeBigint negative limbs = .ok bytes) :
    Answers table (decodeOne context options (left + 1)) s bytes
      ((ownRequests (.number (.bigInt negative limbs))).foldlM context.grant s.heap)
      (· = .number (.bigInt negative limbs)) := by
  have hvalue : limbsNat (limbs.map UInt64.toNat) ≠ 0 := by
    intro hzero
    rw [signedValue, hzero] at hbig
    cases negative <;> simp [trySmallInt] at hbig
  have hne : limbs ≠ [] := by
    rintro rfl
    exact hvalue rfl
  have hpos : leNat (limbBytes limbs) ≠ 0 := by rwa [leNat_limbBytes]
  have hchunks : (chunks8 (trimmed (limbBytes limbs))).map leNat = limbs.map UInt64.toNat := by
    rw [trimmed_eq hpos]
    refine (limbs_of_trimmed hne fun hzero => hlast ?_).2
    rw [List.getLast?_eq_some_getLast hne, hzero]
  have hcount : ((trimmed (limbBytes limbs)).length + 7) / 8 = limbs.length := by
    rw [← length_chunks8, ← List.length_map leNat, hchunks, List.length_map]
  replace hbytes : encodeBigBytes negative (limbBytes limbs) = .ok bytes := hbytes
  refine answers_bigBytes hbytes ?_
  by_cases hone : limbs.length ≤ 1
  · obtain ⟨limb, rfl⟩ : ∃ limb, limbs = [limb] := by
      rw [← List.length_eq_one_iff]
      have := List.length_pos_iff.mpr hne
      omega
    have hlimb : limbsNat ([limb].map UInt64.toNat) = limb.toNat := by simp [limbsNat]
    have hgrant : (ownRequests (.number (.bigInt negative [limb]))).foldlM context.grant s.heap =
        context.allocWords s.heap 4 := by
      simp [ownRequests, grant_unchecked]
    rw [hgrant]
    refine answers_oneLimb hs ?_ ?_ (hlimb ▸ hvalue) hbig
    · rw [List.length_singleton] at hcount
      omega
    · rw [leNat_trimmed hpos, leNat_limbBytes, hlimb]
  · have hlimbs : limbsOf (trimmed (limbBytes limbs)) = limbs := by
      have hofNat : limbsOf (trimmed (limbBytes limbs)) =
          ((chunks8 (trimmed (limbBytes limbs))).map leNat).map UInt64.ofNat := by
        rw [List.map_map]
        rfl
      have hround : UInt64.ofNat ∘ UInt64.toNat = id := funext fun limb => UInt64.ofNat_toNat
      rw [hofNat, hchunks, List.map_map, hround, List.map_id]
    have hgrant : (ownRequests (.number (.bigInt negative limbs))).foldlM context.grant s.heap =
        (some s.heap).bind fun heap =>
          context.grant heap ⟨limbs.length + 3, 3 + limbs.length⟩ := by
      simp [ownRequests, hone]
    have hread := reads_readBytes s (Eq.refl (trimmed (limbBytes limbs)).length)
    refine Answers.read (reads_sign s _) (Answers.read_last hread ?_)
    rw [if_neg (by omega), hcount, hlimbs, hgrant]
    exact answers_ensure (answers_alloc hs _ _)

theorem f64FromBits_toBits (x : Float64) : f64FromBits x.toBits = x := by
  obtain ⟨negative, magnitude, hlt⟩ := x
  cases negative with
  | false =>
    have hbits : Float64.toBits ⟨false, magnitude, hlt⟩ = magnitude := by simp [Float64.toBits]
    simp [f64FromBits, hbits]
    omega
  | true =>
    have hbits : Float64.toBits ⟨true, magnitude, hlt⟩ = 2 ^ 63 + magnitude := by
      simp [Float64.toBits]
    simp [f64FromBits, hbits]
    omega

theorem answers_float (hs : s.atoms.Extends table) (x : Float64) :
    Answers table (decodeOne context options (left + 1)) s (encodeFloat x)
      (context.allocWords s.heap 2) (· = .number (.float x)) := by
  refine answers_tagged (Answers.read_last (reads_readBytes s (beBytes_length 8 _)) ?_)
  have hbits : beNat (beBytes 8 x.toBits) = x.toBits := by
    refine beNat_beBytes_of_lt ?_
    have := x.lt
    rw [Float64.toBits]
    norm_num
    split_ifs <;> omega
  rw [hbits, f64FromBits_toBits]
  exact answers_alloc hs 2 _

end Numbers

/-! ## Terms -/

/-- The decoded term is the encoded one with its binaries stored anew. -/
def SameTerm (v v' : Value) : Prop := Ets.inlined v' = Ets.inlined v

section Terms

variable {H : Type} {context : DecodeContext H} {options : DecodeOptions} {table : AtomTable}
  {s : DecodeState H} {left : ℕ}

/-- `d` answers for every term the encoder takes with so much left. -/
def DecodesAll (context : DecodeContext H) (options : DecodeOptions) (table : AtomTable)
    (left : ℕ) (v : Value) : Prop :=
  ∀ (s : DecodeState H) (bytes : List UInt8), s.atoms.Extends table →
    encodeTermInner table left v = .ok bytes →
    Answers table (decodeOne context options left) s bytes (heapAfter context left s.heap v)
      (SameTerm v)

/-- Terms one after the other. -/
theorem answers_many {vs : List Value} {body : List (List UInt8)}
    (hvs : ∀ v ∈ vs, DecodesAll context options table left v) (hs : s.atoms.Extends table)
    (hbody : vs.mapM (encodeTermInner table left) = .ok body) :
    Answers table (many (decodeOne context options left) vs.length) s body.flatten
      (vs.foldlM (heapAfter context left) s.heap)
      (fun vs' => vs'.map Ets.inlined = vs.map Ets.inlined) := by
  induction vs generalizing s body with
  | nil =>
    obtain rfl := Except.ok.inj hbody
    exact Answers.pure rfl hs
  | cons v vs ih =>
    rw [List.mapM_cons] at hbody
    obtain ⟨first, hfirst, hbody⟩ := except_bind_ok_iff.mp hbody
    obtain ⟨rest, hrest, hbody⟩ := except_bind_ok_iff.mp hbody
    obtain rfl := Except.ok.inj hbody
    rw [List.foldlM_cons, List.flatten_cons, List.length_cons]
    refine (hvs v (List.mem_cons_self ..) s first hs hfirst).bind ?_
    intro v' s' hv' hs'
    rw [← Option.bind_fun_some (List.foldlM _ s'.heap vs)]
    refine (ih (fun x hx => hvs x (List.mem_cons_of_mem _ hx)) hs' hrest).bind_last ?_
    intro vs' s'' hvs' hs''
    refine Answers.pure ?_ hs''
    rw [List.map_cons, List.map_cons, hvs', hv']

theorem answers_entry {k v : Value} {first second : List UInt8}
    (hk : DecodesAll context options table left k) (hv : DecodesAll context options table left v)
    (hs : s.atoms.Extends table) (hfirst : encodeTermInner table left k = .ok first)
    (hsecond : encodeTermInner table left v = .ok second) :
    Answers table (decodeEntry (decodeOne context options left)) s (first ++ second)
      ((heapAfter context left s.heap k).bind fun heap => heapAfter context left heap v)
      (fun e => Ets.inlinedEntry e = Ets.inlinedEntry (k, v)) := by
  refine (hk s first hs hfirst).bind ?_
  intro k' s' hk' hs'
  rw [← Option.bind_fun_some (heapAfter context left s'.heap v)]
  refine (hv s' second hs' hsecond).bind_last ?_
  intro v' s'' hv' hs''
  refine Answers.pure ?_ hs''
  rw [Ets.inlinedEntry, Ets.inlinedEntry, hk', hv']

/-- Keys and values one after the other. -/
theorem answers_entries {es : List (Value × Value)} {body : List (List UInt8)}
    (hes : ∀ v ∈ es.flatMap fun e => [e.1, e.2], DecodesAll context options table left v)
    (hs : s.atoms.Extends table)
    (hbody : (es.flatMap fun e => [e.1, e.2]).mapM (encodeTermInner table left) = .ok body) :
    Answers table (many (decodeEntry (decodeOne context options left)) es.length) s body.flatten
      ((es.flatMap fun e => [e.1, e.2]).foldlM (heapAfter context left) s.heap)
      (fun es' => Ets.inlinedEntries es' = Ets.inlinedEntries es) := by
  induction es generalizing s body with
  | nil =>
    obtain rfl := Except.ok.inj hbody
    exact Answers.pure rfl hs
  | cons e es ih =>
    obtain ⟨k, v⟩ := e
    rw [List.flatMap_cons, List.cons_append, List.cons_append, List.nil_append] at hbody ⊢
    rw [List.mapM_cons, List.mapM_cons] at hbody
    obtain ⟨first, hfirst, hbody⟩ := except_bind_ok_iff.mp hbody
    obtain ⟨others, hothers, hbody⟩ := except_bind_ok_iff.mp hbody
    obtain ⟨second, hsecond, hothers⟩ := except_bind_ok_iff.mp hothers
    obtain ⟨rest, hrest, hothers⟩ := except_bind_ok_iff.mp hothers
    obtain rfl := Except.ok.inj hothers
    obtain rfl := Except.ok.inj hbody
    have hentry := answers_entry (hes k (by simp)) (hes v (by simp)) hs hfirst hsecond
    have hfold : (k :: v :: es.flatMap fun e => [e.1, e.2]).foldlM (heapAfter context left) s.heap =
        ((heapAfter context left s.heap k).bind fun heap => heapAfter context left heap v).bind
          fun heap => (es.flatMap fun e => [e.1, e.2]).foldlM (heapAfter context left) heap := by
      rw [List.foldlM_cons, Option.bind_assoc]
      rfl
    rw [hfold, List.flatten_cons, List.flatten_cons, ← List.append_assoc, List.length_cons]
    refine hentry.bind ?_
    intro e' s' he' hs'
    rw [← Option.bind_fun_some (List.foldlM _ s'.heap _)]
    refine (ih (fun x hx => hes x (by simp [hx])) hs' hrest).bind_last ?_
    intro es' s'' hes' hs''
    refine Answers.pure ?_ hs''
    rw [Ets.inlinedEntries, Ets.inlinedEntries, he', hes']

/-- Nothing is encoded with nothing left. -/
theorem nil_of_mapM_zero {vs : List Value} {body : List (List UInt8)}
    (h : vs.mapM (encodeTermInner table left) = .ok body) (hleft : left = 0) : vs = [] := by
  subst hleft
  cases vs with
  | nil => rfl
  | cons v vs =>
    rw [List.mapM_cons] at h
    obtain ⟨first, hfirst, -⟩ := except_bind_ok_iff.mp h
    cases hfirst

theorem sameTerm_tuple {vs vs' : List Value} (h : vs'.map Ets.inlined = vs.map Ets.inlined) :
    SameTerm (.tuple vs) (.tuple vs') := by
  rw [SameTerm, Ets.inlined, Ets.inlined, Ets.inlinedList_eq, Ets.inlinedList_eq, h]

theorem decodesAll_tuple {vs : List Value} (hvs : ∀ v ∈ vs, DecodesAll context options table left v) :
    DecodesAll context options table (left + 1) (.tuple vs) := by
  intro s bytes hs hbytes
  rw [encodeTermInner] at hbytes
  obtain ⟨header, hheader, hbytes⟩ := except_bind_ok_iff.mp hbytes
  obtain ⟨body, hbody, hbytes⟩ := except_bind_ok_iff.mp hbytes
  obtain rfl := Except.ok.inj hbytes
  rw [heapAfter_nested context s.heap rfl rfl (nil_of_mapM_zero hbody)]
  have htuple : Answers table (decodeTuple context (decodeOne context options left) vs.length) s
      body.flatten ((vs.foldlM (heapAfter context left) s.heap).bind fun heap =>
        context.grant heap ⟨vs.length + 1, 1 + vs.length⟩) (SameTerm (.tuple vs)) := by
    refine answers_ensure ((answers_many hvs hs hbody).bind_last ?_)
    intro vs' s' hvs' hs'
    have hlength : vs'.length = vs.length := by simpa using congrArg List.length hvs'
    rw [hlength]
    refine (answers_alloc hs' _ _).imp ?_
    rintro v rfl
    exact sameTerm_tuple hvs'
  unfold tupleHeader at hheader
  split_ifs at hheader with hlen
  · obtain rfl := Except.ok.inj hheader
    refine answers_tagged (Answers.read (reads_readU8 s _) ?_)
    rw [toNat_byte hlen]
    exact htuple
  · obtain ⟨n, hn, hheader⟩ := except_bind_ok_iff.mp hheader
    obtain ⟨rfl, hlt⟩ := u32Of_ok hn
    obtain rfl := Except.ok.inj hheader
    exact answers_tagged (Answers.read (reads_readU32 s hlt) htuple)

theorem decodesAll_map {es : List (Value × Value)}
    (hes : ∀ v ∈ es.flatMap fun e => [e.1, e.2], DecodesAll context options table left v) :
    DecodesAll context options table (left + 1) (.map es) := by
  intro s bytes hs hbytes
  rw [encodeTermInner] at hbytes
  obtain ⟨header, hheader, hbytes⟩ := except_bind_ok_iff.mp hbytes
  obtain ⟨body, hbody, hbytes⟩ := except_bind_ok_iff.mp hbytes
  obtain ⟨n, hn, hheader⟩ := except_bind_ok_iff.mp hheader
  obtain ⟨rfl, hlt⟩ := u32Of_ok hn
  obtain rfl := Except.ok.inj hheader
  obtain rfl := Except.ok.inj hbytes
  rw [heapAfter_nested context s.heap rfl rfl (nil_of_mapM_zero hbody)]
  refine answers_tagged (Answers.read (reads_readU32 s hlt) (answers_ensure
    ((answers_entries hes hs hbody).bind_last ?_)))
  intro es' s' hes' hs'
  have hlength : es'.length = es.length := by
    rw [Ets.inlinedEntries_eq, Ets.inlinedEntries_eq] at hes'
    simpa using congrArg List.length hes'
  rw [hlength]
  refine (answers_alloc hs' _ _).imp ?_
  rintro v rfl
  rw [SameTerm, Ets.inlined, Ets.inlined, hes']

theorem inlined_listWithTail (vs : List Value) (last : Value) :
    Ets.inlined (listWithTail vs last) = listWithTail (vs.map Ets.inlined) (Ets.inlined last) := by
  induction vs with
  | nil => rfl
  | cons v vs ih =>
    simp only [listWithTail, List.foldr_cons, List.map_cons, Ets.inlined] at ih ⊢
    rw [ih]

theorem listWithTail_collectList (v : Value) :
    listWithTail (collectList v).1 (collectList v).2 = v := by
  induction v using collectList.induct with
  | case1 head tail ih =>
    rw [collectList]
    exact congrArg (Value.cons head) ih
  | case2 v hv =>
    rw [collectList]
    · rfl
    · exact hv

theorem decodesAll_list {head tail : Value}
    (hvs : ∀ v ∈ nested (.cons head tail), DecodesAll context options table left v)
    (hstring : stringBytes (collectList (.cons head tail)).1 (collectList (.cons head tail)).2 =
      none) :
    DecodesAll context options table (left + 1) (.cons head tail) := by
  intro s bytes hs hbytes
  have hcells := listWithTail_collectList (.cons head tail)
  rw [encodeTermInner] at hbytes
  dsimp only at hbytes
  rw [hstring] at hbytes
  dsimp only at hbytes
  obtain ⟨header, hheader, hbytes⟩ := except_bind_ok_iff.mp hbytes
  obtain ⟨body, hbody, hbytes⟩ := except_bind_ok_iff.mp hbytes
  obtain ⟨n, hn, hheader⟩ := except_bind_ok_iff.mp hheader
  obtain ⟨rfl, hlt⟩ := u32Of_ok hn
  obtain rfl := Except.ok.inj hheader
  obtain rfl := Except.ok.inj hbytes
  rw [heapAfter_nested context s.heap rfl rfl (nil_of_mapM_zero hbody)]
  rw [nested] at hvs ⊢
  generalize collectList (.cons head tail) = cells at hcells hlt hbody hvs ⊢
  obtain ⟨heads, last⟩ := cells
  dsimp only at hcells hlt hbody hvs ⊢
  obtain ⟨first, final, hfirst, hfinal, rfl⟩ := except_mapM_concat_ok_iff.mp hbody
  have hfold : (heads ++ [last]).foldlM (heapAfter context left) s.heap =
      (heads.foldlM (heapAfter context left) s.heap).bind fun heap =>
        heapAfter context left heap last := by
    rw [List.foldlM_append]
    simp only [List.foldlM_cons, List.foldlM_nil, bind_pure]
    rfl
  have hbytes : (first ++ [final]).flatten = first.flatten ++ final := by simp
  rw [hfold, hbytes]
  refine answers_tagged (Answers.read (reads_readU32 s hlt) (answers_ensure ?_))
  rw [Option.bind_assoc]
  refine (answers_many (fun v hv => hvs v (List.mem_append_left _ hv)) hs hfirst).bind ?_
  intro heads' s' hheads hs'
  refine (hvs last (by simp) s' final hs' hfinal).bind_last ?_
  intro last' s'' hlast hs''
  have hlength : heads'.length = heads.length := by simpa using congrArg List.length hheads
  rw [hlength]
  refine (answers_alloc hs'' _ _).imp ?_
  rintro v rfl
  rw [SameTerm, ← hcells, inlined_listWithTail, inlined_listWithTail, hheads, hlast]

theorem asByte_eq_some {v : Value} {b : UInt8} (h : asByte v = some b) : v = smallInt b := by
  unfold asByte at h
  split at h
  next n =>
    split_ifs at h with hbyte
    obtain rfl := Option.some.inj h
    have hvalue : ((UInt8.ofNat n.value.toNat).toNat : ℤ) = n.value := by
      rw [toNat_byte (by omega)]
      omega
    simp only [smallInt, hvalue]
  next => cases h

theorem mapM_asByte {vs : List Value} {bytes : List UInt8} (h : vs.mapM asByte = some bytes) :
    vs = bytes.map smallInt := by
  induction vs generalizing bytes with
  | nil =>
    cases h
    rfl
  | cons v vs ih =>
    rw [List.mapM_cons] at h
    obtain ⟨b, hb, h⟩ := Option.bind_eq_some_iff.mp h
    obtain ⟨rest, hrest, h⟩ := Option.bind_eq_some_iff.mp h
    cases h
    rw [List.map_cons, ← asByte_eq_some hb, ← ih hrest]

/-- The bytes of a string need nothing of their own, at any level. -/
theorem identityAt_smallInt (level : ℕ) (b : UInt8) : identityAt level (smallInt b) = false := by
  cases level <;> rfl

theorem requests_smallInt (left : ℕ) (b : UInt8) : requests left (smallInt b) = [] := by
  cases left <;> rfl

theorem heapAfter_string {head tail : Value} {bytes : List UInt8}
    (h : collectList (.cons head tail) = (bytes.map smallInt, .nil)) (heap : H) :
    heapAfter context (left + 1) heap (.cons head tail) =
      context.grant heap ⟨bytes.length * 2, bytes.length * 2⟩ := by
  have hnested : nested (.cons head tail) = bytes.map smallInt ++ [.nil] := by rw [nested, h]
  have hidentity : identityAt left (.cons head tail) = false := by
    cases left with
    | zero => rfl
    | succ left =>
      have hnil : identityAt left .nil = false := by cases left <;> rfl
      rw [identityAt, hnested, List.any_append, List.any_map]
      simp [Function.comp_def, identityAt_smallInt, hnil]
  have hrequests : requests (left + 1) (.cons head tail) =
      [⟨bytes.length * 2, bytes.length * 2⟩] := by
    have hnil : requests left .nil = [] := by cases left <;> rfl
    rw [requests, hnested, ownRequests, h, List.flatMap_append, List.flatMap_map]
    simp [requests_smallInt, hnil]
  rw [heapAfter, hidentity, hrequests]
  cases hgrant : context.grant heap ⟨bytes.length * 2, bytes.length * 2⟩ <;> simp [hgrant]

theorem decodesAll_string {head tail : Value} {string : List UInt8}
    (hstring : stringBytes (collectList (.cons head tail)).1 (collectList (.cons head tail)).2 =
      some string) :
    DecodesAll context options table (left + 1) (.cons head tail) := by
  intro s bytes hs hbytes
  have hcells := listWithTail_collectList (.cons head tail)
  rw [encodeTermInner] at hbytes
  dsimp only at hbytes
  rw [hstring] at hbytes
  obtain rfl := Except.ok.inj hbytes
  have hcollect : collectList (.cons head tail) = (string.map smallInt, .nil) ∧
      string.length < 2 ^ 16 := by
    generalize collectList (.cons head tail) = cells at hstring ⊢
    obtain ⟨heads, last⟩ := cells
    unfold stringBytes at hstring
    dsimp only at hstring
    split at hstring
    next =>
      split_ifs at hstring with hlen
      obtain rfl := mapM_asByte hstring
      rw [List.length_map] at hlen
      exact ⟨rfl, by omega⟩
    next => cases hstring
  rw [heapAfter_string hcollect.1]
  rw [hcollect.1] at hcells
  refine answers_tagged (Answers.read (reads_readU16 s hcollect.2) ?_)
  have hheap : context.grant s.heap ⟨string.length * 2, string.length * 2⟩ =
      (some s.heap).bind fun heap => context.grant heap ⟨string.length * 2, string.length * 2⟩ := rfl
  rw [hheap]
  refine answers_ensure (Answers.read_last (reads_readBytes s rfl) ?_)
  refine (answers_alloc hs _ _).imp ?_
  rintro v rfl
  rw [SameTerm, hcells]

theorem asBytes_storedBinary (bytes : List UInt8) : (storedBinary bytes).asBytes = bytes := by
  unfold storedBinary
  split_ifs <;> rfl

theorem decodesAll_binary (b : BinaryRef) :
    DecodesAll context options table (left + 1) (.binary b) := by
  intro s bytes hs hbytes
  rw [encodeTermInner] at hbytes
  obtain ⟨n, hn, hbytes⟩ := except_bind_ok_iff.mp hbytes
  obtain ⟨rfl, hlt⟩ := u32Of_ok hn
  obtain rfl := Except.ok.inj hbytes
  rw [heapAfter_nested context s.heap rfl rfl fun _ => rfl]
  refine answers_tagged (Answers.read (reads_readU32 s hlt) (answers_ensure
    (Answers.read_last (reads_readBytes s rfl) ?_)))
  refine (answers_alloc hs _ _).imp ?_
  rintro v rfl
  rw [SameTerm, Ets.inlined, Ets.inlined, asBytes_storedBinary]

end Terms

/-! ## The round trip -/

/-- A term's own part in what leaves the node as it is: no closure, no pid of this node only, and
bignums in their shortest form. -/
def PortableHere : Value → Prop
  | .closure _ _ => False
  | .pid (.local _) => False
  | .number (.bigInt negative limbs) =>
    limbs.getLast? ≠ some 0 ∧ trySmallInt (signedValue negative limbs) = none
  | _ => True

def Portable (v : Value) : Prop := v.All PortableHere

theorem Portable.collectList {v : Value} (h : Portable v) :
    (∀ x ∈ (collectList v).1, Portable x) ∧ Portable (collectList v).2 := by
  induction v using collectList.induct with
  | case1 head tail ih =>
    obtain ⟨hheads, hlast⟩ := ih (h.child (by simp [Value.children]))
    rw [Etf.collectList]
    refine ⟨?_, hlast⟩
    intro x hx
    rcases List.mem_cons.mp hx with rfl | hx
    · exact h.child (by simp [Value.children])
    · exact hheads x hx
  | case2 v hv =>
    rw [Etf.collectList]
    · exact ⟨by simp, h⟩
    · exact hv

theorem Portable.nested {v : Value} (h : Portable v) : ∀ x ∈ nested v, Portable x := by
  intro x hx
  cases v with
  | tuple elements => exact h.child hx
  | map entries => exact h.child hx
  | cons head tail =>
    obtain ⟨hheads, hlast⟩ := h.collectList
    rcases List.mem_append.mp hx with hx | hx
    · exact hheads x hx
    · rw [List.mem_singleton.mp hx]
      exact hlast
  | _ => cases hx

section RoundTrip

variable {H : Type} {context : DecodeContext H} {options : DecodeOptions} {table : AtomTable}
  {s : DecodeState H}

/-- A pid or a reference is accepted with a level to spare. -/
theorem heapAfter_identity {left words : ℕ} {v : Value} (heap : H) (hleaf : nested v = [])
    (hown : ownRequests v = [⟨0, words⟩]) (hv : isIdentity v = true) :
    heapAfter context (left + 1) heap v =
      if left = 0 then none else context.allocWords heap words := by
  cases left with
  | zero => rw [heapAfter, identityAt, hv]; rfl
  | succ left =>
    rw [heapAfter, identityAt, requests, hleaf, hown]
    simp [grant_unchecked]

theorem Answers.sameTerm {d : Decoder DecodeError (DecodeState H) Value} {bytes : List UInt8}
    {heap : Option H} {v : Value} (h : Answers table d s bytes heap (· = v)) :
    Answers table d s bytes heap (SameTerm v) := by
  refine h.imp ?_
  rintro v rfl
  rfl

theorem decodesAll (hsafe : options.safe = false) (left : ℕ) {v : Value} (hv : Portable v) :
    DecodesAll context options table left v := by
  induction left generalizing v with
  | zero =>
    intro s bytes hs hbytes
    cases hbytes
  | succ left ih =>
    have hnested : ∀ x ∈ nested v, DecodesAll context options table left x := fun x hx =>
      ih (hv.nested x hx)
    cases v with
    | number n =>
      intro s bytes hs hbytes
      rw [heapAfter_leaf context s.heap rfl rfl]
      cases n with
      | smallInt n => exact (answers_integer hs hbytes).sameTerm
      | float x =>
        obtain rfl := Except.ok.inj hbytes
        have hgrant : (ownRequests (.number (.float x))).foldlM context.grant s.heap =
            context.allocWords s.heap 2 := by
          simp [ownRequests, grant_unchecked]
        rw [hgrant]
        exact (answers_float hs x).sameTerm
      | bigInt negative limbs =>
        exact (answers_bigint hs hv.here.1 hv.here.2 hbytes).sameTerm
    | atom a =>
      intro s bytes hs hbytes
      rw [heapAfter_leaf context s.heap rfl rfl]
      exact (answers_atom hsafe hs hbytes (left + 1)).sameTerm
    | reference r =>
      intro s bytes hs hbytes
      cases r with
      | «local» id =>
        rw [heapAfter_identity s.heap rfl rfl rfl]
        exact (answers_reference hsafe hs hbytes left).sameTerm
      | remote node id => cases hbytes
    | closure c free => exact absurd hv.here id
    | pid p =>
      intro s bytes hs hbytes
      cases p with
      | «local» number => exact absurd hv.here id
      | remote node number serial =>
        rw [heapAfter_identity s.heap rfl rfl rfl]
        exact (answers_externalPid hsafe hs hbytes left).sameTerm
    | tuple elements => exact decodesAll_tuple hnested
    | map entries => exact decodesAll_map hnested
    | nil =>
      intro s bytes hs hbytes
      obtain rfl := Except.ok.inj hbytes
      rw [heapAfter_leaf context s.heap rfl rfl]
      have hnil : Answers table (Pure.pure Value.nil) s [] (some s.heap) (· = .nil) :=
        Answers.pure rfl hs
      exact (answers_tagged hnil).sameTerm
    | cons head tail =>
      cases hstring : stringBytes (collectList (.cons head tail)).1
          (collectList (.cons head tail)).2 with
      | none => exact decodesAll_list hnested hstring
      | some string => exact decodesAll_string hstring
    | binary b => exact decodesAll_binary b
    | other raw =>
      intro s bytes hs hbytes
      cases hbytes

/-- The bytes start with a tag, which is not that of a compressed term. -/
def StartsPlain (bytes : List UInt8) : Prop :=
  ∃ tag rest, bytes = tag :: rest ∧ tag ≠ Tags.compressedExt

theorem startsPlain_ok {tag : UInt8} {rest bytes : List UInt8}
    (h : (Except.ok (tag :: rest) : Except EncodeError _) = .ok bytes)
    (htag : tag ≠ Tags.compressedExt) : StartsPlain bytes :=
  ⟨tag, rest, (Except.ok.inj h).symm, htag⟩

theorem StartsPlain.append {bytes : List UInt8} (h : StartsPlain bytes) (more : List UInt8) :
    StartsPlain (bytes ++ more) := by
  obtain ⟨tag, rest, rfl, htag⟩ := h
  exact ⟨tag, rest ++ more, rfl, htag⟩

theorem startsPlain_bigBytes {negative : Bool} {magnitude bytes : List UInt8}
    (h : encodeBigBytes negative magnitude = .ok bytes) : StartsPlain bytes := by
  unfold encodeBigBytes at h
  dsimp only at h
  by_cases hlen : (trimmed magnitude).length < 256
  · rw [if_pos hlen] at h
    exact startsPlain_ok h (by decide)
  · rw [if_neg hlen] at h
    obtain ⟨n, -, h⟩ := except_bind_ok_iff.mp h
    exact startsPlain_ok h (by decide)

theorem startsPlain_atom {a : Atom} {bytes : List UInt8} (h : encodeAtom table a = .ok bytes) :
    StartsPlain bytes := by
  unfold encodeAtom encodeAtomName at h
  split at h
  · cases h
  · split_ifs at h
    · exact startsPlain_ok h (by decide)
    · obtain ⟨n, -, h⟩ := except_bind_ok_iff.mp h
      exact startsPlain_ok h (by decide)

theorem startsPlain_tupleHeader {arity : ℕ} {bytes : List UInt8}
    (h : tupleHeader arity = .ok bytes) : StartsPlain bytes := by
  unfold tupleHeader at h
  split_ifs at h
  · exact startsPlain_ok h (by decide)
  · obtain ⟨n, -, h⟩ := except_bind_ok_iff.mp h
    exact startsPlain_ok h (by decide)

theorem encodeTermInner_startsPlain {left : ℕ} {v : Value} {bytes : List UInt8}
    (h : encodeTermInner table left v = .ok bytes) : StartsPlain bytes := by
  cases left with
  | zero => cases h
  | succ left =>
    cases v with
    | number n =>
      cases n with
      | smallInt n =>
        rw [encodeTermInner, encodeInteger] at h
        split_ifs at h
        · exact startsPlain_ok h (by decide)
        · exact startsPlain_ok h (by decide)
        · exact startsPlain_bigBytes h
      | float x => exact startsPlain_ok h (by decide)
      | bigInt negative limbs => exact startsPlain_bigBytes h
    | atom a => exact startsPlain_atom h
    | reference r =>
      cases r with
      | «local» id =>
        obtain ⟨name, -, h⟩ := except_bind_ok_iff.mp h
        exact startsPlain_ok h (by decide)
      | remote node id => cases h
    | closure c free =>
      obtain ⟨parts, -, h⟩ := except_bind_ok_iff.mp h
      obtain ⟨body, -, h⟩ := except_bind_ok_iff.mp h
      exact startsPlain_ok h (by decide)
    | pid p =>
      cases p with
      | «local» number =>
        obtain ⟨name, -, h⟩ := except_bind_ok_iff.mp h
        obtain ⟨id, -, h⟩ := except_bind_ok_iff.mp h
        exact startsPlain_ok h (by decide)
      | remote node number serial =>
        obtain ⟨name, -, h⟩ := except_bind_ok_iff.mp h
        obtain ⟨id, -, h⟩ := except_bind_ok_iff.mp h
        obtain ⟨ser, -, h⟩ := except_bind_ok_iff.mp h
        exact startsPlain_ok h (by decide)
    | tuple elements =>
      obtain ⟨header, hheader, h⟩ := except_bind_ok_iff.mp h
      obtain ⟨body, -, h⟩ := except_bind_ok_iff.mp h
      rw [← Except.ok.inj h]
      exact (startsPlain_tupleHeader hheader).append _
    | map entries =>
      obtain ⟨header, hheader, h⟩ := except_bind_ok_iff.mp h
      obtain ⟨body, -, h⟩ := except_bind_ok_iff.mp h
      obtain ⟨n, -, hheader⟩ := except_bind_ok_iff.mp hheader
      rw [← Except.ok.inj h]
      exact (startsPlain_ok hheader (by decide)).append _
    | nil => exact startsPlain_ok h (by decide)
    | cons head tail =>
      rw [encodeTermInner] at h
      dsimp only at h
      split at h
      · exact startsPlain_ok h (by decide)
      · obtain ⟨header, hheader, h⟩ := except_bind_ok_iff.mp h
        obtain ⟨body, -, h⟩ := except_bind_ok_iff.mp h
        obtain ⟨n, -, hheader⟩ := except_bind_ok_iff.mp hheader
        rw [← Except.ok.inj h]
        exact (startsPlain_ok hheader (by decide)).append _
    | binary b =>
      obtain ⟨n, -, h⟩ := except_bind_ok_iff.mp h
      exact startsPlain_ok h (by decide)
    | other raw => cases h

theorem decodeVersioned_plain (inflate : InflateStream) {tag : UInt8} (rest : List UInt8)
    (htag : tag ≠ Tags.compressedExt) :
    decodeVersioned context options inflate s (Tags.version :: tag :: rest) =
      decodeOne context options (maxEtfDepth + 1) s (tag :: rest) := by
  change (if tag = Tags.compressedExt then _ else decodeAfterTag context options (maxEtfDepth + 1)
    tag : Decoder DecodeError (DecodeState H) Value) s rest = _
  rw [if_neg htag]
  rfl

/-- All the bytes are read and the term comes back, or the decoder fails, by what the heap does. -/
theorem decodeTermWithOptions_encoded (context : DecodeContext H) (options : DecodeOptions)
    (inflate : InflateStream) (hsafe : options.safe = false) (hs : s.atoms.Extends table)
    {t : Value} {bytes : List UInt8} (ht : Portable t)
    (hbytes : encodeTerm table t = .ok bytes) :
    match heapAfter context (maxEtfDepth + 1) s.heap t with
    | some _ => ∃ t' s', decodeTermWithOptions context options inflate s bytes =
        .ok (⟨t', bytes.length⟩, s') ∧ SameTerm t t'
    | none => ∃ e, decodeTermWithOptions context options inflate s bytes = .error e := by
  obtain ⟨inner, hinner, hbytes⟩ := except_bind_ok_iff.mp hbytes
  obtain rfl := Except.ok.inj hbytes
  have hanswers : Answers table (decodeOne context options (maxEtfDepth + 1)) s inner
      (heapAfter context (maxEtfDepth + 1) s.heap t) (SameTerm t) :=
    decodesAll hsafe (maxEtfDepth + 1) ht s inner hs hinner
  obtain ⟨tag, rest, rfl, htag⟩ := encodeTermInner_startsPlain hinner
  have hplain : decodeVersioned context options inflate s (Tags.version :: tag :: rest) =
      decodeOne context options (maxEtfDepth + 1) s (tag :: rest) :=
    decodeVersioned_plain inflate rest htag
  cases hheap : heapAfter context (maxEtfDepth + 1) s.heap t with
  | none =>
    rw [hheap] at hanswers
    obtain ⟨e, hfails⟩ := hanswers
    refine ⟨e, ?_⟩
    have hall := hfails []
    rw [List.append_nil] at hall
    rw [decodeTermWithOptions, hplain, hall]
  | some heap =>
    rw [hheap] at hanswers
    obtain ⟨t', s', hreads, hsame, -⟩ := hanswers
    refine ⟨t', s', ?_, hsame⟩
    have hall : decodeOne context options (maxEtfDepth + 1) s (tag :: rest) = .ok (t', s', []) :=
      hreads.all
    rw [decodeTermWithOptions, hplain, hall]
    simp

theorem exactEq_of_sameTerm {v v' : Value} (h : SameTerm v v') : exactEq v' v = true := by
  rw [← Ets.exactEq_inlined_left, ← Ets.exactEq_inlined_right, h, exactEq,
    exactCmp_preorderOn.refl trivial]
  rfl

end RoundTrip

/-- A context without a process: it takes whatever is within the default limit. -/
def detached : DecodeContext Unit := ⟨131072, fun _ _ => some ()⟩

def noAtoms : AtomTable := ⟨[], List.nodup_nil, nofun⟩

/-- Bytes of a reference in a tuple. -/
def referenceBytes : List UInt8 :=
  [131, 104, 1, 90, 0, 2, 119, 13, 110, 111, 110, 111, 100, 101, 64, 110, 111, 104, 111, 115, 116,
    0, 0, 0, 0, 0, 0, 0, 0, 0, 0, 0, 7]

theorem portable_reference (id : UInt64) : Portable (.reference (.local id)) :=
  .intro (v := .reference (.local id)) trivial nofun

/-- A term in so many tuples. -/
def inTuples (v : Value) : ℕ → Value
  | 0 => v
  | n + 1 => .tuple [inTuples v n]

theorem portable_inTuples {v : Value} (hv : Portable v) (n : ℕ) : Portable (inTuples v n) := by
  induction n with
  | zero => exact hv
  | succ n ih =>
    refine .intro (v := .tuple [inTuples v n]) trivial fun c hc => ?_
    rw [List.mem_singleton.mp hc]
    exact ih

theorem identityAt_inTuples {v : Value} (hv : isIdentity v = true) (n : ℕ) :
    identityAt n (inTuples v n) = true := by
  induction n with
  | zero => exact hv
  | succ n ih => rw [inTuples, identityAt, nested, List.any_cons, ih, Bool.true_or]

theorem encode_inTuples {table : AtomTable} {v : Value} {bytes : List UInt8}
    (h : encodeTermInner table 1 v = .ok bytes) (n : ℕ) :
    ∃ bytes, encodeTermInner table (n + 1) (inTuples v n) = .ok bytes := by
  induction n with
  | zero => exact ⟨bytes, h⟩
  | succ n ih =>
    obtain ⟨inner, hinner⟩ := ih
    refine ⟨[Tags.smallTupleExt, 1] ++ [inner].flatten, ?_⟩
    rw [inTuples, encodeTermInner, List.mapM_cons, hinner]
    rfl

/-- At any depth the encoder can be given, the deepest reference it takes is refused. -/
theorem heapAfter_inTuples {H : Type} (context : DecodeContext H) (heap : H) {v : Value}
    (hv : isIdentity v = true) (n : ℕ) : heapAfter context (n + 1) heap (inTuples v n) = none := by
  rw [heapAfter, identityAt_inTuples hv]
  rfl

end Beamr.Etf
