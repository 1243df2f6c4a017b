import Beamr.Etf.RoundTrip
import Beamr.Etf.UsedPrefix

/-!
# Compressed encodings

The encoder may put the zlib stream of the encoded term in place of it. What it wrote settles what
the decoder does, whatever the term, the atoms and the heap are; so the stream decodes as the term
it stands for does, with its own length as the count, until the declared size is over the budget.
-/
namespace Beamr.Etf

open Term ByteOrder Decoder

section Settled

variable {H : Type} {context : DecodeContext H} {options : DecodeOptions} {table : AtomTable}
  {left : ℕ}

/-! ## Parts of what the encoder writes -/

theorem settles_alloc (words : ℕ) (term : Value) (s : DecodeState H) :
    Settles (alloc context words term) s [] := by
  refine Settles.read_last (Reads.getState s) ?_
  refine (Settles.ofOption _ _ s).skip fun heap t => ?_
  exact Settles.read_last (Reads.setState t _) (Settles.pure term _)

theorem settles_ensure {d : Decoder DecodeError (DecodeState H) Value} {s : DecodeState H}
    {bytes : List UInt8} (words : ℕ) (h : ∀ s, Settles d s bytes) :
    Settles (do ensureHeapWords context words; d) s bytes :=
  (Settles.require _ _ s).skip fun _ t => h t

theorem settles_tagged {tag : UInt8} {rest : List UInt8} {s : DecodeState H}
    (h : ∀ below, Settles (decodeBody context options (decodeOne context options below) tag) s
      rest) :
    Settles (decodeOne context options left) s (tag :: rest) := by
  cases left with
  | zero => exact Settles.read (reads_readU8 s tag) (Settles.fail _ s rest)
  | succ below => exact Settles.read (reads_readU8 s tag) (h below)

theorem settles_decodeAtom (name : List UInt8) (s : DecodeState H) :
    Settles (decodeAtom options name) s [] := by
  unfold decodeAtom
  split
  · refine Settles.read_last (Reads.getState s) ?_
    split
    · exact (Settles.ofOption _ _ s).skip fun a t => Settles.pure _ t
    · exact Settles.read_last (Reads.setState s _) (Settles.pure _ _)
  · exact Settles.fail _ s []

theorem settles_atomName {name bytes : List UInt8} (h : encodeAtomName name = .ok bytes)
    (s : DecodeState H) : Settles (decodeOne context options left) s bytes := by
  unfold encodeAtomName at h
  by_cases hlen : name.length < 256
  · rw [if_pos hlen] at h
    obtain rfl := Except.ok.inj h
    refine settles_tagged fun below => Settles.read (reads_readU8 s _) ?_
    refine Settles.read_last (reads_readBytes s ?_) (settles_decodeAtom name s)
    rw [toNat_byte hlen]
  · rw [if_neg hlen] at h
    obtain ⟨n, hn, h⟩ := except_bind_ok_iff.mp h
    obtain ⟨rfl, hlt⟩ := u16Of_ok hn
    obtain rfl := Except.ok.inj h
    refine settles_tagged fun below => Settles.read (reads_readU16 s hlt) ?_
    exact Settles.read_last (reads_readBytes s rfl) (settles_decodeAtom name s)

theorem settles_atom {a : Atom} {bytes : List UInt8} (h : encodeAtom table a = .ok bytes)
    (s : DecodeState H) : Settles (decodeOne context options left) s bytes := by
  unfold encodeAtom at h
  split at h
  · cases h
  · exact settles_atomName h s

theorem settles_bigMagnitude (negative : Bool) (magnitude : List UInt8) (s : DecodeState H) :
    Settles (decodeBigInteger context magnitude.length) s
      ((if negative then 1 else 0) :: magnitude) := by
  refine Settles.read (reads_sign s negative) ?_
  refine Settles.read_last (reads_readBytes s rfl) (.ite (.ite ?_ (.ite ?_ ?_)) ?_)
  · dsimp only
    split
    · exact Settles.pure _ s
    · exact settles_alloc _ _ s
  · exact settles_alloc _ _ s
  · exact settles_alloc _ _ s
  · exact settles_ensure _ (settles_alloc _ _)

theorem settles_bigBytes {negative : Bool} {magnitude bytes : List UInt8}
    (h : encodeBigBytes negative magnitude = .ok bytes) (s : DecodeState H) :
    Settles (decodeOne context options left) s bytes := by
  unfold encodeBigBytes at h
  dsimp only at h
  generalize trimmed magnitude = shortened at h
  by_cases hlen : shortened.length < 256
  · rw [if_pos hlen] at h
    obtain rfl := Except.ok.inj h
    refine settles_tagged fun below => Settles.read (reads_readU8 s _) ?_
    rw [toNat_byte hlen]
    exact settles_bigMagnitude negative shortened s
  · rw [if_neg hlen] at h
    obtain ⟨n, hn, h⟩ := except_bind_ok_iff.mp h
    obtain ⟨rfl, hlt⟩ := u32Of_ok hn
    obtain rfl := Except.ok.inj h
    refine settles_tagged fun below => Settles.read (reads_readU32 s hlt) ?_
    exact settles_bigMagnitude negative shortened s

theorem settles_integer {value : ℤ} {bytes : List UInt8} (h : encodeInteger value = .ok bytes)
    (s : DecodeState H) : Settles (decodeOne context options left) s bytes := by
  unfold encodeInteger at h
  split_ifs at h with hbyte hfits
  · obtain rfl := Except.ok.inj h
    exact settles_tagged fun below => Settles.read_last (reads_readU8 s _) (Settles.pure _ s)
  · obtain rfl := Except.ok.inj h
    refine settles_tagged fun below => Settles.read_last (reads_readI32 s hfits) ?_
    exact (Settles.ofOption _ _ s).skip fun n t => Settles.pure _ t
  · exact settles_bigBytes h s

theorem settles_node {d : Decoder DecodeError (DecodeState H) Value} {bytes : List UInt8}
    {s : DecodeState H} (tag : UInt8) (h : Settles d s bytes) :
    Settles (decodeNode d tag) s bytes := by
  refine h.bind_last fun node t => ?_
  split
  · exact Settles.pure _ t
  · exact Settles.fail _ t []

theorem length_beBytes_four (n : ℕ) : (beBytes 4 n).length = 4 := by
  simp

/-- The node of a pid, its two numbers and the creation. -/
theorem settles_pid {node bytes : List UInt8} {id serial : ℕ} (hid : id < 2 ^ 32)
    (hserial : serial < 2 ^ 32)
    (hnode : ∀ left s, Settles (decodeOne context options left) s node)
    (h : Tags.newPidExt :: node ++ beBytes 4 id ++ beBytes 4 serial ++ beBytes 4 0 = bytes)
    (s : DecodeState H) : Settles (decodeOne context options left) s bytes := by
  obtain rfl := h
  simp only [List.cons_append, List.append_assoc]
  refine settles_tagged fun below => (settles_node _ (hnode below s)).bind fun node t => ?_
  refine Settles.read (reads_readU32 t hid) (Settles.read (reads_readU32 t hserial) ?_)
  exact Settles.read_last (reads_readBytes t (length_beBytes_four 0)) (settles_alloc _ _ t)

theorem settles_reference {id : UInt64} {bytes : List UInt8} (h : encodeReference id = .ok bytes)
    (s : DecodeState H) : Settles (decodeOne context options left) s bytes := by
  obtain ⟨node, hnode, h⟩ := except_bind_ok_iff.mp h
  obtain rfl := Except.ok.inj h
  simp only [List.cons_append, List.append_assoc]
  refine settles_tagged fun below => Settles.read (reads_readU16 s (by norm_num)) ?_
  refine (settles_node _ (settles_atomName hnode s)).bind fun node t => ?_
  refine Settles.read (reads_readU32 t (by norm_num)) ?_
  exact Settles.read_last (reads_idWords t id) (settles_alloc _ _ t)

/-! ## Terms -/

/-- What the encoder writes for a term with so many levels left settles the decoder at any depth. -/
def SettlesAll (context : DecodeContext H) (options : DecodeOptions) (table : AtomTable)
    (left : ℕ) (v : Value) : Prop :=
  ∀ bytes, encodeTermInner table left v = .ok bytes → ∀ below (s : DecodeState H),
    Settles (decodeOne context options below) s bytes

/-- Terms one after the other. -/
theorem settles_many {vs : List Value} {body : List (List UInt8)}
    (hvs : ∀ v ∈ vs, SettlesAll context options table left v)
    (hbody : vs.mapM (encodeTermInner table left) = .ok body) (below : ℕ) (s : DecodeState H) :
    Settles (many (decodeOne context options below) vs.length) s body.flatten := by
  induction vs generalizing s body with
  | nil =>
    obtain rfl := Except.ok.inj hbody
    exact Settles.pure [] s
  | cons v vs ih =>
    obtain ⟨first, rest, hfirst, hrest, rfl⟩ := except_mapM_cons_ok hbody
    refine Settles.many_cons (hvs v (List.mem_cons_self ..) first hfirst below s) fun t => ?_
    exact ih (fun x hx => hvs x (List.mem_cons_of_mem _ hx)) hrest t

theorem settles_tuple {vs : List Value} (hvs : ∀ v ∈ vs, SettlesAll context options table left v) :
    SettlesAll context options table (left + 1) (.tuple vs) := by
  intro bytes hbytes below s
  obtain ⟨header, hheader, hbytes⟩ := except_bind_ok_iff.mp hbytes
  obtain ⟨body, hbody, hbytes⟩ := except_bind_ok_iff.mp hbytes
  obtain rfl := Except.ok.inj hbytes
  have htuple : ∀ below, Settles (decodeTuple context (decodeOne context options below) vs.length)
      s body.flatten := fun below => settles_ensure _ fun s =>
    (settles_many hvs hbody below s).bind_last fun vs' t => settles_alloc _ _ t
  unfold tupleHeader at hheader
  split_ifs at hheader with hlen
  · obtain rfl := Except.ok.inj hheader
    refine settles_tagged fun below => Settles.read (reads_readU8 s _) ?_
    rw [toNat_byte hlen]
    exact htuple below
  · obtain ⟨n, hn, hheader⟩ := except_bind_ok_iff.mp hheader
    obtain ⟨rfl, hlt⟩ := u32Of_ok hn
    obtain rfl := Except.ok.inj hheader
    exact settles_tagged fun below => Settles.read (reads_readU32 s hlt) (htuple below)

/-- Keys and values in turn. -/
theorem settles_entries {es : List (Value × Value)} {body : List (List UInt8)}
    (hes : ∀ v ∈ es.flatMap fun e => [e.1, e.2], SettlesAll context options table left v)
    (hbody : (es.flatMap fun e => [e.1, e.2]).mapM (encodeTermInner table left) = .ok body)
    (below : ℕ) (s : DecodeState H) :
    Settles (many (decodeEntry (decodeOne context options below)) es.length) s body.flatten := by
  induction es generalizing s body with
  | nil =>
    obtain rfl := Except.ok.inj hbody
    exact Settles.pure [] s
  | cons e es ih =>
    obtain ⟨first, others, hfirst, hothers, rfl⟩ := except_mapM_cons_ok hbody
    obtain ⟨second, rest, hsecond, hrest, rfl⟩ := except_mapM_cons_ok hothers
    have hentry : Settles (decodeEntry (decodeOne context options below)) s (first ++ second) :=
      (hes e.1 (by simp) first hfirst below s).bind fun key t =>
        (hes e.2 (by simp) second hsecond below t).bind_last fun value u => Settles.pure _ u
    rw [List.flatten_cons, List.flatten_cons, ← List.append_assoc]
    refine Settles.many_cons hentry fun t => ih (fun x hx => hes x ?_) hrest t
    exact List.mem_append_right [e.1, e.2] hx

theorem settles_map {es : List (Value × Value)}
    (hes : ∀ v ∈ es.flatMap fun e => [e.1, e.2], SettlesAll context options table left v) :
    SettlesAll context options table (left + 1) (.map es) := by
  intro bytes hbytes below s
  obtain ⟨header, hheader, hbytes⟩ := except_bind_ok_iff.mp hbytes
  obtain ⟨body, hbody, hbytes⟩ := except_bind_ok_iff.mp hbytes
  obtain ⟨n, hn, hheader⟩ := except_bind_ok_iff.mp hheader
  obtain ⟨rfl, hlt⟩ := u32Of_ok hn
  obtain rfl := Except.ok.inj hheader
  obtain rfl := Except.ok.inj hbytes
  refine settles_tagged fun below => Settles.read (reads_readU32 s hlt) (settles_ensure _ ?_)
  exact fun s => (settles_entries hes hbody below s).bind_last fun entries t => settles_alloc _ _ t

/-- A list that is not one of bytes only: its elements and what follows them. -/
theorem settles_list {elements : List Value} {last : Value} {bytes : List UInt8}
    (hvs : ∀ v ∈ elements ++ [last], SettlesAll context options table left v)
    (hbytes : (do
      let header ← listHeader elements.length
      let body ← (elements ++ [last]).mapM (encodeTermInner table left)
      .ok (header ++ body.flatten)) = .ok bytes) (below : ℕ) (s : DecodeState H) :
    Settles (decodeOne context options below) s bytes := by
  obtain ⟨header, hheader, hbytes⟩ := except_bind_ok_iff.mp hbytes
  obtain ⟨body, hbody, hbytes⟩ := except_bind_ok_iff.mp hbytes
  obtain ⟨n, hn, hheader⟩ := except_bind_ok_iff.mp hheader
  obtain ⟨rfl, hlt⟩ := u32Of_ok hn
  obtain rfl := Except.ok.inj hheader
  obtain rfl := Except.ok.inj hbytes
  obtain ⟨first, final, hfirst, hfinal, rfl⟩ := except_mapM_concat_ok_iff.mp hbody
  rw [List.flatten_append, List.flatten_singleton]
  refine settles_tagged fun below => Settles.read (reads_readU32 s hlt) (settles_ensure _ ?_)
  intro s
  refine (settles_many (fun x hx => hvs x (by simp [hx])) hfirst below s).bind fun heads t => ?_
  exact (hvs last (by simp) final hfinal below t).bind_last fun tail u => settles_alloc _ _ u

theorem settles_string {elements : List Value} {last : Value} {string : List UInt8}
    (hstring : stringBytes elements last = some string) (below : ℕ) (s : DecodeState H) :
    Settles (decodeOne context options below) s (encodeString string) := by
  have hlen : string.length < 2 ^ 16 := by
    unfold stringBytes at hstring
    split at hstring
    next =>
      split_ifs at hstring with hlen
      have hmap := congrArg List.length (mapM_asByte hstring)
      rw [List.length_map] at hmap
      omega
    next => cases hstring
  refine settles_tagged fun below => Settles.read (reads_readU16 s hlen) (settles_ensure _ ?_)
  exact fun s => Settles.read_last (reads_readBytes s rfl) (settles_alloc _ _ s)

theorem settles_binary {b : BinaryRef} {bytes : List UInt8} (h : encodeBinary b = .ok bytes)
    (below : ℕ) (s : DecodeState H) : Settles (decodeOne context options below) s bytes := by
  obtain ⟨n, hn, h⟩ := except_bind_ok_iff.mp h
  obtain ⟨rfl, hlt⟩ := u32Of_ok hn
  obtain rfl := Except.ok.inj h
  refine settles_tagged fun below => Settles.read (reads_readU32 s hlt) (settles_ensure _ ?_)
  exact fun s => Settles.read_last (reads_readBytes s rfl) (settles_alloc _ _ s)

/-- Module, function and arity of a closure. -/
theorem settles_export {parts : List Value} {c : Closure} {free : List Value}
    {body : List (List UInt8)} (hparts : exportParts c free = .ok parts)
    (hvs : ∀ v, SettlesAll context options table left v)
    (hbody : parts.mapM (encodeTermInner table left) = .ok body) (below : ℕ) (s : DecodeState H) :
    Settles (decodeOne context options below) s (Tags.exportExt :: body.flatten) := by
  unfold exportParts at hparts
  split_ifs at hparts
  obtain ⟨index, -, hparts⟩ := except_bind_ok_iff.mp hparts
  split at hparts
  · cases hparts
  · obtain rfl := Except.ok.inj hparts
    obtain ⟨module, two, hmodule, htwo, rfl⟩ := except_mapM_cons_ok hbody
    obtain ⟨function, one, hfunction, hone, rfl⟩ := except_mapM_cons_ok htwo
    obtain ⟨arity, none, harity, hnone, rfl⟩ := except_mapM_cons_ok hone
    rw [List.mapM_nil] at hnone
    obtain rfl := Except.ok.inj hnone
    simp only [List.flatten_cons, List.flatten_nil, List.append_nil]
    refine settles_tagged fun below => (hvs _ module hmodule below s).bind fun m t => ?_
    refine (hvs _ function hfunction below t).bind fun f u => ?_
    split
    · exact (hvs _ arity harity below u).bind_last fun a w => settles_alloc _ _ w
    · exact Settles.fail _ u arity

theorem settlesAll (left : ℕ) (v : Value) : SettlesAll context options table left v := by
  induction left generalizing v with
  | zero =>
    intro bytes hbytes
    cases hbytes
  | succ left ih =>
    cases v with
    | number n =>
      intro bytes hbytes below s
      cases n with
      | smallInt n => exact settles_integer hbytes s
      | float x =>
        obtain rfl := Except.ok.inj hbytes
        refine settles_tagged fun below => ?_
        exact Settles.read_last (reads_readBytes s (by simp)) (settles_alloc _ _ s)
      | bigInt negative limbs => exact settles_bigBytes hbytes s
    | atom a => exact fun bytes hbytes below s => settles_atom hbytes s
    | reference r =>
      intro bytes hbytes below s
      cases r with
      | «local» id => exact settles_reference hbytes s
      | remote node id => cases hbytes
    | closure c free =>
      intro bytes hbytes below s
      obtain ⟨parts, hparts, hbytes⟩ := except_bind_ok_iff.mp hbytes
      obtain ⟨body, hbody, hbytes⟩ := except_bind_ok_iff.mp hbytes
      obtain rfl := Except.ok.inj hbytes
      exact settles_export hparts ih hbody below s
    | pid p =>
      intro bytes hbytes below s
      cases p with
      | «local» number =>
        obtain ⟨node, hnode, hbytes⟩ := except_bind_ok_iff.mp hbytes
        obtain ⟨id, hid, hbytes⟩ := except_bind_ok_iff.mp hbytes
        obtain ⟨rfl, hlt⟩ := u32Of_ok hid
        exact settles_pid hlt (by norm_num) (fun _ => settles_atomName hnode)
          (Except.ok.inj hbytes) s
      | remote node number serial =>
        obtain ⟨node, hnode, hbytes⟩ := except_bind_ok_iff.mp hbytes
        obtain ⟨id, hid, hbytes⟩ := except_bind_ok_iff.mp hbytes
        obtain ⟨ser, hser, hbytes⟩ := except_bind_ok_iff.mp hbytes
        obtain ⟨rfl, hlt⟩ := u32Of_ok hid
        obtain ⟨rfl, hlt'⟩ := u32Of_ok hser
        exact settles_pid hlt hlt' (fun _ => settles_atom hnode) (Except.ok.inj hbytes) s
    | tuple elements => exact settles_tuple fun v _ => ih v
    | map entries => exact settles_map fun v _ => ih v
    | nil =>
      intro bytes hbytes below s
      obtain rfl := Except.ok.inj hbytes
      exact settles_tagged fun below => Settles.pure _ s
    | cons head tail =>
      intro bytes hbytes below s
      rw [encodeTermInner] at hbytes
      dsimp only at hbytes
      split at hbytes
      · rename_i string hstring
        obtain rfl := Except.ok.inj hbytes
        exact settles_string hstring below s
      · exact settles_list (fun v _ => ih v) hbytes below s
    | binary b => exact fun bytes hbytes => settles_binary hbytes
    | other raw =>
      intro bytes hbytes
      cases hbytes

end Settled

/-! ## The whole encoding -/

/-- The stream that deflating wrote is read back, whatever follows it, by a reader that asks for
more bytes than there were. -/
def Inverts (inflate : InflateStream) (deflate : ℕ → List UInt8 → Option (List UInt8)) : Prop :=
  ∀ level payload stream, deflate level payload = some stream → ∀ limit trailing,
    payload.length < limit → inflate (stream ++ trailing) limit = some (payload, stream.length)

section Whole

variable {H : Type} {context : DecodeContext H} {options : DecodeOptions} {table : AtomTable}
  {inflate : InflateStream} {s : DecodeState H}

/-- The two forms of an encoding: as it is, or the stream of what follows the version under its
length. -/
theorem encodeTermWithOptions_forms {deflate : ℕ → List UInt8 → Option (List UInt8)} {v : Value}
    {compressionLevel : Option ℕ} {plain encoded : List UInt8}
    (hplain : encodeTerm table v = .ok plain)
    (hencoded : encodeTermWithOptions deflate table v compressionLevel = .ok encoded) :
    encoded = plain ∨ ∃ level stream, deflate level (plain.drop 1) = some stream ∧
      (plain.drop 1).length < 2 ^ 32 ∧ encoded.length < plain.length ∧
      encoded = Tags.version :: Tags.compressedExt :: (beBytes 4 (plain.drop 1).length ++
        stream) := by
  rw [encodeTermWithOptions, hplain] at hencoded
  dsimp only [except_ok_bind] at hencoded
  split at hencoded
  · exact .inl (Except.ok.inj hencoded).symm
  · exact .inl (Except.ok.inj hencoded).symm
  · obtain ⟨size, hsize, hencoded⟩ := except_bind_ok_iff.mp hencoded
    obtain ⟨rfl, hlt⟩ := u32Of_ok hsize
    split at hencoded
    · cases hencoded
    · rename_i level stream hdeflate
      split_ifs at hencoded with hshorter
      · obtain rfl := Except.ok.inj hencoded
        exact .inr ⟨_, stream, hdeflate, hlt, hshorter, rfl⟩
      · exact .inl (Except.ok.inj hencoded).symm

/-- What the encoder writes for a term, after the version, settles the decoder. -/
theorem decodeVersioned_encoded (context : DecodeContext H) (options : DecodeOptions)
    (inflate : InflateStream) {v : Value} {plain : List UInt8}
    (hplain : encodeTerm table v = .ok plain) :
    ∃ inner, plain = Tags.version :: inner ∧
      (∀ s rest, decodeVersioned context options inflate s (plain ++ rest) =
        decodeOne context options (maxEtfDepth + 1) s (inner ++ rest)) ∧
      ∀ s, Settles (decodeOne context options (maxEtfDepth + 1)) s inner := by
  obtain ⟨inner, hinner, hplain⟩ := except_bind_ok_iff.mp hplain
  obtain rfl := Except.ok.inj hplain
  refine ⟨inner, rfl, fun s rest => ?_, settlesAll (maxEtfDepth + 1) v inner hinner _⟩
  obtain ⟨tag, more, rfl, htag⟩ := encodeTermInner_startsPlain hinner
  exact decodeVersioned_plain inflate (more ++ rest) htag

/-- What is decoded behind the header of a compressed term. -/
def decodeStream (context : DecodeContext H) (options : DecodeOptions) (inflate : InflateStream)
    (declaredSize : ℕ) : Decoder DecodeError (DecodeState H) Value := do
  require (declaredSize ≤ context.maxHeapWords * 8) .sizeLimitExceeded
  let (inflated, compressedUsed) ← ofExcept (decompressBounded inflate (← remaining) declaredSize)
  let _ ← readBytes compressedUsed
  onInflated inflated (decodeOne context options (maxEtfDepth + 1))

theorem decodeVersioned_compressed {declaredSize : ℕ} (hsize : declaredSize < 2 ^ 32)
    (rest : List UInt8) :
    decodeVersioned context options inflate s
        (Tags.version :: Tags.compressedExt :: (beBytes 4 declaredSize ++ rest)) =
      decodeStream context options inflate declaredSize s rest := by
  have hread : (readU32 >>= decodeStream context options inflate) s
      (beBytes 4 declaredSize ++ rest) = decodeStream context options inflate declaredSize s rest :=
    bind_eq_of_ok (reads_readU32 s hsize rest)
  exact hread

theorem onInflated_ok {d : Decoder DecodeError (DecodeState H) Value} {s' : DecodeState H}
    {bytes : List UInt8} {term : Value} (h : Reads d s bytes term s') (rest : List UInt8) :
    onInflated bytes d s rest = .ok (term, s', rest) := by
  have hall : (do let term ← d; expectEmpty; return term : Decoder DecodeError (DecodeState H) _) s
      bytes = .ok (term, s', []) := by
    rw [bind_eq_of_ok h.all]
    rfl
  unfold onInflated
  rw [bind_eq_of_ok (getState_ok_iff.mpr ⟨rfl, rfl, rfl⟩), hall]
  rfl

theorem onInflated_error {d : Decoder DecodeError (DecodeState H) Value} {bytes : List UInt8}
    {e : DecodeError} (h : d s bytes = .error e) (rest : List UInt8) :
    onInflated bytes d s rest = .error e := by
  have hall : (do let term ← d; expectEmpty; return term : Decoder DecodeError (DecodeState H) _) s
      bytes = .error e := by
    rw [bind_apply, h]
  unfold onInflated
  rw [bind_eq_of_ok (getState_ok_iff.mpr ⟨rfl, rfl, rfl⟩), hall]
  rfl

/-- Within the budget the stream is inflated and skipped, and the bytes that come out decoded. -/
theorem decodeStream_eq {payload stream : List UInt8}
    (hstream : ∀ trailing, inflate (stream ++ trailing) (payload.length + 1) =
      some (payload, stream.length))
    (hbudget : payload.length ≤ context.maxHeapWords * 8) (trailing : List UInt8) :
    decodeStream context options inflate payload.length s (stream ++ trailing) =
      onInflated payload (decodeOne context options (maxEtfDepth + 1)) s trailing := by
  have hrequire : (require (payload.length ≤ context.maxHeapWords * 8) .sizeLimitExceeded :
      Decoder DecodeError (DecodeState H) Unit) s (stream ++ trailing) =
        .ok ((), s, stream ++ trailing) :=
    require_ok_iff.mpr ⟨decide_eq_true hbudget, rfl, rfl⟩
  have hinflated := decompressBounded_ok.mpr ⟨hstream trailing, rfl⟩
  unfold decodeStream
  rw [bind_eq_of_ok hrequire, bind_eq_of_ok (remaining_ok_iff.mpr ⟨rfl, rfl, rfl⟩),
    bind_eq_of_ok (ofExcept_ok_iff.mpr ⟨hinflated, rfl, rfl⟩)]
  exact bind_eq_of_ok (reads_readBytes s rfl trailing)

theorem decodeStream_overBudget {declaredSize : ℕ}
    (hbudget : ¬ declaredSize ≤ context.maxHeapWords * 8) (rest : List UInt8) :
    decodeStream context options inflate declaredSize s rest = .error .sizeLimitExceeded := by
  unfold decodeStream
  rw [decide_eq_false hbudget]
  rfl

/-- What the call makes of a run of the decoder. -/
theorem decodeTermWithOptions_of_ok {bytes trailing : List UInt8} {term : Value}
    {s' : DecodeState H} (htrailing : options.returnUsed = true ∨ trailing = [])
    (h : decodeVersioned context options inflate s (bytes ++ trailing) =
      .ok (term, s', trailing)) :
    decodeTermWithOptions context options inflate s (bytes ++ trailing) =
      .ok (⟨term, bytes.length⟩, s') := by
  rw [decodeTermWithOptions, h]
  obtain hused | rfl := htrailing
  · simp [hused]
  · simp

theorem decodeTermWithOptions_of_error {bytes : List UInt8} {e : DecodeError}
    (h : decodeVersioned context options inflate s bytes = .error e) :
    decodeTermWithOptions context options inflate s bytes = .error e := by
  rw [decodeTermWithOptions, h]

/-- A compressed encoding within the budget runs the decoder on the bytes it stands for. -/
theorem decodeVersioned_stream (options : DecodeOptions) (s : DecodeState H) {level : ℕ}
    {inner stream : List UInt8} {deflate : ℕ → List UInt8 → Option (List UInt8)}
    (hinverts : Inverts inflate deflate) (hdeflate : deflate level inner = some stream) (hlt : inner.length < 2 ^ 32)
    (hbudget : inner.length ≤ context.maxHeapWords * 8) (trailing : List UInt8) :
    decodeVersioned context options inflate s (Tags.version :: Tags.compressedExt ::
        (beBytes 4 inner.length ++ stream) ++ trailing) =
      onInflated inner (decodeOne context options (maxEtfDepth + 1)) s trailing := by
  have hstream : ∀ trailing, inflate (stream ++ trailing) (inner.length + 1) =
      some (inner, stream.length) := fun trailing =>
    hinverts level inner stream hdeflate _ trailing (Nat.lt_succ_self _)
  rw [List.cons_append, List.cons_append, List.append_assoc, decodeVersioned_compressed hlt,
    decodeStream_eq hstream hbudget]

/-- Within the budget the decoder runs as on the bytes of the term, in either form. -/
theorem decodeVersioned_within {deflate : ℕ → List UInt8 → Option (List UInt8)}
    (hinverts : Inverts inflate deflate) {v : Value} {compressionLevel : Option ℕ}
    {inner encoded : List UInt8} (hplain : encodeTerm table v = .ok (Tags.version :: inner))
    (hencoded : encodeTermWithOptions deflate table v compressionLevel = .ok encoded)
    (hrun : ∀ rest, decodeVersioned context options inflate s (Tags.version :: inner ++ rest) =
      decodeOne context options (maxEtfDepth + 1) s (inner ++ rest))
    (hwithin : encoded = Tags.version :: inner ∨ inner.length ≤ context.maxHeapWords * 8) :
    (∀ term s', Reads (decodeOne context options (maxEtfDepth + 1)) s inner term s' →
      Reads (decodeVersioned context options inflate) s encoded term s') ∧
    ∀ e, Fails (decodeOne context options (maxEtfDepth + 1)) s inner e →
      Fails (decodeVersioned context options inflate) s encoded e := by
  rcases encodeTermWithOptions_forms hplain hencoded with
    rfl | ⟨level, stream, hdeflate, hlt, hshorter, rfl⟩
  · refine ⟨fun term s' hreads rest => ?_, fun e hfails rest => ?_⟩
    · rw [hrun, hreads]
    · rw [hrun, hfails]
  · rw [List.drop_one, List.tail_cons] at hdeflate hlt hwithin hshorter ⊢
    have hbudget : inner.length ≤ context.maxHeapWords * 8 := by
      rcases hwithin with hsame | hbudget
      · exact absurd (congrArg List.length hsame) hshorter.ne
      · exact hbudget
    have hstream := decodeVersioned_stream options s hinverts hdeflate hlt hbudget
    refine ⟨fun term s' hreads rest => ?_, fun e hfails rest => ?_⟩
    · rw [hstream, onInflated_ok hreads]
    · have herror := hfails []
      rw [List.append_nil] at herror
      rw [hstream, onInflated_error herror]

/-- Compressed or not, an encoding decodes as the plain one does and counts its own bytes, unless
it is compressed and the term is declared longer than the budget. -/
theorem decode_encodeTermWithOptions {deflate : ℕ → List UInt8 → Option (List UInt8)}
    (hinverts : Inverts inflate deflate) {v : Value} {compressionLevel : Option ℕ}
    {plain encoded : List UInt8} (hplain : encodeTerm table v = .ok plain)
    (hencoded : encodeTermWithOptions deflate table v compressionLevel = .ok encoded)
    (context : DecodeContext H) (s : DecodeState H) (trailing : List UInt8)
    (htrailing : options.returnUsed = true ∨ trailing = []) :
    decodeTermWithOptions context options inflate s (encoded ++ trailing) =
      if encoded = plain ∨ plain.length - 1 ≤ context.maxHeapWords * 8 then
        (decodeTermWithOptions context options inflate s plain).map fun result =>
          ({ result.1 with used := encoded.length }, result.2)
      else .error .sizeLimitExceeded := by
  obtain ⟨inner, rfl, hrun, hsettles⟩ := decodeVersioned_encoded context options inflate hplain
  rw [List.length_cons, Nat.add_sub_cancel]
  by_cases hwithin : encoded = Tags.version :: inner ∨ inner.length ≤ context.maxHeapWords * 8
  · obtain ⟨hreads, hfails⟩ := decodeVersioned_within hinverts hplain hencoded (hrun s) hwithin
    have hwhole := hrun s []
    rw [List.append_nil, List.append_nil] at hwhole
    rw [if_pos hwithin]
    obtain ⟨term, s', hterm⟩ | ⟨e, herror⟩ := hsettles s
    · have hplainly : decodeTermWithOptions context options inflate s
          (Tags.version :: inner ++ []) = .ok (⟨term, (Tags.version :: inner).length⟩, s') :=
        decodeTermWithOptions_of_ok (.inr rfl) (by rw [hrun, hterm])
      rw [List.append_nil] at hplainly
      rw [decodeTermWithOptions_of_ok htrailing (hreads term s' hterm trailing), hplainly]
      rfl
    · have hfailing := herror []
      rw [List.append_nil, ← hwhole] at hfailing
      rw [decodeTermWithOptions_of_error (hfails e herror trailing),
        decodeTermWithOptions_of_error hfailing]
      rfl
  · rw [if_neg hwithin]
    rcases encodeTermWithOptions_forms hplain hencoded with
      rfl | ⟨level, stream, hdeflate, hlt, hshorter, rfl⟩
    · exact absurd (.inl rfl) hwithin
    · rw [List.drop_one, List.tail_cons] at hlt hwithin ⊢
      refine decodeTermWithOptions_of_error ?_
      rw [List.cons_append, List.cons_append, List.append_assoc, decodeVersioned_compressed hlt]
      exact decodeStream_overBudget (fun hbudget => hwithin (.inr hbudget)) _

end Whole

/-- Deflating one payload and refusing every other. -/
def deflateOne (payload stream : List UInt8) (_level : ℕ) (bytes : List UInt8) :
    Option (List UInt8) :=
  if bytes = payload then some stream else none

theorem inverts_one (payload stream : List UInt8) :
    Inverts (inflateOne payload stream) (deflateOne payload stream) := by
  intro level bytes out hdeflate limit trailing hlimit
  unfold deflateOne at hdeflate
  split_ifs at hdeflate with hbytes
  obtain rfl := Option.some.inj hdeflate
  subst hbytes
  rw [inflateOne_append, List.take_of_length_le (by omega)]

/-- 40 zero bytes as a binary, and the zlib stream of them. -/
def zerosTerm : Value := .binary (.inline (List.replicate 40 0))

def zerosPayload : List UInt8 := [109, 0, 0, 0, 40] ++ List.replicate 40 0

def zerosStream : List UInt8 :=
  [120, 156, 203, 101, 96, 96, 208, 96, 32, 18, 0, 0, 25, 190, 0, 150]

/-- Compressed zeros with a byte behind them. -/
theorem decode_encodeTermWithOptions_zeros :
    decodeTermWithOptions detached ⟨false, true⟩ (inflateOne zerosPayload zerosStream)
        ⟨noAtoms, ()⟩ ([131, 80, 0, 0, 0, 45] ++ zerosStream ++ [9]) =
      .ok (⟨zerosTerm, 22⟩, ⟨noAtoms, ()⟩) := by
  have hdecode := @decode_encodeTermWithOptions Unit ⟨false, true⟩ noAtoms
    (inflateOne zerosPayload zerosStream) (deflateOne zerosPayload zerosStream)
    (inverts_one zerosPayload zerosStream) zerosTerm (some 6) (131 :: zerosPayload)
    ([131, 80, 0, 0, 0, 45] ++ zerosStream) rfl rfl detached ⟨noAtoms, ()⟩ [9] (.inl rfl)
  rw [hdecode]
  rfl

/-- An atom of 100 letters, and the zlib stream of its name. -/
def longName : List UInt8 := List.replicate 100 97

def longAtoms : AtomTable := ⟨[longName], List.nodup_singleton _, by decide⟩

def longStream : List UInt8 := [120, 156, 43, 79, 73, 164, 3, 0, 0, 209, 39, 38, 192]

/-- In a heap of 8 words the atom decodes and its compressed form does not. -/
theorem not_decode_compressed : ¬ ∀ (inflate : InflateStream)
    (deflate : ℕ → List UInt8 → Option (List UInt8)), Inverts inflate deflate →
    ∀ (table : AtomTable) (v : Value) (compressionLevel : Option ℕ) (plain encoded : List UInt8),
      encodeTerm table v = .ok plain →
      encodeTermWithOptions deflate table v compressionLevel = .ok encoded →
      ∀ (context : DecodeContext Unit) (s s' : DecodeState Unit) (term : Value) (used : ℕ)
        (trailing : List UInt8),
        decodeTermWithOptions context ⟨false, true⟩ inflate s plain = .ok (⟨term, used⟩, s') →
        decodeTermWithOptions context ⟨false, true⟩ inflate s (encoded ++ trailing) =
          .ok (⟨term, encoded.length⟩, s') := by
  intro hall
  have hdecode := hall (inflateOne ([119, 100] ++ longName) longStream)
    (deflateOne ([119, 100] ++ longName) longStream) (inverts_one _ _) longAtoms (.atom 0) (some 6)
    (131 :: [119, 100] ++ longName) ([131, 80, 0, 0, 0, 102] ++ longStream) rfl rfl
    ⟨8, fun _ _ => some ()⟩ ⟨longAtoms, ()⟩ ⟨longAtoms, ()⟩ (.atom 0) 103 [] rfl
  cases hdecode

end Beamr.Etf
