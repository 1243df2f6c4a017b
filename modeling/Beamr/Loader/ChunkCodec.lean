import Beamr.Loader.Chunks
import Beamr.Loader.OperandCodec

/-!
# Index tables read back

For each table: what a successful decode returns and what it spent, and the round
trip of the encoded table under a budget that covers the same cost.
-/
namespace Beamr.Loader

open ByteOrder Decoder

/-! ## Tables of fixed-width entries -/

section Table

variable {α : Type} {name label : String} {entryBytes entrySize : ℕ} {entry : LoadM α}

theorem decodeTable_sound {Q : α → Prop}
    (hentry : ∀ s c a s' c', entry s c = .ok (a, s', c') → s = s' ∧ Q a) {s s' : DecodeState}
    {as : List α} {c c' : List UInt8}
    (h : decodeTable name label entryBytes entrySize entry s c = .ok (as, s', c')) :
    (∀ a ∈ as, Q a) ∧ as.length ≤ maxTableEntries ∧
      Spent s s' as.length (as.length * entrySize) := by
  simp only [decodeTable, bind_ok_iff, pure_ok_iff] at h
  obtain ⟨count, s₀, c₀, hcount, _, s₁, c₁, hens, _, s₂, c₂, hcharge, as', s₃, c₃, hmany, _, s₄, c₄,
    hempty, rfl, rfl, rfl⟩ := h
  obtain ⟨rfl, -, -⟩ := readU32_ok hcount
  obtain ⟨rfl, -, hmax, -⟩ := ensureCount_ok hens
  obtain ⟨-, hspent⟩ := chargeBytes_ok hcharge
  obtain ⟨rfl, -, -⟩ := expectEmpty_ok hempty
  obtain ⟨hlen, hall, hsp⟩ := many_ok (P := fun as s _ s' _ => (∀ a ∈ as, Q a) ∧
    Spent s s' as.length 0) (fun s _ => ⟨by simp, Spent.refl s⟩) (by
      rintro a as s c s₁ c₁ s' c' ha ⟨hall, hsp⟩
      obtain ⟨_, s₂, c₂, hnode, ha⟩ := bind_ok_iff.mp ha
      obtain ⟨-, hone⟩ := chargeNode_ok hnode
      obtain ⟨rfl, hq⟩ := hentry _ _ _ _ _ ha
      refine ⟨by simpa using ⟨hq, hall⟩, ?_⟩
      rw [List.length_cons, Nat.add_comm]
      exact hone.trans hsp) count hmany
  refine ⟨hall, by omega, ?_⟩
  rw [hlen] at hsp ⊢
  simpa using hspent.trans hsp

theorem encodeEntries_length {f : ℕ → α → Except EncodeError (List UInt8)} {k : ℕ}
    (hf : ∀ i a bs, f i a = .ok bs → bs.length = k) :
    ∀ {as : List α} {i : ℕ} {bytes : List UInt8}, encodeEntries f i as = .ok bytes →
      bytes.length = as.length * k
  | [], _, bytes, h => by
    obtain rfl := Except.ok.inj h
    simp
  | a :: as, i, bytes, h => by
    rw [encodeEntries] at h
    obtain ⟨first, hfirst, h⟩ := except_bind_ok_iff.mp h
    obtain ⟨rest, hrest, h⟩ := except_bind_ok_iff.mp h
    obtain rfl := Except.ok.inj h
    have h1 := hf _ _ _ hfirst
    have h2 := encodeEntries_length hf hrest
    rw [List.length_append, h1, h2, List.length_cons]
    ring

theorem reads_entries {f : ℕ → α → Except EncodeError (List UInt8)} :
    ∀ {as : List α} {i : ℕ} {bytes : List UInt8} {s : DecodeState},
      (∀ a ∈ as, ∀ s i bs, f i a = .ok bs → Reads entry s bs a s) →
      encodeEntries f i as = .ok bytes → s.Covers as.length 0 →
      Reads (many (chargeNode >>= fun _ => entry) as.length) s bytes as (s.charge as.length 0)
  | [], _, bytes, s, _, h, _ => by
    obtain rfl := Except.ok.inj h
    exact Reads.pure [] s
  | a :: as, i, bytes, s, hf, h, hcov => by
    rw [encodeEntries] at h
    obtain ⟨first, hfirst, h⟩ := except_bind_ok_iff.mp h
    obtain ⟨rest, hrest, h⟩ := except_bind_ok_iff.mp h
    obtain rfl := Except.ok.inj h
    rw [List.length_cons, Nat.add_comm] at hcov ⊢
    have h1 := reads_chargeNode (hcov.mono (Nat.le_add_right _ _) le_rfl)
    have h2 := hf a (by simp) (s.charge 1 0) i first hfirst
    have h3 := reads_entries (s := s.charge 1 0) (fun x hx => hf x (by simp [hx])) hrest
      (DecodeState.covers_charge (by simpa using hcov))
    rw [DecodeState.charge_charge, Nat.add_zero] at h3
    rw [Nat.add_comm 1 as.length]
    rw [Nat.add_comm 1 as.length] at h3
    exact (h1.bind_nil h2).bind (h3.bind_pure (Reads.pure _ _))

/-- An encoded table decodes to itself within its cost. -/
theorem decodeTable_encode {f : ℕ → α → Except EncodeError (List UInt8)} {as : List α}
    {bytes : List UInt8} {s : DecodeState} (hmax : as.length ≤ maxTableEntries)
    (hf : ∀ i a bs, f i a = .ok bs → bs.length = entryBytes)
    (hreads : ∀ a ∈ as, ∀ s i bs, f i a = .ok bs → Reads entry s bs a s)
    (h : encodeTable f as = .ok bytes) (hcov : s.Covers as.length (as.length * entrySize)) :
    ReadsAll (decodeTable name label entryBytes entrySize entry) s bytes as
      (s.charge as.length (as.length * entrySize)) := by
  obtain ⟨n, hn, h⟩ := except_bind_ok_iff.mp h
  obtain ⟨body, hbody, h⟩ := except_bind_ok_iff.mp h
  obtain rfl := Except.ok.inj h
  obtain ⟨rfl, h32⟩ := u32Len_ok hn
  have hlen := encodeEntries_length hf hbody
  have hch := reads_chargeBytes hcov
  have hent := reads_entries (s := s.charge 0 (as.length * entrySize)) hreads hbody
    (DecodeState.covers_charge (by simpa using hcov))
  rw [DecodeState.charge_charge, Nat.zero_add, Nat.add_zero] at hent
  refine (reads_readU32 s h32).bindAll ?_
  refine ReadsAll.ensureCount_bind hmax hlen.ge ?_
  exact hch.bindAll_nil (hent.bindAll_last (ReadsAll.expectEmpty_pure _ _ _))

end Table

/-! ## Imports, exports, lambdas -/

section Entries

variable {atoms : List Atom} {e : AtomEncoder}

theorem resolveAtom_ok {index : ℕ} {atom : Atom} (h : resolveAtom index atoms = .ok atom) :
    atom ∈ atoms := by
  unfold resolveAtom at h
  split_ifs at h
  split at h
  · next a ha =>
    obtain rfl := Except.ok.inj h
    exact List.mem_of_getElem? ha
  · cases h

theorem checkedArity_ok {value arity : ℕ} (h : checkedArity value = .ok arity) : arity < 256 := by
  unfold checkedArity at h
  split_ifs at h with hlt
  obtain rfl := Except.ok.inj h
  exact hlt

theorem checkedArity_of_lt {arity : ℕ} (h : arity < 256) : checkedArity arity = .ok arity :=
  if_pos h

/-- The index of an atom resolves to the atom. -/
theorem resolveAtom_indexOf (he : e.atoms = atoms) (hatoms : atoms.length < 2 ^ 32) {atom : Atom}
    {index : ℕ} (h : e.indexOf atom = .ok index) :
    index < 2 ^ 32 ∧ resolveAtom index atoms = .ok atom := by
  obtain ⟨h1, hle, hget⟩ := indexOf_ok h
  rw [he] at hle hget
  refine ⟨by omega, ?_⟩
  unfold resolveAtom
  rw [if_neg (by omega), hget]

def ImportEntry.Decoded (atoms : List Atom) (entry : ImportEntry) : Prop :=
  entry.module ∈ atoms ∧ entry.function ∈ atoms ∧ entry.arity < 256

def ExportEntry.Decoded (atoms : List Atom) (entry : ExportEntry) : Prop :=
  entry.function ∈ atoms ∧ entry.arity < 256 ∧ entry.label < 2 ^ 32

def LambdaEntry.Decoded (atoms : List Atom) (entry : LambdaEntry) : Prop :=
  entry.function ∈ atoms ∧ entry.arity < 256 ∧ entry.label < 2 ^ 32 ∧ entry.numFree < 2 ^ 32

theorem decodeImportEntry_sound {s s' : DecodeState} {entry : ImportEntry} {c c' : List UInt8}
    (h : decodeImportEntry atoms s c = .ok (entry, s', c')) : s = s' ∧ entry.Decoded atoms := by
  simp only [decodeImportEntry, bind_ok_iff, ofExcept_ok_iff, pure_ok_iff] at h
  obtain ⟨_, _, _, h1, m, _, _, ⟨hm, rfl, rfl⟩, _, _, _, h2, f, _, _, ⟨hf, rfl, rfl⟩, _, _, _, h3, a,
    _, _, ⟨ha, rfl, rfl⟩, rfl, rfl, rfl⟩ := h
  obtain ⟨rfl, -, -⟩ := readU32_ok h1
  obtain ⟨rfl, -, -⟩ := readU32_ok h2
  obtain ⟨rfl, -, -⟩ := readU32_ok h3
  exact ⟨rfl, resolveAtom_ok hm, resolveAtom_ok hf, checkedArity_ok ha⟩

theorem decodeExportEntry_sound {s s' : DecodeState} {entry : ExportEntry} {c c' : List UInt8}
    (h : decodeExportEntry atoms s c = .ok (entry, s', c')) : s = s' ∧ entry.Decoded atoms := by
  simp only [decodeExportEntry, bind_ok_iff, ofExcept_ok_iff, pure_ok_iff] at h
  obtain ⟨_, _, _, h1, f, _, _, ⟨hf, rfl, rfl⟩, _, _, _, h2, a, _, _, ⟨ha, rfl, rfl⟩, l, _, _, h3,
    rfl, rfl, rfl⟩ := h
  obtain ⟨rfl, -, -⟩ := readU32_ok h1
  obtain ⟨rfl, -, -⟩ := readU32_ok h2
  obtain ⟨rfl, hl, -⟩ := readU32_ok h3
  exact ⟨rfl, resolveAtom_ok hf, checkedArity_ok ha, hl⟩

theorem decodeLambdaEntry_sound {s s' : DecodeState} {entry : LambdaEntry} {c c' : List UInt8}
    (h : decodeLambdaEntry atoms s c = .ok (entry, s', c')) :
    s = s' ∧ entry.Decoded atoms ∧ entry.uniqueId = 0 := by
  simp only [decodeLambdaEntry, bind_ok_iff, ofExcept_ok_iff, pure_ok_iff] at h
  obtain ⟨_, _, _, h1, f, _, _, ⟨hf, rfl, rfl⟩, _, _, _, h2, a, _, _, ⟨ha, rfl, rfl⟩, l, _, _, h3,
    _, _, _, h4, n, _, _, h5, _, _, _, h6, rfl, rfl, rfl⟩ := h
  obtain ⟨rfl, -, -⟩ := readU32_ok h1
  obtain ⟨rfl, -, -⟩ := readU32_ok h2
  obtain ⟨rfl, hl, -⟩ := readU32_ok h3
  obtain ⟨rfl, -, -⟩ := readU32_ok h4
  obtain ⟨rfl, hn, -⟩ := readU32_ok h5
  obtain ⟨rfl, -, -⟩ := readU32_ok h6
  exact ⟨rfl, ⟨resolveAtom_ok hf, checkedArity_ok ha, hl, hn⟩, rfl⟩

theorem reads_importEntry (he : e.atoms = atoms) (hatoms : atoms.length < 2 ^ 32)
    {entry : ImportEntry} (hd : entry.Decoded atoms) (s : DecodeState) (i : ℕ) {bytes : List UInt8}
    (h : encodeImportEntry e i entry = .ok bytes) :
    Reads (decodeImportEntry atoms) s bytes entry s := by
  obtain ⟨m, hm, h⟩ := except_bind_ok_iff.mp h
  obtain ⟨f, hf, h⟩ := except_bind_ok_iff.mp h
  obtain rfl := Except.ok.inj h
  obtain ⟨hm32, hmres⟩ := resolveAtom_indexOf he hatoms hm
  obtain ⟨hf32, hfres⟩ := resolveAtom_indexOf he hatoms hf
  have harity := hd.2.2
  rw [List.append_assoc]
  exact (reads_readU32 s hm32).bind ((Reads.ofExcept s hmres).bind_nil
    ((reads_readU32 s hf32).bind ((Reads.ofExcept s hfres).bind_nil
      ((reads_readU32 s (by omega)).bind_pure
        ((Reads.ofExcept s (checkedArity_of_lt harity)).bind_nil (Reads.pure entry s))))))

theorem reads_exportEntry (he : e.atoms = atoms) (hatoms : atoms.length < 2 ^ 32)
    {entry : ExportEntry} (hd : entry.Decoded atoms) (s : DecodeState) (i : ℕ) {bytes : List UInt8}
    (h : encodeExportEntry e i entry = .ok bytes) :
    Reads (decodeExportEntry atoms) s bytes entry s := by
  obtain ⟨f, hf, h⟩ := except_bind_ok_iff.mp h
  obtain rfl := Except.ok.inj h
  obtain ⟨hf32, hfres⟩ := resolveAtom_indexOf he hatoms hf
  obtain ⟨-, harity, hlabel⟩ := hd
  rw [List.append_assoc]
  exact (reads_readU32 s hf32).bind ((Reads.ofExcept s hfres).bind_nil
    ((reads_readU32 s (by omega)).bind ((Reads.ofExcept s (checkedArity_of_lt harity)).bind_nil
      ((reads_readU32 s hlabel).bind_pure (Reads.pure entry s)))))

/-- A lambda is read back without its identifier. -/
theorem reads_lambdaEntry (he : e.atoms = atoms) (hatoms : atoms.length < 2 ^ 32)
    {entry : LambdaEntry} (hd : entry.Decoded atoms) (s : DecodeState) (i : ℕ) {bytes : List UInt8}
    (h : encodeLambdaEntry e i entry = .ok bytes) :
    Reads (decodeLambdaEntry atoms) s bytes { entry with uniqueId := 0 } s := by
  obtain ⟨f, hf, h⟩ := except_bind_ok_iff.mp h
  obtain ⟨n, hn, h⟩ := except_bind_ok_iff.mp h
  obtain rfl := Except.ok.inj h
  obtain ⟨hf32, hfres⟩ := resolveAtom_indexOf he hatoms hf
  obtain ⟨-, harity, hlabel, hfree⟩ := hd
  obtain ⟨rfl, hi32⟩ := u32Len_ok hn
  simp only [List.append_assoc]
  exact (reads_readU32 s hf32).bind ((Reads.ofExcept s hfres).bind_nil
    ((reads_readU32 s (by omega)).bind ((Reads.ofExcept s (checkedArity_of_lt harity)).bind_nil
      ((reads_readU32 s hlabel).bind ((reads_readU32 s hi32).bind
        ((reads_readU32 s hfree).bind ((reads_readU32 s (by norm_num)).bind_pure
          (Reads.pure { entry with uniqueId := 0 } s))))))))

theorem encodeImportEntry_length {i : ℕ} {entry : ImportEntry} {bytes : List UInt8}
    (h : encodeImportEntry e i entry = .ok bytes) : bytes.length = 12 := by
  obtain ⟨m, -, h⟩ := except_bind_ok_iff.mp h
  obtain ⟨f, -, h⟩ := except_bind_ok_iff.mp h
  obtain rfl := Except.ok.inj h
  simp

theorem encodeExportEntry_length {i : ℕ} {entry : ExportEntry} {bytes : List UInt8}
    (h : encodeExportEntry e i entry = .ok bytes) : bytes.length = 12 := by
  obtain ⟨f, -, h⟩ := except_bind_ok_iff.mp h
  obtain rfl := Except.ok.inj h
  simp

theorem encodeLambdaEntry_length {i : ℕ} {entry : LambdaEntry} {bytes : List UInt8}
    (h : encodeLambdaEntry e i entry = .ok bytes) : bytes.length = 24 := by
  obtain ⟨f, -, h⟩ := except_bind_ok_iff.mp h
  obtain ⟨n, -, h⟩ := except_bind_ok_iff.mp h
  obtain rfl := Except.ok.inj h
  simp

/-- Identifiers are a function of the other fields, so assigning them again changes nothing. -/
theorem assignLambdaUniqueIds_reset {moduleName : Atom} {table more : AtomTable}
    (hx : more.Extends table) : ∀ {lambdas assigned : List LambdaEntry},
      assignLambdaUniqueIds moduleName table lambdas = .ok assigned →
      assignLambdaUniqueIds moduleName more
        (assigned.map fun l => { l with uniqueId := 0 }) = .ok assigned
  | [], assigned, h => by
    obtain rfl := Except.ok.inj h
    rfl
  | lambda :: lambdas, assigned, h => by
    rw [assignLambdaUniqueIds] at h
    obtain ⟨uid, huid, h⟩ := except_bind_ok_iff.mp h
    obtain ⟨rest, hrest, h⟩ := except_bind_ok_iff.mp h
    obtain rfl := Except.ok.inj h
    have hsame : lambdaUniqueId more moduleName lambda.function lambda.arity lambda.numFree =
        .ok uid := by
      unfold lambdaUniqueId at huid ⊢
      cases hm : table.resolve moduleName with
      | none => rw [hm] at huid; cases huid
      | some mb =>
        rw [hm] at huid
        cases hf : table.resolve lambda.function with
        | none => rw [hf] at huid; cases huid
        | some fb =>
          rw [hf] at huid
          rw [hx.resolve hm, hx.resolve hf]
          exact huid
    rw [List.map_cons, assignLambdaUniqueIds]
    exact except_bind_ok_iff.mpr ⟨uid, hsame,
      except_bind_ok_iff.mpr ⟨rest, assignLambdaUniqueIds_reset hx hrest, rfl⟩⟩

theorem assignLambdaUniqueIds_decoded {moduleName : Atom} {table : AtomTable} :
    ∀ {lambdas assigned : List LambdaEntry},
      assignLambdaUniqueIds moduleName table lambdas = .ok assigned →
      (∀ l ∈ lambdas, l.Decoded atoms) →
      assigned.length = lambdas.length ∧ ∀ l ∈ assigned, l.Decoded atoms
  | [], assigned, h, _ => by
    obtain rfl := Except.ok.inj h
    simp
  | lambda :: lambdas, assigned, h, hd => by
    rw [assignLambdaUniqueIds] at h
    obtain ⟨uid, -, h⟩ := except_bind_ok_iff.mp h
    obtain ⟨rest, hrest, h⟩ := except_bind_ok_iff.mp h
    obtain rfl := Except.ok.inj h
    obtain ⟨hlen, hall⟩ := assignLambdaUniqueIds_decoded hrest fun l hl => hd l (by simp [hl])
    refine ⟨by simp [hlen], ?_⟩
    intro l hl
    rcases List.mem_cons.mp hl with rfl | hl
    · exact hd lambda (by simp)
    · exact hall l hl

end Entries

/-! ## Lines -/

def LineInfo.Decoded (info : LineInfo) : Prop := info.file < 2 ^ 32 ∧ info.line < 2 ^ 32

theorem lineU32_ok {value : ℤ} {context : String} {v : ℕ} (h : lineU32 value context = .ok v) :
    v < 2 ^ 32 := by
  unfold lineU32 at h
  split_ifs at h with hr
  obtain rfl := Except.ok.inj h
  omega

theorem lineU32_of_lt {v : ℕ} (h : v < 2 ^ 32) (context : String) :
    lineU32 v context = .ok v := by
  unfold lineU32
  rw [if_pos ⟨by omega, by exact_mod_cast h⟩, Int.toNat_natCast]

theorem readTaggedInteger_ok {s s' : DecodeState} {v : ℕ × ℤ} {c c' : List UInt8}
    (h : (readTaggedInteger : LoadM _) s c = .ok (v, s', c')) : s = s' ∧ FitsSigned 64 v.2 := by
  simp only [readTaggedInteger, bind_ok_iff, ofExcept_ok_iff] at h
  obtain ⟨w, s₁, c₁, hw, hv, rfl, rfl⟩ := h
  obtain ⟨rfl, hword, -⟩ := readTaggedValue_ok hw
  obtain ⟨tag, value | payload⟩ := w
  · obtain rfl := Except.ok.inj hv
    exact ⟨rfl, hword⟩
  · cases hv

theorem reads_readTaggedInteger (s : DecodeState) {bytes : List UInt8} {tag : ℕ} {value : ℤ}
    (h : ∀ rest, taggedValue (bytes ++ rest) = .ok ((tag, .small value), rest)) :
    Reads (readTaggedInteger : LoadM _) s bytes (tag, value) s :=
  (reads_taggedValue s h).bind_pure (Reads.ofExcept s rfl)

theorem decodeLine_sound {currentFile : ℕ} (hcur : currentFile < 2 ^ 32) {s s' : DecodeState}
    {info : LineInfo} {c c' : List UInt8} (h : decodeLine currentFile s c = .ok (info, s', c')) :
    info.Decoded ∧ Spent s s' 1 0 := by
  rw [decodeLine] at h
  obtain ⟨_, s₁, c₁, hnode, h⟩ := bind_ok_iff.mp h
  obtain ⟨-, hone⟩ := chargeNode_ok hnode
  obtain ⟨⟨tag, value⟩, s₂, c₂, hv, h⟩ := bind_ok_iff.mp h
  obtain ⟨rfl, -⟩ := readTaggedInteger_ok hv
  dsimp only at h
  split_ifs at h with h01 h2
  · simp only [bind_ok_iff, ofExcept_ok_iff, pure_ok_iff] at h
    obtain ⟨line, _, _, ⟨hline, rfl, rfl⟩, rfl, rfl, rfl⟩ := h
    exact ⟨⟨hcur, lineU32_ok hline⟩, hone⟩
  · obtain ⟨file, _, _, hfile, h⟩ := bind_ok_iff.mp h
    obtain ⟨hfu, rfl, rfl⟩ := ofExcept_ok_iff.mp hfile
    obtain ⟨⟨lineTag, lineValue⟩, s₃, c₃, hlv, h⟩ := bind_ok_iff.mp h
    obtain ⟨rfl, -⟩ := readTaggedInteger_ok hlv
    dsimp only at h
    split_ifs at h with h1
    · exact absurd h not_fail_ok
    · simp only [bind_ok_iff, ofExcept_ok_iff, pure_ok_iff] at h
      obtain ⟨line, _, _, ⟨hline, rfl, rfl⟩, rfl, rfl, rfl⟩ := h
      exact ⟨⟨lineU32_ok hfu, lineU32_ok hline⟩, hone⟩
  · exact absurd h not_fail_ok

theorem decodeLines_sound : ∀ (n : ℕ) {currentFile : ℕ}, currentFile < 2 ^ 32 →
    ∀ {s s' : DecodeState} {infos : List LineInfo} {c c' : List UInt8},
      decodeLines currentFile n s c = .ok (infos, s', c') →
      infos.length = n ∧ (∀ info ∈ infos, info.Decoded) ∧ Spent s s' n 0
  | 0, _, _, s, s', infos, c, c', h => by
    obtain ⟨rfl, rfl, rfl⟩ := pure_ok_iff.mp h
    exact ⟨rfl, by simp, Spent.refl s⟩
  | n + 1, _, hcur, s, s', infos, c, c', h => by
    simp only [decodeLines, bind_ok_iff, pure_ok_iff] at h
    obtain ⟨info, s₁, c₁, hinfo, rest, s₂, c₂, hrest, rfl, rfl, rfl⟩ := h
    obtain ⟨hdec, hone⟩ := decodeLine_sound hcur hinfo
    obtain ⟨hlen, hall, hsp⟩ := decodeLines_sound n hdec.1 hrest
    refine ⟨by simp [hlen], by simpa using ⟨hdec, hall⟩, ?_⟩
    rw [Nat.add_comm]
    exact hone.trans hsp

theorem decodeLineChunk_sound {s s' : DecodeState} {infos : List LineInfo} {c c' : List UInt8}
    (h : decodeLineChunk s c = .ok (infos, s', c')) :
    (∀ info ∈ infos, info.Decoded) ∧ infos.length ≤ maxTableEntries ∧
      Spent s s' infos.length (infos.length * sizeOfLineInfo) := by
  rw [decodeLineChunk] at h
  obtain ⟨unread, _, _, hrem, h⟩ := bind_ok_iff.mp h
  obtain ⟨rfl, rfl, rfl⟩ := remaining_ok_iff.mp hrem
  split_ifs at h with hempty
  · obtain ⟨rfl, rfl, rfl⟩ := pure_ok_iff.mp h
    exact ⟨by simp, by simp, Spent.refl s⟩
  · simp only [decodeLineTable, bind_ok_iff, require_ok_iff, pure_ok_iff] at h
    obtain ⟨_, _, _, h1, _, _, _, h2, _, _, _, h3, n, _, _, h4, _, _, _, h5, _, _, _, hens, _, s₁, _,
      hcharge, infos', s₂, _, hlines, _, _, _, ⟨-, rfl, rfl⟩, rfl, rfl, rfl⟩ := h
    obtain ⟨rfl, -, -⟩ := readU32_ok h1
    obtain ⟨rfl, -, -⟩ := readU32_ok h2
    obtain ⟨rfl, -, -⟩ := readU32_ok h3
    obtain ⟨rfl, -, -⟩ := readU32_ok h4
    obtain ⟨rfl, -, -⟩ := readU32_ok h5
    obtain ⟨rfl, -, hmax, -⟩ := ensureCount_ok hens
    obtain ⟨-, hspent⟩ := chargeBytes_ok hcharge
    obtain ⟨hlen, hall, hsp⟩ := decodeLines_sound n (by norm_num) hlines
    refine ⟨hall, by omega, ?_⟩
    rw [hlen]
    simpa using hspent.trans hsp

theorem natCast_fitsSigned {v : ℕ} (h : v < 2 ^ 63) : FitsSigned 64 (v : ℤ) := by
  unfold FitsSigned
  omega

theorem reads_line {f : ℕ} {info : LineInfo} (hd : info.Decoded) {s : DecodeState}
    (hcov : s.Covers 1 0) :
    Reads (decodeLine f) s (encodeLine f info) info (s.charge 1 0) := by
  obtain ⟨hfile, hline⟩ := hd
  have hnum := reads_readTaggedInteger (s.charge 1 0)
    (taggedValue_pushSigned (natCast_fitsSigned (hline.trans (by norm_num))))
  have hlu := lineU32_of_lt hline "line number"
  unfold encodeLine
  refine (reads_chargeNode hcov).bind_nil ?_
  by_cases hsame : info.file ≠ f
  · rw [if_pos hsame]
    have href := reads_readTaggedInteger (s.charge 1 0)
      (taggedValue_pushUnsigned (t := 2) (by norm_num) (by norm_num)
        (hfile.trans (by norm_num)))
    refine href.bind ?_
    have hfu := lineU32_of_lt hfile "line file index"
    simp only [show ¬ (2 = 0 ∨ 2 = 1) by norm_num, if_false, if_true]
    refine (Reads.ofExcept _ hfu).bind_nil (hnum.bind_pure ?_)
    simp only [ne_eq, not_true_eq_false, if_false]
    exact (Reads.ofExcept _ hlu).bind_nil (Reads.pure info _)
  · rw [if_neg hsame, List.nil_append]
    obtain rfl : info.file = f := not_not.mp hsame
    refine hnum.bind_pure ?_
    simp only [or_true, if_true]
    exact (Reads.ofExcept _ hlu).bind_nil (Reads.pure info _)

theorem encodeLines_length : ∀ (currentFile : ℕ) (infos : List LineInfo),
    infos.length ≤ (encodeLines currentFile infos).length
  | _, [] => by simp
  | currentFile, info :: infos => by
    have h1 := encodeLines_length info.file infos
    have h2 := pushSigned_pos 1 info.line
    simp only [encodeLines, encodeLine, List.length_append, List.length_cons]
    omega

theorem reads_lines : ∀ {infos : List LineInfo} {f : ℕ} {s : DecodeState},
    (∀ info ∈ infos, info.Decoded) → s.Covers infos.length 0 →
    Reads (decodeLines f infos.length) s (encodeLines f infos) infos
      (s.charge infos.length 0)
  | [], _, s, _, _ => Reads.pure [] s
  | info :: infos, currentFile, s, hd, hcov => by
    rw [List.length_cons] at hcov ⊢
    have h1 := reads_line (f := currentFile) (hd info (by simp))
      (hcov.mono (show 1 ≤ infos.length + 1 by omega) le_rfl)
    rw [Nat.add_comm] at hcov
    have h2 := reads_lines (f := info.file) (s := s.charge 1 0)
      (fun x (hx : x ∈ infos) => hd x (by simp [hx])) (DecodeState.covers_charge (by simpa using hcov))
    rw [DecodeState.charge_charge, Nat.add_zero, Nat.add_comm] at h2
    exact h1.bind (h2.bind_pure (Reads.pure _ _))

theorem decodeLineChunk_encode {infos : List LineInfo} {bytes : List UInt8} {s : DecodeState}
    (hd : ∀ info ∈ infos, info.Decoded) (hmax : infos.length ≤ maxTableEntries)
    (h : encodeLineChunk infos = .ok bytes)
    (hcov : s.Covers infos.length (infos.length * sizeOfLineInfo)) :
    ReadsAll decodeLineChunk s bytes infos
      (s.charge infos.length (infos.length * sizeOfLineInfo)) := by
  obtain ⟨n, hn, h⟩ := except_bind_ok_iff.mp h
  obtain rfl := Except.ok.inj h
  obtain ⟨rfl, h32⟩ := u32Len_ok hn
  have hch := reads_chargeBytes hcov
  have hlines := reads_lines (f := 0) (s := s.charge 0 (infos.length * sizeOfLineInfo)) hd
    (DecodeState.covers_charge (by simpa using hcov))
  rw [DecodeState.charge_charge, Nat.zero_add, Nat.add_zero] at hlines
  have hlen := encodeLines_length 0 infos
  simp only [List.append_assoc]
  have hbody : ReadsAll decodeLineTable s (u32Bytes 0 ++ (u32Bytes 0 ++ (u32Bytes infos.length ++
        (u32Bytes infos.length ++ (u32Bytes 0 ++ encodeLines 0 infos))))) infos
      (s.charge infos.length (infos.length * sizeOfLineInfo)) := by
    refine (reads_readU32 s (by norm_num)).bindAll ((reads_readU32 s (by norm_num)).bindAll
      ((reads_readU32 s h32).bindAll ((reads_readU32 s h32).bindAll
        ((reads_readU32 s (by norm_num)).bindAll ?_))))
    refine ReadsAll.ensureCount_bind hmax (by simpa using hlen) ?_
    refine hch.bindAll_nil (hlines.bindAll_last ?_)
    exact ((Reads.require _ _ (by simp)).bind_nil (Reads.pure infos _)).all
  unfold ReadsAll at hbody ⊢
  rw [decodeLineChunk, bind_apply]
  simp only [remaining]
  rw [if_neg (by simp [u32Bytes, beBytes, leBytes])]
  exact hbody

/-! ## Atoms -/

/-- Atoms the decoder returns: interned under a name whose length fits the length prefix. -/
def AtomDecoded (table : AtomTable) (atom : Atom) : Prop :=
  ∃ name, table.resolve atom = some name ∧ name.length < 2 ^ 63

theorem AtomDecoded.extends {table more : AtomTable} (hx : more.Extends table) {atom : Atom}
    (h : AtomDecoded table atom) : AtomDecoded more atom := by
  obtain ⟨name, hr, hlen⟩ := h
  exact ⟨name, hx.resolve hr, hlen⟩

theorem readAtomLength_ok {compactLengths : Bool} {s s' : DecodeState} {len : ℕ}
    {c c' : List UInt8} (h : readAtomLength compactLengths s c = .ok (len, s', c')) :
    s = s' ∧ len < 2 ^ 63 := by
  unfold readAtomLength at h
  split_ifs at h
  · rw [readCompactLength] at h
    obtain ⟨⟨tag, value⟩, s₁, c₁, hv, h⟩ := bind_ok_iff.mp h
    obtain ⟨rfl, hfit⟩ := readTaggedInteger_ok hv
    dsimp only at h hfit
    split_ifs at h with hbad
    · exact absurd h not_fail_ok
    · obtain ⟨rfl, rfl, rfl⟩ := pure_ok_iff.mp h
      have := hfit.2
      exact ⟨rfl, by norm_num at this ⊢; omega⟩
  · simp only [bind_ok_iff, pure_ok_iff] at h
    obtain ⟨b, s₁, c₁, hb, rfl, rfl, rfl⟩ := h
    have hlt := b.toNat_lt
    exact ⟨readU8_ok hb, by omega⟩

theorem decodeAtomEntry_sound {compactLengths : Bool} {s s' : DecodeState} {atom : Atom}
    {c c' : List UInt8} (h : decodeAtomEntry compactLengths s c = .ok (atom, s', c')) :
    AtomDecoded s'.atomTable atom ∧ Spent s s' 1 0 := by
  simp only [decodeAtomEntry, bind_ok_iff] at h
  obtain ⟨_, s₁, c₁, hnode, len, s₂, c₂, hlen, text, s₃, c₃, htext, h⟩ := h
  obtain ⟨-, hone⟩ := chargeNode_ok hnode
  obtain ⟨rfl, h63⟩ := readAtomLength_ok hlen
  obtain ⟨rfl, htl⟩ := readBytes_ok htext
  obtain ⟨-, hsp, hres⟩ := internName_ok h
  exact ⟨⟨text, hres, by omega⟩, hone.trans hsp⟩

theorem decodeAtomChunk_sound {s s' : DecodeState} {atoms : List Atom} {c c' : List UInt8}
    (h : decodeAtomChunk s c = .ok (atoms, s', c')) :
    (∀ atom ∈ atoms, AtomDecoded s'.atomTable atom) ∧ atoms.length ≤ maxTableEntries ∧
      Spent s s' atoms.length (atoms.length * sizeOfAtom) := by
  simp only [decodeAtomChunk, bind_ok_iff, pure_ok_iff] at h
  obtain ⟨raw, s₀, c₀, hraw, _, s₁, c₁, hens, _, s₂, c₂, hcharge, as', s₃, c₃, hmany, _, s₄, c₄,
    hempty, rfl, rfl, rfl⟩ := h
  obtain ⟨rfl, -⟩ := readI32_ok hraw
  obtain ⟨rfl, -, hmax, -⟩ := ensureCount_ok hens
  obtain ⟨-, hspent⟩ := chargeBytes_ok hcharge
  obtain ⟨rfl, -, -⟩ := expectEmpty_ok hempty
  obtain ⟨hlen, hall, hsp⟩ := many_ok (P := fun as s _ s' _ =>
    (∀ a ∈ as, AtomDecoded s'.atomTable a) ∧ Spent s s' as.length 0)
    (fun s _ => ⟨by simp, Spent.refl s⟩) (by
      rintro a as s c s₁ c₁ s' c' ha ⟨hall, hsp⟩
      obtain ⟨hdec, hone⟩ := decodeAtomEntry_sound ha
      refine ⟨?_, by rw [List.length_cons, Nat.add_comm]; exact hone.trans hsp⟩
      intro x hx
      rcases List.mem_cons.mp hx with rfl | hx
      · exact hdec.extends hsp.2.2
      · exact hall x hx) _ hmany
  refine ⟨hall, by omega, ?_⟩
  rw [hlen] at hsp ⊢
  simpa using hspent.trans hsp

theorem mapM_resolve_ok {e : AtomEncoder} : ∀ {atoms : List Atom} {names : List (List UInt8)},
    atoms.mapM e.resolve = .ok names →
      List.Forall₂ (fun atom name => e.atomTable.resolve atom = some name) atoms names
  | [], names, h => by
    obtain rfl := Except.ok.inj h
    exact .nil
  | atom :: atoms, names, h => by
    rw [List.mapM_cons] at h
    obtain ⟨name, hname, h⟩ := except_bind_ok_iff.mp h
    obtain ⟨rest, hrest, h⟩ := except_bind_ok_iff.mp h
    obtain rfl := Except.ok.inj h
    exact .cons (resolve_ok hname) (mapM_resolve_ok hrest)

theorem reads_atomLength (s : DecodeState) {c : Bool} {len : ℕ} (h63 : len < 2 ^ 63)
    (h : c = false → len < 256) :
    Reads (readAtomLength c) s
      (if c then pushUnsigned 0 len else [UInt8.ofNat len]) len s := by
  unfold readAtomLength
  cases c with
  | true =>
    have htag := reads_readTaggedInteger s
      (taggedValue_pushUnsigned (t := 0) (by norm_num) (by norm_num) h63)
    refine htag.bind_pure ?_
    have hok : ¬ ((0 : ℕ) ≠ 0 ∨ ((len : ℕ) : ℤ) < 0) := by omega
    simp only [if_neg hok, Int.toNat_natCast]
    exact Reads.pure len s
  | false =>
    refine (reads_readU8 s _).bind_pure ?_
    rw [toNat_ofNat_of_lt (h rfl)]
    exact Reads.pure len s

theorem encodeAtomEntry_eq (compactLengths : Bool) (name : List UInt8) :
    encodeAtomEntry compactLengths name =
      (if compactLengths then pushUnsigned 0 name.length else [UInt8.ofNat name.length]) ++ name := by
  cases compactLengths <;> rfl

theorem reads_atomEntries {c : Bool} {table : AtomTable} :
    ∀ {atoms : List Atom} {names : List (List UInt8)} {s : DecodeState},
      List.Forall₂ (fun atom name => table.resolve atom = some name) atoms names →
      s.atomTable = table → (∀ name ∈ names, name.length < 2 ^ 63) →
      (c = false → ∀ name ∈ names, name.length < 256) → s.Covers atoms.length 0 →
      Reads (many (decodeAtomEntry c) atoms.length) s
        (names.flatMap (encodeAtomEntry c)) atoms (s.charge atoms.length 0)
  | [], [], s, _, _, _, _, _ => Reads.pure [] s
  | atom :: atoms, name :: names, s, .cons hr hrs, ht, h63, h256, hcov => by
    rw [List.length_cons] at hcov ⊢
    have hnode := reads_chargeNode (hcov.mono (show 1 ≤ atoms.length + 1 by omega) le_rfl)
    have hlen := reads_atomLength (s.charge 1 0) (c := c)
      (h63 name (by simp)) (fun hc => h256 hc name (by simp))
    have hname := internName_reads (s := s.charge 1 0)
      (.decodeError "atom name is not valid UTF-8") (show _ = some name by rw [← ht] at hr; exact hr)
    have hone : Reads (decodeAtomEntry c) s (encodeAtomEntry c name) atom
        (s.charge 1 0) := by
      rw [encodeAtomEntry_eq]
      exact hnode.bind_nil (hlen.bind ((reads_readBytes _ name).bind_pure hname))
    rw [Nat.add_comm] at hcov
    have hrest := reads_atomEntries (c := c) (s := s.charge 1 0) hrs ht
      (fun x hx => h63 x (by simp [hx])) (fun hc x hx => h256 hc x (by simp [hx]))
      (DecodeState.covers_charge (by simpa using hcov))
    rw [DecodeState.charge_charge, Nat.add_zero, Nat.add_comm] at hrest
    exact hone.bind (hrest.bind_pure (Reads.pure _ _))

theorem encodeAtomEntries_length (compactLengths : Bool) (names : List (List UInt8)) :
    names.length ≤ (names.flatMap (encodeAtomEntry compactLengths)).length := by
  induction names with
  | nil => simp
  | cons name names ih =>
    have hpos : 1 ≤ (encodeAtomEntry compactLengths name).length := by
      rw [encodeAtomEntry_eq]
      have := pushUnsigned_pos 0 name.length
      cases compactLengths with
      | true => simp only [if_true, List.length_append]; omega
      | false => simp
    simp only [List.flatMap_cons, List.length_append, List.length_cons]
    omega

theorem decodeAtomChunk_encode {e : AtomEncoder} {atoms : List Atom} {bytes : List UInt8}
    {s : DecodeState} (hd : ∀ atom ∈ atoms, AtomDecoded e.atomTable atom)
    (hmax : atoms.length ≤ maxTableEntries) (ht : s.atomTable = e.atomTable)
    (h : encodeAtomChunk e atoms = .ok bytes)
    (hcov : s.Covers atoms.length (atoms.length * sizeOfAtom)) :
    ReadsAll decodeAtomChunk s bytes atoms
      (s.charge atoms.length (atoms.length * sizeOfAtom)) := by
  obtain ⟨names, hnames, h⟩ := except_bind_ok_iff.mp h
  have hfor := mapM_resolve_ok hnames
  have hlen : atoms.length = names.length := hfor.length_eq
  have h63 : ∀ name ∈ names, name.length < 2 ^ 63 := by
    intro name hname
    obtain ⟨atom, hatom, hr⟩ := (List.forall₂_iff_get.mp hfor |> fun hg => by
      obtain ⟨i, hi, rfl⟩ := List.mem_iff_getElem.mp hname
      exact ⟨atoms[i], List.getElem_mem (by omega), hg.2 i (by omega) hi⟩ :
      ∃ atom, atom ∈ atoms ∧ e.atomTable.resolve atom = some name)
    obtain ⟨name', hr', hl⟩ := hd atom hatom
    obtain rfl := Option.some.inj (hr.symm.trans hr')
    exact hl
  split_ifs at h with h31
  obtain rfl := Except.ok.inj h
  set compactLengths := names.any fun name => decide (255 < name.length) with hcompact
  have h256 : compactLengths = false → ∀ name ∈ names, name.length < 256 := by
    intro hc name hname
    have hle := List.any_eq_false.mp (hcompact ▸ hc) name hname
    simp only [decide_eq_true_eq, not_lt] at hle
    omega
  set count : ℤ := if compactLengths then -(names.length : ℤ) else names.length with hcount
  have habs : count.natAbs = atoms.length := by
    rw [hcount, hlen]
    split_ifs <;> omega
  have hneg : atoms ≠ [] → decide (count < 0) = compactLengths := by
    intro hne
    have hpos : 0 < names.length := by rw [← hlen]; exact List.length_pos_iff.mpr hne
    rw [hcount]
    cases compactLengths with
    | true => simp; omega
    | false => simp
  have hfit : FitsSigned 32 count := by
    unfold FitsSigned
    have : count.natAbs < 2 ^ 31 := by rw [habs, hlen]; exact h31
    norm_num at this ⊢
    omega
  have hch := reads_chargeBytes hcov
  have hents := reads_atomEntries (c := compactLengths)
    (s := s.charge 0 (atoms.length * sizeOfAtom)) hfor ht h63 h256
    (DecodeState.covers_charge (by simpa using hcov))
  rw [DecodeState.charge_charge, Nat.zero_add, Nat.add_zero] at hents
  have hel := encodeAtomEntries_length compactLengths names
  refine (reads_readI32 s hfit).bindAll ?_
  rw [habs]
  refine ReadsAll.ensureCount_bind hmax (by omega) ?_
  refine hch.bindAll_nil ?_
  have hsame : many (decodeAtomEntry (decide (count < 0))) atoms.length =
      many (decodeAtomEntry compactLengths) atoms.length := by
    by_cases hne : atoms = []
    · rw [hne]; rfl
    · rw [hneg hne]
  rw [hsame]
  exact hents.bindAll_last (ReadsAll.expectEmpty_pure _ _ _)

end Beamr.Loader
