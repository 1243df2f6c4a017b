import Beamr.Loader.Encodes

/-!
# The literal table read back

A table that the decoder has returned encodes again, and the bytes decode to it, exactly when its
payload fits the size field and the allowance covers what it costs. The cost is not the one of the
bytes it came from: a negative integer of one byte has a shorter form that the encoder does not
write.
-/
namespace Beamr.Loader

open ByteOrder Decoder

/-- The table encodes, and reading the bytes with `t` gives it back. An empty table has no chunk. -/
def TableReturns (inflate : Inflate) (e : AtomEncoder) (t : DecodeState) (literals : List Literal) :
    Prop :=
  ∃ chunk t', encodeLiteralChunk e literals = .ok chunk ∧
    runOptional (decodeLiteralChunk inflate) t chunk = .ok (literals, t')

section Table

variable {e : AtomEncoder} {t : DecodeState} {literals : List Literal}

theorem runOptional_encoded (inflate : Inflate) {chunk : Option (List UInt8)}
    (hd : ∀ l ∈ literals, l.Decoded e.atomTable maxEtfDepth)
    (hmax : literals.length ≤ maxTableEntries) (ht : t.atomTable = e.atomTable)
    (h : encodeLiteralChunk e literals = .ok chunk)
    (hcov : t.Covers (tableNodes literals) (literalBytes e.atomTable literals)) :
    ∃ t', runOptional (decodeLiteralChunk inflate) t chunk = .ok (literals, t') := by
  cases chunk with
  | none =>
    rw [encodeLiteralChunk_none h]
    exact ⟨t, rfl⟩
  | some bytes =>
    rw [literalBytes, encodeLiteralChunk_nonempty h] at hcov
    obtain ⟨_, hrun⟩ := @decodeLiteralChunk_encode e inflate _ _ _ hd hmax ht h hcov
    exact ⟨_, runChunk_of_ok hrun⟩

/-- A table of the decoder comes back from its encoding exactly when its payload is below 4 GiB and
the allowance covers its cost. -/
theorem literalTable_returns_iff {inflate : Inflate} {s s' : DecodeState} {bytes rest : List UInt8}
    (h : decodeLiteralChunk inflate s bytes = .ok (literals, s', rest))
    (he : e.atomTable = s'.atomTable) (ht : t.atomTable = s'.atomTable) :
    TableReturns inflate e t literals ↔
      payloadSize s'.atomTable literals < 2 ^ 32 ∧
        t.Covers (tableNodes literals) (literalBytes s'.atomTable literals) := by
  obtain ⟨hd, hmax, -⟩ := decodeLiteralChunk_sound h
  rw [← encodeLiteralChunk_succeeds_iff he hd, ← he]
  constructor
  · rintro ⟨chunk, t', hencode, hrun⟩
    exact ⟨⟨chunk, hencode⟩, ((reload_literals_spent hencode hrun).2 rfl).covers⟩
  · rintro ⟨⟨chunk, hencode⟩, hcov⟩
    rw [← he] at hd ht
    obtain ⟨t', hrun⟩ := runOptional_encoded inflate hd hmax ht hencode hcov
    exact ⟨chunk, t', hencode, hrun⟩

end Table

/-- An entry of the table: a size, a version byte and the term. -/
def entryOf (term : List UInt8) : List UInt8 := u32Bytes (131 :: term).length ++ 131 :: term

/-- The table with minus one in its four-byte form, under the default allowance. -/
theorem literalTable_returns_minusOne :
    let s : DecodeState := ⟨.withCommonAtoms, .default⟩
    let chunk := u32Bytes 0 ++ (u32Bytes 1 ++ entryOf [110, 1, 1, 1])
    ∃ s' rest, decodeLiteralChunk noInflate s chunk = .ok ([.integer (-1)], s', rest) ∧
      TableReturns noInflate ⟨[], s'.atomTable, false⟩ s [.integer (-1)] := by
  intro s chunk
  have hload : ∃ s' rest, decodeLiteralChunk noInflate s chunk = .ok ([.integer (-1)], s', rest) ∧
      s'.atomTable = s.atomTable := ⟨_, _, rfl, rfl⟩
  obtain ⟨s', rest, hload, hatoms⟩ := hload
  refine ⟨s', rest, hload, (literalTable_returns_iff hload rfl hatoms.symm).mpr ?_⟩
  rw [hatoms]
  exact ⟨by decide, by decide, by decide⟩

/-! ## A table at the limit -/

/-- Two times minus one in its four-byte form and a binary of `n` bytes. -/
def tightTable (n : ℕ) : List Literal :=
  [.integer (-1), .integer (-1), .binary (List.replicate n 0)]

def tightEntries (n : ℕ) : List UInt8 :=
  entryOf [110, 1, 1, 1] ++ (entryOf [110, 1, 1, 1] ++
    (entryOf (109 :: (u32Bytes n ++ List.replicate n 0)) ++ []))

def tightChunk (n : ℕ) : List UInt8 := u32Bytes 0 ++ (u32Bytes 3 ++ tightEntries n)

theorem reads_minusOne {s : DecodeState} (hcov : s.Covers 2 0) :
    Reads decodeLiteralEntry s (entryOf [110, 1, 1, 1]) (.integer (-1)) (s.charge 2 0) := by
  have hone : (s.charge 1 0).Covers 1 0 := DecodeState.covers_charge hcov
  have hbig := @reads_bigInteger_small ((s.charge 1 0).charge 1 0) 1 [1] (by decide) (by decide)
    (by decide)
  have hterm : Reads (decodeExternalTerm maxEtfDepth) (s.charge 1 0) [110, 1, 1, 1]
      (.integer (-1)) ((s.charge 1 0).charge 1 0) :=
    reads_term (l := .integer (-1)) hone ((reads_readU8 _ 1).bind hbig)
  exact reads_entry (hcov.mono (by decide) le_rfl) (by decide) hterm

theorem reads_zeros {s : DecodeState} {n : ℕ} (hn : 6 + n < 2 ^ 32) (hcov : s.Covers 2 n) :
    Reads decodeLiteralEntry s (entryOf (109 :: (u32Bytes n ++ List.replicate n 0)))
      (.binary (List.replicate n 0)) (s.charge 2 n) := by
  have hsize : (131 :: 109 :: (u32Bytes n ++ List.replicate n 0)).length = 6 + n := by
    simp
    omega
  have hterm : encodeLiteral ⟨[], s.atomTable, false⟩ (.binary (List.replicate n 0)) =
      .ok (109 :: (u32Bytes n ++ List.replicate n 0)) := by
    rw [encodeLiteral, List.length_replicate, u32Len, if_pos (by omega)]
    rfl
  have hencode : encodeLiteralEntry ⟨[], s.atomTable, false⟩ (.binary (List.replicate n 0)) =
      .ok (entryOf (109 :: (u32Bytes n ++ List.replicate n 0))) := by
    rw [encodeLiteralEntry, hterm, except_ok_bind, ← List.length_cons, u32Len,
      if_pos (hsize.trans_lt hn)]
    rfl
  have hread := reads_literalEntry (e := ⟨[], s.atomTable, false⟩) .binary rfl hencode
    (s := s) (by simpa [Literal.nodes, Literal.bytes] using hcov)
  simpa [Literal.nodes, Literal.bytes] using hread

theorem tightEntries_length (n : ℕ) : (tightEntries n).length = 28 + n := by
  simp [tightEntries, entryOf]
  omega

/-- The chunk decodes with six nodes and what its bytes, the vector and the binary cost. -/
theorem decodeLiteralChunk_tight (inflate : Inflate) {s : DecodeState} {n : ℕ}
    (hn : 6 + n < 2 ^ 32) (hcov : s.Covers 6 (128 + 2 * n)) :
    ∃ s' c, decodeLiteralChunk inflate s (tightChunk n) = .ok (tightTable n, s', c) := by
  have hlen := tightEntries_length n
  have hbefore : 4 + (tightEntries n).length + (tightTable n).length * sizeOfLiteral = 128 + n := by
    rw [hlen]
    simp only [tightTable, List.length_cons, List.length_nil, sizeOfLiteral]
    omega
  have hafter : (s.charge 0 (128 + n)).Covers (2 + (2 + 2)) (0 + (0 + n)) :=
    DecodeState.covers_charge (hcov.mono (by omega) (by omega))
  have hsecond := DecodeState.covers_charge hafter
  have hthird := DecodeState.covers_charge hsecond
  have hentries : Reads (many decodeLiteralEntry (tightTable n).length) (s.charge 0 (128 + n))
      (tightEntries n) (tightTable n) ((((s.charge 0 (128 + n)).charge 2 0).charge 2 0).charge 2 n) :=
    Reads.many_cons (reads_minusOne hafter.left) (Reads.many_cons (reads_minusOne hsecond.left)
      (Reads.many_cons (reads_zeros hn hthird) (Reads.pure _ _)))
  have hcount : (tightTable n).length = 3 := rfl
  obtain ⟨c, hrun⟩ := @decodeLiteralChunk_entries inflate (tightTable n) s _ (tightEntries n)
    (by rw [hcount]; decide) (by rw [hcount, hlen]; omega)
    (by rw [hbefore]; exact hcov.mono (by omega) (by omega)) (by rwa [hbefore])
  exact ⟨_, c, hrun⟩

/-- The cost of the encoded table is two bytes higher. -/
theorem tightTable_cost (table : AtomTable) (n : ℕ) :
    literalBytes table (tightTable n) = 130 + 2 * n := by
  have hinteger : (encodeInteger (-1)).length = 5 := by decide
  simp [literalBytes, tightTable, tableBytes, payloadSize, sizeList, Literal.encodedSize, hinteger,
    bytesList, Literal.bytes, sizeOfLiteral]
  omega

/-- The example at the front of a load: a chunk that takes the whole byte allowance decodes, and its
table does not come back under the same allowance. -/
theorem not_literalTable_returns : ¬ ∀ (inflate : Inflate) (s s' t : DecodeState) (e : AtomEncoder)
    (bytes rest : List UInt8) (literals : List Literal),
    decodeLiteralChunk inflate s bytes = .ok (literals, s', rest) → e.atomTable = s'.atomTable →
    t.atomTable = s'.atomTable → t.budget = s.budget → TableReturns inflate e t literals := by
  intro hall
  have hcov : (DecodeState.mk .withCommonAtoms .default).Covers 6 (128 + 2 * 33554368) :=
    ⟨by decide, by decide⟩
  obtain ⟨s', rest, hload⟩ := decodeLiteralChunk_tight noInflate (by norm_num) hcov
  have hreturns := hall noInflate _ s' ⟨s'.atomTable, .default⟩ ⟨[], s'.atomTable, false⟩ _ _ _
    hload rfl rfl rfl
  obtain ⟨chunk, t', hencode, hrun⟩ := hreturns
  have hcost := ((reload_literals_spent hencode hrun).2 rfl).covers.2
  rw [tightTable_cost] at hcost
  exact (by decide : ¬ 130 + 2 * 33554368 ≤ DecodeBudget.default.bytesRemaining) hcost

end Beamr.Loader
