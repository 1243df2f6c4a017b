import Beamr.Loader.Container

/-!
# Which bytes are a container

The bytes that `parse_beam_chunks` accepts, as a grammar, and the chunks it finds in them. Beside
the parser on the rest of the input stands the loop on offsets as it runs, where a slice out of
bounds, an overflow and a loop that does not end are outcomes of their own.
-/
namespace Beamr.Loader

open ByteOrder

/-! ## The grammar -/

/-- Chunks one after the other: tag, length, contents, and bytes that align the contents to four. -/
inductive ChunkSequence : List UInt8 → List (FourCC × List UInt8) → Prop
  | nil : ChunkSequence [] []
  | cons {tag data fill rest : List UInt8} {chunks : List (FourCC × List UInt8)} :
      tag.length = 4 → data.length < 2 ^ 32 → fill.length = padding data.length →
      ChunkSequence rest chunks →
      ChunkSequence (tag ++ (u32Bytes data.length ++ (data ++ (fill ++ rest))))
        ((tag, data) :: chunks)

/-- A header with the size of what follows it, the form and the chunks. Bytes past the declared size
belong to nothing. -/
def IsContainer (bytes : List UInt8) (chunks : List (FourCC × List UInt8)) : Prop :=
  ∃ body trailing,
    bytes = tagFor1 ++ (u32Bytes (4 + body.length) ++ (tagBeam ++ (body ++ trailing))) ∧
    4 + body.length < 2 ^ 32 ∧ ChunkSequence body chunks

theorem u32Bytes_readU32At {bytes : List UInt8} {offset : ℕ} (h : offset + 4 ≤ bytes.length) :
    u32Bytes (readU32At bytes offset) = (bytes.drop offset).take 4 := by
  have hlen : ((bytes.drop offset).take 4).length = 4 := by
    simp
    omega
  have hback := beBytes_beNat ((bytes.drop offset).take 4)
  rwa [hlen] at hback

theorem readU32At_lt (bytes : List UInt8) (offset : ℕ) : readU32At bytes offset < 2 ^ 32 := by
  have hlt := beNat_lt ((bytes.drop offset).take 4)
  have hlen : ((bytes.drop offset).take 4).length ≤ 4 := List.length_take_le ..
  calc readU32At bytes offset < 256 ^ ((bytes.drop offset).take 4).length := hlt
    _ ≤ 256 ^ 4 := Nat.pow_le_pow_right (by decide) hlen
    _ = 2 ^ 32 := by norm_num

theorem ChunkSequence.parse {bytes : List UInt8} {chunks : List (FourCC × List UInt8)}
    (h : ChunkSequence bytes chunks) : parseChunks bytes = .ok chunks := by
  induction h with
  | nil => exact parseChunks_nil
  | cons htag hdata hfill _ ih =>
    rw [parseChunks_chunk htag hdata hfill, ih]
    rfl

/-- The first chunk of bytes that start with a whole one. -/
theorem split_chunk {bytes : List UInt8}
    (h : 8 + readU32At bytes 4 + padding (readU32At bytes 4) ≤ bytes.length) :
    let length := readU32At bytes 4
    bytes = bytes.take 4 ++ (u32Bytes length ++ ((bytes.drop 8).take length ++
      (((bytes.drop (8 + length)).take (padding length)) ++
        bytes.drop (8 + length + padding length)))) := by
  intro length
  have hnext : ∀ n, bytes.drop n = (bytes.drop n).take (padding length) ++
      bytes.drop (n + padding length) := by
    intro n
    rw [← List.drop_drop, List.take_append_drop]
  have hdata : bytes.drop 8 = (bytes.drop 8).take length ++ bytes.drop (8 + length) := by
    rw [← List.drop_drop, List.take_append_drop]
  have hlength : bytes.drop 4 = u32Bytes length ++ bytes.drop 8 := by
    rw [u32Bytes_readU32At (by omega), show 8 = 4 + 4 from rfl, ← List.drop_drop,
      List.take_append_drop]
  rw [← hnext, ← hdata, ← hlength, List.take_append_drop]

theorem chunkSequence_of_parse {bytes : List UInt8} {chunks : List (FourCC × List UInt8)}
    (h : parseChunks bytes = .ok chunks) : ChunkSequence bytes chunks := by
  induction hn : bytes.length using Nat.strong_induction_on generalizing bytes chunks with
  | _ n ih =>
    rw [parseChunks] at h
    by_cases hne : bytes = []
    · rw [if_pos hne] at h
      cases h
      rw [hne]
      exact .nil
    by_cases hshort : bytes.length < 8
    · simp only [if_neg hne, if_pos hshort] at h
      cases h
    simp only [if_neg hne, if_neg hshort] at h
    set length := readU32At bytes 4 with hlength
    by_cases hfits : 8 + length > bytes.length
    · simp only [if_pos hfits] at h
      cases h
    by_cases hpadded : 8 + length + padding length > bytes.length
    · simp only [if_neg hfits, if_pos hpadded] at h
      cases h
    simp only [if_neg hfits, if_neg hpadded] at h
    obtain ⟨rest, hrest, h⟩ := except_bind_ok_iff.mp h
    cases h
    have hsequence := ih _ (by rw [List.length_drop]; omega) hrest rfl
    have hdata : ((bytes.drop 8).take length).length = length := by
      simp
      omega
    have hchunk := @ChunkSequence.cons (bytes.take 4) ((bytes.drop 8).take length)
      ((bytes.drop (8 + length)).take (padding length)) _ _ (by simp; omega)
      (hdata.trans_lt (readU32At_lt bytes 4)) (by simp [hdata]; omega) hsequence
    have hsplit := @split_chunk bytes (by rw [← hlength]; omega)
    simp only [← hlength] at hsplit
    rwa [hdata, ← hsplit] at hchunk

theorem isContainer_of_parse {bytes : List UInt8} {chunks : List (FourCC × List UInt8)}
    (h : parseBeamChunks bytes = .ok chunks) : IsContainer bytes chunks := by
  unfold parseBeamChunks at h
  by_cases hheader : bytes.length < 12 ∨ bytes.take 4 ≠ tagFor1 ∨ (bytes.drop 8).take 4 ≠ tagBeam
  · rw [if_pos hheader] at h
    cases h
  rw [if_neg hheader] at h
  set size := readU32At bytes 4 with hsize
  by_cases hfits : size + 8 > bytes.length ∨ size < 4
  · simp only [if_pos hfits] at h
    cases h
  simp only [if_neg hfits] at h
  push Not at hheader hfits
  obtain ⟨hlong, hfor, hbeam⟩ := hheader
  have hbody : ((bytes.take (size + 8)).drop 12).length = size - 4 := by
    simp
    omega
  have htotal : 4 + ((bytes.take (size + 8)).drop 12).length = size := by omega
  refine ⟨(bytes.take (size + 8)).drop 12, bytes.drop (size + 8), ?_, ?_, chunkSequence_of_parse h⟩
  · have hrest : (bytes.take (size + 8)).drop 12 ++ bytes.drop (size + 8) = bytes.drop 12 := by
      rw [List.drop_take, show size + 8 = 12 + (size + 8 - 12) by omega, ← List.drop_drop,
        show 12 + (size + 8 - 12) - 12 = size + 8 - 12 by omega, List.take_append_drop]
    have hform : tagBeam ++ bytes.drop 12 = bytes.drop 8 := by
      rw [← hbeam, show 12 = 8 + 4 from rfl, ← List.drop_drop, List.take_append_drop]
    have hdeclared : u32Bytes size ++ bytes.drop 8 = bytes.drop 4 := by
      rw [hsize, u32Bytes_readU32At (by omega), show 8 = 4 + 4 from rfl, ← List.drop_drop,
        List.take_append_drop]
    rw [htotal, hrest, hform, hdeclared, ← hfor, List.take_append_drop]
  · rw [htotal]
    exact readU32At_lt bytes 4

theorem IsContainer.parse {bytes : List UInt8} {chunks : List (FourCC × List UInt8)}
    (h : IsContainer bytes chunks) : parseBeamChunks bytes = .ok chunks := by
  obtain ⟨body, trailing, hbytes, hsize, hchunks⟩ := h
  have hlen : bytes.length = 12 + body.length + trailing.length := by
    rw [hbytes]
    simp only [List.length_append, tagFor1_length, tagBeam_length, u32Bytes_length]
    omega
  have hread : readU32At bytes 4 = 4 + body.length := by
    rw [hbytes]
    exact readU32At_four tagFor1_length hsize
  have hfor : bytes.take 4 = tagFor1 := by rw [hbytes, List.take_left' tagFor1_length]
  have hdrop : bytes.drop 8 = tagBeam ++ (body ++ trailing) := by
    rw [hbytes, ← List.append_assoc, List.drop_left' (by simp [tagFor1_length])]
  have hbody : (bytes.take (4 + body.length + 8)).drop 12 = body := by
    rw [List.drop_take, show 12 = 8 + 4 from rfl, ← List.drop_drop, hdrop,
      List.drop_left' tagBeam_length, List.take_left' (by omega)]
  unfold parseBeamChunks
  rw [if_neg (by
    rw [hfor, hdrop, List.take_left' tagBeam_length]
    simp
    omega)]
  simp only [hread]
  rw [if_neg (by omega), hbody]
  exact hchunks.parse

/-- The parser accepts the containers, and finds the chunks of the container. -/
theorem parse_ok_iff (bytes : List UInt8) (chunks : List (FourCC × List UInt8)) :
    parseBeamChunks bytes = .ok chunks ↔ IsContainer bytes chunks :=
  ⟨isContainer_of_parse, IsContainer.parse⟩

/-! ## The loop on offsets -/

/-- How a run can end without chunks: the bytes are rejected, a slice or an addition panics, or the
loop still runs when its turns are up. -/
inductive ParseFault
  | invalidFormat | outOfBounds | overflow | unfinished
  deriving DecidableEq

section Offsets

-- `usizeMax` is the greatest `usize`, of 32 bits or more.
variable (usizeMax : ℕ) (bytes : List UInt8)

/-- `&bytes[start..stop]`. -/
def slice (start stop : ℕ) : Except ParseFault (List UInt8) :=
  if start ≤ stop ∧ stop ≤ bytes.length then .ok ((bytes.drop start).take (stop - start))
  else .error .outOfBounds

/-- `bytes.get(start..stop)`. -/
def getSlice (start stop : ℕ) : Except ParseFault (List UInt8) :=
  if start ≤ stop ∧ stop ≤ bytes.length then .ok ((bytes.drop start).take (stop - start))
  else .error .invalidFormat

def addUsize (a b : ℕ) : Except ParseFault ℕ :=
  if a + b ≤ usizeMax then .ok (a + b) else .error .overflow

def subUsize (a b : ℕ) : Except ParseFault ℕ := if b ≤ a then .ok (a - b) else .error .overflow

def checkedAdd (a b : ℕ) : Except ParseFault ℕ :=
  if a + b ≤ usizeMax then .ok (a + b) else .error .invalidFormat

def readFourccAt (offset : ℕ) : Except ParseFault FourCC := do
  let stop ← addUsize usizeMax offset 4
  getSlice bytes offset stop

def readU32AtOffset (offset : ℕ) : Except ParseFault ℕ := do
  let stop ← addUsize usizeMax offset 4
  let word ← getSlice bytes offset stop
  .ok (beNat word)

/-- The `while` loop of `parse_beam_chunks` for a number of turns. -/
def chunkLoop (stop : ℕ) :
    ℕ → ℕ → List (FourCC × List UInt8) → Except ParseFault (List (FourCC × List UInt8))
  | 0, _, _ => .error .unfinished
  | turns + 1, offset, chunks =>
    if offset < stop then do
      let available ← subUsize stop offset
      if available < 8 then .error .invalidFormat
      else do
        let tag ← readFourccAt usizeMax bytes offset
        let lengthAt ← addUsize usizeMax offset 4
        let length ← readU32AtOffset usizeMax bytes lengthAt
        let dataStart ← addUsize usizeMax offset 8
        let dataEnd ← checkedAdd usizeMax dataStart length
        if dataEnd > stop then .error .invalidFormat
        else do
          let data ← slice bytes dataStart dataEnd
          let next ← checkedAdd usizeMax dataEnd (padding length)
          if next > stop then .error .invalidFormat
          else chunkLoop stop turns next (chunks ++ [(tag, data)])
    else .ok chunks

/-- `parse_beam_chunks` with its offsets, when the loop may take a number of turns. -/
def parseOffsets (turns : ℕ) : Except ParseFault (List (FourCC × List UInt8)) :=
  if bytes.length < 12 then .error .invalidFormat
  else do
    let magic ← slice bytes 0 4
    if magic ≠ tagFor1 then .error .invalidFormat
    else do
      let form ← slice bytes 8 12
      if form ≠ tagBeam then .error .invalidFormat
      else do
        let declaredSize ← readU32AtOffset usizeMax bytes 4
        let totalSize ← checkedAdd usizeMax declaredSize 8
        if totalSize > bytes.length ∨ declaredSize < 4 then .error .invalidFormat
        else chunkLoop usizeMax bytes totalSize turns 12 []

/-- What the parser on the rest of the bytes returns, as the outcome of a run. -/
def outcomeOf {α : Type} (result : Except LoadError α) : Except ParseFault α :=
  result.mapError fun _ => .invalidFormat

variable {usizeMax bytes}

theorem slice_eq {start stop : ℕ} (h : start ≤ stop) (hstop : stop ≤ bytes.length) :
    slice bytes start stop = .ok ((bytes.drop start).take (stop - start)) := if_pos ⟨h, hstop⟩

theorem getSlice_eq {start stop : ℕ} (h : start ≤ stop) (hstop : stop ≤ bytes.length) :
    getSlice bytes start stop = .ok ((bytes.drop start).take (stop - start)) := if_pos ⟨h, hstop⟩

theorem addUsize_eq {a b : ℕ} (h : a + b ≤ usizeMax) : addUsize usizeMax a b = .ok (a + b) :=
  if_pos h

theorem checkedAdd_eq {a b : ℕ} (h : a + b ≤ usizeMax) : checkedAdd usizeMax a b = .ok (a + b) :=
  if_pos h

theorem readFourccAt_eq {offset : ℕ} (hmax : bytes.length ≤ usizeMax)
    (h : offset + 4 ≤ bytes.length) :
    readFourccAt usizeMax bytes offset = .ok ((bytes.drop offset).take 4) := by
  rw [readFourccAt, addUsize_eq (h.trans hmax), except_ok_bind, getSlice_eq (by omega) h,
    Nat.add_sub_cancel_left]

theorem readU32AtOffset_eq {offset : ℕ} (hmax : bytes.length ≤ usizeMax)
    (h : offset + 4 ≤ bytes.length) :
    readU32AtOffset usizeMax bytes offset = .ok (readU32At bytes offset) := by
  rw [readU32AtOffset, addUsize_eq (h.trans hmax), except_ok_bind, getSlice_eq (by omega) h,
    Nat.add_sub_cancel_left, except_ok_bind, readU32At]

theorem checkedAdd_bind {α : Type} {a b stop : ℕ} {f : ℕ → Except ParseFault α}
    (hmax : stop ≤ usizeMax) (hbig : ∀ n, stop < n → f n = .error .invalidFormat) :
    (checkedAdd usizeMax a b >>= f) = f (a + b) := by
  by_cases h : a + b ≤ usizeMax
  · rw [checkedAdd_eq h, except_ok_bind]
  · rw [checkedAdd, if_neg h, hbig (a + b) (by omega)]
    rfl

/-- The loop from an offset does what the parser does on the bytes from there to the end. -/
theorem chunkLoop_eq {stop : ℕ} (hmax : bytes.length ≤ usizeMax) (hstop : stop ≤ bytes.length)
    (turns offset : ℕ) (chunks : List (FourCC × List UInt8)) (hoffset : offset ≤ stop)
    (hturns : (stop - offset) / 8 < turns) :
    chunkLoop usizeMax bytes stop turns offset chunks =
      outcomeOf ((parseChunks ((bytes.take stop).drop offset)).map (chunks ++ ·)) := by
  induction turns generalizing offset chunks with
  | zero => omega
  | succ turns ih =>
    set rest := (bytes.take stop).drop offset with hrest
    have hlen : rest.length = stop - offset := by
      rw [hrest, List.length_drop, List.length_take, min_eq_left hstop]
    rw [chunkLoop, parseChunks]
    by_cases hend : offset < stop
    · have hne : rest ≠ [] := by
        intro hnil
        rw [hnil] at hlen
        simp at hlen
        omega
      rw [if_pos hend, if_neg hne, subUsize, if_pos hoffset, except_ok_bind, hlen]
      by_cases hshort : stop - offset < 8
      · rw [if_pos hshort, if_pos hshort]
        rfl
      rw [if_neg hshort, if_neg hshort, readFourccAt_eq hmax (by omega), except_ok_bind,
        addUsize_eq (by omega), except_ok_bind, readU32AtOffset_eq hmax (by omega), except_ok_bind,
        addUsize_eq (by omega), except_ok_bind]
      have hword : readU32At rest 4 = readU32At bytes (offset + 4) := by
        rw [readU32At, readU32At, hrest, List.drop_drop, List.drop_take, List.take_take,
          min_eq_left (by omega)]
      have htag : rest.take 4 = (bytes.drop offset).take 4 := by
        rw [hrest, List.drop_take, List.take_take, min_eq_left (by omega)]
      simp only [hword, htag]
      set length := readU32At bytes (offset + 4)
      rw [checkedAdd_bind (hstop.trans hmax) (fun n hn => if_pos hn)]
      by_cases hfits : offset + 8 + length > stop
      · rw [if_pos hfits, if_pos (by omega)]
        rfl
      rw [if_neg hfits, if_neg (by omega), slice_eq (by omega) (by omega), except_ok_bind,
        checkedAdd_bind (hstop.trans hmax) (fun n hn => if_pos hn)]
      by_cases hpadded : offset + 8 + length + padding length > stop
      · rw [if_pos hpadded, if_pos (by omega)]
        rfl
      rw [if_neg hpadded, if_neg (by omega), ih _ _ (by omega) (by omega)]
      have hdata : (rest.drop 8).take length =
          (bytes.drop (offset + 8)).take (offset + 8 + length - (offset + 8)) := by
        rw [hrest, List.drop_drop, List.drop_take, List.take_take, min_eq_left (by omega),
          Nat.add_sub_cancel_left]
      have hnext : rest.drop (8 + length + padding length) =
          (bytes.take stop).drop (offset + 8 + length + padding length) := by
        rw [hrest, List.drop_drop]
        congr 1
        omega
      rw [hdata, hnext]
      cases parseChunks ((bytes.take stop).drop (offset + 8 + length + padding length)) with
      | error e => rfl
      | ok later => simp [outcomeOf, Except.map, Except.mapError]
    · have hnil : rest = [] := by
        rw [← List.length_eq_zero_iff]
        omega
      rw [if_neg hend, if_pos hnil]
      simp [outcomeOf, Except.map, Except.mapError]

/-- On offsets the parser does not panic and is done after a turn for every eight bytes. -/
theorem parseOffsets_eq (hmax : bytes.length ≤ usizeMax) {turns : ℕ}
    (hturns : bytes.length / 8 ≤ turns) :
    parseOffsets usizeMax bytes turns = outcomeOf (parseBeamChunks bytes) := by
  unfold parseOffsets parseBeamChunks
  by_cases hshort : bytes.length < 12
  · rw [if_pos hshort, if_pos (.inl hshort)]
    rfl
  rw [if_neg hshort, slice_eq (by omega) (by omega), except_ok_bind, List.drop_zero, Nat.sub_zero]
  by_cases hfor : bytes.take 4 ≠ tagFor1
  · rw [if_pos hfor, if_pos (.inr (.inl hfor))]
    rfl
  rw [if_neg hfor, slice_eq (by omega) (by omega), except_ok_bind]
  by_cases hbeam : (bytes.drop 8).take 4 ≠ tagBeam
  · rw [if_pos hbeam, if_pos (.inr (.inr hbeam))]
    rfl
  rw [if_neg hbeam, if_neg (by tauto), readU32AtOffset_eq hmax (by omega), except_ok_bind]
  set size := readU32At bytes 4
  rw [checkedAdd_bind hmax (fun n hn => if_pos (.inl hn))]
  by_cases hsize : size + 8 > bytes.length ∨ size < 4
  · rw [if_pos hsize, if_pos hsize]
    rfl
  rw [if_neg hsize, if_neg hsize, chunkLoop_eq hmax (by omega) _ _ _ (by omega) (by omega)]
  cases parseChunks ((bytes.take (size + 8)).drop 12) with
  | error e => rfl
  | ok later => simp [outcomeOf, Except.map, Except.mapError]

end Offsets

/-! ## The framer -/

theorem ChunkSequence.length_eq {bytes : List UInt8} {chunks : List (FourCC × List UInt8)}
    (h : ChunkSequence bytes chunks) : bytes.length = (chunks.flatMap frameChunk).length := by
  induction h with
  | nil => rfl
  | cons htag _ hfill _ ih =>
    simp only [List.length_append, List.flatMap_cons, frameChunk, List.length_replicate, hfill, ih]
    omega

/-- The framer writes the length of its body as a word of 32 bits: shorter bodies parse back, longer
ones do not. -/
theorem parse_frameContainer_iff (chunks : List (FourCC × List UInt8))
    (htags : ∀ c ∈ chunks, c.1.length = 4) :
    parseBeamChunks (frameContainer chunks) = .ok chunks ↔ (frameBody chunks).length < 2 ^ 32 := by
  constructor
  · intro h
    obtain ⟨body, trailing, -, hsize, hchunks⟩ := isContainer_of_parse h
    rwa [frameBody, List.length_append, tagBeam_length, ← hchunks.length_eq]
  · exact parseBeamChunks_frameContainer chunks htags

theorem outcomeOf_ok_iff {α : Type} {result : Except LoadError α} {a : α} :
    outcomeOf result = .ok a ↔ result = .ok a := by
  cases result with
  | error e => simp [outcomeOf, Except.mapError]
  | ok b => simp [outcomeOf, Except.mapError]

theorem outcomeOf_invalid_iff {α : Type} {result : Except LoadError α} :
    outcomeOf result = .error .invalidFormat ↔ ∀ a, result ≠ .ok a := by
  cases result with
  | error e => simp [outcomeOf, Except.mapError]
  | ok b => simp [outcomeOf, Except.mapError]

/-- Every run of the parser is over after a turn for every eight bytes. It accepts the containers,
with their chunks, and rejects all other bytes as a format error; and what the framer writes comes
back as it was when the body is below 4 GiB. -/
theorem parseOffsets_exact (usizeMax : ℕ) :
    (∀ bytes turns, bytes.length ≤ usizeMax → bytes.length / 8 ≤ turns →
      (∀ chunks, parseOffsets usizeMax bytes turns = .ok chunks ↔ IsContainer bytes chunks) ∧
      (parseOffsets usizeMax bytes turns = .error .invalidFormat ↔
        ∀ chunks, ¬ IsContainer bytes chunks)) ∧
    ∀ chunks turns, (∀ c ∈ chunks, c.1.length = 4) → (frameContainer chunks).length ≤ usizeMax →
      (frameContainer chunks).length / 8 ≤ turns →
      (parseOffsets usizeMax (frameContainer chunks) turns = .ok chunks ↔
        (frameBody chunks).length < 2 ^ 32) := by
  refine ⟨?_, ?_⟩
  · intro bytes turns hmax hturns
    rw [parseOffsets_eq hmax hturns]
    refine ⟨?_, ?_⟩
    · intro chunks
      rw [outcomeOf_ok_iff, parse_ok_iff]
    · simp only [outcomeOf_invalid_iff, ne_eq, parse_ok_iff]
  · intro chunks turns htags hmax hturns
    rw [parseOffsets_eq hmax hturns, outcomeOf_ok_iff, parse_frameContainer_iff chunks htags]

/-- A container of one chunk that needs a byte of padding. -/
theorem parseOffsets_exact_three :
    let chunks := [(tagCode, [1, 2, 3])]
    parseOffsets (2 ^ 64 - 1) (frameContainer chunks) 3 = .ok chunks ∧
      IsContainer (frameContainer chunks) chunks := by
  intro chunks
  have hexact := parseOffsets_exact (2 ^ 64 - 1)
  have hparse := (hexact.2 chunks 3 (by decide) (by decide) (by decide)).mpr (by decide)
  exact ⟨hparse, ((hexact.1 _ 3 (by decide) (by decide)).1 chunks).mp hparse⟩

/-- A chunk of 4 GiB is written with length zero. -/
theorem not_parse_frameContainer : ¬ ∀ chunks : List (FourCC × List UInt8),
    (∀ c ∈ chunks, c.1.length = 4) → parseBeamChunks (frameContainer chunks) = .ok chunks := by
  intro hall
  obtain ⟨data, hdata⟩ : ∃ data : List UInt8, data.length = 2 ^ 32 :=
    ⟨List.replicate (2 ^ 32) 0, List.length_replicate⟩
  have htags : ∀ c ∈ [(tagCode, data)], c.1.length = 4 := by
    intro c hc
    rw [List.mem_singleton.mp hc]
    rfl
  have hsize := (parse_frameContainer_iff _ htags).mp (hall _ htags)
  have hlong := le_flatMap_frameChunk (List.mem_singleton_self (tagCode, data))
  rw [frameBody, List.length_append] at hsize
  rw [hdata] at hlong
  omega

end Beamr.Loader
