import Beamr.Etf.Encode

/-!
# The segments hold the flat encoding

What the scatter-gather encoder adds to a builder is what the flat encoder returns, and they fail
alike.
-/
namespace Beamr.Etf

open Term

/-- The bytes a segment stands for. -/
def IoSegment.bytes : IoSegment → List UInt8
  | .owned bytes => bytes
  | .reference (.binary b) => b.asBytes
  | .reference _ => []

/-- The segments one after the other. -/
def concatSegments (segments : List IoSegment) : List UInt8 := segments.flatMap IoSegment.bytes

namespace SegmentBuilder

/-- Everything written so far. -/
def written (b : SegmentBuilder) : List UInt8 := concatSegments b.segments ++ b.current

@[simp] theorem written_push (b : SegmentBuilder) (bytes : List UInt8) :
    (b.push bytes).written = b.written ++ bytes := by
  simp [written, push]

@[simp] theorem written_flush (b : SegmentBuilder) : b.flush.written = b.written := by
  unfold flush
  split
  · rfl
  · simp [written, concatSegments, IoSegment.bytes]

theorem current_flush (b : SegmentBuilder) : b.flush.current = [] := by
  unfold flush
  split
  next hempty => simpa using hempty
  next => rfl

theorem written_pushReference (b : SegmentBuilder) (bin : BinaryRef) :
    (b.pushReference (.binary bin)).written = b.written ++ bin.asBytes := by
  have hflushed := b.written_flush
  rw [written, current_flush, List.append_nil] at hflushed
  rw [← hflushed]
  simp [written, pushReference, current_flush, concatSegments, IoSegment.bytes]

theorem concatSegments_finish (b : SegmentBuilder) : concatSegments b.finish = b.written := by
  have hflushed := b.written_flush
  rwa [written, current_flush, List.append_nil] at hflushed

end SegmentBuilder

/-- The builder takes what the flat encoder returns, or both fail with one error. -/
def Gathers (flat : Except EncodeError (List UInt8))
    (gather : SegmentBuilder → Except EncodeError SegmentBuilder) : Prop :=
  ∀ out, (gather out).map SegmentBuilder.written = flat.map (out.written ++ ·)

theorem Gathers.push (flat : Except EncodeError (List UInt8)) :
    Gathers flat fun out => (do .ok (out.push (← flat))) := by
  intro out
  dsimp only
  cases flat with
  | error e => rfl
  | ok bytes => simp [Except.map, bind, Except.bind]

theorem Gathers.pushPure (bytes : List UInt8) : Gathers (.ok bytes) fun out => .ok (out.push bytes) :=
  Gathers.push (.ok bytes)

/-- One part after the other. -/
theorem Gathers.foldlM {flat : Value → Except EncodeError (List UInt8)}
    {gather : Value → SegmentBuilder → Except EncodeError SegmentBuilder} (parts : List Value)
    (h : ∀ part ∈ parts, Gathers (flat part) (gather part)) :
    Gathers (do .ok (← parts.mapM flat).flatten)
      fun out => parts.foldlM (fun out part => gather part out) out := by
  induction parts with
  | nil =>
    intro out
    simp [Except.map, pure, Except.pure, bind, Except.bind]
  | cons part rest ih =>
    intro out
    have hpart := h part (List.mem_cons_self ..) out
    have hrest := ih fun x hx => h x (List.mem_cons_of_mem _ hx)
    dsimp only
    rw [List.foldlM_cons, List.mapM_cons]
    cases hflat : flat part with
    | error e =>
      rw [hflat] at hpart
      cases hgather : gather part out with
      | error e' =>
        rw [hgather] at hpart
        exact hpart
      | ok out' =>
        rw [hgather] at hpart
        cases hpart
    | ok bytes =>
      rw [hflat] at hpart
      cases hgather : gather part out with
      | error e' =>
        rw [hgather] at hpart
        cases hpart
      | ok out' =>
        rw [hgather] at hpart
        have hwritten : out'.written = out.written ++ bytes := Except.ok.inj hpart
        have hnext := hrest out'
        simp only [bind, Except.bind] at hnext ⊢
        rw [hnext]
        cases rest.mapM flat with
        | error e => rfl
        | ok bodies => simp [Except.map, hwritten, pure, Except.pure]

/-- A header, then the parts. -/
theorem Gathers.header (header : Except EncodeError (List UInt8))
    {flat : Value → Except EncodeError (List UInt8)}
    {gather : Value → SegmentBuilder → Except EncodeError SegmentBuilder} (parts : List Value)
    (h : ∀ part ∈ parts, Gathers (flat part) (gather part)) :
    Gathers (do
        let header ← header
        let body ← parts.mapM flat
        .ok (header ++ body.flatten))
      fun out => (do
        let header ← header
        parts.foldlM (fun out part => gather part out) (out.push header)) := by
  intro out
  dsimp only
  cases header with
  | error e => rfl
  | ok bytes =>
    have hparts := Gathers.foldlM parts h (out.push bytes)
    simp only [bind, Except.bind] at hparts ⊢
    rw [hparts]
    cases parts.mapM flat with
    | error e => rfl
    | ok bodies => simp [Except.map]

theorem encodeBinaryIovec_gathers (b : BinaryRef) :
    Gathers (encodeBinary b) (encodeBinaryIovec b) := by
  intro out
  rw [encodeBinaryIovec, encodeBinary]
  cases hlength : u32Of b.asBytes.length with
  | error e => rfl
  | ok length =>
    simp only [bind, Except.bind]
    split
    next => simp [Except.map]
    next =>
      simp [Except.map, SegmentBuilder.written_pushReference]

/-- Every term at every depth. -/
theorem encodeTermIovecInner_gathers (table : AtomTable) (left : ℕ) (v : Value) :
    Gathers (encodeTermInner table left v) (encodeTermIovecInner table left v) := by
  induction left generalizing v with
  | zero => exact fun out => rfl
  | succ left ih =>
    cases v with
    | number n =>
      cases n with
      | smallInt n => exact .push _
      | float x => exact .pushPure _
      | bigInt negative limbs => exact .push _
    | atom a => exact .push _
    | reference r =>
      cases r with
      | «local» id => exact .push _
      | remote node id => exact fun out => rfl
    | closure c free =>
      intro out
      rw [encodeTermInner, encodeTermIovecInner]
      cases exportParts c free with
      | error e => rfl
      | ok parts =>
        exact Gathers.header (.ok [Tags.exportExt]) parts (fun part _ => ih part) out
    | pid p =>
      cases p with
      | «local» number => exact .push _
      | remote node number serial => exact .push _
    | tuple elements => exact .header _ elements fun part _ => ih part
    | map entries => exact .header _ _ fun part _ => ih part
    | nil => exact .pushPure _
    | cons head tail =>
      rw [Gathers]
      intro out
      rw [encodeTermInner, encodeTermIovecInner]
      rcases collectList (.cons head tail) with ⟨elements, last⟩
      dsimp only
      cases stringBytes elements last with
      | some bytes => exact Gathers.pushPure _ out
      | none => exact Gathers.header _ (elements ++ [last]) (fun part _ => ih part) out
    | binary b => exact encodeBinaryIovec_gathers b
    | other raw => exact fun out => rfl

theorem encodeTermIovec_concat (table : AtomTable) (term : Value) :
    (encodeTermIovec table term).map concatSegments = encodeTerm table term := by
  have hgathers := encodeTermIovecInner_gathers table (maxEtfDepth + 1) term
    (SegmentBuilder.new.push [Tags.version])
  rw [encodeTermIovec, encodeTerm]
  cases hflat : encodeTermInner table (maxEtfDepth + 1) term with
  | error e =>
    rw [hflat] at hgathers
    cases hout : encodeTermIovecInner table (maxEtfDepth + 1) term
        (SegmentBuilder.new.push [Tags.version]) with
    | error e' =>
      rw [hout] at hgathers
      cases hgathers
      rfl
    | ok out =>
      rw [hout] at hgathers
      cases hgathers
  | ok bytes =>
    rw [hflat] at hgathers
    cases hout : encodeTermIovecInner table (maxEtfDepth + 1) term
        (SegmentBuilder.new.push [Tags.version]) with
    | error e' =>
      rw [hout] at hgathers
      cases hgathers
    | ok out =>
      rw [hout] at hgathers
      have hwritten : out.written = _ ++ bytes := Except.ok.inj hgathers
      have hversion : (SegmentBuilder.new.push [Tags.version]).written = [Tags.version] := rfl
      simp only [bind, Except.bind, Except.map, SegmentBuilder.concatSegments_finish, hwritten,
        hversion, List.singleton_append]

/-! ## Which terms refer to a binary -/

/-- Not a binary the encoder leaves in place. -/
def SmallBinary : Value → Prop
  | .binary b => b.asBytes.length < iovecBinaryReferenceThreshold
  | _ => True

/-- Every binary in the term is copied into the segments. -/
def Copied (v : Value) : Prop := v.All SmallBinary

def SegmentBuilder.Refers (b : SegmentBuilder) : Prop :=
  b.segments.any IoSegment.isReference = true

theorem SegmentBuilder.refers_push (b : SegmentBuilder) (bytes : List UInt8) :
    (b.push bytes).Refers ↔ b.Refers := Iff.rfl

theorem SegmentBuilder.refers_flush (b : SegmentBuilder) : b.flush.Refers ↔ b.Refers := by
  unfold flush
  split
  · rfl
  · simp [Refers, IoSegment.isReference]

/-- The builder gets a reference exactly when something is not copied. -/
def Marks (copied : Prop) (gather : SegmentBuilder → Except EncodeError SegmentBuilder) : Prop :=
  ∀ out out', gather out = .ok out' → (out'.Refers ↔ out.Refers ∨ ¬ copied)

theorem Marks.push {copied : Prop} (hcopied : copied) (flat : Except EncodeError (List UInt8)) :
    Marks copied fun out => (do .ok (out.push (← flat))) := by
  intro out out' h
  cases flat with
  | error e => cases h
  | ok bytes =>
    cases h
    simp [SegmentBuilder.refers_push, hcopied]

theorem Marks.foldlM {gather : Value → SegmentBuilder → Except EncodeError SegmentBuilder}
    (parts : List Value) (h : ∀ part ∈ parts, Marks (Copied part) (gather part)) :
    Marks (∀ part ∈ parts, Copied part)
      fun out => parts.foldlM (fun out part => gather part out) out := by
  induction parts with
  | nil =>
    intro out out' hout
    cases hout
    simp
  | cons part rest ih =>
    intro out out' hout
    dsimp only at hout
    rw [List.foldlM_cons] at hout
    cases hgather : gather part out with
    | error e =>
      rw [hgather] at hout
      cases hout
    | ok middle =>
      rw [hgather] at hout
      have hpart := h part (List.mem_cons_self ..) out middle hgather
      have hrest := ih (fun x hx => h x (List.mem_cons_of_mem _ hx)) middle out' hout
      rw [hrest, hpart, List.forall_mem_cons]
      tauto

theorem Marks.header {gather : Value → SegmentBuilder → Except EncodeError SegmentBuilder}
    (header : Except EncodeError (List UInt8)) (parts : List Value)
    (h : ∀ part ∈ parts, Marks (Copied part) (gather part)) :
    Marks (∀ part ∈ parts, Copied part) fun out => (do
      let header ← header
      parts.foldlM (fun out part => gather part out) (out.push header)) := by
  intro out out' hout
  cases header with
  | error e => cases hout
  | ok bytes =>
    have hparts := Marks.foldlM parts h (out.push bytes) out' hout
    rwa [SegmentBuilder.refers_push] at hparts

theorem copied_collectList (v : Value) :
    Copied v ↔ ∀ part ∈ (collectList v).1 ++ [(collectList v).2], Copied part := by
  induction v using collectList.induct with
  | case1 head tail ih =>
    rw [Copied, Value.all_iff, collectList, List.cons_append, List.forall_mem_cons, ← ih]
    simp [SmallBinary, Value.children, Copied]
  | case2 v hne =>
    rw [collectList]
    · simp
    · exact hne

theorem exists_asByte {elements : List Value} {bytes : List UInt8}
    (h : elements.mapM asByte = some bytes) : ∀ part ∈ elements, ∃ b, asByte part = some b := by
  induction elements generalizing bytes with
  | nil => nofun
  | cons element rest ih =>
    rw [List.mapM_cons] at h
    cases hbyte : asByte element with
    | none => simp [hbyte] at h
    | some b =>
      cases hrest : rest.mapM asByte with
      | none => simp [hbyte, hrest] at h
      | some bs => exact List.forall_mem_cons.mpr ⟨⟨b, hbyte⟩, ih hrest⟩

theorem copied_of_stringBytes {elements : List Value} {last : Value} {bytes : List UInt8}
    (h : stringBytes elements last = some bytes) : ∀ part ∈ elements ++ [last], Copied part := by
  unfold stringBytes at h
  split at h
  next =>
    split at h
    next =>
      rw [List.forall_mem_append]
      constructor
      · intro part hpart
        obtain ⟨b, hb⟩ := exists_asByte h part hpart
        cases part with
        | number n => exact .intro trivial nofun
        | _ => cases hb
      · rintro part hpart
        rw [List.mem_singleton.mp hpart]
        exact .intro trivial nofun
    next => cases h
  next => cases h

theorem encodeBinaryIovec_marks (b : BinaryRef) :
    Marks (Copied (.binary b)) (encodeBinaryIovec b) := by
  have hcopied : Copied (.binary b) ↔ b.asBytes.length < iovecBinaryReferenceThreshold := by
    rw [Copied, Value.all_iff]
    simp [SmallBinary, Value.children]
  intro out out' h
  rw [encodeBinaryIovec] at h
  cases hlength : u32Of b.asBytes.length with
  | error e =>
    rw [hlength] at h
    cases h
  | ok length =>
    rw [hlength] at h
    simp only [bind, Except.bind] at h
    split at h
    next hsmall =>
      exact Marks.push (hcopied.mpr hsmall) _ out out' h
    next hlarge =>
      cases h
      have hrefers : ((out.push (Tags.binaryExt :: ByteOrder.beBytes 4 length)).flush.pushReference
          (.binary b)).Refers := by
        simp [SegmentBuilder.Refers, SegmentBuilder.pushReference, IoSegment.isReference]
      simp [hrefers, hcopied, hlarge]

theorem exportParts_copied {c : Closure} {free parts : List Value}
    (h : exportParts c free = .ok parts) :
    Copied (.closure c free) ∧ ∀ part ∈ parts, Copied part := by
  unfold exportParts at h
  split at h
  next => cases h
  next hfree =>
    have hnil : free = [] := List.eq_nil_of_length_eq_zero (not_not.mp hfree)
    cases hindex : u32Of c.functionIndex.toNat with
    | error e =>
      rw [hindex] at h
      cases h
    | ok index =>
      rw [hindex] at h
      simp only [bind, Except.bind] at h
      split at h
      next => cases h
      next =>
        cases h
        subst hnil
        refine ⟨.intro trivial nofun, ?_⟩
        simp only [List.forall_mem_cons]
        exact ⟨.intro trivial nofun, .intro trivial nofun, .intro trivial nofun, nofun⟩

theorem copied_leaf {v : Value} (h : SmallBinary v) (hleaf : v.children = []) : Copied v := by
  refine .intro h ?_
  rw [hleaf]
  simp

theorem encodeTermIovecInner_marks (table : AtomTable) (left : ℕ) (v : Value) :
    Marks (Copied v) (encodeTermIovecInner table left v) := by
  induction left generalizing v with
  | zero =>
    intro out out' h
    cases h
  | succ left ih =>
    cases v with
    | number n =>
      cases n with
      | smallInt n => exact .push (by exact copied_leaf trivial rfl) _
      | float x => exact .push (by exact copied_leaf trivial rfl) (.ok _)
      | bigInt negative limbs => exact .push (by exact copied_leaf trivial rfl) _
    | atom a => exact .push (by exact copied_leaf trivial rfl) _
    | reference r =>
      cases r with
      | «local» id => exact .push (by exact copied_leaf trivial rfl) _
      | remote node id =>
        intro out out' h
        cases h
    | closure c free =>
      intro out out' h
      rw [encodeTermIovecInner] at h
      cases hparts : exportParts c free with
      | error e =>
        rw [hparts] at h
        cases h
      | ok parts =>
        rw [hparts] at h
        obtain ⟨hclosure, hall⟩ := exportParts_copied hparts
        rw [iff_of_true hclosure hall]
        exact Marks.header (.ok [Tags.exportExt]) parts (fun part _ => ih part) out out' h
    | pid p =>
      cases p with
      | «local» number => exact .push (by exact copied_leaf trivial rfl) _
      | remote node number serial => exact .push (by exact copied_leaf trivial rfl) _
    | tuple elements =>
      have hall : Copied (.tuple elements) ↔ ∀ part ∈ elements, Copied part := by
        rw [Copied, Value.all_iff]
        simp [SmallBinary, Value.children, Copied]
      rw [hall]
      exact .header _ elements fun part _ => ih part
    | map entries =>
      have hall : Copied (.map entries) ↔
          ∀ part ∈ entries.flatMap fun e => [e.1, e.2], Copied part := by
        rw [Copied, Value.all_iff]
        exact and_iff_right trivial
      rw [hall]
      exact .header _ _ fun part _ => ih part
    | nil => exact .push (by exact copied_leaf trivial rfl) (.ok _)
    | cons head tail =>
      intro out out' h
      rw [encodeTermIovecInner] at h
      rw [copied_collectList (.cons head tail)]
      generalize collectList (.cons head tail) = cells at h ⊢
      obtain ⟨elements, last⟩ := cells
      dsimp only at h ⊢
      cases hstring : stringBytes elements last with
      | some bytes =>
        rw [hstring] at h
        exact Marks.push (copied_of_stringBytes hstring) (.ok _) out out' h
      | none =>
        rw [hstring] at h
        exact Marks.header _ (elements ++ [last]) (fun part _ => ih part) out out' h
    | binary b => exact encodeBinaryIovec_marks b
    | other raw =>
      intro out out' h
      cases h

theorem encodeTermIovec_any {table : AtomTable} {term : Value} {segments : List IoSegment}
    (h : encodeTermIovec table term = .ok segments) :
    segments.any IoSegment.isReference = true ↔ ¬ Copied term := by
  rw [encodeTermIovec] at h
  cases hout : encodeTermIovecInner table (maxEtfDepth + 1) term
      (SegmentBuilder.new.push [Tags.version]) with
  | error e =>
    rw [hout] at h
    cases h
  | ok out =>
    rw [hout] at h
    cases h
    have hmarks := encodeTermIovecInner_marks table _ term _ out hout
    have hfinish : out.flush.Refers ↔ out.Refers := out.refers_flush
    have hstart : ¬ (SegmentBuilder.new.push [Tags.version]).Refers := by
      simp [SegmentBuilder.Refers, SegmentBuilder.new, SegmentBuilder.push]
    rw [hmarks, or_iff_right hstart] at hfinish
    exact hfinish

/-! ## Every option -/

open Classical in
/-- For every term the segments hold the flat encoding and one encoder fails exactly when the other
does. With compression asked for they hold the compressed encoding, unless the term has a binary
of 64 bytes or more. -/
theorem termToIovec_concat (deflate : ℕ → List UInt8 → Option (List UInt8)) (table : AtomTable)
    (term : Value) (compressionLevel : Option ℕ) :
    (encodeTermIovec table term).map concatSegments = encodeTerm table term ∧
      (termToIovec deflate table term compressionLevel).map concatSegments =
        if compressionLevel = none ∨ compressionLevel = some 0 ∨ ¬ Copied term then
          encodeTerm table term
        else encodeTermWithOptions deflate table term compressionLevel := by
  have hconcat := encodeTermIovec_concat table term
  refine ⟨hconcat, ?_⟩
  rw [termToIovec]
  cases hsegments : encodeTermIovec table term with
  | error e =>
    rw [hsegments] at hconcat
    have hflat : encodeTerm table term = .error e := hconcat.symm
    have hoptions : encodeTermWithOptions deflate table term compressionLevel = .error e := by
      rw [encodeTermWithOptions, hflat]
      rfl
    rw [hflat, hoptions, ite_self]
    rfl
  | ok segments =>
    rw [hsegments] at hconcat
    have hany := encodeTermIovec_any hsegments
    simp only [bind, Except.bind, hany]
    by_cases hplain : compressionLevel = none ∨ compressionLevel = some 0
    · rw [if_pos hplain, if_pos (or_assoc.mp (.inl hplain))]
      exact hconcat
    · rw [if_neg hplain]
      by_cases hlarge : ¬ Copied term
      · rw [if_pos hlarge, if_pos (.inr (.inr hlarge))]
        exact hconcat
      · rw [if_neg hlarge, if_neg (by tauto)]
        cases encodeTermWithOptions deflate table term compressionLevel with
        | error e => rfl
        | ok bytes => simp [Except.map, concatSegments, IoSegment.bytes]

/-- A term with a long binary is compressed by one and not by the other. -/
theorem not_termToIovec_concat_compressed : ¬ ∀ (deflate : ℕ → List UInt8 → Option (List UInt8))
    (table : AtomTable) (term : Value) (compressionLevel : Option ℕ),
      (termToIovec deflate table term compressionLevel).map concatSegments =
        encodeTermWithOptions deflate table term compressionLevel := by
  intro hall
  -- The zlib stream of 100 zero bytes under their header.
  have hsame := hall
    (fun _ _ => some [120, 156, 203, 101, 96, 96, 72, 97, 160, 3, 0, 0, 84, 146, 0, 210])
    .withCommonAtoms (.binary (.inline (List.replicate 100 0))) (some 6)
  revert hsame
  decide +kernel

end Beamr.Etf
