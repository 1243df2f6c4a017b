import Beamr.Loader.Literals

/-!
# Literals read back

`Literal.Decoded` is what the term decoder can return with a given nesting
allowance. Decoding spends exactly `Literal.nodes` and `Literal.bytes`; encoding a
decoded literal and decoding the bytes under a budget that covers this cost gives
the literal back.
-/
namespace Beamr.Loader

open ByteOrder Decoder

/-- Literals the decoder returns under `depth` levels of nesting, with atoms of `table`. -/
inductive Literal.Decoded (table : AtomTable) : ℕ → Literal → Prop
  | integer {depth : ℕ} {value : ℤ} : FitsSigned 64 value → Decoded table depth (.integer value)
  | float {depth bits : ℕ} : bits < 2 ^ 64 → Decoded table depth (.float bits)
  | bigInteger {depth : ℕ} {sign : UInt8} {magnitude : List UInt8} : sign ≤ 1 →
      (magnitude.length ≤ 8 → ¬ FitsSigned 64 (bigMagnitude sign magnitude)) →
      Decoded table depth (.bigInteger (sign :: magnitude))
  | atom {depth : ℕ} {atom : Atom} {name : List UInt8} : table.resolve atom = some name →
      name.length < 2 ^ 16 → Decoded table depth (.atom atom)
  | binary {depth : ℕ} {bytes : List UInt8} : Decoded table depth (.binary bytes)
  | tuple {depth : ℕ} {elements : List Literal} : elements.length ≤ maxTableEntries →
      (∀ l ∈ elements, Decoded table depth l) → Decoded table (depth + 1) (.tuple elements)
  | nil {depth : ℕ} : Decoded table depth .nil
  | list {depth : ℕ} {elements : List Literal} {tail : Literal} :
      elements.length ≤ maxTableEntries → (∀ l ∈ elements, Decoded table depth l) →
      Decoded table depth tail → Decoded table (depth + 1) (.list elements tail)
  | map {depth : ℕ} {pairs : List (Literal × Literal)} : pairs.length ≤ maxTableEntries →
      (∀ p ∈ pairs, Decoded table depth p.1) → (∀ p ∈ pairs, Decoded table depth p.2) →
      Decoded table (depth + 1) (.map pairs)
  | string {depth : ℕ} {bytes : List UInt8} : bytes.length < 2 ^ 16 →
      Decoded table depth (.string bytes)
  | exportFun {depth : ℕ} {module function : Atom} {moduleName functionName : List UInt8}
      {arity : ℕ} : table.resolve module = some moduleName →
      table.resolve function = some functionName → moduleName.length < 2 ^ 16 →
      functionName.length < 2 ^ 16 → arity < 256 →
      Decoded table (depth + 1) (.exportFun module function arity)

theorem Literal.Decoded.extends {table more : AtomTable} (hx : more.Extends table) {depth : ℕ}
    {l : Literal} (h : l.Decoded table depth) : l.Decoded more depth := by
  induction h with
  | integer hv => exact .integer hv
  | float hb => exact .float hb
  | bigInteger hs hw => exact .bigInteger hs hw
  | atom ha hl => exact .atom (hx.resolve ha) hl
  | binary => exact .binary
  | tuple hl _ ih => exact .tuple hl ih
  | nil => exact .nil
  | list hl _ _ ih iht => exact .list hl ih iht
  | map hl _ _ ihk ihv => exact .map hl ihk ihv
  | string hl => exact .string hl
  | exportFun hm hf hml hfl ha => exact .exportFun (hx.resolve hm) (hx.resolve hf) hml hfl ha

/-! ## Decoding spends the cost of the literal -/

theorem internName_ok {bytes : List UInt8} {malformed : LoadError} {atom : Atom}
    {s s' : DecodeState} {c c' : List UInt8}
    (h : internName bytes malformed s c = .ok (atom, s', c')) :
    c = c' ∧ Spent s s' 0 0 ∧ s'.atomTable.resolve atom = some bytes := by
  unfold internName at h
  split_ifs at h with hutf
  · obtain ⟨_, _, _, hget, h⟩ := bind_ok_iff.mp h
    obtain ⟨rfl, rfl, rfl⟩ := getState_ok_iff.mp hget
    cases hl : s.atomTable.lookup bytes with
    | some a =>
      rw [hl] at h
      obtain ⟨rfl, rfl, rfl⟩ := pure_ok_iff.mp h
      exact ⟨rfl, Spent.refl _, AtomTable.resolve_of_lookup hl⟩
    | none =>
      rw [hl] at h
      obtain ⟨_, s₁, c₁, hcharge, h⟩ := bind_ok_iff.mp h
      obtain ⟨b, hb, rfl, rfl⟩ := chargeWith_ok_iff.mp hcharge
      obtain ⟨_, _, _, hget, h⟩ := bind_ok_iff.mp h
      obtain ⟨rfl, rfl, rfl⟩ := getState_ok_iff.mp hget
      obtain ⟨_, _, _, hset, h⟩ := bind_ok_iff.mp h
      obtain ⟨rfl, rfl⟩ := setState_ok_iff.mp hset
      obtain ⟨rfl, rfl, rfl⟩ := pure_ok_iff.mp h
      unfold DecodeBudget.chargeAtom at hb
      split_ifs at hb
      obtain rfl := Except.ok.inj hb
      exact ⟨rfl, ⟨rfl, rfl, AtomTable.intern_extends _ _ hutf⟩, AtomTable.resolve_intern _ _ hutf⟩
  · exact absurd h not_fail_ok

/-- What one run of a term decoder establishes. -/
def Decodes (depth : ℕ) (l : Literal) (s s' : DecodeState) : Prop :=
  l.Decoded s'.atomTable depth ∧ Spent s s' l.nodes l.bytes

/-- A decoder all of whose successful runs return a literal of the given depth at its cost. -/
def SoundTerm (depth : ℕ) (d : LoadM Literal) : Prop :=
  ∀ s c l s' c', d s c = .ok (l, s', c') → Decodes depth l s s'

theorem many_sound {depth : ℕ} {d : LoadM Literal} (hd : SoundTerm depth d) {n : ℕ}
    {ls : List Literal} {s s' : DecodeState} {c c' : List UInt8}
    (h : many d n s c = .ok (ls, s', c')) :
    ls.length = n ∧ (∀ l ∈ ls, l.Decoded s'.atomTable depth) ∧
      Spent s s' (nodesList ls) (bytesList ls) := by
  refine many_ok (P := fun ls s _ s' _ => (∀ l ∈ ls, l.Decoded s'.atomTable depth) ∧
    Spent s s' (nodesList ls) (bytesList ls)) ?_ ?_ n h
  · intro s c
    exact ⟨by simp, Spent.refl s⟩
  · rintro l ls s c s₁ c₁ s' c' hl ⟨hall, hspent⟩
    obtain ⟨hdec, hone⟩ := hd _ _ _ _ _ hl
    refine ⟨?_, hone.trans hspent⟩
    intro x hx
    rcases List.mem_cons.mp hx with rfl | hx
    · exact hdec.extends hspent.2.2
    · exact hall x hx

theorem many_pairs_sound {depth : ℕ} {d : LoadM Literal} (hd : SoundTerm depth d) {n : ℕ}
    {ps : List (Literal × Literal)} {s s' : DecodeState} {c c' : List UInt8}
    (h : many (decodePair d) n s c = .ok (ps, s', c')) :
    ps.length = n ∧ (∀ p ∈ ps, p.1.Decoded s'.atomTable depth ∧ p.2.Decoded s'.atomTable depth) ∧
      Spent s s' (nodesPairs ps) (bytesPairs ps) := by
  refine many_ok (P := fun ps s _ s' _ =>
    (∀ p ∈ ps, p.1.Decoded s'.atomTable depth ∧ p.2.Decoded s'.atomTable depth) ∧
    Spent s s' (nodesPairs ps) (bytesPairs ps)) ?_ ?_ n h
  · intro s c
    exact ⟨by simp, Spent.refl s⟩
  · rintro ⟨k, v⟩ ps s c s₁ c₁ s' c' hp ⟨hall, hspent⟩
    simp only [decodePair, bind_ok_iff, pure_ok_iff] at hp
    obtain ⟨k', s₂, c₂, hk, v', s₃, c₃, hv, hkv, rfl, rfl⟩ := hp
    obtain ⟨rfl, rfl⟩ := Prod.mk.inj hkv
    obtain ⟨hkd, hks⟩ := hd _ _ _ _ _ hk
    obtain ⟨hvd, hvs⟩ := hd _ _ _ _ _ hv
    refine ⟨?_, by simpa [nodesPairs, bytesPairs] using (hks.trans hvs).trans hspent⟩
    intro x hx
    rcases List.mem_cons.mp hx with rfl | hx
    · exact ⟨hkd.extends (hspent.2.2.trans hvs.2.2), hvd.extends hspent.2.2⟩
    · exact hall x hx

theorem readU8_ok {s s' : DecodeState} {b : UInt8} {c c' : List UInt8}
    (h : (readU8 : LoadM UInt8) s c = .ok (b, s', c')) : s = s' := (byte_ok_iff.mp h).1

theorem readBytes_ok {s s' : DecodeState} {n : ℕ} {bs c c' : List UInt8}
    (h : (readBytes n : LoadM _) s c = .ok (bs, s', c')) : s = s' ∧ bs.length = n := by
  obtain ⟨hl, rfl, -⟩ := take_ok_iff.mp h
  exact ⟨rfl, hl⟩

theorem descend_ok {nested : Option (LoadM Literal)} {d : LoadM Literal} {s s' : DecodeState}
    {c c' : List UInt8} (h : descend nested s c = .ok (d, s', c')) : nested = some d ∧ s = s' := by
  obtain ⟨hn, rfl, -⟩ := ofOption_ok_iff.mp h
  exact ⟨hn, rfl⟩

/-- The same for a decoder that runs after the node of the term has been charged. -/
def SoundBody (depth : ℕ) (d : LoadM Literal) : Prop :=
  ∀ s c l s' c', d s c = .ok (l, s', c') →
    l.Decoded s'.atomTable depth ∧ Spent s s' (l.nodes - 1) l.bytes

theorem decodeAtomLiteral_sound (depth : ℕ) {bytes : List UInt8} (hlen : bytes.length < 2 ^ 16) :
    SoundBody depth (decodeAtomLiteral bytes) := by
  intro s c l s' c' h
  simp only [decodeAtomLiteral, bind_ok_iff, pure_ok_iff] at h
  obtain ⟨a, s₁, c₁, ha, rfl, rfl, rfl⟩ := h
  obtain ⟨-, hs, hr⟩ := internName_ok ha
  exact ⟨.atom hr hlen, hs⟩

/-- The nested decoder, when the allowance is not used up. -/
def SoundNested (depth : ℕ) (nested : Option (LoadM Literal)) : Prop :=
  ∀ d, nested = some d → ∃ k, depth = k + 1 ∧ SoundTerm k d

theorem decodeTuple_sound {depth : ℕ} {nested : Option (LoadM Literal)}
    (hn : SoundNested depth nested) (arity : ℕ) : SoundBody depth (decodeTuple nested arity) := by
  intro s c l s' c' h
  simp only [decodeTuple, bind_ok_iff, pure_ok_iff] at h
  obtain ⟨_, s₁, c₁, hcount, _, s₂, c₂, hcharge, d, s₃, c₃, hdesc, ls, s₄, c₄, hmany, rfl, rfl,
    rfl⟩ := h
  obtain ⟨rfl, -, hmax, -⟩ := ensureCount_ok hcount
  obtain ⟨-, hspent⟩ := chargeBytes_ok hcharge
  obtain ⟨hsome, rfl⟩ := descend_ok hdesc
  obtain ⟨k, rfl, hd⟩ := hn d hsome
  obtain ⟨hlen, hall, hmspent⟩ := many_sound hd hmany
  refine ⟨.tuple (by omega) hall, ?_⟩
  have htotal := hspent.trans hmspent
  simpa [Literal.nodes, Literal.bytes, hlen] using htotal

theorem decodeList_sound {depth : ℕ} {nested : Option (LoadM Literal)}
    (hn : SoundNested depth nested) : SoundBody depth (decodeList nested) := by
  intro s c l s' c' h
  simp only [decodeList, bind_ok_iff, pure_ok_iff] at h
  obtain ⟨len, s₀, c₀, hlen, _, s₁, c₁, hcount, _, s₂, c₂, hcharge, d, s₃, c₃, hdesc, ls, s₄, c₄,
    hmany, tl, s₅, c₅, htail, rfl, rfl, rfl⟩ := h
  obtain ⟨rfl, -, -⟩ := readU32_ok hlen
  obtain ⟨rfl, -, hmax, -⟩ := ensureCount_ok hcount
  obtain ⟨-, hspent⟩ := chargeBytes_ok hcharge
  obtain ⟨hsome, rfl⟩ := descend_ok hdesc
  obtain ⟨k, rfl, hd⟩ := hn d hsome
  obtain ⟨hll, hall, hmspent⟩ := many_sound hd hmany
  obtain ⟨htd, hts⟩ := hd _ _ _ _ _ htail
  refine ⟨.list (by omega) (fun l hl => (hall l hl).extends hts.2.2) htd, ?_⟩
  have htotal := (hspent.trans hmspent).trans hts
  have hnodes : (Literal.list ls tl).nodes - 1 = 0 + nodesList ls + tl.nodes := by
    rw [Literal.nodes]; omega
  rw [hnodes, Literal.bytes, hll]
  exact htotal

theorem decodeMap_sound {depth : ℕ} {nested : Option (LoadM Literal)}
    (hn : SoundNested depth nested) : SoundBody depth (decodeMap nested) := by
  intro s c l s' c' h
  simp only [decodeMap, bind_ok_iff, pure_ok_iff] at h
  obtain ⟨len, s₀, c₀, hlen, _, s₁, c₁, hcount, _, s₂, c₂, hcharge, d, s₃, c₃, hdesc, ps, s₄, c₄,
    hmany, rfl, rfl, rfl⟩ := h
  obtain ⟨rfl, -, -⟩ := readU32_ok hlen
  obtain ⟨rfl, -, hmax, -⟩ := ensureCount_ok hcount
  obtain ⟨-, hspent⟩ := chargeBytes_ok hcharge
  obtain ⟨hsome, rfl⟩ := descend_ok hdesc
  obtain ⟨k, rfl, hd⟩ := hn d hsome
  obtain ⟨hll, hall, hmspent⟩ := many_pairs_sound hd hmany
  refine ⟨.map (by omega) (fun p hp => (hall p hp).1) (fun p hp => (hall p hp).2), ?_⟩
  have htotal := hspent.trans hmspent
  simpa [Literal.nodes, Literal.bytes, hll] using htotal

theorem decodeExportFun_sound {depth : ℕ} {nested : Option (LoadM Literal)}
    (hn : SoundNested depth nested) : SoundBody depth (decodeExportFun nested) := by
  intro s c l s' c' h
  simp only [decodeExportFun, bind_ok_iff] at h
  obtain ⟨d, s₀, c₀, hdesc, m, s₁, c₁, hm, f, s₂, c₂, hf, a, s₃, c₃, ha, _, s₄, c₄, hcharge, h⟩ := h
  obtain ⟨hsome, rfl⟩ := descend_ok hdesc
  obtain ⟨k, rfl, hd⟩ := hn d hsome
  obtain ⟨hmd, hms⟩ := hd _ _ _ _ _ hm
  obtain ⟨hfd, hfs⟩ := hd _ _ _ _ _ hf
  obtain ⟨had, has⟩ := hd _ _ _ _ _ ha
  obtain ⟨-, hcs⟩ := chargeBytes_ok hcharge
  have hx2 := hcs.2.2.trans has.2.2
  have hx1 := hx2.trans hfs.2.2
  have htotal := ((hms.trans hfs).trans has).trans hcs
  -- only two atoms and an integer get past the component check
  cases hmd with
  | atom hmr hml =>
    cases hfd with
    | atom hfr hfl =>
      cases had with
      | @integer _ arity hfit =>
        by_cases hr : 0 ≤ arity ∧ arity < 256
        · simp only [if_pos hr, pure_ok_iff] at h
          obtain ⟨rfl, rfl, rfl⟩ := h
          exact ⟨.exportFun (hx1.resolve hmr) (hx2.resolve hfr) hml hfl (by omega), htotal⟩
        · simp only [if_neg hr] at h
          exact absurd h not_fail_ok
      | _ => exact absurd h not_fail_ok
    | _ => exact absurd h not_fail_ok
  | _ => exact absurd h not_fail_ok

theorem decodeBigInteger_sound (depth len : ℕ) : SoundBody depth (decodeBigInteger len) := by
  intro s c l s' c' h
  simp only [decodeBigInteger, bind_ok_iff] at h
  obtain ⟨sign, s₀, c₀, hs, h⟩ := h
  obtain rfl := readU8_ok hs
  by_cases hsign : sign > 1
  · rw [if_pos hsign] at h
    exact absurd h not_fail_ok
  · rw [if_neg hsign] at h
    obtain ⟨bs, s₁, c₁, hb, h⟩ := bind_ok_iff.mp h
    obtain ⟨rfl, hlen⟩ := readBytes_ok hb
    by_cases hfit : len ≤ 8 ∧ FitsSigned 64 (bigMagnitude sign bs)
    · rw [if_pos hfit] at h
      obtain ⟨rfl, rfl, rfl⟩ := pure_ok_iff.mp h
      exact ⟨.integer hfit.2, Spent.refl _⟩
    · rw [if_neg hfit] at h
      obtain ⟨_, s₂, c₂, hcharge, h⟩ := bind_ok_iff.mp h
      obtain ⟨rfl, rfl, rfl⟩ := pure_ok_iff.mp h
      obtain ⟨-, hspent⟩ := chargeBytes_ok hcharge
      refine ⟨.bigInteger (UInt8.not_lt.mp hsign) ?_, ?_⟩
      · intro h8 hf
        exact hfit ⟨by omega, hf⟩
      · simpa [Literal.nodes, Literal.bytes, hlen] using hspent

/-- A length read in front of a body changes nothing but the cursor. -/
theorem SoundBody.after {α : Type} {depth : ℕ} {r : LoadM α} {f : α → LoadM Literal}
    {Q : α → Prop} (hr : ∀ s c a s' c', r s c = .ok (a, s', c') → s = s' ∧ Q a)
    (hf : ∀ a, Q a → SoundBody depth (f a)) : SoundBody depth (r >>= f) := by
  intro s c l s' c' h
  obtain ⟨a, s₁, c₁, ha, h⟩ := bind_ok_iff.mp h
  obtain ⟨rfl, hq⟩ := hr _ _ _ _ _ ha
  exact hf a hq _ _ _ _ _ h

/-- A body that returns a literal built from bytes that were paid for before they were read. -/
theorem SoundBody.charged {depth len : ℕ} {f : List UInt8 → Literal}
    (hd : ∀ table bytes, bytes.length = len → (f bytes).Decoded table depth)
    (hn : ∀ bytes, (f bytes).nodes = 1) (hb : ∀ bytes, (f bytes).bytes = bytes.length) :
    SoundBody depth (chargeBytes len >>= fun _ => readBytes len >>= fun bs => pure (f bs)) := by
  intro s c l s' c' h
  simp only [bind_ok_iff, pure_ok_iff] at h
  obtain ⟨_, s₁, c₁, hcharge, bs, s₂, c₂, hread, rfl, rfl, rfl⟩ := h
  obtain ⟨-, hspent⟩ := chargeBytes_ok hcharge
  obtain ⟨rfl, hlen⟩ := readBytes_ok hread
  exact ⟨hd _ _ hlen, by rw [hn, hb, hlen]; exact hspent⟩

/-- A body that only reads. -/
theorem SoundBody.read {α : Type} {depth : ℕ} {r : LoadM α} {f : α → Literal} {Q : α → Prop}
    (hr : ∀ s c a s' c', r s c = .ok (a, s', c') → s = s' ∧ Q a)
    (hd : ∀ table a, Q a → (f a).Decoded table depth) (hn : ∀ a, (f a).nodes = 1)
    (hb : ∀ a, (f a).bytes = 0) : SoundBody depth (r >>= fun a => pure (f a)) := by
  intro s c l s' c' h
  simp only [bind_ok_iff, pure_ok_iff] at h
  obtain ⟨a, s₁, c₁, ha, rfl, rfl, rfl⟩ := h
  obtain ⟨rfl, hq⟩ := hr _ _ _ _ _ ha
  exact ⟨hd _ _ hq, by rw [hn, hb]; exact Spent.refl _⟩

theorem fitsSigned_of_fitsSigned {w k : ℕ} (h : w ≤ k) {value : ℤ} (hv : FitsSigned w value) :
    FitsSigned k value := by
  have hpow : (2 : ℤ) ^ (w - 1) ≤ 2 ^ (k - 1) := pow_le_pow_right₀ (by norm_num) (by omega)
  exact ⟨by have := hv.1; linarith, by have := hv.2; linarith⟩

theorem decodeBody_sound {depth : ℕ} {nested : Option (LoadM Literal)}
    (hn : SoundNested depth nested) (tag : ℕ) : SoundBody depth (decodeBody nested tag) := by
  have hu8 : ∀ s c a s' c', (readU8 : LoadM UInt8) s c = .ok (a, s', c') →
      s = s' ∧ a.toNat < 256 := fun _ _ a _ _ h => ⟨readU8_ok h, a.toNat_lt⟩
  have hu16 : ∀ s c a s' c', (readU16 : LoadM ℕ) s c = .ok (a, s', c') → s = s' ∧ a < 2 ^ 16 :=
    fun _ _ _ _ _ h => ⟨(readU16_ok h).1, (readU16_ok h).2.1⟩
  have hu32 : ∀ s c a s' c', (readU32 : LoadM ℕ) s c = .ok (a, s', c') → s = s' ∧ True :=
    fun _ _ _ _ _ h => ⟨(readU32_ok h).1, trivial⟩
  have hname : ∀ n < 2 ^ 16, SoundBody depth (readBytes n >>= decodeAtomLiteral) := by
    intro n hn
    refine .after (fun _ _ _ _ _ h => readBytes_ok h) fun bs hlen => ?_
    exact decodeAtomLiteral_sound depth (by omega)
  unfold decodeBody
  split
  · refine SoundBody.read (Q := fun bs => bs.length = 8) (fun _ _ _ _ _ h => readBytes_ok h) ?_
      (fun _ => rfl) (fun _ => rfl)
    intro table bs hlen
    have hlt := beNat_lt bs
    rw [hlen] at hlt
    exact .float (by norm_num at hlt ⊢; exact hlt)
  · refine SoundBody.read (Q := fun _ => True) (fun _ _ _ _ _ h => ⟨readU8_ok h, trivial⟩) ?_
      (fun _ => rfl) (fun _ => rfl)
    intro table b _
    have hb := b.toNat_lt
    exact .integer ⟨by omega, by norm_num; omega⟩
  · refine SoundBody.read (Q := FitsSigned 32) (fun _ _ _ _ _ h => readI32_ok h) ?_
      (fun _ => rfl) (fun _ => rfl)
    intro table i hi
    exact .integer (fitsSigned_of_fitsSigned (by norm_num) hi)
  · exact .after hu16 fun _ hlt => hname _ hlt
  · exact .after hu16 fun _ hlt => hname _ hlt
  · exact .after hu8 fun _ hlt => hname _ (by omega)
  · exact .after hu8 fun _ _ => decodeTuple_sound hn _
  · exact .after hu32 fun _ _ => decodeTuple_sound hn _
  · intro s c l s' c' h
    obtain ⟨rfl, rfl, rfl⟩ := pure_ok_iff.mp h
    exact ⟨.nil, Spent.refl _⟩
  · refine .after hu16 fun _ hlt => .charged (fun _ _ hlen => ?_) (fun _ => rfl) (fun _ => rfl)
    exact .string (by omega)
  · exact decodeList_sound hn
  · exact .after hu32 fun _ _ => .charged (fun _ _ _ => .binary) (fun _ => rfl) (fun _ => rfl)
  · exact .after hu8 fun _ _ => decodeBigInteger_sound depth _
  · exact .after hu32 fun _ _ => decodeBigInteger_sound depth _
  · exact decodeExportFun_sound hn
  · exact decodeMap_sound hn
  · exact fun _ _ _ _ _ h => absurd h not_fail_ok

theorem Literal.one_le_nodes (l : Literal) : 1 ≤ l.nodes := by
  cases l <;> simp only [Literal.nodes] <;> omega

theorem decodeTermWith_sound {depth : ℕ} {nested : Option (LoadM Literal)}
    (hn : SoundNested depth nested) : SoundTerm depth (decodeTermWith nested) := by
  intro s c l s' c' h
  simp only [decodeTermWith, bind_ok_iff] at h
  obtain ⟨_, s₁, c₁, hnode, tag, s₂, c₂, htag, h⟩ := h
  obtain ⟨-, hone⟩ := chargeNode_ok hnode
  obtain rfl := readU8_ok htag
  obtain ⟨hdec, hspent⟩ := decodeBody_sound hn _ _ _ _ _ _ h
  have hpos := l.one_le_nodes
  have htotal := hone.trans hspent
  rw [show 1 + (l.nodes - 1) = l.nodes by omega, zero_add] at htotal
  exact ⟨hdec, htotal⟩

/-- Every successful run of the term decoder spends exactly the cost of what it returns. -/
theorem decodeExternalTerm_sound (depth : ℕ) : SoundTerm depth (decodeExternalTerm depth) := by
  induction depth with
  | zero => exact decodeTermWith_sound fun d hd => by cases hd
  | succ depth ih =>
    refine decodeTermWith_sound fun d hd => ⟨depth, rfl, ?_⟩
    obtain rfl := Option.some.inj hd
    exact ih

/-! ## Reading back an encoded literal -/

/-- The decoder for the parts of a term, one level deeper. -/
def nestedTerm : ℕ → Option (LoadM Literal)
  | 0 => none
  | depth + 1 => some (decodeExternalTerm depth)

theorem decodeExternalTerm_eq (depth : ℕ) :
    decodeExternalTerm depth = decodeTermWith (nestedTerm depth) := by
  cases depth <;> rfl

theorem reads_readU8 (s : DecodeState) (b : UInt8) : Reads (readU8 : LoadM UInt8) s [b] b s :=
  Reads.byte truncated s b

theorem reads_readBytes (s : DecodeState) (bs : List UInt8) :
    Reads (readBytes bs.length : LoadM _) s bs bs s := Reads.take truncated s bs rfl

/-- A term is its tag byte followed by the body of that tag. -/
theorem reads_term {depth : ℕ} {s : DecodeState} {tag : UInt8} {rest : List UInt8} {l : Literal}
    (hcov : s.Covers l.nodes l.bytes)
    (h : Reads (decodeBody (nestedTerm depth) tag.toNat) (s.charge 1 0) rest l
      (s.charge l.nodes l.bytes)) :
    Reads (decodeExternalTerm depth) s (tag :: rest) l (s.charge l.nodes l.bytes) := by
  rw [decodeExternalTerm_eq]
  have hnode := reads_chargeNode (hcov.mono l.one_le_nodes le_rfl)
  exact hnode.bind_nil ((reads_readU8 _ tag).bind h)

theorem toNat_ofNat_of_lt {n : ℕ} (h : n < 256) : (UInt8.ofNat n).toNat = n := by
  rw [UInt8.toNat_ofNat']
  omega

theorem internName_reads {s : DecodeState} {atom : Atom} {name : List UInt8} (malformed : LoadError)
    (h : s.atomTable.resolve atom = some name) :
    Reads (internName name malformed) s [] atom s := by
  intro rest
  have hutf := AtomTable.valid_of_resolve h
  have hl := AtomTable.lookup_of_resolve h
  simp only [internName, dif_pos hutf, bind_apply, getState, hl]
  rfl

theorem reads_atomName {d : ℕ} {s : DecodeState} {atom : Atom} {name bytes : List UInt8}
    (hr : s.atomTable.resolve atom = some name) (hcov : s.Covers 1 0)
    (h : encodeAtomName name = .ok bytes) :
    Reads (decodeExternalTerm d) s bytes (.atom atom) (s.charge 1 0) := by
  have hatom : Reads (decodeAtomLiteral name) (s.charge 1 0) [] (.atom atom) (s.charge 1 0) := by
    have hname := internName_reads (s := s.charge 1 0)
      (.decodeError "ETF atom is not valid UTF-8") hr
    exact hname.bind_nil (Reads.pure (Literal.atom atom) _)
  unfold encodeAtomName at h
  split_ifs at h with hlen
  · obtain rfl := Except.ok.inj h
    refine reads_term hcov ((reads_readU8 _ _).bind ?_)
    rw [toNat_ofNat_of_lt hlen]
    exact (reads_readBytes _ name).bind_pure hatom
  · obtain ⟨n, hn, h⟩ := except_bind_ok_iff.mp h
    obtain rfl := Except.ok.inj h
    unfold u16Len at hn
    split_ifs at hn with h16
    obtain rfl := Except.ok.inj hn
    exact reads_term hcov ((reads_readU16 _ h16).bind ((reads_readBytes _ name).bind_pure hatom))

theorem trimTrailingZeros_spec {v : ℕ} (h0 : v ≠ 0) (hv : v < 2 ^ 64) :
    leNat (trimTrailingZeros (leBytes 8 v)) = v ∧ (trimTrailingZeros (leBytes 8 v)).length ≤ 8 := by
  have hval : leNat ((leBytes 8 v).rdropWhile (· == 0)) = v := by
    rw [Term.leNat_rdropWhile, leNat_leBytes_of_lt (by norm_num at hv ⊢; exact hv)]
  have hne : (leBytes 8 v).rdropWhile (· == 0) ≠ [] := by
    intro hnil
    rw [hnil, leNat] at hval
    exact h0 hval.symm
  have heq : trimTrailingZeros (leBytes 8 v) = (leBytes 8 v).rdropWhile (· == 0) := by
    unfold trimTrailingZeros
    simp only [List.isEmpty_iff, if_neg hne]
  rw [heq]
  refine ⟨hval, ?_⟩
  have hlen := (List.rdropWhile_prefix (p := (· == 0)) (leBytes 8 v)).length_le
  rwa [leBytes_length] at hlen

theorem reads_bigInteger_small {s : DecodeState} {sign : UInt8} {magnitude : List UInt8}
    (hs : sign ≤ 1) (h8 : magnitude.length ≤ 8) (hf : FitsSigned 64 (bigMagnitude sign magnitude)) :
    Reads (decodeBigInteger magnitude.length) s (sign :: magnitude)
      (.integer (bigMagnitude sign magnitude)) s := by
  refine (reads_readU8 s sign).bind ?_
  rw [if_neg (UInt8.not_lt.mpr hs)]
  refine (reads_readBytes s magnitude).bind_pure ?_
  rw [if_pos ⟨h8, hf⟩]
  exact Reads.pure _ _

theorem signByte_le (negative : Bool) : signByte negative ≤ 1 := by cases negative <;> decide

theorem bigMagnitude_signByte (negative : Bool) (magnitude : List UInt8) :
    bigMagnitude (signByte negative) magnitude =
      if negative then -(leNat magnitude : ℤ) else leNat magnitude := by
  cases negative <;> rfl

theorem reads_integer {d : ℕ} {s : DecodeState} {value : ℤ} (hv : FitsSigned 64 value)
    (hcov : s.Covers 1 0) :
    Reads (decodeExternalTerm d) s (encodeInteger value) (.integer value) (s.charge 1 0) := by
  unfold encodeInteger
  split_ifs with h1 h2
  · refine reads_term hcov ((reads_readU8 _ _).bind_pure ?_)
    rw [toNat_ofNat_of_lt (by omega), Int.toNat_of_nonneg h1.1]
    exact Reads.pure _ _
  · exact reads_term hcov ((reads_readI32 _ h2).bind_pure (Reads.pure _ _))
  · obtain ⟨hval, hlen⟩ := trimTrailingZeros_spec (v := value.natAbs) (by omega)
      (by have := hv.1; have := hv.2; norm_num at *; omega)
    have hmag : bigMagnitude (signByte (decide (value < 0)))
        (trimTrailingZeros (leBytes 8 value.natAbs)) = value := by
      rw [bigMagnitude_signByte, hval]
      by_cases hneg : value < 0
      · simp only [hneg, decide_true, if_true]; omega
      · simp only [hneg, decide_false, Bool.false_eq_true, if_false]; omega
    refine reads_term hcov ((reads_readU8 _ _).bind ?_)
    rw [toNat_ofNat_of_lt (by omega)]
    have hread := reads_bigInteger_small (s := s.charge 1 0) (signByte_le _) hlen (by rw [hmag]; exact hv)
    rwa [hmag] at hread

section Encoded

variable {e : AtomEncoder}

theorem encodeInteger_pos (value : ℤ) : 1 ≤ (encodeInteger value).length := by
  unfold encodeInteger
  split_ifs <;> simp

theorem encodeAtomName_pos {name bytes : List UInt8} (h : encodeAtomName name = .ok bytes) :
    1 ≤ bytes.length := by
  unfold encodeAtomName at h
  split_ifs at h
  · obtain rfl := Except.ok.inj h; simp
  · obtain ⟨n, -, h⟩ := except_bind_ok_iff.mp h
    obtain rfl := Except.ok.inj h
    simp

theorem encodeBigInteger_pos {raw bytes : List UInt8} (h : encodeBigInteger raw = .ok bytes) :
    1 ≤ bytes.length := by
  cases raw with
  | nil => simp [encodeBigInteger] at h
  | cons sign magnitude =>
    rw [encodeBigInteger] at h
    split_ifs at h
    · obtain rfl := Except.ok.inj h; simp
    · obtain ⟨n, -, h⟩ := except_bind_ok_iff.mp h
      obtain rfl := Except.ok.inj h
      simp

theorem tupleHeader_pos {arity : ℕ} {header : List UInt8} (h : tupleHeader arity = .ok header) :
    1 ≤ header.length := by
  unfold tupleHeader at h
  split_ifs at h
  · obtain rfl := Except.ok.inj h; simp
  · obtain ⟨n, -, h⟩ := except_bind_ok_iff.mp h
    obtain rfl := Except.ok.inj h
    simp

/-- Every encoded term has a tag byte. -/
theorem encodeLiteral_pos {l : Literal} {bytes : List UInt8} (h : encodeLiteral e l = .ok bytes) :
    1 ≤ bytes.length := by
  cases l with
  | integer value =>
    obtain rfl := Except.ok.inj ((encodeLiteral.eq_def ..).symm.trans h)
    exact encodeInteger_pos value
  | float bits =>
    obtain rfl := Except.ok.inj ((encodeLiteral.eq_def ..).symm.trans h)
    simp
  | bigInteger raw =>
    rw [encodeLiteral] at h
    exact encodeBigInteger_pos h
  | nil =>
    obtain rfl := Except.ok.inj ((encodeLiteral.eq_def ..).symm.trans h)
    simp
  | atom atom =>
    rw [encodeLiteral] at h
    obtain ⟨name, -, h⟩ := except_bind_ok_iff.mp h
    exact encodeAtomName_pos h
  | binary raw | string raw =>
    rw [encodeLiteral] at h
    obtain ⟨n, -, h⟩ := except_bind_ok_iff.mp h
    obtain rfl := Except.ok.inj h
    simp
  | tuple elements =>
    rw [encodeLiteral] at h
    obtain ⟨header, hh, h⟩ := except_bind_ok_iff.mp h
    obtain ⟨body, -, h⟩ := except_bind_ok_iff.mp h
    obtain rfl := Except.ok.inj h
    have := tupleHeader_pos hh
    simp only [List.length_append]
    omega
  | list elements tail =>
    rw [encodeLiteral] at h
    obtain ⟨n, -, h⟩ := except_bind_ok_iff.mp h
    obtain ⟨body, -, h⟩ := except_bind_ok_iff.mp h
    obtain ⟨last, -, h⟩ := except_bind_ok_iff.mp h
    obtain rfl := Except.ok.inj h
    simp
  | map pairs =>
    rw [encodeLiteral] at h
    obtain ⟨n, -, h⟩ := except_bind_ok_iff.mp h
    obtain ⟨body, -, h⟩ := except_bind_ok_iff.mp h
    obtain rfl := Except.ok.inj h
    simp
  | exportFun module function arity =>
    rw [encodeLiteral] at h
    obtain ⟨n, -, h⟩ := except_bind_ok_iff.mp h
    obtain ⟨m, -, h⟩ := except_bind_ok_iff.mp h
    obtain ⟨k, -, h⟩ := except_bind_ok_iff.mp h
    obtain ⟨j, -, h⟩ := except_bind_ok_iff.mp h
    obtain rfl := Except.ok.inj h
    simp

theorem encodeLiterals_length : ∀ {ls : List Literal} {bytes : List UInt8},
    encodeLiterals e ls = .ok bytes → ls.length ≤ bytes.length
  | [], _, _ => by simp
  | l :: ls, bytes, h => by
    rw [encodeLiterals] at h
    obtain ⟨first, hf, h⟩ := except_bind_ok_iff.mp h
    obtain ⟨rest, hr, h⟩ := except_bind_ok_iff.mp h
    obtain rfl := Except.ok.inj h
    have h1 := encodeLiteral_pos hf
    have h2 := encodeLiterals_length hr
    simp only [List.length_append, List.length_cons]
    omega

theorem encodePairs_length : ∀ {ps : List (Literal × Literal)} {bytes : List UInt8},
    encodePairs e ps = .ok bytes → ps.length * 2 ≤ bytes.length
  | [], _, _ => by simp
  | (k, v) :: ps, bytes, h => by
    rw [encodePairs] at h
    obtain ⟨kb, hk, h⟩ := except_bind_ok_iff.mp h
    obtain ⟨vb, hv, h⟩ := except_bind_ok_iff.mp h
    obtain ⟨rest, hr, h⟩ := except_bind_ok_iff.mp h
    obtain rfl := Except.ok.inj h
    have h1 := encodeLiteral_pos hk
    have h2 := encodeLiteral_pos hv
    have h3 := encodePairs_length hr
    simp only [List.length_append, List.length_cons]
    omega

/-- What the round trip of one literal says, for a decoder of its parts. -/
def ReadsBack (e : AtomEncoder) (d : LoadM Literal) (l : Literal) : Prop :=
  ∀ {bytes : List UInt8} {s : DecodeState}, s.atomTable = e.atomTable →
    encodeLiteral e l = .ok bytes → s.Covers l.nodes l.bytes →
    Reads d s bytes l (s.charge l.nodes l.bytes)

theorem reads_literals {d : LoadM Literal} : ∀ {ls : List Literal},
    (∀ l ∈ ls, ReadsBack e d l) → ∀ {bytes : List UInt8} {s : DecodeState},
      s.atomTable = e.atomTable → encodeLiterals e ls = .ok bytes →
      s.Covers (nodesList ls) (bytesList ls) →
      Reads (many d ls.length) s bytes ls (s.charge (nodesList ls) (bytesList ls))
  | [], _, bytes, s, _, h, _ => by
    rw [encodeLiterals] at h
    obtain rfl := Except.ok.inj h
    exact Reads.pure [] s
  | l :: ls, hd, bytes, s, ht, h, hcov => by
    rw [encodeLiterals] at h
    obtain ⟨first, hf, h⟩ := except_bind_ok_iff.mp h
    obtain ⟨rest, hr, h⟩ := except_bind_ok_iff.mp h
    obtain rfl := Except.ok.inj h
    rw [nodesList, bytesList] at hcov ⊢
    have h1 := hd l (by simp) ht hf (hcov.mono (by omega) (by omega))
    have h2 := reads_literals (fun x hx => hd x (by simp [hx])) (s := s.charge l.nodes l.bytes)
      ht hr (DecodeState.covers_charge hcov)
    rw [DecodeState.charge_charge] at h2
    exact h1.bind (h2.bind_pure (Reads.pure _ _))

theorem reads_pairs {d : LoadM Literal} : ∀ {ps : List (Literal × Literal)},
    (∀ p ∈ ps, ReadsBack e d p.1) → (∀ p ∈ ps, ReadsBack e d p.2) →
    ∀ {bytes : List UInt8} {s : DecodeState},
      s.atomTable = e.atomTable → encodePairs e ps = .ok bytes →
      s.Covers (nodesPairs ps) (bytesPairs ps) →
      Reads (many (decodePair d) ps.length) s bytes ps (s.charge (nodesPairs ps) (bytesPairs ps))
  | [], _, _, bytes, s, _, h, _ => by
    rw [encodePairs] at h
    obtain rfl := Except.ok.inj h
    exact Reads.pure [] s
  | (k, v) :: ps, hk, hv, bytes, s, ht, h, hcov => by
    rw [encodePairs] at h
    obtain ⟨kb, hkb, h⟩ := except_bind_ok_iff.mp h
    obtain ⟨vb, hvb, h⟩ := except_bind_ok_iff.mp h
    obtain ⟨rest, hr, h⟩ := except_bind_ok_iff.mp h
    obtain rfl := Except.ok.inj h
    rw [nodesPairs, bytesPairs] at hcov ⊢
    have h1 := hk (k, v) (by simp) ht hkb (hcov.mono (by dsimp only; omega) (by dsimp only; omega))
    have hc1 : (s.charge k.nodes k.bytes).Covers v.nodes v.bytes :=
      DecodeState.covers_charge (hcov.mono (by omega) (by omega))
    have h2 := hv (k, v) (by simp) (s := s.charge k.nodes k.bytes) ht hvb hc1
    rw [DecodeState.charge_charge] at h2
    have h3 := reads_pairs (fun x hx => hk x (by simp [hx])) (fun x hx => hv x (by simp [hx]))
      (s := s.charge (k.nodes + v.nodes) (k.bytes + v.bytes)) ht hr
      (DecodeState.covers_charge hcov)
    rw [DecodeState.charge_charge] at h3
    have hpair : Reads (decodePair d) s (kb ++ vb) (k, v)
        (s.charge (k.nodes + v.nodes) (k.bytes + v.bytes)) :=
      h1.bind (h2.bind_pure (Reads.pure _ _))
    exact hpair.bind (h3.bind_pure (Reads.pure _ _))

theorem u32Len_ok {n m : ℕ} (h : u32Len n = .ok m) : n = m ∧ m < 2 ^ 32 := by
  unfold u32Len at h
  split_ifs at h with hlt
  obtain rfl := Except.ok.inj h
  exact ⟨rfl, hlt⟩

theorem u16Len_ok {n m : ℕ} (h : u16Len n = .ok m) : n = m ∧ m < 2 ^ 16 := by
  unfold u16Len at h
  split_ifs at h with hlt
  obtain rfl := Except.ok.inj h
  exact ⟨rfl, hlt⟩

theorem resolve_ok {atom : Atom} {name : List UInt8} (h : e.resolve atom = .ok name) :
    e.atomTable.resolve atom = some name := by
  unfold AtomEncoder.resolve at h
  split at h
  · next n hn =>
    obtain rfl := Except.ok.inj h
    exact hn
  · cases h

/-- Bodies that charge a length, then read that many bytes. -/
theorem reads_charged {s : DecodeState} {r : List UInt8} {f : List UInt8 → Literal} {n : ℕ}
    (hcov : s.Covers n r.length) :
    Reads (chargeBytes r.length >>= fun _ => readBytes r.length >>= fun b => pure (f b)) s r
      (f r) (s.charge 0 r.length) :=
  (reads_chargeBytes hcov).bind_nil ((reads_readBytes _ r).bind_pure (Reads.pure _ _))

theorem reads_tuple {depth : ℕ} {s : DecodeState} {elements : List Literal} {body : List UInt8}
    (hl : elements.length ≤ maxTableEntries)
    (hb : encodeLiterals e elements = .ok body) (ht : s.atomTable = e.atomTable)
    (hcov : s.Covers (Literal.tuple elements).nodes (Literal.tuple elements).bytes)
    (hall : ∀ l ∈ elements, ReadsBack e (decodeExternalTerm depth) l) :
    Reads (decodeTuple (nestedTerm (depth + 1)) elements.length) (s.charge 1 0) body
      (.tuple elements) (s.charge (Literal.tuple elements).nodes (Literal.tuple elements).bytes) := by
  rw [Literal.nodes, Literal.bytes] at hcov ⊢
  have hc : (s.charge 1 0).Covers (0 + nodesList elements)
      (elements.length * sizeOfLiteral + bytesList elements) :=
    DecodeState.covers_charge (hcov.mono (by omega) (by omega))
  have hbytes := reads_chargeBytes (hc.mono le_rfl (Nat.le_add_right _ _))
  have hels := reads_literals hall (s := (s.charge 1 0).charge 0 (elements.length * sizeOfLiteral))
    ht hb (DecodeState.covers_charge hc)
  rw [DecodeState.charge_charge, DecodeState.charge_charge] at hels
  simp only [Nat.add_zero, Nat.zero_add] at hels
  refine Reads.ensureCount_bind hl (by simpa using encodeLiterals_length hb) ?_
  refine hbytes.bind_nil ?_
  refine (Reads.ofOption _ _ rfl).bind_nil ?_
  rw [DecodeState.charge_charge]
  simp only [Nat.add_zero, Nat.zero_add]
  exact hels.bind_pure (Reads.pure _ _)

theorem reads_list {depth : ℕ} {s : DecodeState} {elements : List Literal} {tail : Literal}
    {body last : List UInt8} (hl : elements.length ≤ maxTableEntries)
    (hb : encodeLiterals e elements = .ok body) (hlast : encodeLiteral e tail = .ok last)
    (ht : s.atomTable = e.atomTable)
    (hcov : s.Covers (Literal.list elements tail).nodes (Literal.list elements tail).bytes)
    (hall : ∀ l ∈ elements, ReadsBack e (decodeExternalTerm depth) l)
    (htail : ReadsBack e (decodeExternalTerm depth) tail) :
    Reads (decodeList (nestedTerm (depth + 1))) (s.charge 1 0)
      (u32Bytes elements.length ++ body ++ last) (.list elements tail)
      (s.charge (Literal.list elements tail).nodes (Literal.list elements tail).bytes) := by
  rw [Literal.nodes, Literal.bytes] at hcov ⊢
  have hc : (s.charge 1 0).Covers (0 + (nodesList elements + tail.nodes))
      (elements.length * sizeOfLiteral + (bytesList elements + tail.bytes)) :=
    DecodeState.covers_charge (hcov.mono (by omega) (by omega))
  have hc' := DecodeState.covers_charge hc
  have hbytes := reads_chargeBytes (hc.mono le_rfl (Nat.le_add_right _ _))
  have hels := reads_literals hall (s := (s.charge 1 0).charge 0 (elements.length * sizeOfLiteral))
    ht hb (hc'.mono (by omega) (by omega))
  have hend := htail (s := ((s.charge 1 0).charge 0 (elements.length * sizeOfLiteral)).charge
    (nodesList elements) (bytesList elements)) ht hlast (DecodeState.covers_charge hc')
  simp only [DecodeState.charge_charge, Nat.add_zero, Nat.zero_add] at hels hend hbytes
  have hlen := encodeLiterals_length hb
  have h32 : elements.length < 2 ^ 32 := by unfold maxTableEntries at hl; omega
  rw [List.append_assoc]
  refine (reads_readU32 _ h32).bind ?_
  refine Reads.ensureCount_bind hl (by simp; omega) ?_
  refine hbytes.bind_nil ?_
  refine (Reads.ofOption _ _ rfl).bind_nil ?_
  exact hels.bind (hend.bind_pure (Reads.pure _ _))

theorem reads_map {depth : ℕ} {s : DecodeState} {pairs : List (Literal × Literal)}
    {body : List UInt8} (hl : pairs.length ≤ maxTableEntries)
    (hb : encodePairs e pairs = .ok body) (ht : s.atomTable = e.atomTable)
    (hcov : s.Covers (Literal.map pairs).nodes (Literal.map pairs).bytes)
    (hk : ∀ p ∈ pairs, ReadsBack e (decodeExternalTerm depth) p.1)
    (hv : ∀ p ∈ pairs, ReadsBack e (decodeExternalTerm depth) p.2) :
    Reads (decodeMap (nestedTerm (depth + 1))) (s.charge 1 0) (u32Bytes pairs.length ++ body)
      (.map pairs) (s.charge (Literal.map pairs).nodes (Literal.map pairs).bytes) := by
  rw [Literal.nodes, Literal.bytes] at hcov ⊢
  have hc : (s.charge 1 0).Covers (0 + nodesPairs pairs)
      (pairs.length * (2 * sizeOfLiteral) + bytesPairs pairs) :=
    DecodeState.covers_charge (hcov.mono (by omega) (by omega))
  have hbytes := reads_chargeBytes (hc.mono le_rfl (Nat.le_add_right _ _))
  have hels := reads_pairs hk hv
    (s := (s.charge 1 0).charge 0 (pairs.length * (2 * sizeOfLiteral))) ht hb
    (DecodeState.covers_charge hc)
  simp only [DecodeState.charge_charge, Nat.add_zero, Nat.zero_add] at hels hbytes
  have h32 : pairs.length < 2 ^ 32 := by unfold maxTableEntries at hl; omega
  refine (reads_readU32 _ h32).bind ?_
  refine Reads.ensureCount_bind hl (encodePairs_length hb) ?_
  refine hbytes.bind_nil ?_
  refine (Reads.ofOption _ _ rfl).bind_nil ?_
  exact hels.bind_pure (Reads.pure _ _)

theorem reads_exportFun {depth : ℕ} {s : DecodeState} {module function : Atom}
    {moduleName functionName mb fb : List UInt8} {arity : ℕ} (harity : arity < 256)
    (hm : s.atomTable.resolve module = some moduleName)
    (hf : s.atomTable.resolve function = some functionName)
    (hmb : encodeAtomName moduleName = .ok mb) (hfb : encodeAtomName functionName = .ok fb)
    (hcov : s.Covers 4 (3 * sizeOfLiteral)) :
    Reads (decodeExportFun (nestedTerm (depth + 1))) (s.charge 1 0)
      (mb ++ fb ++ encodeInteger arity) (.exportFun module function arity)
      (s.charge 4 (3 * sizeOfLiteral)) := by
  have hcn : ∀ n, n ≤ 3 → (s.charge n 0).Covers 1 0 := fun n hn =>
    DecodeState.covers_charge (hcov.mono (by omega) (by omega))
  have h1 := reads_atomName (d := depth) (s := s.charge 1 0) hm (hcn 1 (by omega)) hmb
  have h2 := reads_atomName (d := depth) (s := s.charge 2 0) hf (hcn 2 (by omega)) hfb
  have hfit : FitsSigned 64 (arity : ℤ) := by
    unfold FitsSigned
    omega
  have h3 := reads_integer (d := depth) (s := s.charge 3 0) hfit (hcn 3 (by omega))
  have h4 := reads_chargeBytes (s := s.charge 4 0) (k := 0) (n := 3 * sizeOfLiteral)
    (DecodeState.covers_charge (hcov.mono (by omega) (by omega)))
  simp only [DecodeState.charge_charge, Nat.add_zero, Nat.zero_add, Nat.reduceAdd] at h1 h2 h3 h4
  rw [List.append_assoc]
  refine (Reads.ofOption _ _ rfl).bind_nil (h1.bind (h2.bind (h3.bind_pure ?_)))
  refine h4.bind_nil ?_
  have hr : (0 : ℤ) ≤ arity ∧ (arity : ℤ) < 256 := ⟨by omega, by omega⟩
  simp only [if_pos hr, Int.toNat_natCast]
  exact Reads.pure _ _

theorem reads_bigInteger {depth : ℕ} {s : DecodeState} {sign : UInt8} {magnitude bytes : List UInt8}
    (hs : sign ≤ 1) (hw : magnitude.length ≤ 8 → ¬ FitsSigned 64 (bigMagnitude sign magnitude))
    (h : encodeBigInteger (sign :: magnitude) = .ok bytes)
    (hcov : s.Covers 1 (magnitude.length + 1)) :
    Reads (decodeExternalTerm depth) s bytes (.bigInteger (sign :: magnitude))
      (s.charge 1 (magnitude.length + 1)) := by
  have hbody : Reads (decodeBigInteger magnitude.length) (s.charge 1 0) (sign :: magnitude)
      (.bigInteger (sign :: magnitude)) (s.charge 1 (magnitude.length + 1)) := by
    refine (reads_readU8 _ sign).bind ?_
    rw [if_neg (UInt8.not_lt.mpr hs)]
    refine (reads_readBytes _ magnitude).bind_pure ?_
    rw [if_neg (fun hf => hw hf.1 hf.2)]
    have hc := reads_chargeBytes (s := s.charge 1 0) (k := 0) (n := magnitude.length + 1)
      (DecodeState.covers_charge (hcov.mono (by omega) (by omega)))
    rw [DecodeState.charge_charge, Nat.add_zero, Nat.zero_add] at hc
    exact hc.bind_nil (Reads.pure _ _)
  rw [encodeBigInteger, if_neg (UInt8.not_lt.mpr hs)] at h
  split_ifs at h with hlen
  · obtain rfl := Except.ok.inj h
    refine reads_term hcov ((reads_readU8 _ _).bind ?_)
    rw [toNat_ofNat_of_lt hlen]
    exact hbody
  · obtain ⟨n, hn, h⟩ := except_bind_ok_iff.mp h
    obtain rfl := Except.ok.inj h
    obtain ⟨rfl, h32⟩ := u32Len_ok hn
    exact reads_term hcov ((reads_readU32 _ h32).bind hbody)

/-- Encoding a decoded literal and decoding the bytes gives the literal back, at its own cost. -/
theorem reads_externalTerm {depth : ℕ} {l : Literal} (hl : l.Decoded e.atomTable depth) :
    ReadsBack e (decodeExternalTerm depth) l := by
  induction hl with
  | integer hv =>
    intro bytes s ht h hcov
    obtain rfl := Except.ok.inj ((encodeLiteral.eq_def ..).symm.trans h)
    exact reads_integer hv hcov
  | @float _ bits hb =>
    intro bytes s ht h hcov
    obtain rfl := Except.ok.inj ((encodeLiteral.eq_def ..).symm.trans h)
    refine reads_term hcov ((Reads.take truncated _ _ (by simp)).bind_pure ?_)
    rw [beNat_beBytes_of_lt (by norm_num at hb ⊢; exact hb)]
    exact Reads.pure _ _
  | bigInteger hs hw =>
    intro bytes s ht h hcov
    rw [encodeLiteral] at h
    exact reads_bigInteger hs hw h hcov
  | atom ha _ =>
    intro bytes s ht h hcov
    rw [encodeLiteral] at h
    obtain ⟨name, hname, h⟩ := except_bind_ok_iff.mp h
    exact reads_atomName (by rw [ht]; exact resolve_ok hname) hcov h
  | @binary _ raw =>
    intro bytes s ht h hcov
    rw [encodeLiteral] at h
    obtain ⟨n, hn, h⟩ := except_bind_ok_iff.mp h
    obtain rfl := Except.ok.inj h
    obtain ⟨rfl, h32⟩ := u32Len_ok hn
    have hc := reads_charged (s := s.charge 1 0) (r := raw) (f := Literal.binary) (n := 0)
      (DecodeState.covers_charge (hcov.mono le_rfl (by simp [Literal.bytes])))
    rw [DecodeState.charge_charge, Nat.zero_add] at hc
    exact reads_term hcov ((reads_readU32 _ h32).bind hc)
  | @string _ raw _ =>
    intro bytes s ht h hcov
    rw [encodeLiteral] at h
    obtain ⟨n, hn, h⟩ := except_bind_ok_iff.mp h
    obtain rfl := Except.ok.inj h
    obtain ⟨rfl, h16⟩ := u16Len_ok hn
    have hc := reads_charged (s := s.charge 1 0) (r := raw) (f := Literal.string) (n := 0)
      (DecodeState.covers_charge (hcov.mono le_rfl (by simp [Literal.bytes])))
    rw [DecodeState.charge_charge, Nat.zero_add] at hc
    exact reads_term hcov ((reads_readU16 _ h16).bind hc)
  | nil =>
    intro bytes s ht h hcov
    obtain rfl := Except.ok.inj ((encodeLiteral.eq_def ..).symm.trans h)
    exact reads_term hcov (Reads.pure _ _)
  | tuple hlen _ ih =>
    intro bytes s ht h hcov
    rw [encodeLiteral] at h
    obtain ⟨header, hh, h⟩ := except_bind_ok_iff.mp h
    obtain ⟨body, hb, h⟩ := except_bind_ok_iff.mp h
    obtain rfl := Except.ok.inj h
    have hbody := reads_tuple hlen hb ht hcov ih
    unfold tupleHeader at hh
    split_ifs at hh with h8
    · obtain rfl := Except.ok.inj hh
      refine reads_term hcov ((reads_readU8 _ _).bind ?_)
      rw [toNat_ofNat_of_lt h8]
      exact hbody
    · obtain ⟨n, hn, hh⟩ := except_bind_ok_iff.mp hh
      obtain rfl := Except.ok.inj hh
      obtain ⟨rfl, h32⟩ := u32Len_ok hn
      exact reads_term hcov ((reads_readU32 _ h32).bind hbody)
  | list hlen _ _ ih iht =>
    intro bytes s ht h hcov
    rw [encodeLiteral] at h
    obtain ⟨n, hn, h⟩ := except_bind_ok_iff.mp h
    obtain ⟨body, hb, h⟩ := except_bind_ok_iff.mp h
    obtain ⟨last, hlast, h⟩ := except_bind_ok_iff.mp h
    obtain rfl := Except.ok.inj h
    obtain ⟨rfl, -⟩ := u32Len_ok hn
    exact reads_term hcov (reads_list hlen hb hlast ht hcov ih iht)
  | map hlen _ _ ihk ihv =>
    intro bytes s ht h hcov
    rw [encodeLiteral] at h
    obtain ⟨n, hn, h⟩ := except_bind_ok_iff.mp h
    obtain ⟨body, hb, h⟩ := except_bind_ok_iff.mp h
    obtain rfl := Except.ok.inj h
    obtain ⟨rfl, -⟩ := u32Len_ok hn
    exact reads_term hcov (reads_map hlen hb ht hcov ihk ihv)
  | exportFun hm hf _ _ ha =>
    intro bytes s ht h hcov
    rw [encodeLiteral] at h
    obtain ⟨mname, hmn, h⟩ := except_bind_ok_iff.mp h
    obtain ⟨mb, hmb, h⟩ := except_bind_ok_iff.mp h
    obtain ⟨fname, hfn, h⟩ := except_bind_ok_iff.mp h
    obtain ⟨fb, hfb, h⟩ := except_bind_ok_iff.mp h
    obtain rfl := Except.ok.inj h
    exact reads_term hcov (reads_exportFun ha (by rw [ht]; exact resolve_ok hmn)
      (by rw [ht]; exact resolve_ok hfn) hmb hfb hcov)

/-! ## The literal table -/

theorem onSlice_ok_iff {α : Type} {bytes : List UInt8} {d : LoadM α} {a : α} {s s' : DecodeState}
    {c c' : List UInt8} :
    onSlice bytes d s c = .ok (a, s', c') ↔ (∃ r, d s bytes = .ok (a, s', r)) ∧ c = c' := by
  unfold onSlice
  cases hd : d s bytes with
  | error e => simp
  | ok r => obtain ⟨x, y, z⟩ := r; simp; tauto

theorem Reads.onSlice {α : Type} {bytes : List UInt8} {d : LoadM α} {a : α} {s s' : DecodeState}
    (h : ReadsAll d s bytes a s') : Reads (onSlice bytes d) s [] a s' :=
  fun rest => onSlice_ok_iff.mpr ⟨⟨[], h⟩, by simp⟩

theorem decodeLiteralEntry_sound {s s' : DecodeState} {l : Literal} {c c' : List UInt8}
    (h : decodeLiteralEntry s c = .ok (l, s', c')) :
    l.Decoded s'.atomTable maxEtfDepth ∧ Spent s s' (1 + l.nodes) l.bytes := by
  simp only [decodeLiteralEntry, bind_ok_iff] at h
  obtain ⟨_, s₁, c₁, hnode, size, s₂, c₂, hsize, bs, s₃, c₃, hbs, h⟩ := h
  obtain ⟨-, hone⟩ := chargeNode_ok hnode
  obtain ⟨rfl, -, -⟩ := readU32_ok hsize
  obtain ⟨rfl, -⟩ := readBytes_ok hbs
  obtain ⟨⟨r, hr⟩, -⟩ := onSlice_ok_iff.mp h
  obtain ⟨version, s₄, c₄, hv, hr⟩ := bind_ok_iff.mp hr
  obtain rfl := readU8_ok hv
  by_cases hver : version ≠ 131
  · rw [if_pos hver] at hr
    exact absurd hr not_fail_ok
  · rw [if_neg hver] at hr
    simp only [bind_ok_iff, pure_ok_iff] at hr
    obtain ⟨l', s₅, c₅, hl, _, s₆, c₆, he, rfl, rfl, rfl⟩ := hr
    obtain ⟨rfl, -, -⟩ := expectEmpty_ok he
    obtain ⟨hdec, hspent⟩ := decodeExternalTerm_sound _ _ _ _ _ _ hl
    exact ⟨hdec, by simpa using hone.trans hspent⟩

/-- Nodes charged for the entries of a literal table. -/
def tableNodes (literals : List Literal) : ℕ := literals.length + nodesList literals

theorem decodeLiteralPayload_sound {s s' : DecodeState} {ls : List Literal} {c c' : List UInt8}
    (h : decodeLiteralPayload s c = .ok (ls, s', c')) :
    (∀ l ∈ ls, l.Decoded s'.atomTable maxEtfDepth) ∧ ls.length ≤ maxTableEntries ∧
      Spent s s' (tableNodes ls) (ls.length * sizeOfLiteral + bytesList ls) := by
  simp only [decodeLiteralPayload, bind_ok_iff, pure_ok_iff] at h
  obtain ⟨count, s₀, c₀, hcount, _, s₁, c₁, hens, _, s₂, c₂, hcharge, ls', s₃, c₃, hmany, _, s₄, c₄,
    hempty, rfl, rfl, rfl⟩ := h
  obtain ⟨rfl, -, -⟩ := readU32_ok hcount
  obtain ⟨rfl, -, hmax, -⟩ := ensureCount_ok hens
  obtain ⟨-, hspent⟩ := chargeBytes_ok hcharge
  obtain ⟨rfl, -, -⟩ := expectEmpty_ok hempty
  have hloop := many_ok (P := fun ls s _ s' _ => (∀ l ∈ ls, l.Decoded s'.atomTable maxEtfDepth) ∧
    Spent s s' (tableNodes ls) (bytesList ls)) (fun s _ => ⟨by simp, Spent.refl s⟩) (by
      rintro l ls s c s₁ c₁ s' c' hl ⟨hall, hsp⟩
      obtain ⟨hdec, hone⟩ := decodeLiteralEntry_sound hl
      refine ⟨?_, ?_⟩
      · intro x hx
        rcases List.mem_cons.mp hx with rfl | hx
        · exact hdec.extends hsp.2.2
        · exact hall x hx
      · have hn : tableNodes (l :: ls) = 1 + l.nodes + tableNodes ls := by
          simp only [tableNodes, nodesList, List.length_cons]; omega
        rw [hn, bytesList]
        exact hone.trans hsp) count hmany
  obtain ⟨hlen, hall, hsp⟩ := hloop
  refine ⟨hall, by omega, ?_⟩
  rw [hlen]
  simpa using hspent.trans hsp

theorem decodeLiteralChunk_sound {inflate : Inflate} {s s' : DecodeState} {ls : List Literal}
    {c c' : List UInt8} (h : decodeLiteralChunk inflate s c = .ok (ls, s', c')) :
    (∀ l ∈ ls, l.Decoded s'.atomTable maxEtfDepth) ∧ ls.length ≤ maxTableEntries ∧
      s'.atomTable.Extends s.atomTable := by
  simp only [decodeLiteralChunk, bind_ok_iff] at h
  obtain ⟨size, s₀, c₀, hsize, rest, s₁, c₁, hrest, h⟩ := h
  obtain ⟨rfl, -, -⟩ := readU32_ok hsize
  obtain ⟨rfl, rfl, rfl⟩ := remaining_ok_iff.mp hrest
  by_cases hz : size = 0
  · rw [if_pos hz] at h
    obtain ⟨_, s₂, c₂, hcharge, h⟩ := bind_ok_iff.mp h
    obtain ⟨-, hspent⟩ := chargeBytes_ok hcharge
    obtain ⟨⟨r, hr⟩, -⟩ := onSlice_ok_iff.mp h
    obtain ⟨hall, hmax, hsp⟩ := decodeLiteralPayload_sound hr
    exact ⟨hall, hmax, hsp.2.2.trans hspent.2.2⟩
  · rw [if_neg hz] at h
    obtain ⟨payload, s₂, c₂, hinf, h⟩ := bind_ok_iff.mp h
    simp only [decompressBounded, bind_ok_iff, getState_ok_iff, ofExcept_ok_iff, require_ok_iff,
      pure_ok_iff] at hinf
    obtain ⟨_, _, _, ⟨rfl, rfl, rfl⟩, out, _, _, ⟨-, rfl, rfl⟩, _, _, _, ⟨-, rfl, rfl⟩, _, _, _,
      ⟨-, rfl, rfl⟩, _, s₃, c₃, hcharge, rfl, rfl, rfl⟩ := hinf
    obtain ⟨-, hspent⟩ := chargeBytes_ok hcharge
    obtain ⟨⟨r, hr⟩, -⟩ := onSlice_ok_iff.mp h
    obtain ⟨hall, hmax, hsp⟩ := decodeLiteralPayload_sound hr
    exact ⟨hall, hmax, hsp.2.2.trans hspent.2.2⟩

theorem encodeAtomName_length {atom : Atom} {name bytes : List UInt8} (hr : e.resolve atom = .ok name)
    (h : encodeAtomName name = .ok bytes) : bytes.length = atomNameSize e.atomTable atom := by
  unfold encodeAtomName at h
  simp only [atomNameSize, resolve_ok hr]
  split_ifs at h ⊢
  · obtain rfl := Except.ok.inj h
    simp only [List.length_cons]; omega
  · obtain ⟨n, -, h⟩ := except_bind_ok_iff.mp h
    obtain rfl := Except.ok.inj h
    simp only [List.length_cons, List.length_append, u16Bytes_length]; omega

theorem encodeBigInteger_length {raw bytes : List UInt8} (h : encodeBigInteger raw = .ok bytes) :
    bytes.length = if raw.length ≤ 256 then 2 + raw.length else 5 + raw.length := by
  cases raw with
  | nil => simp [encodeBigInteger] at h
  | cons sign magnitude =>
    rw [encodeBigInteger] at h
    split_ifs at h with h1 h2
    · obtain rfl := Except.ok.inj h
      rw [if_pos (by simp only [List.length_cons]; omega)]
      simp only [List.length_cons]; omega
    · obtain ⟨n, -, h⟩ := except_bind_ok_iff.mp h
      obtain rfl := Except.ok.inj h
      rw [if_neg (by simp only [List.length_cons]; omega)]
      simp only [List.length_cons, List.length_append, u32Bytes_length]; omega

theorem tupleHeader_length {arity : ℕ} {header : List UInt8} (h : tupleHeader arity = .ok header) :
    header.length = if arity < 256 then 2 else 5 := by
  unfold tupleHeader at h
  split_ifs at h ⊢
  · obtain rfl := Except.ok.inj h; rfl
  · obtain ⟨n, -, h⟩ := except_bind_ok_iff.mp h
    obtain rfl := Except.ok.inj h
    simp

mutual

theorem encodeLiteral_length : ∀ {l : Literal} {bytes : List UInt8},
    encodeLiteral e l = .ok bytes → bytes.length = l.encodedSize e.atomTable
  | .integer value, bytes, h => by
    obtain rfl := Except.ok.inj ((encodeLiteral.eq_def ..).symm.trans h)
    rw [Literal.encodedSize]
  | .float bits, bytes, h => by
    obtain rfl := Except.ok.inj ((encodeLiteral.eq_def ..).symm.trans h)
    simp [Literal.encodedSize]
  | .bigInteger raw, bytes, h => by
    rw [encodeLiteral] at h
    rw [Literal.encodedSize, encodeBigInteger_length h]
  | .atom atom, bytes, h => by
    rw [encodeLiteral] at h
    obtain ⟨name, hr, h⟩ := except_bind_ok_iff.mp h
    rw [Literal.encodedSize, encodeAtomName_length hr h]
  | .binary raw, bytes, h => by
    rw [encodeLiteral] at h
    obtain ⟨n, -, h⟩ := except_bind_ok_iff.mp h
    obtain rfl := Except.ok.inj h
    simp only [Literal.encodedSize, List.length_cons, List.length_append, u32Bytes_length]; omega
  | .tuple elements, bytes, h => by
    rw [encodeLiteral] at h
    obtain ⟨header, hh, h⟩ := except_bind_ok_iff.mp h
    obtain ⟨body, hb, h⟩ := except_bind_ok_iff.mp h
    obtain rfl := Except.ok.inj h
    rw [Literal.encodedSize, List.length_append, tupleHeader_length hh, encodeLiterals_size hb]
  | .nil, bytes, h => by
    obtain rfl := Except.ok.inj ((encodeLiteral.eq_def ..).symm.trans h)
    simp [Literal.encodedSize]
  | .list elements tail, bytes, h => by
    rw [encodeLiteral] at h
    obtain ⟨n, -, h⟩ := except_bind_ok_iff.mp h
    obtain ⟨body, hb, h⟩ := except_bind_ok_iff.mp h
    obtain ⟨last, hl, h⟩ := except_bind_ok_iff.mp h
    obtain rfl := Except.ok.inj h
    simp only [Literal.encodedSize, List.length_cons, List.length_append, u32Bytes_length,
      encodeLiterals_size hb, encodeLiteral_length hl]
    omega
  | .map pairs, bytes, h => by
    rw [encodeLiteral] at h
    obtain ⟨n, -, h⟩ := except_bind_ok_iff.mp h
    obtain ⟨body, hb, h⟩ := except_bind_ok_iff.mp h
    obtain rfl := Except.ok.inj h
    simp only [Literal.encodedSize, List.length_cons, List.length_append, u32Bytes_length,
      encodePairs_size hb]
    omega
  | .string raw, bytes, h => by
    rw [encodeLiteral] at h
    obtain ⟨n, -, h⟩ := except_bind_ok_iff.mp h
    obtain rfl := Except.ok.inj h
    simp only [Literal.encodedSize, List.length_cons, List.length_append, u16Bytes_length]; omega
  | .exportFun module function arity, bytes, h => by
    rw [encodeLiteral] at h
    obtain ⟨mname, hmn, h⟩ := except_bind_ok_iff.mp h
    obtain ⟨mb, hmb, h⟩ := except_bind_ok_iff.mp h
    obtain ⟨fname, hfn, h⟩ := except_bind_ok_iff.mp h
    obtain ⟨fb, hfb, h⟩ := except_bind_ok_iff.mp h
    obtain rfl := Except.ok.inj h
    simp only [Literal.encodedSize, List.length_cons, List.length_append,
      encodeAtomName_length hmn hmb, encodeAtomName_length hfn hfb]
    omega

theorem encodeLiterals_size : ∀ {ls : List Literal} {bytes : List UInt8},
    encodeLiterals e ls = .ok bytes → bytes.length = sizeList e.atomTable ls
  | [], bytes, h => by
    obtain rfl := Except.ok.inj ((encodeLiterals.eq_def ..).symm.trans h)
    simp [sizeList]
  | l :: ls, bytes, h => by
    rw [encodeLiterals] at h
    obtain ⟨first, hf, h⟩ := except_bind_ok_iff.mp h
    obtain ⟨rest, hr, h⟩ := except_bind_ok_iff.mp h
    obtain rfl := Except.ok.inj h
    rw [sizeList, List.length_append, encodeLiteral_length hf, encodeLiterals_size hr]

theorem encodePairs_size : ∀ {ps : List (Literal × Literal)} {bytes : List UInt8},
    encodePairs e ps = .ok bytes → bytes.length = sizePairs e.atomTable ps
  | [], bytes, h => by
    obtain rfl := Except.ok.inj ((encodePairs.eq_def ..).symm.trans h)
    simp [sizePairs]
  | (k, v) :: ps, bytes, h => by
    rw [encodePairs] at h
    obtain ⟨kb, hk, h⟩ := except_bind_ok_iff.mp h
    obtain ⟨vb, hv, h⟩ := except_bind_ok_iff.mp h
    obtain ⟨rest, hr, h⟩ := except_bind_ok_iff.mp h
    obtain rfl := Except.ok.inj h
    rw [sizePairs, List.length_append, List.length_append, encodeLiteral_length hk,
      encodeLiteral_length hv, encodePairs_size hr]

end

/-- Bytes of the literal payload: count, then per literal a size, a version byte and the term. -/
def payloadSize (table : AtomTable) (literals : List Literal) : ℕ :=
  4 + 5 * literals.length + sizeList table literals

/-- Bytes charged for a literal table: the payload itself, the vector and its contents. -/
def tableBytes (table : AtomTable) (literals : List Literal) : ℕ :=
  payloadSize table literals + literals.length * sizeOfLiteral + bytesList literals

theorem encodeLiteralEntries_length : ∀ {ls : List Literal} {bytes : List UInt8},
    encodeLiteralEntries e ls = .ok bytes →
      bytes.length = 5 * ls.length + sizeList e.atomTable ls
  | [], bytes, h => by
    obtain rfl := Except.ok.inj h
    simp [sizeList]
  | l :: ls, bytes, h => by
    rw [encodeLiteralEntries] at h
    obtain ⟨first, hf, h⟩ := except_bind_ok_iff.mp h
    obtain ⟨rest, hr, h⟩ := except_bind_ok_iff.mp h
    obtain rfl := Except.ok.inj h
    obtain ⟨term, ht, hf⟩ := except_bind_ok_iff.mp hf
    obtain ⟨n, -, hf⟩ := except_bind_ok_iff.mp hf
    obtain rfl := Except.ok.inj hf
    have h1 := encodeLiteral_length ht
    have h2 := encodeLiteralEntries_length hr
    simp only [List.length_append, List.length_cons, u32Bytes_length, sizeList]
    omega

/-- An entry is the size of its term, a version byte and the term. -/
theorem reads_entry {s s' : DecodeState} {l : Literal} {term : List UInt8} (hcov : s.Covers 1 0)
    (hsize : (131 :: term).length < 2 ^ 32)
    (hterm : Reads (decodeExternalTerm maxEtfDepth) (s.charge 1 0) term l s') :
    Reads decodeLiteralEntry s (u32Bytes (131 :: term).length ++ 131 :: term) l s' := by
  have hslice : ReadsAll decodeVersionedTerm (s.charge 1 0) (131 :: term) l s' := by
    refine (reads_readU8 _ 131).bindAll ?_
    rw [if_neg (by simp)]
    exact hterm.bindAll_last (ReadsAll.expectEmpty_pure _ _ _)
  refine (reads_chargeNode hcov).bind_nil ((reads_readU32 _ hsize).bind ?_)
  exact (Reads.take truncated _ (131 :: term) (by simp)).bind_pure (Reads.onSlice hslice)

theorem reads_literalEntry {s : DecodeState} {l : Literal} {bytes : List UInt8}
    (hl : l.Decoded e.atomTable maxEtfDepth) (ht : s.atomTable = e.atomTable)
    (h : encodeLiteralEntry e l = .ok bytes) (hcov : s.Covers (1 + l.nodes) l.bytes) :
    Reads decodeLiteralEntry s bytes l (s.charge (1 + l.nodes) l.bytes) := by
  obtain ⟨term, hterm, h⟩ := except_bind_ok_iff.mp h
  obtain ⟨n, hn, h⟩ := except_bind_ok_iff.mp h
  obtain rfl := Except.ok.inj h
  obtain ⟨rfl, h32⟩ := u32Len_ok hn
  have hread := reads_externalTerm hl (s := s.charge 1 0) ht hterm
    (DecodeState.covers_charge (by simpa using hcov))
  rw [DecodeState.charge_charge, Nat.zero_add] at hread
  exact reads_entry (hcov.mono (Nat.le_add_right _ _) (Nat.zero_le _)) h32 hread

theorem reads_literalEntries : ∀ {ls : List Literal} {s : DecodeState} {bytes : List UInt8},
    (∀ l ∈ ls, l.Decoded e.atomTable maxEtfDepth) → s.atomTable = e.atomTable →
    encodeLiteralEntries e ls = .ok bytes → s.Covers (tableNodes ls) (bytesList ls) →
    Reads (many decodeLiteralEntry ls.length) s bytes ls (s.charge (tableNodes ls) (bytesList ls))
  | [], s, bytes, _, _, h, _ => by
    obtain rfl := Except.ok.inj h
    exact Reads.pure [] s
  | l :: ls, s, bytes, hd, ht, h, hcov => by
    rw [encodeLiteralEntries] at h
    obtain ⟨first, hf, h⟩ := except_bind_ok_iff.mp h
    obtain ⟨rest, hr, h⟩ := except_bind_ok_iff.mp h
    obtain rfl := Except.ok.inj h
    have hn : tableNodes (l :: ls) = 1 + l.nodes + tableNodes ls := by
      simp only [tableNodes, nodesList, List.length_cons]; omega
    rw [hn, bytesList] at hcov ⊢
    have h1 := reads_literalEntry (hd l (by simp)) ht hf (hcov.mono (by omega) (by omega))
    have h2 := reads_literalEntries (s := s.charge (1 + l.nodes) l.bytes)
      (fun x hx => hd x (by simp [hx])) ht hr (DecodeState.covers_charge hcov)
    rw [DecodeState.charge_charge] at h2
    exact h1.bind (h2.bind_pure (Reads.pure _ _))

theorem encodeLiteralChunk_some {ls : List Literal} {bytes : List UInt8}
    (h : encodeLiteralChunk e ls = .ok (some bytes)) :
    ∃ payload entries, bytes = u32Bytes 0 ++ payload ∧ payload = u32Bytes ls.length ++ entries ∧
      encodeLiteralEntries e ls = .ok entries ∧ ls.length < 2 ^ 32 ∧
      payload.length = payloadSize e.atomTable ls := by
  unfold encodeLiteralChunk at h
  by_cases hnil : ls.isEmpty
  · rw [if_pos hnil] at h
    cases h
  rw [if_neg hnil] at h
  obtain ⟨n, hn, h⟩ := except_bind_ok_iff.mp h
  obtain ⟨entries, he, h⟩ := except_bind_ok_iff.mp h
  obtain ⟨m, -, h⟩ := except_bind_ok_iff.mp h
  obtain rfl := Option.some.inj (Except.ok.inj h)
  obtain ⟨rfl, h32⟩ := u32Len_ok hn
  refine ⟨_, entries, rfl, rfl, he, h32, ?_⟩
  have hlen := encodeLiteralEntries_length he
  simp only [payloadSize, List.length_append, u32Bytes_length]
  omega

/-- An uncompressed chunk whose entries read: payload and vector are paid for before them. -/
theorem decodeLiteralChunk_entries (inflate : Inflate) {ls : List Literal} {s s' : DecodeState}
    {entries : List UInt8} (hmax : ls.length ≤ maxTableEntries)
    (hfit : ls.length * 4 ≤ entries.length)
    (hcov : s.Covers 0 (4 + entries.length + ls.length * sizeOfLiteral))
    (hentries : Reads (many decodeLiteralEntry ls.length)
      (s.charge 0 (4 + entries.length + ls.length * sizeOfLiteral)) entries ls s') :
    ∃ c, decodeLiteralChunk inflate s (u32Bytes 0 ++ (u32Bytes ls.length ++ entries)) =
      .ok (ls, s', c) := by
  set payload := u32Bytes ls.length ++ entries with hpayload
  have hsize : payload.length = 4 + entries.length := by simp [hpayload]
  have h32 : ls.length < 2 ^ 32 := hmax.trans_lt (by norm_num [maxTableEntries])
  have hvector := reads_chargeBytes (s := s.charge 0 payload.length) (k := 0)
    (n := ls.length * sizeOfLiteral) (DecodeState.covers_charge (by rwa [hsize]))
  rw [DecodeState.charge_charge, hsize, Nat.add_zero] at hvector
  have hread : ReadsAll decodeLiteralPayload (s.charge 0 (4 + entries.length)) payload ls s' := by
    refine (reads_readU32 _ h32).bindAll ?_
    refine ReadsAll.ensureCount_bind hmax hfit ?_
    exact hvector.bindAll_nil (hentries.bindAll_last (ReadsAll.expectEmpty_pure _ _ _))
  have hz := reads_readU32 s (v := 0) (by norm_num) payload
  have hcharge := reads_chargeBytes (hcov.mono le_rfl (hsize.le.trans (Nat.le_add_right _ _))) payload
  refine ⟨payload, ?_⟩
  rw [decodeLiteralChunk, bind_eq_of_ok hz, bind_apply]
  simp only [remaining, if_true]
  rw [List.nil_append] at hcharge
  rw [bind_eq_of_ok hcharge, hsize]
  exact onSlice_ok_iff.mpr ⟨⟨[], hread⟩, rfl⟩

/-- The encoded table decodes to itself within its cost. -/
theorem decodeLiteralChunk_encode {inflate : Inflate} {ls : List Literal} {s : DecodeState}
    {bytes : List UInt8} (hd : ∀ l ∈ ls, l.Decoded e.atomTable maxEtfDepth)
    (hmax : ls.length ≤ maxTableEntries) (ht : s.atomTable = e.atomTable)
    (h : encodeLiteralChunk e ls = .ok (some bytes))
    (hcov : s.Covers (tableNodes ls) (tableBytes e.atomTable ls)) :
    ∃ c, decodeLiteralChunk inflate s bytes =
      .ok (ls, s.charge (tableNodes ls) (tableBytes e.atomTable ls), c) := by
  obtain ⟨payload, entries, rfl, rfl, he, -, hsize⟩ := encodeLiteralChunk_some h
  have hlen := encodeLiteralEntries_length he
  have hcost : tableBytes e.atomTable ls =
      4 + entries.length + ls.length * sizeOfLiteral + bytesList ls := by
    rw [tableBytes, payloadSize, hlen]
    omega
  rw [hcost] at hcov ⊢
  refine decodeLiteralChunk_entries inflate hmax (by omega)
    (hcov.mono (Nat.zero_le _) (Nat.le_add_right _ _)) ?_
  have hread := reads_literalEntries
    (s := s.charge 0 (4 + entries.length + ls.length * sizeOfLiteral)) hd ht he
    (DecodeState.covers_charge (by rwa [Nat.zero_add]))
  rwa [DecodeState.charge_charge, Nat.zero_add] at hread

theorem decodeLiteralPayload_count {n : ℕ} {s s' : DecodeState} {ls : List Literal}
    {entries c : List UInt8} (hn : n < 2 ^ 32)
    (h : decodeLiteralPayload s (u32Bytes n ++ entries) = .ok (ls, s', c)) : ls.length = n := by
  rw [decodeLiteralPayload, bind_eq_of_ok (reads_readU32 s hn entries)] at h
  simp only [bind_ok_iff, pure_ok_iff] at h
  obtain ⟨_, s₁, c₁, -, _, s₂, c₂, -, ls', s₃, c₃, hmany, _, s₄, c₄, -, rfl, rfl, rfl⟩ := h
  exact (many_ok (P := fun _ _ _ _ _ => True) (fun _ _ => trivial)
    (fun _ _ _ _ _ _ _ _ _ _ => trivial) n hmany).1

/-- Conversely, a successful decode of an encoded table has the table's length and had its cost
to spend. -/
theorem decodeLiteralChunk_spent {inflate : Inflate} {ls ls' : List Literal} {s s' : DecodeState}
    {bytes c : List UInt8} (h : encodeLiteralChunk e ls = .ok (some bytes))
    (hd : decodeLiteralChunk inflate s bytes = .ok (ls', s', c)) :
    ls'.length = ls.length ∧ Spent s s' (tableNodes ls')
      (payloadSize e.atomTable ls + ls'.length * sizeOfLiteral + bytesList ls') := by
  obtain ⟨payload, entries, rfl, hp, -, h32, hsize⟩ := encodeLiteralChunk_some h
  have hz := reads_readU32 s (v := 0) (by norm_num) payload
  rw [decodeLiteralChunk, bind_eq_of_ok hz, bind_apply] at hd
  simp only [remaining, if_true] at hd
  obtain ⟨_, s₁, c₁, hcharge, hd⟩ := bind_ok_iff.mp hd
  obtain ⟨-, hspent⟩ := chargeBytes_ok hcharge
  obtain ⟨⟨r, hr⟩, -⟩ := onSlice_ok_iff.mp hd
  obtain ⟨-, -, hsp⟩ := decodeLiteralPayload_sound hr
  have htotal := hspent.trans hsp
  rw [Nat.zero_add, hsize, ← Nat.add_assoc] at htotal
  rw [hp] at hr
  exact ⟨decodeLiteralPayload_count h32 hr, htotal⟩

end Encoded

end Beamr.Loader
