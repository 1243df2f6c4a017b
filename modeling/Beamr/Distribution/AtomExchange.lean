import Beamr.Distribution.AtomReferences

/-!
# Both ends agree on the atoms of a message

The encoder of a message is described by the slots it refers to and the entries it announces.
Within one message a slot keeps its atom as long as the message has no more different atoms than
there are slots: the slots referred to stay at the back of the queue.
-/
namespace Beamr.Distribution

open ByteOrder Term

/-! ## What the encoder does -/

/-- The slots and the announced entries of a list of references. -/
inductive Sent (table : AtomTable) :
    AtomCache → List Atom → AtomCacheHeader → List UInt8 → AtomCache → Prop
  | nil (cache : AtomCache) : Sent table cache [] [] [] cache
  | cached {cache cache' : AtomCache} {atom : Atom} {index : UInt8} {rest : List Atom}
      {entries : AtomCacheHeader} {indices : List UInt8}
      (hatom : cache.indexOf atom = some index)
      (hrest : Sent table (cache.touch index) rest entries indices cache') :
      Sent table cache (atom :: rest) entries (index :: indices) cache'
  | new {cache cache' : AtomCache} {atom : Atom} {name : List UInt8} {rest : List Atom}
      {entries : AtomCacheHeader} {indices : List UInt8}
      (hatom : cache.indexOf atom = none) (hname : table.resolve atom = some name)
      (hlength : name.length ≤ 65535)
      (hrest : Sent table (cache.insert atom).2 rest entries indices cache') :
      Sent table cache (atom :: rest) (⟨(cache.insert atom).1, name⟩ :: entries)
        ((cache.insert atom).1 :: indices) cache'

def referenceBytes (index : UInt8) : List UInt8 := [atomCacheRef, index]

theorem encodeReferences_sent {table : AtomTable} {atoms : List Atom} {s s' : Outgoing}
    (h : encodeReferences table atoms s = .ok s') (hheader : s.header.length ≤ 255) :
    ∃ entries indices, Sent table s.cache atoms entries indices s'.cache ∧
      s'.header = s.header ++ entries ∧ s'.header.length ≤ 255 ∧
      s'.out = s.out ++ indices.flatMap referenceBytes := by
  induction atoms generalizing s with
  | nil =>
    cases h
    exact ⟨[], [], .nil _, by simp, hheader, by simp⟩
  | cons atom rest ih =>
    obtain ⟨⟨index, next⟩, hfirst, hrest⟩ := except_bind_ok_iff.mp h
    rw [encodeAtomReference, AtomCache.lookupByAtom] at hfirst
    cases hatom : s.cache.indexOf atom with
    | some index =>
      rw [hatom] at hfirst
      cases hfirst
      obtain ⟨entries, indices, hsent, hentries, hlen, hout⟩ := ih hrest hheader
      exact ⟨entries, index :: indices, .cached hatom hsent, hentries, hlen, by
        rw [hout]; simp [referenceBytes]⟩
    | none =>
      rw [hatom] at hfirst
      dsimp only at hfirst
      split at hfirst
      · cases hfirst
      next hroom =>
        cases hname : table.resolve atom with
        | none =>
          rw [hname] at hfirst
          cases hfirst
        | some name =>
          rw [hname] at hfirst
          dsimp only at hfirst
          split at hfirst
          · cases hfirst
          next hlength =>
            cases hfirst
            have hroom : s.header.length < 255 := by
              simpa [AtomCacheHeader.canEncodeAnotherEntry] using hroom
            obtain ⟨entries, indices, hsent, hentries, hlen, hout⟩ := ih hrest (by
              rw [List.length_append, List.length_singleton]
              omega)
            exact ⟨_ :: entries, _ :: indices, .new hatom hname (by omega) hsent,
              by rw [hentries]; simp, hlen, by rw [hout]; simp [referenceBytes]⟩

def entryBytes (entry : AtomCacheHeaderEntry) : List UInt8 :=
  newAtomCacheRef :: entry.index :: (beBytes 2 entry.name.length ++ entry.name)

/-- The name of an entry fits its length field and is valid. -/
def AtomCacheHeaderEntry.Wire (entry : AtomCacheHeaderEntry) : Prop :=
  entry.name.length ≤ 65535 ∧ utf8Valid entry.name = true

theorem encodeHeaderEntries_eq {header : AtomCacheHeader} (h : ∀ e ∈ header, e.Wire) :
    encodeHeaderEntries header = .ok (header.flatMap entryBytes) := by
  induction header with
  | nil => rfl
  | cons entry rest ih =>
    have hlen := (h entry (List.mem_cons_self ..)).1
    have hfirst : encodeHeaderEntry entry = .ok (entryBytes entry) := if_neg (by omega)
    rw [encodeHeaderEntries, hfirst, ih fun e he => h e (List.mem_cons_of_mem _ he)]
    rfl

theorem Sent.wire {table : AtomTable} {cache cache' : AtomCache} {atoms : List Atom}
    {entries : AtomCacheHeader} {indices : List UInt8}
    (h : Sent table cache atoms entries indices cache') : ∀ e ∈ entries, e.Wire := by
  induction h with
  | nil => exact List.forall_mem_nil _
  | cached hatom hrest ih => exact ih
  | new hatom hname hlength hrest ih =>
    intro e he
    rcases List.mem_cons.mp he with rfl | he
    · exact ⟨hlength, AtomTable.valid_of_resolve hname⟩
    · exact ih e he

theorem encodeMessage_sent {table : AtomTable} {cache cache' : AtomCache} {atoms : List Atom}
    {message : Message} (h : encodeMessage table cache atoms = .ok (message, cache')) :
    ∃ entries indices, Sent table cache atoms entries indices cache' ∧ entries.length ≤ 255 ∧
      message.header = UInt8.ofNat entries.length :: entries.flatMap entryBytes ∧
      message.payload = indices.flatMap referenceBytes := by
  obtain ⟨s, hs, h⟩ := except_bind_ok_iff.mp h
  obtain ⟨header, hheader, h⟩ := except_bind_ok_iff.mp h
  cases h
  obtain ⟨entries, indices, hsent, hentries, hlen, hout⟩ := encodeReferences_sent hs (by simp)
  rw [List.nil_append] at hentries hout
  rw [hentries] at hlen hheader
  rw [encodeHeader, if_neg (by omega), encodeHeaderEntries_eq hsent.wire] at hheader
  cases hheader
  exact ⟨entries, indices, hsent, hlen, rfl, hout⟩

theorem Sent.consistent {table : AtomTable} {cache cache' : AtomCache} {atoms : List Atom}
    {entries : AtomCacheHeader} {indices : List UInt8}
    (h : Sent table cache atoms entries indices cache') (hcache : cache.Consistent) :
    cache'.Consistent := by
  induction h with
  | nil => exact hcache
  | cached hatom hrest ih =>
    exact ih (hcache.touch (by rw [(hcache.inverse _ _).mp hatom]; rfl))
  | new hatom hname hlength hrest ih => exact ih (hcache.insert_new hatom).1

/-! ## Slots within a message -/

/-- The slots of the atoms `refs` are at the back of the queue. -/
def Recent (cache : AtomCache) (refs : List Atom) : Prop :=
  (∀ atom ∈ refs, ∃ index, cache.slots index = some atom) ∧
    ∃ older recent, cache.lru = older ++ recent ∧
      ∀ index, index ∈ recent ↔ ∃ atom ∈ refs, cache.slots index = some atom

theorem recent_nil (cache : AtomCache) : Recent cache [] :=
  ⟨List.forall_mem_nil _, cache.lru, [], by simp, by simp⟩

/-- A cached atom that is referred to joins the recent ones. -/
theorem Recent.touch {cache : AtomCache} {refs : List Atom} {atom : Atom} {index : UInt8}
    (h : Recent cache refs) (hcache : cache.Consistent) (hslot : cache.slots index = some atom) :
    Recent (cache.touch index) (atom :: refs) := by
  obtain ⟨hheld, older, recent, hlru, hrecent⟩ := h
  refine ⟨?_, older.filter (· != index), recent.filter (· != index) ++ [index], ?_, fun i => ?_⟩
  · intro a ha
    rcases List.mem_cons.mp ha with rfl | ha
    · exact ⟨index, hslot⟩
    · exact hheld a ha
  · rw [AtomCache.touch_lru, hlru, List.filter_append, List.append_assoc]
  · rw [List.mem_append, List.mem_singleton, List.mem_filter, hrecent, AtomCache.touch_slots]
    by_cases hi : i = index
    · subst hi
      simp [hslot]
    · simp only [hi, or_false, bne_iff_ne, ne_eq, not_false_eq_true, and_true, List.mem_cons,
        exists_eq_or_imp]
      constructor
      · exact .inr
      · rintro (hia | hia)
        · have hsame := (hcache.inverse atom i).mpr hia
          rw [(hcache.inverse atom index).mpr hslot] at hsame
          exact absurd (Option.some.inj hsame).symm hi
        · exact hia

theorem Recent.length_le {cache : AtomCache} (hcache : cache.Consistent) {refs : List Atom}
    {recent : List UInt8} (hnodup : recent.Nodup)
    (hrecent : ∀ index, index ∈ recent ↔ ∃ atom ∈ refs, cache.slots index = some atom) :
    recent.length ≤ refs.toFinset.card := by
  rw [← List.toFinset_card_of_nodup hnodup]
  refine Finset.card_le_card_of_injOn (fun index => (cache.slots index).getD 0) ?_ ?_
  · intro index hindex
    obtain ⟨atom, hatom, hslot⟩ := (hrecent index).mp (List.mem_toFinset.mp hindex)
    simpa [hslot] using hatom
  · intro i hi j hj hij
    obtain ⟨a, -, ha⟩ := (hrecent i).mp (List.mem_toFinset.mp hi)
    obtain ⟨b, -, hb⟩ := (hrecent j).mp (List.mem_toFinset.mp hj)
    dsimp only at hij
    rw [ha, hb] at hij
    have hab : a = b := hij
    subst hab
    rw [← hcache.inverse] at ha hb
    rw [ha] at hb
    exact Option.some.inj hb

/-- A new atom takes none of the recent slots while there are at most as many different atoms as
slots. -/
theorem Recent.insert_new {cache : AtomCache} {refs : List Atom} {atom : Atom}
    (h : Recent cache refs) (hcache : cache.Consistent) (hatom : cache.indexOf atom = none)
    (hcard : (atom :: refs).toFinset.card ≤ atomCacheSize) :
    Recent (cache.insert atom).2 (atom :: refs) ∧
      ∀ index, ∀ a ∈ refs, cache.slots index = some a →
        (cache.insert atom).2.slots index = some a := by
  obtain ⟨hheld, older, recent, hlru, hrecent⟩ := h
  obtain ⟨-, hslots, hqueue, hplace⟩ := hcache.insert_new hatom
  generalize (cache.insert atom).1 = new at hslots hqueue hplace
  have hnodup := hcache.nodup
  rw [hlru] at hnodup
  have hnew : new ∉ recent := by
    intro hmem
    rcases hplace with hfree | ⟨rest, hhead, hfull⟩
    · rw [hlru] at hfree
      exact hfree (List.mem_append_right _ hmem)
    · rw [hlru] at hhead hfull
      cases older with
      | cons first others =>
        have hfirst : first = new := (List.cons.inj hhead).1
        rw [hfirst, List.cons_append, List.nodup_cons] at hnodup
        exact hnodup.1 (List.mem_append_right _ hmem)
      | nil =>
        -- all slots are recent, so the new atom is one too many
        have hle := Recent.length_le hcache hnodup hrecent
        have hnotin : atom ∉ refs.toFinset := by
          intro hin
          obtain ⟨index, hindex⟩ := hheld atom (List.mem_toFinset.mp hin)
          rw [← hcache.inverse, hatom] at hindex
          cases hindex
        rw [List.toFinset_cons, Finset.card_insert_of_notMem hnotin] at hcard
        rw [List.nil_append] at hfull hle
        omega
  have hstays : ∀ index, ∀ a ∈ refs, cache.slots index = some a →
      (cache.insert atom).2.slots index = some a := by
    intro index a ha hslot
    have hindex : index ≠ new := by
      rintro rfl
      exact hnew ((hrecent _).mpr ⟨a, ha, hslot⟩)
    rw [hslots, Function.update_of_ne hindex, hslot]
  refine ⟨⟨?_, older.filter (· != new), recent ++ [new], ?_, fun i => ?_⟩, hstays⟩
  · intro a ha
    rcases List.mem_cons.mp ha with rfl | ha
    · exact ⟨new, by rw [hslots, Function.update_self]⟩
    · obtain ⟨index, hindex⟩ := hheld a ha
      exact ⟨index, hstays index a ha hindex⟩
  · have hkept : recent.filter (· != new) = recent := by
      rw [List.filter_eq_self]
      rintro i hi
      exact bne_iff_ne.mpr fun hi' => hnew (hi' ▸ hi)
    rw [hqueue, hlru, List.filter_append, hkept, List.append_assoc]
  · rw [List.mem_append, List.mem_singleton, hslots]
    by_cases hi : i = new
    · subst hi
      simp
    · have hother : ¬ cache.slots i = some atom := by
        intro hslot
        rw [← hcache.inverse, hatom] at hslot
        cases hslot
      simp [hi, hrecent, hother]

/-- With at most as many different atoms as slots, every reference of a message still finds its
atom at the end of the message. -/
theorem Sent.stable {table : AtomTable} {cache cache' : AtomCache} {atoms : List Atom}
    {entries : AtomCacheHeader} {indices : List UInt8}
    (h : Sent table cache atoms entries indices cache') (hcache : cache.Consistent)
    {refs : List Atom} (hrefs : Recent cache refs)
    (hcard : (refs ++ atoms).toFinset.card ≤ atomCacheSize) :
    (∀ index, ∀ a ∈ refs, cache.slots index = some a → cache'.slots index = some a) ∧
      List.Forall₂ (fun atom index => cache'.slots index = some atom) atoms indices := by
  induction h generalizing refs with
  | nil => exact ⟨fun _ _ _ hslot => hslot, .nil⟩
  | @cached cache cache' atom index rest entries indices hatom hrest ih =>
    have hslot := (hcache.inverse _ _).mp hatom
    have hsets : (atom :: refs ++ rest).toFinset = (refs ++ atom :: rest).toFinset := by
      ext a
      simp only [List.mem_toFinset, List.cons_append, List.mem_cons, List.mem_append]
      tauto
    rw [← hsets] at hcard
    obtain ⟨hkept, hrestSlots⟩ := ih (hcache.touch (by rw [hslot]; rfl))
      (hrefs.touch hcache hslot) hcard
    exact ⟨fun i a ha => hkept i a (List.mem_cons_of_mem _ ha),
      .cons (hkept index atom (List.mem_cons_self ..) hslot) hrestSlots⟩
  | @new cache cache' atom name rest entries indices hatom hname hlength hrest ih =>
    have hsets : (atom :: refs ++ rest).toFinset = (refs ++ atom :: rest).toFinset := by
      ext a
      simp only [List.mem_toFinset, List.cons_append, List.mem_cons, List.mem_append]
      tauto
    rw [← hsets] at hcard
    have hfirst : (atom :: refs).toFinset.card ≤ atomCacheSize := by
      refine (Finset.card_le_card ?_).trans hcard
      intro a ha
      rw [List.mem_toFinset] at ha ⊢
      exact List.mem_append_left _ ha
    obtain ⟨hconsistent, hslots, -⟩ := hcache.insert_new hatom
    obtain ⟨hrecent, hstays⟩ := hrefs.insert_new hcache hatom hfirst
    obtain ⟨hkept, hrestSlots⟩ := ih hconsistent hrecent hcard
    refine ⟨fun i a ha hslot => hkept i a (List.mem_cons_of_mem _ ha) (hstays i a ha hslot),
      .cons (hkept _ atom (List.mem_cons_self ..) ?_) hrestSlots⟩
    rw [hslots, Function.update_self]

/-! ## The receiver follows -/

/-- Both caches hold atoms of the same names in the same slots. -/
structure Agree (table : AtomTable) (cache : AtomCache) (r : Receiver) : Prop where
  sent : ∀ index atom, cache.slots index = some atom → ∃ name received,
    table.resolve atom = some name ∧ r.cache.slots index = some received ∧
      r.table.resolve received = some name
  received : ∀ index received, r.cache.slots index = some received → ∃ atom,
    cache.slots index = some atom

theorem Agree.extends {table table' : AtomTable} {cache : AtomCache} {r : Receiver}
    {receiverTable : AtomTable} (h : Agree table cache r) (htable : AtomTable.Extends table' table)
    (hreceiver : AtomTable.Extends receiverTable r.table) :
    Agree table' cache { r with table := receiverTable } where
  sent index atom hslot := by
    obtain ⟨name, received, hname, hheld, hreceived⟩ := h.sent index atom hslot
    exact ⟨name, received, htable.resolve hname, hheld, hreceiver.resolve hreceived⟩
  received := h.received

theorem Agree.of_slots {table : AtomTable} {cache cache' : AtomCache} {r r' : Receiver}
    (h : Agree table cache r) (hslots : cache'.slots = cache.slots)
    (hreceiver : r'.cache.slots = r.cache.slots) (htable : r'.table = r.table) :
    Agree table cache' r' where
  sent := by
    rw [hslots, hreceiver, htable]
    exact h.sent
  received := by
    rw [hslots, hreceiver]
    exact h.received

theorem insertAt_slots_of_absent {cache : AtomCache} {atom : Atom}
    (hatom : cache.indexOf atom = none) (index : UInt8) :
    (cache.insertAt index atom).slots = Function.update cache.slots index (some atom) := by
  rw [AtomCache.insertAt, hatom, AtomCache.replaceSlot_slots]

/-- The receiver puts an announced atom into the slot the sender gave it. -/
theorem Agree.announce {table : AtomTable} {cache cache' : AtomCache} {r : Receiver} {atom : Atom}
    {entry : AtomCacheHeaderEntry} (h : Agree table cache r) (hcache : cache.Consistent)
    (hreceiver : r.cache.Consistent) (hatom : cache.indexOf atom = none)
    (hname : table.resolve atom = some entry.name)
    (hslots : cache'.slots = Function.update cache.slots entry.index (some atom)) :
    Agree table cache' (r.announce entry) := by
  have hvalid := AtomTable.valid_of_resolve hname
  have hextends := AtomTable.intern_extends r.table entry.name hvalid
  have hresolve := AtomTable.resolve_intern r.table entry.name hvalid
  have habsent : r.cache.indexOf (r.table.intern entry.name hvalid).1 = none := by
    rw [← Option.not_isSome_iff_eq_none, Option.isSome_iff_exists]
    rintro ⟨index, hindex⟩
    rw [hreceiver.inverse] at hindex
    obtain ⟨other, hother⟩ := h.received index _ hindex
    obtain ⟨name, received, hotherName, hheld, hreceived⟩ := h.sent index other hother
    rw [hindex] at hheld
    cases hheld
    -- one name, one atom
    rw [hextends.resolve hreceived] at hresolve
    cases hresolve
    have hsame := (AtomTable.lookup_of_resolve hotherName).symm.trans
      (AtomTable.lookup_of_resolve hname)
    rw [Option.some.inj hsame, ← hcache.inverse, hatom] at hother
    cases hother
  have hannounce : r.announce entry = ⟨r.cache.insertAt entry.index
      (r.table.intern entry.name hvalid).1, (r.table.intern entry.name hvalid).2⟩ := dif_pos hvalid
  rw [hannounce]
  have hreceiverSlots := insertAt_slots_of_absent habsent entry.index
  constructor
  · intro index other hother
    dsimp only
    rw [hreceiverSlots]
    rw [hslots] at hother
    by_cases hindex : index = entry.index
    · subst hindex
      rw [Function.update_self] at hother ⊢
      cases hother
      exact ⟨entry.name, _, hname, rfl, hresolve⟩
    · rw [Function.update_of_ne hindex] at hother ⊢
      obtain ⟨name, received, hotherName, hheld, hreceived⟩ := h.sent index other hother
      exact ⟨name, received, hotherName, hheld, hextends.resolve hreceived⟩
  · intro index received hreceived
    dsimp only at hreceived
    rw [hreceiverSlots] at hreceived
    rw [hslots]
    by_cases hindex : index = entry.index
    · subst hindex
      exact ⟨atom, Function.update_self ..⟩
    · rw [Function.update_of_ne hindex] at hreceived ⊢
      exact h.received index received hreceived

theorem announce_consistent {r : Receiver} (h : r.cache.Consistent)
    (entry : AtomCacheHeaderEntry) : (r.announce entry).cache.Consistent := by
  rw [Receiver.announce]
  split
  · exact h.insertAt _ _
  · exact h

theorem foldl_announce_consistent {r : Receiver} (h : r.cache.Consistent)
    (entries : AtomCacheHeader) : (entries.foldl Receiver.announce r).cache.Consistent := by
  induction entries generalizing r with
  | nil => exact h
  | cons entry rest ih => exact ih (announce_consistent h entry)

theorem Sent.agree {table : AtomTable} {cache cache' : AtomCache} {atoms : List Atom}
    {entries : AtomCacheHeader} {indices : List UInt8}
    (h : Sent table cache atoms entries indices cache') (hcache : cache.Consistent)
    {r : Receiver} (hr : r.cache.Consistent) (hagree : Agree table cache r) :
    Agree table cache' (entries.foldl Receiver.announce r) := by
  induction h generalizing r with
  | nil => exact hagree
  | cached hatom hrest ih =>
    exact ih (hcache.touch (by rw [(hcache.inverse _ _).mp hatom]; rfl)) hr
      (hagree.of_slots rfl rfl rfl)
  | new hatom hname hlength hrest ih =>
    obtain ⟨hconsistent, hslots, -⟩ := hcache.insert_new hatom
    exact ih hconsistent (announce_consistent hr _) (hagree.announce hcache hr hatom hname hslots)

/-! ## What the decoder does -/

theorem readHeaderEntry_reads {entry : AtomCacheHeaderEntry} (h : entry.Wire) :
    Decoder.Reads readHeaderEntry () (entryBytes entry) entry () := by
  obtain ⟨hlength, hvalid⟩ := h
  have hlen : beNat (beBytes 2 entry.name.length) = entry.name.length :=
    beNat_beBytes_of_lt (by omega)
  have hbytes : entryBytes entry = [newAtomCacheRef] ++ ([entry.index] ++
      (beBytes 2 entry.name.length ++ entry.name)) := rfl
  rw [hbytes]
  refine (Decoder.Reads.byte _ _ _).bind (.bind_nil (.require _ _ (beq_self_eq_true _)) ?_)
  refine (Decoder.Reads.byte _ _ _).bind ((Decoder.Reads.take _ _ _ (beBytes_length ..)).bind ?_)
  refine (Decoder.Reads.take _ _ _ hlen.symm).bind_pure (.bind_nil (.require _ _ hvalid) ?_)
  exact Decoder.Reads.pure _ _

theorem decodeHeaderEntries_eq {entries : AtomCacheHeader} (h : ∀ e ∈ entries, e.Wire)
    (rest : List UInt8) (r : Receiver) :
    decodeHeaderEntries entries.length (entries.flatMap entryBytes ++ rest) r =
      (.ok (entries, rest), entries.foldl Receiver.announce r) := by
  induction entries generalizing r with
  | nil => rfl
  | cons entry others ih =>
    have hread := readHeaderEntry_reads (h entry (List.mem_cons_self ..))
      (others.flatMap entryBytes ++ rest)
    rw [List.length_cons, List.flatMap_cons, List.append_assoc, decodeHeaderEntries, hread]
    dsimp only
    rw [ih fun e he => h e (List.mem_cons_of_mem _ he)]
    rfl

theorem decodeHeader_eq {entries : AtomCacheHeader} (h : ∀ e ∈ entries, e.Wire)
    (hlen : entries.length ≤ 255) (r : Receiver) :
    decodeHeader (UInt8.ofNat entries.length :: entries.flatMap entryBytes) r =
      (.ok entries, entries.foldl Receiver.announce r) := by
  have hcount : (UInt8.ofNat entries.length).toNat = entries.length := by
    rw [UInt8.toNat_ofNat']
    exact Nat.mod_eq_of_lt (by omega)
  have hentries := decodeHeaderEntries_eq h [] r
  rw [List.append_nil] at hentries
  rw [decodeHeader, hcount, hentries]

/-- What a reference to a slot decodes to. -/
def slotValue (cache : AtomCache) (index : UInt8) : Except AtomCacheDecodeError Value :=
  match cache.slots index with
  | some atom => .ok (.atom atom)
  | none => .error (.missingCacheIndex index)

theorem decodeReferences_eq (indices : List UInt8) (cache : AtomCache) :
    (decodeReferences (indices.flatMap referenceBytes) cache).1 = indices.map (slotValue cache) ∧
      (decodeReferences (indices.flatMap referenceBytes) cache).2.slots = cache.slots := by
  induction indices generalizing cache with
  | nil => exact ⟨rfl, rfl⟩
  | cons index rest ih =>
    have hfirst : (decodeAtomReference [atomCacheRef, index] cache).1 = slotValue cache index ∧
        (decodeAtomReference [atomCacheRef, index] cache).2.slots = cache.slots := by
      rw [decodeAtomReference, slotValue]
      simp only [bne_self_eq_false, Bool.false_eq_true, if_false, AtomCache.lookupByIndex]
      cases cache.slots index with
      | none => exact ⟨rfl, rfl⟩
      | some atom => exact ⟨rfl, rfl⟩
    obtain ⟨hvalues, hslots⟩ := ih (decodeAtomReference [atomCacheRef, index] cache).2
    have hvalue : slotValue (decodeAtomReference [atomCacheRef, index] cache).2 =
        slotValue cache := by
      funext i
      rw [slotValue, slotValue, hfirst.2]
    rw [List.flatMap_cons]
    simp only [referenceBytes, List.cons_append, List.nil_append, decodeReferences, List.map_cons]
    rw [hfirst.1, ← hvalue, ← hfirst.2]
    exact ⟨congrArg _ hvalues, hslots⟩

theorem decodeReferences_consistent {payload : List UInt8} {cache : AtomCache}
    (h : cache.Consistent) : (decodeReferences payload cache).2.Consistent := by
  have hone : ∀ bytes (cache : AtomCache), cache.Consistent →
      (decodeAtomReference bytes cache).2.Consistent := by
    intro bytes cache hcache
    cases bytes with
    | nil => exact hcache
    | cons tag rest =>
      rw [decodeAtomReference.eq_def]
      dsimp only
      split
      · exact hcache
      · split
        · exact hcache
        next index =>
          have hlookup := hcache.lookupByIndex index
          split
          next heq =>
            rw [heq] at hlookup
            exact hlookup
          next heq =>
            rw [heq] at hlookup
            exact hlookup
        · exact hcache
  fun_induction decodeReferences payload cache with
  | case1 tag index rest cache value next hvalue values last hvalues ih =>
    have hnext := hone [tag, index] cache h
    rw [hvalue] at hnext
    have hlast := ih hnext
    rw [hvalues] at hlast
    exact hlast
  | case2 tag cache value next hvalue =>
    have hnext := hone [tag] cache h
    rw [hvalue] at hnext
    exact hnext
  | case3 cache => exact h

/-! ## A message from one end to the other -/

theorem decodeMessage_eq {message : Message} {entries : AtomCacheHeader} {indices : List UInt8}
    (hwire : ∀ e ∈ entries, e.Wire) (hlen : entries.length ≤ 255)
    (hheader : message.header = UInt8.ofNat entries.length :: entries.flatMap entryBytes)
    (hpayload : message.payload = indices.flatMap referenceBytes) (r : Receiver) :
    ∃ cache, decodeMessage message r =
        (.ok (indices.map (slotValue (entries.foldl Receiver.announce r).cache)),
          { entries.foldl Receiver.announce r with cache }) ∧
      cache.slots = (entries.foldl Receiver.announce r).cache.slots ∧
      (r.cache.Consistent → cache.Consistent) := by
  obtain ⟨hvalues, hslots⟩ := decodeReferences_eq indices (entries.foldl Receiver.announce r).cache
  rw [decodeMessage, hheader, decodeHeader_eq hwire hlen, hpayload]
  refine ⟨_, ?_, hslots, fun h => decodeReferences_consistent (foldl_announce_consistent h entries)⟩
  dsimp only
  rw [hvalues]

/-- Both caches are in order and agree. -/
structure Ends.InStep (e : Ends) : Prop where
  sender : e.cache.Consistent
  receiver : e.receiver.cache.Consistent
  agree : Agree e.table e.cache e.receiver

theorem Ends.inStep_start (table receiverTable : AtomTable) :
    (Ends.start table receiverTable).InStep where
  sender := AtomCache.consistent_new
  receiver := AtomCache.consistent_new
  agree := ⟨fun _ _ h => absurd h (by simp [start, AtomCache.new]),
    fun _ _ h => absurd h (by simp [start, AtomCache.new])⟩

/-- The references of a resolved message go to different slots for different atoms. -/
theorem card_le_of_resolved {table receiverTable : AtomTable} {cache : AtomCache}
    {atoms : List Atom} {indices : List UInt8}
    (h : Delivery.Resolved ⟨atoms, .ok (indices.map (slotValue cache)), table, receiverTable⟩) :
    atoms.toFinset.card ≤ atomCacheSize := by
  obtain ⟨values, hvalues, hresolved⟩ := h
  cases hvalues
  rw [List.forall₂_map_right_iff] at hresolved
  let read : UInt8 → Atom := fun index =>
    (((cache.slots index).bind receiverTable.resolve).bind table.lookup).getD 0
  have hsub : atoms.toFinset ⊆ slotIndices.toFinset.image read := by
    intro atom hatom
    obtain ⟨i, hi, hget⟩ := List.getElem_of_mem (List.mem_toFinset.mp hatom)
    have hi' : i < indices.length := hresolved.length_eq ▸ hi
    obtain ⟨name, received, hname, hvalue, hreceived⟩ := hresolved.get hi hi'
    simp only [List.get_eq_getElem, hget] at hname
    rw [Finset.mem_image]
    refine ⟨indices.get ⟨i, hi'⟩, List.mem_toFinset.mpr (mem_slotIndices _), ?_⟩
    rw [slotValue] at hvalue
    split at hvalue
    next found hslot =>
      cases hvalue
      simp only [read, hslot, Option.bind_some, hreceived, AtomTable.lookup_of_resolve hname,
        Option.getD_some]
    next => cases hvalue
  calc atoms.toFinset.card
      ≤ (slotIndices.toFinset.image read).card := Finset.card_le_card hsub
    _ ≤ slotIndices.toFinset.card := Finset.card_image_le
    _ ≤ slotIndices.length := List.toFinset_card_le _
    _ = atomCacheSize := by rw [slotIndices, List.length_map, List.length_range]

/-- A message leaves both ends in step, and it resolves exactly when it has at most as many
different atoms as the cache has slots. -/
theorem Ends.InStep.message {e : Ends} {atoms : List Atom} {message : Message} {cache : AtomCache}
    {decoded : Except AtomCacheDecodeError (List (Except AtomCacheDecodeError Value))}
    {receiver : Receiver} (h : e.InStep)
    (hencode : encodeMessage e.table e.cache atoms = .ok (message, cache))
    (hdecode : decodeMessage message e.receiver = (decoded, receiver)) :
    (Ends.mk e.table cache receiver).InStep ∧
      (Delivery.Resolved ⟨atoms, decoded, e.table, receiver.table⟩ ↔
        atoms.toFinset.card ≤ atomCacheSize) := by
  obtain ⟨entries, indices, hsent, hlen, hheader, hpayload⟩ := encodeMessage_sent hencode
  obtain ⟨after, hresult, hslots, hafter⟩ :=
    decodeMessage_eq hsent.wire hlen hheader hpayload e.receiver
  rw [hdecode] at hresult
  cases hresult
  have hagree := hsent.agree h.sender h.receiver h.agree
  refine ⟨⟨hsent.consistent h.sender, hafter h.receiver, hagree.of_slots rfl hslots rfl⟩,
    card_le_of_resolved, fun hcard => ⟨_, rfl, ?_⟩⟩
  obtain ⟨-, hfound⟩ := hsent.stable h.sender (recent_nil _) hcard
  rw [List.forall₂_map_right_iff]
  refine hfound.imp fun atom index hslot => ?_
  obtain ⟨name, received, hname, hheld, hreceived⟩ := hagree.sent index atom hslot
  exact ⟨name, received, hname, by rw [slotValue, hheld], hreceived⟩

theorem Exchange.inStep {e e' : Ends} {actions : List Action} {deliveries : List Delivery}
    (h : Exchange e actions deliveries e') (he : e.InStep) :
    e'.InStep ∧ ((∀ d ∈ deliveries, d.Resolved) ↔
      ∀ atoms, .message atoms ∈ actions → atoms.toFinset.card ≤ atomCacheSize) := by
  induction h with
  | nil e => exact ⟨he, by simp⟩
  | message hencode hdecode hrest ih =>
    obtain ⟨hnext, hresolved⟩ := he.message hencode hdecode
    obtain ⟨hlast, hothers⟩ := ih hnext
    refine ⟨hlast, ?_⟩
    rw [List.forall_mem_cons, hresolved, hothers]
    constructor
    · rintro ⟨hfirst, hrest⟩ atoms hatoms
      rcases List.mem_cons.mp hatoms with hatoms | hatoms
      · cases hatoms
        exact hfirst
      · exact hrest atoms hatoms
    · intro hall
      exact ⟨hall _ (List.mem_cons_self ..), fun atoms hatoms =>
        hall atoms (List.mem_cons_of_mem _ hatoms)⟩
  | @internAtSender e e' name valid rest deliveries hrest ih =>
    have hextends := AtomTable.intern_extends e.table name valid
    obtain ⟨hlast, hothers⟩ := ih ⟨he.sender, he.receiver,
      he.agree.extends hextends (AtomTable.Extends.refl _)⟩
    exact ⟨hlast, by simpa using hothers⟩
  | @internAtReceiver e e' name valid rest deliveries hrest ih =>
    have hextends := AtomTable.intern_extends e.receiver.table name valid
    obtain ⟨hlast, hothers⟩ := ih ⟨he.sender, he.receiver,
      he.agree.extends (AtomTable.Extends.refl _) hextends⟩
    exact ⟨hlast, by simpa using hothers⟩

/-! ## Messages that encode -/

theorem encodeReferences_append (table : AtomTable) (xs ys : List Atom) (s : Outgoing) :
    encodeReferences table (xs ++ ys) s =
      encodeReferences table xs s >>= encodeReferences table ys := by
  induction xs generalizing s with
  | nil => rfl
  | cons x rest ih =>
    rw [List.cons_append, encodeReferences, encodeReferences]
    cases encodeAtomReference table x s with
    | error e => rfl
    | ok next => exact ih next.2

/-- References to cached atoms announce nothing and move no atom. -/
theorem encodeReferences_of_cached (table : AtomTable) {atoms : List Atom} {s : Outgoing}
    (h : ∀ atom ∈ atoms, (s.cache.indexOf atom).isSome) :
    ∃ s', encodeReferences table atoms s = .ok s' ∧ s'.header = s.header := by
  induction atoms generalizing s with
  | nil => exact ⟨s, rfl, rfl⟩
  | cons atom rest ih =>
    obtain ⟨index, hindex⟩ := Option.isSome_iff_exists.mp (h atom (List.mem_cons_self ..))
    have hfirst : encodeAtomReference table atom s = .ok (index, { s with
        cache := s.cache.touch index, out := s.out ++ [atomCacheRef, index] }) := by
      rw [encodeAtomReference, AtomCache.lookupByAtom, hindex]
    obtain ⟨s', hs', hheader⟩ := ih (s := { s with
        cache := s.cache.touch index, out := s.out ++ [atomCacheRef, index] })
      fun a ha => h a (List.mem_cons_of_mem _ ha)
    refine ⟨s', ?_, hheader⟩
    rw [encodeReferences, hfirst]
    exact hs'

/-- Atoms with short names encode while the header has room for one entry each. -/
theorem encodeReferences_of_room (table : AtomTable) (atoms : List Atom) {s : Outgoing}
    (hnames : ∀ atom ∈ atoms, ∃ name, table.resolve atom = some name ∧ name.length ≤ 65535)
    (hroom : s.header.length + atoms.length ≤ 255) :
    ∃ s', encodeReferences table atoms s = .ok s' := by
  induction atoms generalizing s with
  | nil => exact ⟨s, rfl⟩
  | cons atom rest ih =>
    rw [List.length_cons] at hroom
    obtain ⟨index, next, hfirst, hheader⟩ : ∃ index next,
        encodeAtomReference table atom s = .ok (index, next) ∧
          next.header.length ≤ s.header.length + 1 := by
      rw [encodeAtomReference, AtomCache.lookupByAtom]
      cases s.cache.indexOf atom with
      | some index => exact ⟨_, _, rfl, by simp⟩
      | none =>
        obtain ⟨name, hname, hlength⟩ := hnames atom (List.mem_cons_self ..)
        have hcan : s.header.canEncodeAnotherEntry = true := by
          simp only [AtomCacheHeader.canEncodeAnotherEntry, decide_eq_true_eq]
          omega
        have hshort : ¬ name.length > 65535 := by omega
        simp only [hcan, hname, hshort, Bool.not_true, Bool.false_eq_true, if_false]
        exact ⟨_, _, rfl, by simp⟩
    obtain ⟨s', hs'⟩ := ih (s := next) (fun a ha => hnames a (List.mem_cons_of_mem _ ha)) (by omega)
    exact ⟨s', by rw [encodeReferences, hfirst]; exact hs'⟩

theorem encodeMessage_of_references {table : AtomTable} {cache : AtomCache} {atoms : List Atom}
    {s : Outgoing} (h : encodeReferences table atoms ⟨cache, [], []⟩ = .ok s) :
    ∃ message, encodeMessage table cache atoms = .ok (message, s.cache) := by
  obtain ⟨entries, indices, hsent, hentries, hlen, -⟩ := encodeReferences_sent h (by simp)
  rw [List.nil_append] at hentries
  have hheader : encodeHeader s.header =
      .ok (UInt8.ofNat s.header.length :: s.header.flatMap entryBytes) := by
    rw [encodeHeader, if_neg (by omega), hentries, encodeHeaderEntries_eq hsent.wire]
    rfl
  refine ⟨⟨UInt8.ofNat s.header.length :: s.header.flatMap entryBytes, s.out⟩, ?_⟩
  rw [encodeMessage, h, except_ok_bind, hheader, except_ok_bind]
  rfl

theorem numberedAtoms_nodup (count : ℕ) :
    ((List.range count).map fun n => List.replicate n (97 : UInt8)).Nodup := by
  refine List.nodup_range.map fun m n h => ?_
  have hlength := congrArg List.length h
  simpa using hlength

theorem numberedAtoms_valid (count : ℕ) :
    ∀ name ∈ (List.range count).map fun n => List.replicate n (97 : UInt8),
      utf8Valid name = true := by
  intro name hname
  obtain ⟨n, -, rfl⟩ := List.mem_map.mp hname
  clear hname
  induction n with
  | zero => rfl
  | succ n ih =>
    rw [List.replicate_succ, utf8Valid.eq_def]
    exact (if_pos (by decide)).trans ih

/-- The empty name, `a`, `aa` and so on. -/
def numberedAtoms (count : ℕ) : AtomTable where
  names := (List.range count).map fun n => List.replicate n 97
  nodup := numberedAtoms_nodup count
  valid := numberedAtoms_valid count

theorem resolve_numberedAtoms {count n : ℕ} (h : n < count) :
    (numberedAtoms count).resolve n = some (List.replicate n 97) := by
  simp [AtomTable.resolve, numberedAtoms, h]

theorem exists_short_name {count : ℕ} (hcount : count ≤ 65535) {atom : Atom}
    (h : atom ∈ List.range count) :
    ∃ name, (numberedAtoms count).resolve atom = some name ∧ name.length ≤ 65535 := by
  have hlt : atom < count := List.mem_range.mp h
  refine ⟨_, resolve_numberedAtoms hlt, ?_⟩
  rw [List.length_replicate]
  exact hlt.le.trans hcount

/-! ## Agreement -/

/-- The operations on a cache. -/
inductive CacheOp
  | insert (atom : Atom)
  | insertAt (index : UInt8) (atom : Atom)
  | lookupByIndex (index : UInt8)
  | lookupByAtom (atom : Atom)

def CacheOp.apply (cache : AtomCache) : CacheOp → AtomCache
  | .insert atom => (cache.insert atom).2
  | .insertAt index atom => cache.insertAt index atom
  | .lookupByIndex index => (cache.lookupByIndex index).2
  | .lookupByAtom atom => (cache.lookupByAtom atom).2

theorem foldl_apply_consistent {cache : AtomCache} (h : cache.Consistent) (ops : List CacheOp) :
    (ops.foldl CacheOp.apply cache).Consistent := by
  induction ops generalizing cache with
  | nil => exact h
  | cons op rest ih =>
    refine ih ?_
    cases op with
    | insert atom => exact h.insert atom
    | insertAt index atom => exact h.insertAt index atom
    | lookupByIndex index => exact h.lookupByIndex index
    | lookupByAtom atom => exact h.lookupByAtom atom

/-- In every run over fresh caches all references resolve to atoms of the names that were encoded
exactly when no message has more different atoms than the cache has slots. The parts of a cache
describe the same entries in every state. -/
theorem exchange_resolved_iff {table receiverTable : AtomTable} {actions : List Action}
    {deliveries : List Delivery} {e : Ends}
    (h : Exchange (.start table receiverTable) actions deliveries e) :
    ((∀ d ∈ deliveries, d.Resolved) ↔
      ∀ atoms, .message atoms ∈ actions → atoms.toFinset.card ≤ atomCacheSize) ∧
    (e.cache.Consistent ∧ e.cache.len ≤ atomCacheSize) ∧
    (e.receiver.cache.Consistent ∧ e.receiver.cache.len ≤ atomCacheSize) ∧
    ∀ ops : List CacheOp, (ops.foldl CacheOp.apply .new).Consistent ∧
      (ops.foldl CacheOp.apply .new).len ≤ atomCacheSize := by
  obtain ⟨hlast, hresolved⟩ := h.inStep (Ends.inStep_start table receiverTable)
  refine ⟨hresolved, ⟨hlast.sender, hlast.sender.len_le⟩,
    ⟨hlast.receiver, hlast.receiver.len_le⟩, fun ops => ?_⟩
  have hops := foldl_apply_consistent AtomCache.consistent_new ops
  exact ⟨hops, hops.len_le⟩

theorem exchange_resolved_one :
    ∃ deliveries e, Exchange (.start (numberedAtoms 2) (numberedAtoms 1)) [.message [1, 1]]
      deliveries e ∧ ∀ d ∈ deliveries, d.Resolved := by
  obtain ⟨s, hs⟩ := encodeReferences_of_room (numberedAtoms 2) [1, 1]
    (s := ⟨.new, [], []⟩) (fun atom hatom => exists_short_name (by decide) (by
      have hone : atom = 1 := by simpa using hatom
      rw [hone]
      decide)) (by simp)
  obtain ⟨message, hmessage⟩ := encodeMessage_of_references hs
  have hrun : Exchange (.start (numberedAtoms 2) (numberedAtoms 1)) [.message [1, 1]] _ _ :=
    .message hmessage rfl (.nil _)
  refine ⟨_, _, hrun, (exchange_resolved_iff hrun).1.mpr ?_⟩
  intro atoms hatoms
  cases List.mem_singleton.mp hatoms
  decide

/-- After a message with the first 255 atoms, one with 257 atoms announces two and reuses the slot
of its own first reference. -/
theorem not_exchange_resolved :
    ∃ deliveries e, Exchange (.start (numberedAtoms 257) (numberedAtoms 1))
      [.message (List.range 255), .message (List.range 255 ++ [255, 256])] deliveries e ∧
      ∃ d ∈ deliveries, ¬ d.Resolved := by
  have hrange : List.range 257 = List.range 255 ++ [255, 256] := by
    rw [List.range_succ, List.range_succ, List.append_assoc]
    rfl
  have hnames : ∀ atom ∈ List.range 255 ++ [255, 256],
      ∃ name, (numberedAtoms 257).resolve atom = some name ∧ name.length ≤ 65535 := by
    rw [← hrange]
    exact fun atom => exists_short_name (by decide)
  obtain ⟨s, hs⟩ := encodeReferences_of_room (numberedAtoms 257) (List.range 255)
    (s := ⟨.new, [], []⟩) (fun atom hatom => hnames atom (List.mem_append_left _ hatom)) (by simp)
  obtain ⟨message, hmessage⟩ := encodeMessage_of_references hs
  -- the first message fits into the empty cache
  obtain ⟨entries, indices, hsent, -, -, -⟩ := encodeReferences_sent hs (by simp)
  have hconsistent := hsent.consistent AtomCache.consistent_new
  obtain ⟨-, hslots⟩ := hsent.stable AtomCache.consistent_new (recent_nil _) (by
    rw [List.nil_append, List.toFinset_card_of_nodup List.nodup_range, List.length_range]
    decide)
  have hcached : ∀ atom ∈ List.range 255, (s.cache.indexOf atom).isSome := by
    intro atom hatom
    obtain ⟨i, hi, hget⟩ := List.getElem_of_mem hatom
    have hslot := hslots.get hi (hslots.length_eq ▸ hi)
    rw [← hconsistent.inverse] at hslot
    rw [← hget]
    exact Option.isSome_iff_exists.mpr ⟨_, hslot⟩
  obtain ⟨s', hs', hheader⟩ := encodeReferences_of_cached (numberedAtoms 257)
    (s := ⟨s.cache, [], []⟩) hcached
  obtain ⟨s'', hs''⟩ := encodeReferences_of_room (numberedAtoms 257) [255, 256]
    (s := s') (fun atom hatom => hnames atom (List.mem_append_right _ hatom)) (by simp [hheader])
  have hsecond : encodeReferences (numberedAtoms 257) (List.range 255 ++ [255, 256])
      ⟨s.cache, [], []⟩ = .ok s'' := by
    rw [encodeReferences_append, hs']
    exact hs''
  obtain ⟨message', hmessage'⟩ := encodeMessage_of_references hsecond
  have hrun : Exchange (.start (numberedAtoms 257) (numberedAtoms 1))
      [.message (List.range 255), .message (List.range 255 ++ [255, 256])] _ _ :=
    .message hmessage rfl (.message hmessage' rfl (.nil _))
  refine ⟨_, _, hrun, ?_⟩
  by_contra hnone
  have hall : ∀ d ∈ _, Delivery.Resolved d := fun d hd => by
    by_contra hd'
    exact hnone ⟨d, hd, hd'⟩
  have hcard := (hrun.inStep (Ends.inStep_start _ _)).2.mp hall (List.range 255 ++ [255, 256])
    (by simp)
  rw [← hrange, List.toFinset_card_of_nodup List.nodup_range, List.length_range] at hcard
  exact absurd hcard (by decide)

end Beamr.Distribution
