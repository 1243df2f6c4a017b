import Beamr.Etf.Recorded

/-!
# Safe decoding

A safe decode looks names up and interns none. Run beside a decode that interns, from one state and
on the same bytes, it does the same until a name comes by that is not in the atom table; there it
stops and says which.
-/
namespace Beamr.Etf

open Term

/-! ## Names -/

def Item.name? : Item → Option (List UInt8)
  | .atomName name => some name
  | .magnitude _ => none

/-- The atom names a decode came by, in order. -/
def atomNames (items : List Item) : List (List UInt8) := items.filterMap Item.name?

theorem atomNames_append (items more : List Item) :
    atomNames (items ++ more) = atomNames items ++ atomNames more :=
  List.filterMap_append

/-- The first name that the table does not have. -/
def firstUnknown (atoms : AtomTable) (items : List Item) : Option (List UInt8) :=
  (atomNames items).find? fun name => (atoms.lookup name).isNone

theorem firstUnknown_append (atoms : AtomTable) (items more : List Item) :
    firstUnknown atoms (items ++ more) =
      (firstUnknown atoms items).or (firstUnknown atoms more) := by
  rw [firstUnknown, atomNames_append, List.find?_append]
  rfl

theorem firstUnknown_eq_none {atoms : AtomTable} {items : List Item} :
    firstUnknown atoms items = none ↔ ∀ name ∈ atomNames items, atoms.lookup name ≠ none := by
  simp [firstUnknown, List.find?_eq_none]

theorem firstUnknown_eq_some {atoms : AtomTable} {items : List Item} {name : List UInt8}
    (h : firstUnknown atoms items = some name) :
    name ∈ atomNames items ∧ atoms.lookup name = none := by
  refine ⟨List.mem_of_find?_eq_some h, ?_⟩
  simpa using List.find?_some h

/-! ## Parts that leave the atoms alone -/

section Keeps

variable {H α β : Type}

def KeepsAtoms (d : Decoder DecodeError (DecodeState H) α) : Prop :=
  ∀ s c a s' c', d s c = .ok (a, s', c') → s'.atoms = s.atoms

namespace KeepsAtoms

theorem pure (a : α) : KeepsAtoms (Pure.pure a : Decoder DecodeError (DecodeState H) α) := by
  intro s c b s' c' h
  obtain ⟨-, rfl, -⟩ := Decoder.pure_ok_iff.mp h
  rfl

theorem fail (e : DecodeError) :
    KeepsAtoms (Decoder.fail e : Decoder DecodeError (DecodeState H) α) :=
  fun _ _ _ _ _ h => absurd h Decoder.not_fail_ok

theorem bind {d : Decoder DecodeError (DecodeState H) α}
    {f : α → Decoder DecodeError (DecodeState H) β} (hd : KeepsAtoms d)
    (hf : ∀ a, KeepsAtoms (f a)) : KeepsAtoms (d >>= f) := by
  intro s c b s' c' h
  obtain ⟨a, s₁, c₁, ha, hb⟩ := Decoder.bind_ok_iff.mp h
  rw [hf a _ _ _ _ _ hb, hd _ _ _ _ _ ha]

theorem ite {p : Prop} [Decidable p] {d d' : Decoder DecodeError (DecodeState H) α}
    (h : KeepsAtoms d) (h' : KeepsAtoms d') : KeepsAtoms (if p then d else d') := by
  split
  · exact h
  · exact h'

theorem require (p : Bool) (e : DecodeError) :
    KeepsAtoms (Decoder.require p e : Decoder DecodeError (DecodeState H) Unit) :=
  .ite (.pure ()) (.fail e)

theorem ofOption (e : DecodeError) (o : Option α) :
    KeepsAtoms (Decoder.ofOption e o : Decoder DecodeError (DecodeState H) α) := by
  cases o with
  | none => exact .fail e
  | some a => exact .pure a

theorem ofExcept (r : Except DecodeError α) :
    KeepsAtoms (Decoder.ofExcept r : Decoder DecodeError (DecodeState H) α) := by
  cases r with
  | error e => exact .fail e
  | ok a => exact .pure a

theorem many {d : Decoder DecodeError (DecodeState H) α} (hd : KeepsAtoms d) (n : ℕ) :
    KeepsAtoms (Decoder.many d n) := by
  induction n with
  | zero => exact .pure []
  | succ n ih => exact hd.bind fun a => ih.bind fun as => .pure (a :: as)

theorem readU8 : KeepsAtoms (Etf.readU8 : Decoder DecodeError (DecodeState H) _) := by
  intro s c b s' c' h
  obtain ⟨rfl, -⟩ := Decoder.byte_ok_iff.mp h
  rfl

theorem readBytes (n : ℕ) :
    KeepsAtoms (Etf.readBytes n : Decoder DecodeError (DecodeState H) _) := by
  intro s c b s' c' h
  obtain ⟨-, rfl, -⟩ := Decoder.take_ok_iff.mp h
  rfl

theorem readU16 : KeepsAtoms (Etf.readU16 : Decoder DecodeError (DecodeState H) _) :=
  (readBytes 2).bind fun _ => .pure _

theorem readU32 : KeepsAtoms (Etf.readU32 : Decoder DecodeError (DecodeState H) _) :=
  (readBytes 4).bind fun _ => .pure _

theorem readI32 : KeepsAtoms (Etf.readI32 : Decoder DecodeError (DecodeState H) _) :=
  readU32.bind fun _ => .pure _

theorem expectEmpty : KeepsAtoms (Etf.expectEmpty : Decoder DecodeError (DecodeState H) _) := by
  intro s c b s' c' h
  obtain ⟨rest, s₁, c₁, hrest, hempty⟩ := Decoder.bind_ok_iff.mp h
  obtain ⟨-, rfl, rfl⟩ := Decoder.remaining_ok_iff.mp hrest
  exact require _ _ _ _ _ _ _ hempty

variable (context : DecodeContext H)

theorem ensureHeapWords (words : ℕ) : KeepsAtoms (Etf.ensureHeapWords context words) :=
  .require _ _

theorem alloc (words : ℕ) (term : Value) : KeepsAtoms (Etf.alloc context words term) := by
  intro s c b s' c' h
  simp only [Etf.alloc, Decoder.bind_ok_iff, Decoder.getState_ok_iff, Decoder.ofOption_ok_iff,
    Decoder.setState_ok_iff, Decoder.pure_ok_iff] at h
  obtain ⟨_, _, _, ⟨rfl, rfl, rfl⟩, heap, _, _, ⟨-, rfl, rfl⟩, _, _, _, ⟨rfl, rfl⟩, -, rfl, -⟩ := h
  rfl

theorem decodeSmallInteger (value : ℤ) :
    KeepsAtoms (Etf.decodeSmallInteger value : Decoder DecodeError (DecodeState H) _) :=
  (ofOption _ _).bind fun _ => .pure _

theorem decodeBigInteger (length : ℕ) : KeepsAtoms (Etf.decodeBigInteger context length) := by
  have hsign : KeepsAtoms (decodeSign : Decoder DecodeError (DecodeState H) _) := by
    refine readU8.bind fun sign => ?_
    split
    · exact .pure _
    · exact .pure _
    · exact .fail _
  refine hsign.bind fun negative => (readBytes length).bind fun bytes =>
    .ite (.ite ?_ (.ite ?_ ?_)) ?_
  · dsimp only
    split
    · exact .pure _
    · exact alloc context _ _
  · exact alloc context _ _
  · exact alloc context _ _
  · exact (ensureHeapWords context _).bind fun _ => alloc context _ _

end KeepsAtoms

end Keeps

/-! ## The two decodes side by side -/

namespace Recorded

section Follows

variable {H α β : Type}

/-- From any state `safe` does what `plain` does if every name `plain` comes by is known, with no
change of the atoms; else it stops at the first that is not, with no change of the atoms either. -/
def Follows (safe plain : Recorded H α) : Prop :=
  ∀ s, ∃ items, (plain s).2.items = s.items ++ items ∧
    (firstUnknown s.decode.atoms items = none →
      safe s = plain s ∧ (plain s).2.decode.atoms = s.decode.atoms) ∧
    ∀ name, firstUnknown s.decode.atoms items = some name →
      (safe s).1 = .error (.unsafeAtom name) ∧ (safe s).2.decode.atoms = s.decode.atoms

namespace Follows

theorem step {d : Decoder DecodeError (DecodeState H) α} (hd : KeepsAtoms d) :
    Follows (Recorded.step d) (Recorded.step d) := by
  intro s
  unfold Recorded.step
  cases hrun : d s.decode s.cursor with
  | error e => exact ⟨[], (List.append_nil _).symm, fun _ => ⟨rfl, rfl⟩, nofun⟩
  | ok r =>
    have hatoms := hd _ _ _ _ _ hrun
    exact ⟨[], (List.append_nil _).symm, fun _ => ⟨rfl, hatoms⟩, nofun⟩

theorem pure (a : α) : Follows (Pure.pure a : Recorded H α) (Pure.pure a) :=
  fun _ => ⟨[], (List.append_nil _).symm, fun _ => ⟨rfl, rfl⟩, nofun⟩

theorem throw (e : DecodeError) :
    Follows (Persist.throw e : Recorded H α) (Persist.throw e) :=
  fun _ => ⟨[], (List.append_nil _).symm, fun _ => ⟨rfl, rfl⟩, nofun⟩

theorem cursor : Follows (Recorded.cursor : Recorded H _) Recorded.cursor :=
  fun _ => ⟨[], (List.append_nil _).symm, fun _ => ⟨rfl, rfl⟩, nofun⟩

theorem note (bytes : List UInt8) :
    Follows (Recorded.note (.magnitude bytes) : Recorded H _) (Recorded.note (.magnitude bytes)) :=
  fun _ => ⟨[.magnitude bytes], rfl, fun _ => ⟨rfl, rfl⟩, nofun⟩

theorem ite {p : Prop} [Decidable p] {m m' n n' : Recorded H α} (h : Follows m n)
    (h' : Follows m' n') : Follows (if p then m else m') (if p then n else n') := by
  split
  · exact h
  · exact h'

theorem bind {m n : Recorded H α} {f g : α → Recorded H β} (h : Follows m n)
    (hf : ∀ a, Follows (f a) (g a)) : Follows (m >>= f) (n >>= g) := by
  intro s
  obtain ⟨items, hitems, hknown, hunknown⟩ := h s
  cases hfirst : firstUnknown s.decode.atoms items with
  | none =>
    obtain ⟨hsame, hatoms⟩ := hknown hfirst
    rw [Persist.bind_apply, Persist.bind_apply, hsame]
    rcases hrun : n s with ⟨e | a, t⟩
    · rw [hrun] at hitems hatoms
      refine ⟨items, hitems, fun _ => ⟨rfl, hatoms⟩, fun name hname => ?_⟩
      rw [hfirst] at hname
      cases hname
    · rw [hrun] at hitems hatoms
      obtain ⟨more, hmore, hknown', hunknown'⟩ := hf a t
      dsimp only at hitems hatoms
      rw [hitems, List.append_assoc] at hmore
      rw [hatoms] at hknown' hunknown'
      refine ⟨items ++ more, hmore, fun hnone => ?_, fun name hname => ?_⟩
      · rw [firstUnknown_append, hfirst] at hnone
        exact hknown' hnone
      · rw [firstUnknown_append, hfirst] at hname
        exact hunknown' name hname
  | some name =>
    obtain ⟨herror, hatoms⟩ := hunknown name hfirst
    have hstops : (m >>= f) s = (.error (.unsafeAtom name), (m s).2) := by
      rw [Persist.bind_apply]
      rcases hrun : m s with ⟨e | a, t⟩
      · rw [hrun] at herror
        rw [← Except.error.inj herror]
      · rw [hrun] at herror
        cases herror
    -- Whatever the other decode comes by after this name, this name is first.
    obtain ⟨more, hmore⟩ : ∃ more, ((n >>= g) s).2.items = s.items ++ (items ++ more) := by
      rw [Persist.bind_apply]
      rcases hrun : n s with ⟨e | a, t⟩
      · rw [hrun] at hitems
        exact ⟨[], by rw [List.append_nil, ← hitems]⟩
      · rw [hrun] at hitems
        obtain ⟨more, hmore, -⟩ := hf a t
        exact ⟨more, by rw [hmore, ← List.append_assoc, ← hitems]⟩
    have hfirst' : firstUnknown s.decode.atoms (items ++ more) = some name := by
      rw [firstUnknown_append, hfirst]
      rfl
    rw [hstops]
    refine ⟨items ++ more, hmore, fun hnone => ?_, fun other hother => ?_⟩
    · rw [hfirst'] at hnone
      cases hnone
    · rw [hfirst'] at hother
      obtain rfl := Option.some.inj hother
      exact ⟨rfl, hatoms⟩

theorem many {m n : Recorded H α} (h : Follows m n) (k : ℕ) :
    Follows (Persist.many m k) (Persist.many n k) := by
  induction k with
  | zero => exact .pure []
  | succ k ih => exact h.bind fun a => ih.bind fun as => .pure (a :: as)

/-- A run on a cursor of its own. -/
theorem onInflated {m n : Recorded H Value} (bytes : List UInt8) (h : Follows m n) :
    Follows (Recorded.onInflated bytes m) (Recorded.onInflated bytes n) := by
  have hwhole : Follows (do let term ← m; Recorded.step expectEmpty; return term)
      (do let term ← n; Recorded.step expectEmpty; return term) :=
    h.bind fun term => (step KeepsAtoms.expectEmpty).bind fun _ => .pure term
  intro s
  obtain ⟨items, hitems, hknown, hunknown⟩ := hwhole { s with cursor := bytes }
  refine ⟨items, hitems, fun hnone => ?_, fun name hname => hunknown name hname⟩
  obtain ⟨hsame, hatoms⟩ := hknown hnone
  refine ⟨?_, hatoms⟩
  unfold Recorded.onInflated
  rw [hsame]

end Follows

/-! ## Terms -/

section Atoms

variable {options : DecodeOptions} {name : List UInt8} {s : RecordState H}

theorem decodeAtom_invalid (hvalid : ¬ utf8Valid name = true) :
    decodeAtom options name s = (.error .invalidUtf8, s) := by
  unfold decodeAtom Etf.decodeAtom
  rw [dif_neg hvalid, if_neg hvalid]
  rfl

/-- The name is on record whether it is known or not. -/
theorem decodeAtom_valid (hvalid : utf8Valid name = true) :
    decodeAtom options name s = Recorded.step (Etf.decodeAtom options name)
      { s with items := s.items ++ [.atomName name] } := by
  unfold decodeAtom
  rw [if_pos hvalid]
  rfl

theorem intern_of_lookup {t : AtomTable} {atom : Atom} (hvalid : utf8Valid name = true)
    (h : t.lookup name = some atom) : t.intern name hvalid = (atom, t) := by
  unfold AtomTable.intern
  split
  · next found hfound =>
    rw [h] at hfound
    rw [Option.some.inj hfound]
  · next hnone =>
    rw [h] at hnone
    cases hnone

theorem decodeAtom_known {atom : Atom} (hvalid : utf8Valid name = true)
    (hlookup : s.decode.atoms.lookup name = some atom) :
    decodeAtom options name s =
      (.ok (.atom atom), { s with items := s.items ++ [.atomName name] }) := by
  have hrun : Etf.decodeAtom options name s.decode s.cursor =
      .ok (.atom atom, s.decode, s.cursor) := by
    unfold Etf.decodeAtom
    rw [dif_pos hvalid, Decoder.bind_eq_of_ok (Decoder.getState_ok_iff.mpr ⟨rfl, rfl, rfl⟩)]
    split
    · rw [hlookup]
      rfl
    · rw [intern_of_lookup hvalid hlookup]
      rfl
  rw [decodeAtom_valid hvalid]
  unfold Recorded.step
  rw [hrun]

theorem decodeAtom_refused (hsafe : options.safe = true) (hvalid : utf8Valid name = true)
    (hlookup : s.decode.atoms.lookup name = none) :
    decodeAtom options name s =
      (.error (.unsafeAtom name), { s with items := s.items ++ [.atomName name] }) := by
  have hrun : Etf.decodeAtom options name s.decode s.cursor = .error (.unsafeAtom name) := by
    unfold Etf.decodeAtom
    rw [dif_pos hvalid, Decoder.bind_eq_of_ok (Decoder.getState_ok_iff.mpr ⟨rfl, rfl, rfl⟩),
      if_pos hsafe, hlookup]
    rfl
  rw [decodeAtom_valid hvalid]
  unfold Recorded.step
  rw [hrun]

theorem step_items {α : Type} (d : Decoder DecodeError (DecodeState H) α) :
    (Recorded.step d s).2.items = s.items := by
  unfold Recorded.step
  split
  · rfl
  · rfl

end Atoms

section Terms

variable (context : DecodeContext H) {safe plain : DecodeOptions} (hsafe : safe.safe = true)

include hsafe

theorem decodeAtom_follows (name : List UInt8) :
    Follows (decodeAtom safe name : Recorded H Value) (decodeAtom plain name) := by
  intro s
  by_cases hvalid : utf8Valid name = true
  · refine ⟨[.atomName name], by rw [decodeAtom_valid hvalid, step_items], ?_⟩
    cases hlookup : s.decode.atoms.lookup name with
    | none =>
      have hfirst : firstUnknown s.decode.atoms [.atomName name] = some name := by
        simp [firstUnknown, atomNames, Item.name?, hlookup]
      rw [hfirst]
      refine ⟨nofun, fun other hother => ?_⟩
      rw [decodeAtom_refused hsafe hvalid hlookup, ← Option.some.inj hother]
      exact ⟨rfl, rfl⟩
    | some atom =>
      have hfirst : firstUnknown s.decode.atoms [.atomName name] = none := by
        simp [firstUnknown, atomNames, Item.name?, hlookup]
      rw [hfirst]
      refine ⟨fun _ => ?_, nofun⟩
      rw [decodeAtom_known hvalid hlookup, decodeAtom_known hvalid hlookup]
      exact ⟨rfl, rfl⟩
  · rw [decodeAtom_invalid hvalid, decodeAtom_invalid hvalid]
    exact ⟨[], (List.append_nil _).symm, fun _ => ⟨rfl, rfl⟩, nofun⟩

omit hsafe in
theorem decodeBigInteger_follows (length : ℕ) :
    Follows (decodeBigInteger context length) (decodeBigInteger context length) :=
  Follows.cursor.bind fun _ => (Follows.step (KeepsAtoms.decodeBigInteger context length)).bind
    fun term => (Follows.note _).bind fun _ => Follows.pure term

section Nested

variable {one other : Recorded H Value} (h : Follows one other)

include h

omit hsafe in
theorem decodeTuple_follows (arity : ℕ) :
    Follows (decodeTuple context one arity) (decodeTuple context other arity) :=
  (Follows.step (.ensureHeapWords context _)).bind fun _ => (h.many arity).bind fun _ =>
    Follows.step (.alloc context _ _)

omit hsafe in
theorem decodeList_follows (length : ℕ) :
    Follows (decodeList context one length) (decodeList context other length) :=
  (Follows.step (.ensureHeapWords context _)).bind fun _ => (h.many length).bind fun _ =>
    h.bind fun _ => Follows.step (.alloc context _ _)

omit hsafe in
theorem decodeMap_follows (length : ℕ) :
    Follows (decodeMap context one length) (decodeMap context other length) := by
  have hentry : Follows (decodeEntry one) (decodeEntry other) :=
    h.bind fun key => h.bind fun value => Follows.pure (key, value)
  exact (Follows.step (.ensureHeapWords context _)).bind fun _ => (hentry.many length).bind fun _ =>
    Follows.step (.alloc context _ _)

omit hsafe in
theorem decodeExport_follows : Follows (decodeExport context one) (decodeExport context other) := by
  refine h.bind fun module => h.bind fun function => ?_
  cases function with
  | atom function => exact h.bind fun arity => Follows.step (.alloc context _ _)
  | _ => exact Follows.throw _

omit hsafe in
theorem decodeNode_follows (tag : UInt8) : Follows (decodeNode one tag) (decodeNode other tag) := by
  refine h.bind fun node => ?_
  cases node with
  | atom node => exact Follows.pure node
  | _ => exact Follows.throw _

omit hsafe in
theorem decodePid_follows (hasCreationU32 : Bool) :
    Follows (decodePid context one hasCreationU32) (decodePid context other hasCreationU32) :=
  (decodeNode_follows h _).bind fun _ => (Follows.step .readU32).bind fun _ =>
    (Follows.step .readU32).bind fun _ => (Follows.step (.readBytes _)).bind fun _ =>
      Follows.step (.alloc context _ _)

omit hsafe in
theorem decodeNewerReference_follows :
    Follows (decodeNewerReference context one) (decodeNewerReference context other) :=
  (Follows.step .readU16).bind fun count => (decodeNode_follows h _).bind fun _ =>
    (Follows.step .readU32).bind fun _ => (Follows.step (KeepsAtoms.readU32.many count)).bind
      fun _ => Follows.step (.alloc context _ _)

omit hsafe in
theorem decodeReference_follows :
    Follows (decodeReference context one) (decodeReference context other) :=
  (decodeNode_follows h _).bind fun _ => (Follows.step .readU32).bind fun _ =>
    (Follows.step .readU8).bind fun _ => Follows.step (.alloc context _ _)

/-- One case for each tag. -/
theorem decodeBody_follows (tag : UInt8) :
    Follows (decodeBody context safe one tag) (decodeBody context plain other tag) := by
  unfold decodeBody
  refine .ite ((Follows.step (.readBytes _)).bind fun _ => Follows.step (.alloc context _ _)) ?_
  refine .ite ((Follows.step .readU8).bind fun _ => Follows.pure _) ?_
  refine .ite ((Follows.step .readI32).bind fun _ => Follows.step (.decodeSmallInteger _)) ?_
  refine .ite ((Follows.step .readU16).bind fun _ => (Follows.step (.readBytes _)).bind fun _ =>
    decodeAtom_follows hsafe _) ?_
  refine .ite ((Follows.step .readU8).bind fun _ => (Follows.step (.readBytes _)).bind fun _ =>
    decodeAtom_follows hsafe _) ?_
  refine .ite ((Follows.step .readU8).bind fun _ => decodeTuple_follows context h _) ?_
  refine .ite ((Follows.step .readU32).bind fun _ => decodeTuple_follows context h _) ?_
  refine .ite (Follows.pure _) ?_
  refine .ite ((Follows.step .readU16).bind fun _ =>
    (Follows.step (.ensureHeapWords context _)).bind fun _ =>
      (Follows.step (.readBytes _)).bind fun _ => Follows.step (.alloc context _ _)) ?_
  refine .ite ((Follows.step .readU32).bind fun _ => decodeList_follows context h _) ?_
  refine .ite ((Follows.step .readU32).bind fun _ =>
    (Follows.step (.ensureHeapWords context _)).bind fun _ =>
      (Follows.step (.readBytes _)).bind fun _ => Follows.step (.alloc context _ _)) ?_
  refine .ite ((Follows.step .readU8).bind fun _ => decodeBigInteger_follows context _) ?_
  refine .ite ((Follows.step .readU32).bind fun _ => decodeBigInteger_follows context _) ?_
  refine .ite (decodeExport_follows context h) ?_
  refine .ite ((Follows.step .readU32).bind fun _ => decodeMap_follows context h _) ?_
  refine .ite (decodePid_follows context h _) ?_
  refine .ite (decodeNewerReference_follows context h) ?_
  exact .ite (decodeReference_follows context h) (Follows.throw _)

end Nested

theorem decodeAfterTag_follows (left : ℕ) (tag : UInt8) :
    Follows (decodeAfterTag context safe left tag) (decodeAfterTag context plain left tag) := by
  induction left generalizing tag with
  | zero => exact Follows.throw _
  | succ left ih =>
    exact decodeBody_follows context hsafe ((Follows.step .readU8).bind fun tag => ih tag) tag

theorem decodeVersioned_follows (inflate : InflateStream) :
    Follows (decodeVersioned context safe inflate) (decodeVersioned context plain inflate) := by
  refine (Follows.step .readU8).bind fun version => (Follows.step (.require _ _)).bind fun _ =>
    (Follows.step .readU8).bind fun tag => .ite ?_ (decodeAfterTag_follows context hsafe _ tag)
  refine (Follows.step .readU32).bind fun size => (Follows.step (.require _ _)).bind fun _ => ?_
  refine Follows.cursor.bind fun rest => (Follows.step (.ofExcept _)).bind fun inflated => ?_
  refine (Follows.step (.readBytes _)).bind fun _ => Follows.onInflated _ ?_
  exact (Follows.step .readU8).bind fun tag => decodeAfterTag_follows context hsafe _ tag

end Terms

end Follows

/-! ## Whole inputs -/

variable {H : Type} (context : DecodeContext H)

theorem decodeTermWithOptions_state (options : DecodeOptions) (inflate : InflateStream)
    (s : DecodeState H) (bytes : List UInt8) :
    (decodeTermWithOptions context options inflate s bytes).2 =
      (decodeVersioned context options inflate ⟨bytes, s, []⟩).2 := by
  unfold decodeTermWithOptions
  rcases decodeVersioned context options inflate ⟨bytes, s, []⟩ with ⟨e | a, t⟩
  · rfl
  · dsimp only
    split
    · rfl
    · rfl

theorem decodeTermWithOptions_error {options : DecodeOptions} {inflate : InflateStream}
    {s : DecodeState H} {bytes : List UInt8} {e : DecodeError}
    (h : (decodeVersioned context options inflate ⟨bytes, s, []⟩).1 = .error e) :
    (decodeTermWithOptions context options inflate s bytes).1 = .error e := by
  unfold decodeTermWithOptions
  rcases hrun : decodeVersioned context options inflate ⟨bytes, s, []⟩ with ⟨f | a, t⟩
  · rw [hrun] at h
    obtain rfl := Except.error.inj h
    rfl
  · rw [hrun] at h
    cases h

/-- A safe decode leaves the atom table as it is, whatever it returns. If every atom name that a
decode comes by is known, it is that decode; else it fails on the first that is not. -/
theorem safe_decode (inflate : InflateStream) (s : DecodeState H) (bytes : List UInt8)
    (returnUsed : Bool) :
    let safe := decodeTermWithOptions context ⟨true, returnUsed⟩ inflate s bytes
    let plain := decodeTermWithOptions context ⟨false, returnUsed⟩ inflate s bytes
    safe.2.decode.atoms = s.atoms ∧
      ((∀ name ∈ atomNames plain.2.items, s.atoms.lookup name ≠ none) → safe = plain) ∧
      ((∃ name ∈ atomNames plain.2.items, s.atoms.lookup name = none) →
        ∃ name ∈ atomNames plain.2.items, s.atoms.lookup name = none ∧
          safe.1 = .error (.unsafeAtom name)) := by
  intro safe plain
  have hfollows : Follows (decodeVersioned context ⟨true, returnUsed⟩ inflate)
      (decodeVersioned context ⟨false, returnUsed⟩ inflate) :=
    decodeVersioned_follows context rfl inflate
  obtain ⟨items, hitems, hknown, hunknown⟩ := hfollows ⟨bytes, s, []⟩
  have hplain : plain.2.items = items := by
    rw [decodeTermWithOptions_state, hitems, List.nil_append]
  have hatoms : safe.2.decode.atoms = s.atoms := by
    rw [decodeTermWithOptions_state]
    cases hfirst : firstUnknown s.atoms items with
    | none =>
      obtain ⟨hsame, hkeeps⟩ := hknown hfirst
      rw [hsame]
      exact hkeeps
    | some name => exact (hunknown name hfirst).2
  rw [hplain]
  refine ⟨hatoms, fun hall => ?_, fun hsome => ?_⟩
  · have hsame := (hknown (firstUnknown_eq_none.mpr hall)).1
    change decodeTermWithOptions context ⟨true, returnUsed⟩ inflate s bytes =
      decodeTermWithOptions context ⟨false, returnUsed⟩ inflate s bytes
    unfold decodeTermWithOptions
    rw [hsame]
  · cases hfirst : firstUnknown s.atoms items with
    | none =>
      obtain ⟨name, hname, hlookup⟩ := hsome
      exact absurd hlookup (firstUnknown_eq_none.mp hfirst name hname)
    | some name =>
      obtain ⟨hname, hlookup⟩ := firstUnknown_eq_some hfirst
      exact ⟨name, hname, hlookup, decodeTermWithOptions_error context (hunknown name hfirst).1⟩

end Recorded

end Beamr.Etf
