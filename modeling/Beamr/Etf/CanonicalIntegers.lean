import Beamr.Etf.Recorded
import Beamr.Etf.RoundTrip

/-!
# Integers of decoded terms

An integer has one canonical form: a small integer if it is small enough, else a bignum without a
high zero limb. The decoder reads magnitudes of any length. Up to eight bytes it looks at the value;
beyond that it keeps the limbs as they come, so that zeros in place of the top limb stay.
-/
namespace Beamr.Etf

open Term ByteOrder

/-! ## Canonical integers -/

/-- A small integer is in its only form; a bignum has no high zero limb and no small value. -/
def CanonicalHere : Value → Prop
  | .number (.bigInt negative limbs) =>
    limbs.getLast? ≠ some 0 ∧ trySmallInt (signedValue negative limbs) = none
  | _ => True

/-- Every integer in the term is canonical. -/
def CanonicalIntegers (v : Value) : Prop := v.All CanonicalHere

/-- A magnitude that fits a machine word, or whose top limb is not zero. -/
def TopLimb (magnitude : List UInt8) : Prop :=
  magnitude.length ≤ 8 ∨ ∃ byte ∈ magnitude.drop ((magnitude.length - 1) / 8 * 8), byte ≠ 0

def Item.magnitude? : Item → Option (List UInt8)
  | .atomName _ => none
  | .magnitude bytes => some bytes

def Item.Canonical : Item → Prop
  | .atomName _ => True
  | .magnitude bytes => TopLimb bytes

theorem trySmallInt_eq_none {value : ℤ} :
    trySmallInt value = none ↔ value < -(2 ^ 60) ∨ 2 ^ 60 ≤ value := by
  unfold trySmallInt
  split_ifs with h
  · simp only [false_iff]
    omega
  · simp only [true_iff]
    omega

theorem canonicalHere_leaf {v : Value} (h : v.children = []) :
    CanonicalIntegers v ↔ CanonicalHere v := by
  rw [CanonicalIntegers, Value.all_iff, h]
  simp

theorem canonical_tuple {elements : List Value} :
    CanonicalIntegers (.tuple elements) ↔ ∀ v ∈ elements, CanonicalIntegers v := by
  rw [CanonicalIntegers, Value.all_iff]
  exact and_iff_right trivial

theorem canonical_map {entries : List (Value × Value)} :
    CanonicalIntegers (.map entries) ↔
      ∀ e ∈ entries, CanonicalIntegers e.1 ∧ CanonicalIntegers e.2 := by
  rw [CanonicalIntegers, Value.all_iff, and_iff_right (by trivial)]
  simp only [Value.children, List.mem_flatMap, List.mem_cons, List.not_mem_nil, or_false]
  constructor
  · intro h e he
    exact ⟨h e.1 ⟨e, he, .inl rfl⟩, h e.2 ⟨e, he, .inr rfl⟩⟩
  · rintro h c ⟨e, he, rfl | rfl⟩
    · exact (h e he).1
    · exact (h e he).2

theorem canonical_cons {head tail : Value} :
    CanonicalIntegers (.cons head tail) ↔ CanonicalIntegers head ∧ CanonicalIntegers tail := by
  rw [CanonicalIntegers, Value.all_iff, and_iff_right (by trivial)]
  simp [Value.children, CanonicalIntegers]

theorem canonical_listWithTail {elements : List Value} {tail : Value} :
    CanonicalIntegers (listWithTail elements tail) ↔
      (∀ v ∈ elements, CanonicalIntegers v) ∧ CanonicalIntegers tail := by
  induction elements with
  | nil => simp [listWithTail]
  | cons v vs ih =>
    have hcons : listWithTail (v :: vs) tail = .cons v (listWithTail vs tail) := rfl
    rw [hcons, canonical_cons, ih]
    simp [and_assoc]

/-! ## Magnitudes of up to eight bytes -/

theorem toNat_ofNat_limb {n : ℕ} (h : n < 2 ^ 64) : (UInt64.ofNat n).toNat = n :=
  UInt64.toNat_ofNat_of_lt' h

theorem canonicalHere_oneLimb {negative : Bool} {n : ℕ} (hlt : n < 2 ^ 64)
    (hlarge : trySmallInt (if negative then -n else n) = none) :
    CanonicalHere (.number (.bigInt negative [UInt64.ofNat n])) := by
  have hvalue : signedValue negative [UInt64.ofNat n] = if negative then -(n : ℤ) else n := by
    simp [signedValue, limbsNat, toNat_ofNat_limb hlt]
  refine ⟨?_, by rw [hvalue]; exact hlarge⟩
  intro hzero
  have hn : n = 0 := by
    have htoNat : (UInt64.ofNat n).toNat = 0 := congrArg UInt64.toNat (Option.some.inj hzero)
    rwa [toNat_ofNat_limb hlt] at htoNat
  subst hn
  rw [trySmallInt_eq_none] at hlarge
  cases negative <;> norm_num at hlarge

/-- A bignum made of an integer of one limb. -/
theorem canonical_integer {value : ℤ} (hlarge : trySmallInt value = none)
    (hlt : value.natAbs < 2 ^ 64) :
    CanonicalIntegers (.number (.bigInt (value < 0) [UInt64.ofNat value.natAbs])) := by
  refine (canonicalHere_leaf rfl).mpr (canonicalHere_oneLimb hlt ?_)
  have hvalue : (if decide (value < 0) = true then -(value.natAbs : ℤ) else value.natAbs) =
      value := by
    by_cases hneg : value < 0
    · rw [if_pos (decide_eq_true hneg)]
      omega
    · rw [if_neg (by simpa using hneg)]
      omega
  rw [hvalue, hlarge]

/-! ## Longer magnitudes -/

/-- The bytes of the top limb stand last among the chunks. -/
theorem chunks8_eq {bytes : List UInt8} (h : bytes ≠ []) :
    ∃ front, chunks8 bytes = front ++ [bytes.drop ((bytes.length - 1) / 8 * 8)] ∧
      front.length = (bytes.length - 1) / 8 := by
  induction bytes using chunks8.induct with
  | case1 a b c d e f g i rest ih =>
    by_cases hrest : rest = []
    · subst hrest
      exact ⟨[], by simp [chunks8], by simp⟩
    · obtain ⟨front, hchunks, hfront⟩ := ih hrest
      have hpos : 0 < rest.length := List.length_pos_iff.mpr hrest
      have hcount : ((a :: b :: c :: d :: e :: f :: g :: i :: rest).length - 1) / 8 =
          (rest.length - 1) / 8 + 1 := by
        simp only [List.length_cons]
        omega
      refine ⟨[a, b, c, d, e, f, g, i] :: front, ?_, by rw [hcount, List.length_cons, hfront]⟩
      rw [hcount, Nat.add_mul, chunks8, hchunks]
      rfl
  | case2 => contradiction
  | case3 short h1 h2 =>
    have hshort : short.length ≤ 8 := (length_lt_of_not_chunk h1).le
    have hzero : (short.length - 1) / 8 = 0 := Nat.div_eq_of_lt (by omega)
    refine ⟨[], ?_, by rw [hzero]; rfl⟩
    rw [chunks8_short h hshort, hzero]
    rfl

theorem exists_ne_zero_iff {bytes : List UInt8} : (∃ byte ∈ bytes, byte ≠ 0) ↔ leNat bytes ≠ 0 := by
  rw [Ne, leNat_eq_zero_iff]
  simp only [not_forall, exists_prop, Ne]

/-- Beyond eight bytes only the top limb matters. -/
theorem canonicalHere_limbsOf (negative : Bool) {bytes : List UInt8} (h : 8 < bytes.length) :
    CanonicalHere (.number (.bigInt negative (limbsOf bytes))) ↔ TopLimb bytes := by
  have hpos : 0 < bytes.length := by omega
  obtain ⟨front, hchunks, hfront⟩ := chunks8_eq (List.length_pos_iff.mp hpos)
  set top := bytes.drop ((bytes.length - 1) / 8 * 8) with htop
  have htopLength : top.length ≤ 8 := by
    rw [htop, List.length_drop]
    omega
  have hlimb : leNat top < 2 ^ 64 := by
    refine (leNat_lt top).trans_le ?_
    calc 256 ^ top.length ≤ 256 ^ 8 := Nat.pow_le_pow_right (by norm_num) htopLength
      _ = 2 ^ 64 := by norm_num
  have hlimbs : limbsOf bytes =
      (front.map fun chunk => UInt64.ofNat (leNat chunk)) ++ [UInt64.ofNat (leNat top)] := by
    rw [limbsOf, hchunks, List.map_append, List.map_singleton]
  have htopLimb : TopLimb bytes ↔ leNat top ≠ 0 := by
    rw [TopLimb, exists_ne_zero_iff]
    exact or_iff_right (by omega)
  rw [htopLimb]
  have hlast : (limbsOf bytes).getLast? ≠ some 0 ↔ leNat top ≠ 0 := by
    rw [hlimbs, List.getLast?_concat, Ne, Option.some.injEq, ← UInt64.toNat_inj,
      toNat_ofNat_limb hlimb]
    rfl
  constructor
  · rintro ⟨hne, -⟩
    exact hlast.mp hne
  · intro hne
    refine ⟨hlast.mpr hne, ?_⟩
    -- The top limb alone is beyond every small integer.
    have hvalue : 2 ^ 64 ≤ limbsNat ((limbsOf bytes).map UInt64.toNat) := by
      rw [hlimbs, List.map_append, List.map_singleton, limbsNat_append_singleton,
        toNat_ofNat_limb hlimb, List.length_map, List.length_map, hfront]
      have hone : 1 ≤ (bytes.length - 1) / 8 := by omega
      calc 2 ^ 64 ≤ 2 ^ (64 * ((bytes.length - 1) / 8)) :=
            Nat.pow_le_pow_right (by norm_num) (by omega)
        _ ≤ 2 ^ (64 * ((bytes.length - 1) / 8)) * leNat top :=
            Nat.le_mul_of_pos_right _ (Nat.pos_of_ne_zero hne)
        _ ≤ _ := Nat.le_add_left _ _
    have hcast : (2 : ℤ) ^ 64 ≤ (limbsNat ((limbsOf bytes).map UInt64.toNat) : ℤ) := by
      exact_mod_cast hvalue
    rw [trySmallInt_eq_none, signedValue]
    cases negative with
    | true =>
      refine .inl ?_
      simp only [if_true]
      omega
    | false =>
      refine .inr ?_
      simp only [Bool.false_eq_true, if_false]
      omega

/-! ## The decoder of big integers -/

section Decoder

variable {H : Type} {context : DecodeContext H} {s s' : DecodeState H} {start rest : List UInt8}

theorem decodeSign_ok {negative : Bool} (h : decodeSign s start = .ok (negative, s', rest)) :
    s = s' ∧ ∃ sign, start = sign :: rest := by
  obtain ⟨sign, t, c, hsign, hmatch⟩ := Decoder.bind_ok_iff.mp h
  obtain ⟨rfl, rfl⟩ := Decoder.byte_ok_iff.mp hsign
  split at hmatch
  · obtain ⟨-, rfl, rfl⟩ := Decoder.pure_ok_iff.mp hmatch
    exact ⟨rfl, _, rfl⟩
  · obtain ⟨-, rfl, rfl⟩ := Decoder.pure_ok_iff.mp hmatch
    exact ⟨rfl, _, rfl⟩
  · exact absurd hmatch Decoder.not_fail_ok

theorem alloc_ok {words : ℕ} {term v : Value}
    (h : alloc context words term s start = .ok (v, s', rest)) : v = term := by
  simp only [alloc, Decoder.bind_ok_iff, Decoder.pure_ok_iff] at h
  obtain ⟨_, _, _, -, _, _, _, -, _, _, _, -, hterm, -⟩ := h
  exact hterm.symm

theorem decodeAtom_ok {options : DecodeOptions} {name : List UInt8} {v : Value}
    (h : decodeAtom options name s start = .ok (v, s', rest)) : ∃ atom, v = .atom atom := by
  unfold decodeAtom at h
  split at h
  · obtain ⟨t, _, _, -, h⟩ := Decoder.bind_ok_iff.mp h
    split at h
    · obtain ⟨atom, _, _, -, h⟩ := Decoder.bind_ok_iff.mp h
      exact ⟨atom, (Decoder.pure_ok_iff.mp h).1.symm⟩
    · obtain ⟨_, _, _, -, h⟩ := Decoder.bind_ok_iff.mp h
      exact ⟨_, (Decoder.pure_ok_iff.mp h).1.symm⟩
  · exact absurd h Decoder.not_fail_ok

theorem decodeBigInteger_canonical {length : ℕ} {v : Value}
    (h : decodeBigInteger context length s start = .ok (v, s', rest)) :
    CanonicalIntegers v ↔ TopLimb ((start.drop 1).take length) := by
  obtain ⟨negative, s₁, c₁, hsign, hbody⟩ := Decoder.bind_ok_iff.mp h
  obtain ⟨bytes, s₂, c₂, hbytes, hterm⟩ := Decoder.bind_ok_iff.mp hbody
  obtain ⟨rfl, sign, rfl⟩ := decodeSign_ok hsign
  obtain ⟨hlength, rfl, rfl⟩ := Decoder.take_ok_iff.mp hbytes
  rw [List.drop_one, List.tail_cons, List.take_left' hlength]
  by_cases hshort : length ≤ 8
  · rw [if_pos hshort] at hterm
    have htop : TopLimb bytes := .inl (by omega)
    refine iff_of_true ?_ htop
    have hlt : leNat bytes < 2 ^ 64 := by
      refine (leNat_lt bytes).trans_le ?_
      calc 256 ^ bytes.length ≤ 256 ^ 8 := Nat.pow_le_pow_right (by norm_num) (by omega)
        _ = 2 ^ 64 := by norm_num
    generalize leNat bytes = value at hlt hterm
    by_cases hword : value < 2 ^ 63
    · rw [if_pos hword] at hterm
      have habs : (if negative = true then -(value : ℤ) else value).natAbs < 2 ^ 64 := by
        split_ifs <;> omega
      generalize (if negative = true then -(value : ℤ) else value) = integer at hterm habs
      cases hsmall : trySmallInt integer with
      | some n =>
        simp only [hsmall] at hterm
        obtain ⟨rfl, -⟩ := Decoder.pure_ok_iff.mp hterm
        exact (canonicalHere_leaf rfl).mpr trivial
      | none =>
        simp only [hsmall] at hterm
        rw [alloc_ok hterm]
        exact canonical_integer hsmall habs
    · rw [if_neg hword] at hterm
      have hlarge : ∀ n : ℕ, 2 ^ 63 ≤ n → ∀ negative : Bool,
          trySmallInt (if negative then -(n : ℤ) else n) = none := by
        intro n hn negative
        rw [trySmallInt_eq_none]
        cases negative <;> simp <;> omega
      split_ifs at hterm
      · rw [alloc_ok hterm]
        exact (canonicalHere_leaf rfl).mpr
          (canonicalHere_oneLimb (by norm_num) (hlarge _ le_rfl true))
      · rw [alloc_ok hterm]
        exact (canonicalHere_leaf rfl).mpr
          (canonicalHere_oneLimb hlt (hlarge _ (by omega) negative))
  · rw [if_neg hshort] at hterm
    obtain ⟨_, _, _, -, hterm⟩ := Decoder.bind_ok_iff.mp hterm
    rw [alloc_ok hterm, canonicalHere_leaf rfl, canonicalHere_limbsOf negative (by omega)]

end Decoder

/-! ## What the items say about the result -/

namespace Recorded

variable {H α β : Type} {p : Prop} {good : α → Prop}

/-- A result is good exactly if `p` holds and every item met on the way to it is canonical. -/
def Reflects (p : Prop) (good : α → Prop) (m : Recorded H α) : Prop :=
  ∀ s a t, m s = (.ok a, t) → ∃ items, t.items = s.items ++ items ∧
    (good a ↔ p ∧ ∀ item ∈ items, item.Canonical)

namespace Reflects

/-- A run that meets nothing. -/
theorem of_quiet {m : Recorded H α} (hitems : ∀ s a t, m s = (.ok a, t) → t.items = s.items)
    (hgood : ∀ s a t, m s = (.ok a, t) → (good a ↔ p)) : Reflects p good m := by
  intro s a t hrun
  refine ⟨[], by rw [hitems s a t hrun, List.append_nil], ?_⟩
  simp [hgood s a t hrun]

theorem pure {a : α} (hgood : good a ↔ p) : Reflects p good (Pure.pure a : Recorded H α) := by
  refine of_quiet (fun s b t hrun => ?_) fun s b t hrun => ?_
  · obtain ⟨-, rfl⟩ := Prod.mk.inj hrun
    rfl
  · obtain ⟨hb, -⟩ := Prod.mk.inj hrun
    rw [← Except.ok.inj hb]
    exact hgood

theorem throw (e : DecodeError) : Reflects p good (Persist.throw e : Recorded H α) :=
  fun _ _ _ hrun => absurd (Prod.mk.inj hrun).1 nofun

theorem step_ok {d : Decoder DecodeError (DecodeState H) α} {s t : RecordState H} {a : α}
    (h : Recorded.step d s = (.ok a, t)) :
    d s.decode s.cursor = .ok (a, t.decode, t.cursor) ∧ t.items = s.items := by
  unfold Recorded.step at h
  split at h
  · next b decode cursor hrun =>
    obtain ⟨hb, rfl⟩ := Prod.mk.inj h
    rw [← Except.ok.inj hb]
    exact ⟨hrun, rfl⟩
  · exact absurd (Prod.mk.inj h).1 nofun

theorem step (d : Decoder DecodeError (DecodeState H) α) :
    Reflects p (fun _ => p) (Recorded.step d) :=
  of_quiet (fun _ _ _ hrun => (step_ok hrun).2) fun _ _ _ _ => Iff.rfl

theorem alloc (context : DecodeContext H) (words : ℕ) {term : Value} {good : Value → Prop}
    (hgood : good term ↔ p) : Reflects p good (Recorded.step (Etf.alloc context words term)) := by
  refine of_quiet (fun _ _ _ hrun => (step_ok hrun).2) fun _ _ _ hrun => ?_
  rw [alloc_ok (step_ok hrun).1]
  exact hgood

theorem bind {m : Recorded H α} {f : α → Recorded H β} {good' : β → Prop}
    (h : Reflects p good m) (hf : ∀ a, Reflects (good a) good' (f a)) :
    Reflects p good' (m >>= f) := by
  intro s b u hrun
  rw [Persist.bind_apply] at hrun
  rcases hfirst : m s with ⟨e | a, t⟩
  · rw [hfirst] at hrun
    exact absurd (Prod.mk.inj hrun).1 nofun
  · rw [hfirst] at hrun
    obtain ⟨items, hitems, hgood⟩ := h s a t hfirst
    obtain ⟨more, hmore, hgood'⟩ := hf a t b u hrun
    refine ⟨items ++ more, by rw [hmore, hitems, List.append_assoc], ?_⟩
    rw [hgood', hgood, and_assoc]
    simp [or_imp, forall_and]

theorem ite {q : Prop} [Decidable q] {m m' : Recorded H α} (h : Reflects p good m)
    (h' : Reflects p good m') : Reflects p good (if q then m else m') := by
  split
  · exact h
  · exact h'

/-- What was required before is still required. -/
theorem after {m : Recorded H α} (h : Reflects True good m) :
    Reflects p (fun a => p ∧ good a) m := by
  intro s a t hrun
  obtain ⟨items, hitems, hiff⟩ := h s a t hrun
  refine ⟨items, hitems, ?_⟩
  dsimp only
  rw [hiff, true_and]

theorem many {m : Recorded H α} (h : Reflects True good m) (n : ℕ) :
    Reflects True (fun as => ∀ a ∈ as, good a) (Persist.many m n) := by
  induction n with
  | zero => exact .pure (by simp)
  | succ n ih => exact h.bind fun a => ih.after.bind fun as => .pure (by simp)

end Reflects

/-! ## Terms -/

section Terms

variable (context : DecodeContext H) (options : DecodeOptions)

theorem decodeAtom_reflects (name : List UInt8) :
    Reflects True CanonicalIntegers (decodeAtom options name : Recorded H Value) := by
  have hatom : Reflects True CanonicalIntegers
      (Recorded.step (Etf.decodeAtom options name) : Recorded H Value) := by
    refine Reflects.of_quiet (fun _ _ _ hrun => (Reflects.step_ok hrun).2) fun _ _ _ hrun => ?_
    obtain ⟨atom, rfl⟩ := decodeAtom_ok (Reflects.step_ok hrun).1
    exact iff_of_true ((canonicalHere_leaf rfl).mpr trivial) trivial
  have hnote : Reflects True (fun _ => True) (note (.atomName name) : Recorded H Unit) := by
    intro s a t hrun
    obtain ⟨-, rfl⟩ := Prod.mk.inj hrun
    exact ⟨[.atomName name], rfl, by simp [Item.Canonical]⟩
  unfold decodeAtom
  split
  · exact hnote.bind fun _ => hatom
  · exact hatom

theorem decodeBigInteger_reflects (length : ℕ) :
    Reflects True CanonicalIntegers (decodeBigInteger context length) := by
  intro s v t hrun
  unfold decodeBigInteger at hrun
  rw [Persist.bind_apply, cursor] at hrun
  dsimp only at hrun
  rw [Persist.bind_apply] at hrun
  rcases hstep : Recorded.step (Etf.decodeBigInteger context length) s with ⟨e | a, u⟩
  · rw [hstep] at hrun
    cases (Prod.mk.inj hrun).1
  · rw [hstep] at hrun
    obtain ⟨ha, rfl⟩ := Prod.mk.inj hrun
    obtain rfl := Except.ok.inj ha
    obtain ⟨hdecode, hitems⟩ := Reflects.step_ok hstep
    refine ⟨[.magnitude ((s.cursor.drop 1).take length)], by rw [← hitems], ?_⟩
    rw [decodeBigInteger_canonical hdecode]
    simp [Item.Canonical]

theorem decodeSmallInteger_reflects (value : ℤ) :
    Reflects True CanonicalIntegers (Recorded.step (decodeSmallInteger value) : Recorded H Value) :=
  by
  refine Reflects.of_quiet (fun _ _ _ hrun => (Reflects.step_ok hrun).2) fun _ _ _ hrun => ?_
  obtain ⟨n, _, _, -, hterm⟩ := Decoder.bind_ok_iff.mp (Reflects.step_ok hrun).1
  obtain ⟨rfl, -⟩ := Decoder.pure_ok_iff.mp hterm
  exact iff_of_true ((canonicalHere_leaf rfl).mpr trivial) trivial

theorem canonical_string (bytes : List UInt8) :
    CanonicalIntegers (listWithTail (bytes.map smallInt) .nil) ↔ True := by
  refine iff_of_true (canonical_listWithTail.mpr ⟨fun v hv => ?_, ?_⟩) trivial
  · obtain ⟨b, -, rfl⟩ := List.mem_map.mp hv
    exact (canonicalHere_leaf rfl).mpr trivial
  · exact (canonicalHere_leaf rfl).mpr trivial

section Nested

variable {one : Recorded H Value} (h : Reflects True CanonicalIntegers one)

include h

theorem decodeTuple_reflects (arity : ℕ) :
    Reflects True CanonicalIntegers (decodeTuple context one arity) :=
  (Reflects.step _).bind fun _ => (h.many arity).bind fun _ =>
    Reflects.alloc context _ canonical_tuple

theorem decodeList_reflects (length : ℕ) :
    Reflects True CanonicalIntegers (decodeList context one length) :=
  (Reflects.step _).bind fun _ => (h.many length).bind fun _ => h.after.bind fun _ =>
    Reflects.alloc context _ canonical_listWithTail

theorem decodeEntry_reflects : Reflects True
    (fun e : Value × Value => CanonicalIntegers e.1 ∧ CanonicalIntegers e.2) (decodeEntry one) :=
  h.bind fun _ => h.after.bind fun _ => Reflects.pure Iff.rfl

theorem decodeMap_reflects (length : ℕ) :
    Reflects True CanonicalIntegers (decodeMap context one length) :=
  (Reflects.step _).bind fun _ => ((decodeEntry_reflects h).many length).bind fun _ =>
    Reflects.alloc context _ canonical_map

theorem decodeExport_reflects : Reflects True CanonicalIntegers (decodeExport context one) := by
  refine h.bind fun _ => h.after.bind fun function => ?_
  cases function with
  | atom function =>
    refine h.after.bind fun _ => Reflects.alloc context _ ?_
    have hatom : CanonicalIntegers (.atom function) := (canonicalHere_leaf rfl).mpr trivial
    simp [canonical_tuple, hatom]
  | _ => exact Reflects.throw _

/-- A node is an atom, so that nothing on the way to it was a number. -/
theorem decodeNode_reflects {p : Prop} (tag : UInt8) :
    Reflects p (fun _ => p) (decodeNode one tag) := by
  refine h.after.bind fun node => ?_
  cases node with
  | atom node =>
    have hatom : CanonicalIntegers (.atom node) := (canonicalHere_leaf rfl).mpr trivial
    exact Reflects.pure (by simp [hatom])
  | _ => exact Reflects.throw _

theorem decodePid_reflects (hasCreationU32 : Bool) :
    Reflects True CanonicalIntegers (decodePid context one hasCreationU32) := by
  refine (decodeNode_reflects h _).bind fun _ => (Reflects.step _).bind fun id =>
    (Reflects.step _).bind fun _ => (Reflects.step _).bind fun _ => Reflects.alloc context _ ?_
  exact iff_of_true ((canonicalHere_leaf rfl).mpr trivial) trivial

theorem decodeNewerReference_reflects :
    Reflects True CanonicalIntegers (decodeNewerReference context one) := by
  refine (Reflects.step _).bind fun _ => (decodeNode_reflects h _).bind fun node =>
    (Reflects.step _).bind fun _ => (Reflects.step _).bind fun _ => Reflects.alloc context _ ?_
  exact iff_of_true ((canonicalHere_leaf rfl).mpr trivial) trivial

theorem decodeReference_reflects :
    Reflects True CanonicalIntegers (decodeReference context one) := by
  refine (decodeNode_reflects h _).bind fun _ => (Reflects.step _).bind fun id =>
    (Reflects.step _).bind fun _ => Reflects.alloc context _ ?_
  exact iff_of_true ((canonicalHere_leaf rfl).mpr trivial) trivial

/-- One case for each tag. -/
theorem decodeBody_reflects (tag : UInt8) :
    Reflects True CanonicalIntegers (decodeBody context options one tag) := by
  have hleaf : ∀ v : Value, v.children = [] → CanonicalHere v → (CanonicalIntegers v ↔ True) :=
    fun v hchildren hhere => iff_of_true ((canonicalHere_leaf hchildren).mpr hhere) trivial
  unfold decodeBody
  refine .ite ((Reflects.step _).bind fun _ =>
    Reflects.alloc context _ (hleaf _ rfl trivial)) ?_
  refine .ite ((Reflects.step _).bind fun _ => Reflects.pure (hleaf _ rfl trivial)) ?_
  refine .ite ((Reflects.step _).bind fun _ => decodeSmallInteger_reflects _) ?_
  refine .ite ((Reflects.step _).bind fun _ => (Reflects.step _).bind fun _ =>
    decodeAtom_reflects options _) ?_
  refine .ite ((Reflects.step _).bind fun _ => (Reflects.step _).bind fun _ =>
    decodeAtom_reflects options _) ?_
  refine .ite ((Reflects.step _).bind fun _ => decodeTuple_reflects context h _) ?_
  refine .ite ((Reflects.step _).bind fun _ => decodeTuple_reflects context h _) ?_
  refine .ite (Reflects.pure (hleaf _ rfl trivial)) ?_
  refine .ite ((Reflects.step _).bind fun _ => (Reflects.step _).bind fun _ =>
    (Reflects.step _).bind fun bytes => Reflects.alloc context _ (canonical_string bytes)) ?_
  refine .ite ((Reflects.step _).bind fun _ => decodeList_reflects context h _) ?_
  refine .ite ((Reflects.step _).bind fun _ => (Reflects.step _).bind fun _ =>
    (Reflects.step _).bind fun _ => Reflects.alloc context _ (hleaf _ rfl trivial)) ?_
  refine .ite ((Reflects.step _).bind fun _ => decodeBigInteger_reflects context _) ?_
  refine .ite ((Reflects.step _).bind fun _ => decodeBigInteger_reflects context _) ?_
  refine .ite (decodeExport_reflects context h) ?_
  refine .ite ((Reflects.step _).bind fun _ => decodeMap_reflects context h _) ?_
  refine .ite (decodePid_reflects context h _) ?_
  refine .ite (decodeNewerReference_reflects context h) ?_
  exact .ite (decodeReference_reflects context h) (Reflects.throw _)

end Nested

theorem decodeAfterTag_reflects (left : ℕ) (tag : UInt8) :
    Reflects True CanonicalIntegers (decodeAfterTag context options left tag) := by
  induction left generalizing tag with
  | zero => exact Reflects.throw _
  | succ left ih =>
    exact decodeBody_reflects context options ((Reflects.step _).bind fun tag => ih tag) tag

theorem onInflated_reflects (bytes : List UInt8) {one : Recorded H Value}
    (h : Reflects True CanonicalIntegers one) :
    Reflects True CanonicalIntegers (onInflated bytes one) := by
  have hwhole : Reflects True CanonicalIntegers
      (do let term ← one; Recorded.step expectEmpty; return term) :=
    h.bind fun _ => (Reflects.step _).bind fun _ => Reflects.pure Iff.rfl
  intro s v t hrun
  unfold onInflated at hrun
  rcases hpart : (do let term ← one; Recorded.step expectEmpty; return term : Recorded H Value)
    { s with cursor := bytes } with ⟨result, u⟩
  rw [hpart] at hrun
  obtain ⟨rfl, rfl⟩ := Prod.mk.inj hrun
  exact hwhole { s with cursor := bytes } v u hpart

theorem decodeVersioned_reflects (inflate : InflateStream) :
    Reflects True CanonicalIntegers (decodeVersioned context options inflate) := by
  refine (Reflects.step _).bind fun version => (Reflects.step _).bind fun _ =>
    (Reflects.step _).bind fun tag => .ite ?_ (decodeAfterTag_reflects context options _ tag)
  refine (Reflects.step _).bind fun size => (Reflects.step _).bind fun _ => ?_
  have hcursor : Reflects True (fun _ => True) (cursor : Recorded H _) :=
    Reflects.of_quiet (fun _ _ _ hrun => by rw [← (Prod.mk.inj hrun).2]) fun _ _ _ _ => Iff.rfl
  refine hcursor.bind fun rest => (Reflects.step _).bind fun inflated => ?_
  refine (Reflects.step _).bind fun _ => onInflated_reflects _ ?_
  exact (Reflects.step _).bind fun tag => decodeAfterTag_reflects context options _ tag

end Terms

end Recorded

/-! ## Whole inputs -/

/-- The magnitudes of the big integers a decode of the bytes comes by. -/
def magnitudes {H : Type} (context : DecodeContext H) (options : DecodeOptions)
    (inflate : InflateStream) (s : DecodeState H) (bytes : List UInt8) : List (List UInt8) :=
  (Recorded.decodeTermWithOptions context options inflate s bytes).2.items.filterMap
    Item.magnitude?

theorem Item.canonical_iff {item : Item} :
    item.Canonical ↔ ∀ magnitude, item.magnitude? = some magnitude → TopLimb magnitude := by
  cases item with
  | atomName name => simp [Item.Canonical, Item.magnitude?]
  | magnitude bytes => simp [Item.Canonical, Item.magnitude?]

/-- An accepted input is one run of the decoder. -/
theorem Recorded.decodeTermWithOptions_ok {H : Type} {context : DecodeContext H}
    {options : DecodeOptions} {inflate : InflateStream} {s : DecodeState H} {bytes : List UInt8}
    {decoded : DecodedTerm}
    (h : (Recorded.decodeTermWithOptions context options inflate s bytes).1 = .ok decoded) :
    Recorded.decodeVersioned context options inflate ⟨bytes, s, []⟩ =
      (.ok decoded.term, (Recorded.decodeTermWithOptions context options inflate s bytes).2) := by
  unfold Recorded.decodeTermWithOptions at h ⊢
  rcases hrun : Recorded.decodeVersioned context options inflate ⟨bytes, s, []⟩ with ⟨e | a, t⟩
  · rw [hrun] at h
    cases h
  · rw [hrun] at h
    dsimp only at h ⊢
    split_ifs at h ⊢
    rw [← Except.ok.inj h]

end Beamr.Etf
