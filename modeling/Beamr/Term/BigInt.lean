import Beamr.Lib.ByteOrder
import Mathlib.Data.List.DropRight

/-!
# Owned big integers and their byte conversions

Sign and magnitude with 64-bit limbs, least significant first, kept without high
zero limbs. The conversions are the ones the loader uses between compact
operands, literal bytes and runtime values.
-/
namespace Beamr.Term

open ByteOrder

/-- Drop high zero limbs. -/
def normalizeLimbs (limbs : List ℕ) : List ℕ := limbs.rdropWhile (· == 0)

/-- Sign and magnitude; `new` is the only way the conversions build one. -/
structure BigIntValue where
  negative : Bool
  limbs : List ℕ
  deriving DecidableEq, Repr

namespace BigIntValue

def new (negative : Bool) (limbs : List ℕ) : BigIntValue :=
  let limbs := normalizeLimbs limbs
  ⟨if limbs.isEmpty then false else negative, limbs⟩

def isNegative (v : BigIntValue) : Bool := v.negative && !v.limbs.isEmpty

/-- The value as an `i64`, when it is one. -/
def toSmallI64 (v : BigIntValue) : Option ℤ :=
  match v.limbs with
  | [] => some 0
  | [limb] =>
    if v.isNegative then
      if limb = 2 ^ 63 then some (-(2 ^ 63))
      else if limb < 2 ^ 63 then some (-(limb : ℤ)) else none
    else if limb < 2 ^ 63 then some (limb : ℤ) else none
  | _ => none

end BigIntValue

/-- Groups of eight bytes, the last one possibly shorter. -/
def chunks8 : List UInt8 → List (List UInt8)
  | a :: b :: c :: d :: e :: f :: g :: h :: rest => [a, b, c, d, e, f, g, h] :: chunks8 rest
  | [] => []
  | short => [short]

def fromSignMagnitudeLe (negative : Bool) (magnitudeLe : List UInt8) : BigIntValue :=
  .new negative ((chunks8 magnitudeLe).map leNat)

/-- Sign flag and minimal little-endian magnitude. -/
def toSignMagnitudeLe (value : BigIntValue) : Bool × List UInt8 :=
  (value.isNegative, (value.limbs.flatMap (leBytes 8)).rdropWhile (· == 0))

/-- Add one to little-endian bytes, dropping a carry out of the top. -/
def incrementLe : List UInt8 → List UInt8
  | [] => []
  | b :: bs => if b = 255 then 0 :: incrementLe bs else (b + 1) :: bs

/-- `!x + 1` on big-endian bytes. -/
def negateTwosComplementBe (bytes : List UInt8) : List UInt8 :=
  (incrementLe (bytes.map (~~~ ·)).reverse).reverse

def fromTwosComplementBe (bytes : List UInt8) : BigIntValue :=
  let negative := match bytes with
    | b :: _ => b &&& 0x80 != 0
    | [] => false
  let magnitude := if negative then negateTwosComplementBe bytes else bytes
  fromSignMagnitudeLe negative magnitude.reverse

/-! ## Values -/

/-- Value of a limb list, least significant limb first. -/
def limbsNat : List ℕ → ℕ
  | [] => 0
  | l :: ls => l + 2 ^ 64 * limbsNat ls

theorem rdropWhile_zero_append {α : Type} [BEq α] [LawfulBEq α] (z : α) (xs : List α) :
    ∃ n, xs = xs.rdropWhile (· == z) ++ List.replicate n z := by
  induction xs using List.reverseRecOn with
  | nil => exact ⟨0, by simp⟩
  | append_singleton xs x ih =>
    by_cases hx : x = z
    · subst hx
      obtain ⟨n, hn⟩ := ih
      refine ⟨n + 1, ?_⟩
      rw [List.rdropWhile_concat_pos _ _ _ (by simp), List.replicate_succ', ← List.append_assoc,
        ← hn]
    · exact ⟨0, by rw [List.rdropWhile_concat_neg _ _ _ (by simpa using hx)]; simp⟩

theorem leNat_rdropWhile (bs : List UInt8) : leNat (bs.rdropWhile (· == 0)) = leNat bs := by
  obtain ⟨n, hn⟩ := rdropWhile_zero_append (0 : UInt8) bs
  conv_rhs => rw [hn, leNat_append, leNat_replicate_zero]
  simp

theorem leNat_flatMap_leBytes (limbs : List ℕ) (h : ∀ l ∈ limbs, l < 2 ^ 64) :
    leNat (limbs.flatMap (leBytes 8)) = limbsNat limbs := by
  induction limbs with
  | nil => rfl
  | cons l ls ih =>
    have hl : l < 256 ^ 8 := by have := h l (by simp); norm_num at this ⊢; exact this
    have hls := ih (fun x hx => h x (by simp [hx]))
    rw [List.flatMap_cons, leNat_append, leNat_leBytes_of_lt hl, hls, leBytes_length, limbsNat]
    norm_num

theorem length_lt_of_not_chunk {bs : List UInt8}
    (h : ∀ a b c d e f g i rest, bs = a :: b :: c :: d :: e :: f :: g :: i :: rest → False) :
    bs.length < 8 := by
  by_contra hge
  match bs, hge with
  | a :: b :: c :: d :: e :: f :: g :: i :: rest, _ => exact h a b c d e f g i rest rfl
  | [], hge | [_], hge | [_, _], hge | [_, _, _], hge | [_, _, _, _], hge
  | [_, _, _, _, _], hge | [_, _, _, _, _, _], hge | [_, _, _, _, _, _, _], hge =>
    simp at hge

theorem chunks8_lt (bs : List UInt8) : ∀ l ∈ (chunks8 bs).map leNat, l < 2 ^ 64 := by
  induction bs using chunks8.induct with
  | case1 a b c d e f g h rest ih =>
    intro l hl
    rw [chunks8, List.map_cons, List.mem_cons] at hl
    rcases hl with rfl | hl
    · have := leNat_lt [a, b, c, d, e, f, g, h]; norm_num at this ⊢; exact this
    · exact ih l hl
  | case2 => simp [chunks8]
  | case3 short h1 h2 =>
    intro l hl
    have hshort : short.length < 8 := length_lt_of_not_chunk h1
    have hval := leNat_lt short
    have hpow : 256 ^ short.length ≤ 256 ^ 8 := Nat.pow_le_pow_right (by norm_num) hshort.le
    have hone : (chunks8 short) = [short] := by
      unfold chunks8
      split
      · exact absurd rfl (h1 _ _ _ _ _ _ _ _ _)
      · exact absurd rfl h2
      · rfl
    rw [hone] at hl
    simp only [List.map_cons, List.map_nil, List.mem_singleton] at hl
    subst hl
    norm_num at hpow hval ⊢
    omega

/-- A normalised magnitude below one limb's range has at most one limb. -/
theorem normalizeLimbs_short (limbs : List ℕ) (hv : limbsNat (normalizeLimbs limbs) < 2 ^ 64) :
    normalizeLimbs limbs = [] ∨ ∃ l, normalizeLimbs limbs = [l] := by
  by_cases hne : normalizeLimbs limbs = []
  · exact .inl hne
  have hlast : (normalizeLimbs limbs).getLast hne ≠ 0 := by
    have h := List.rdropWhile_last_not (· == 0) limbs hne
    simpa [normalizeLimbs] using h
  match hm : normalizeLimbs limbs, hne with
  | [l], _ => exact .inr ⟨l, rfl⟩
  | l :: m :: rest, _ =>
    exfalso
    have hpos : ∀ (xs : List ℕ) (h : xs ≠ []), xs.getLast h ≠ 0 → 1 ≤ limbsNat xs := by
      intro xs
      induction xs with
      | nil => intro h; contradiction
      | cons x xs ih =>
        intro h hx
        cases xs with
        | nil => simp only [List.getLast_singleton] at hx; simp only [limbsNat]; omega
        | cons y ys => have := ih (by simp) (by simpa using hx); rw [limbsNat]; omega
    have hl2 : (m :: rest).getLast (by simp) ≠ 0 := by
      simp only [hm] at hlast
      simpa using hlast
    have h1 := hpos (m :: rest) (by simp) hl2
    rw [hm, limbsNat] at hv
    omega

/-- The minimal magnitude has the value of the limbs. -/
theorem leNat_toSignMagnitudeLe (v : BigIntValue) (h : ∀ l ∈ v.limbs, l < 2 ^ 64) :
    leNat (toSignMagnitudeLe v).2 = limbsNat v.limbs := by
  rw [toSignMagnitudeLe, leNat_rdropWhile, leNat_flatMap_leBytes _ h]

theorem BigIntValue.toSmallI64_fits {v : BigIntValue} {i : ℤ} (h : v.toSmallI64 = some i) :
    FitsSigned 64 i := by
  unfold toSmallI64 at h
  unfold FitsSigned
  split at h
  · simp only [Option.some.injEq] at h; subst h; norm_num
  · split_ifs at h <;> simp only [Option.some.injEq] at h <;> subst h <;> norm_num <;> omega
  · simp at h

theorem mem_normalizeLimbs {limbs : List ℕ} {l : ℕ} (h : l ∈ normalizeLimbs limbs) : l ∈ limbs :=
  (List.rdropWhile_prefix (p := (· == 0)) limbs).subset h

/-- A converted operand that is not an `i64` keeps a magnitude that cannot be mistaken for one:
it has more than eight bytes, or its signed value is outside the `i64` range. -/
theorem fromTwosComplementBe_wide (payload : List UInt8)
    (hn : (fromTwosComplementBe payload).toSmallI64 = none) :
    let m := toSignMagnitudeLe (fromTwosComplementBe payload)
    m.2.length ≤ 8 →
      ¬ FitsSigned 64 (if m.1 then -(leNat m.2 : ℤ) else (leNat m.2 : ℤ)) := by
  intro m hlen
  obtain ⟨neg, mag, hv⟩ : ∃ neg mag, fromTwosComplementBe payload = fromSignMagnitudeLe neg mag :=
    ⟨_, _, rfl⟩
  rw [hv] at hn
  have hm : m = toSignMagnitudeLe (fromSignMagnitudeLe neg mag) := by simp only [m, hv]
  have hlimbs : ∀ l ∈ (fromSignMagnitudeLe neg mag).limbs, l < 2 ^ 64 := by
    intro l hl
    exact chunks8_lt mag l (mem_normalizeLimbs hl)
  have hval : leNat m.2 = limbsNat (fromSignMagnitudeLe neg mag).limbs := by
    rw [hm]; exact leNat_toSignMagnitudeLe _ hlimbs
  have hlt : leNat m.2 < 2 ^ 64 := by
    have h1 := leNat_lt m.2
    have h2 : 256 ^ m.2.length ≤ 256 ^ 8 := Nat.pow_le_pow_right (by norm_num) hlen
    norm_num at h2 ⊢
    omega
  rw [hval] at hlt
  have hsign : m.1 = (fromSignMagnitudeLe neg mag).isNegative := by rw [hm]; rfl
  rw [hval, hsign]
  unfold BigIntValue.toSmallI64 at hn
  unfold FitsSigned
  rcases normalizeLimbs_short _ hlt with h0 | ⟨l, hl⟩
  · have h0' : (fromSignMagnitudeLe neg mag).limbs = [] := h0
    simp [h0'] at hn
  · have hl' : (fromSignMagnitudeLe neg mag).limbs = [l] := hl
    rw [hl'] at hn ⊢
    simp only [limbsNat] at hn ⊢
    split_ifs at hn ⊢ <;> norm_num at * <;> omega

end Beamr.Term
