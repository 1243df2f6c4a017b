import Mathlib.Tactic

/-!
# Integers as binary64 numbers

A double is kept as its sign bit and the 63 bits below it. Non-negative
integer-valued doubles are kept as naturals, with `2 ^ 1024` standing for
infinity: rounding to 53 bits and cutting off at `2 ^ 1024` is then the whole of
an exact result's conversion, for a plain integer and for a fused multiply-add.
-/
namespace Float64

/-! ## Rounding to 53 bits -/

/-- Nearest multiple of `2 ^ e`, in units of it, ties to even. -/
def roundShift (n e : ℕ) : ℕ :=
  let q := n / 2 ^ e
  let r := n % 2 ^ e
  if 2 ^ e < 2 * r ∨ 2 * r = 2 ^ e ∧ q % 2 = 1 then q + 1 else q

/-- Nearest integer with at most 53 significant bits, ties to even. -/
def round53 (n : ℕ) : ℕ := roundShift n (n.log2 - 52) * 2 ^ (n.log2 - 52)

theorem le_roundShift (n e : ℕ) : n / 2 ^ e ≤ roundShift n e := by
  unfold roundShift
  dsimp only
  split <;> omega

theorem roundShift_le (n e : ℕ) : roundShift n e ≤ n / 2 ^ e + 1 := by
  unfold roundShift
  dsimp only
  split <;> omega

theorem roundShift_mono (e : ℕ) {n m : ℕ} (h : n ≤ m) : roundShift n e ≤ roundShift m e := by
  have hq : n / 2 ^ e ≤ m / 2 ^ e := Nat.div_le_div_right h
  rcases Nat.lt_or_eq_of_le hq with hlt | heq
  · calc roundShift n e ≤ n / 2 ^ e + 1 := roundShift_le n e
      _ ≤ m / 2 ^ e := hlt
      _ ≤ roundShift m e := le_roundShift m e
  · have hn := Nat.div_add_mod n (2 ^ e)
    have hm := Nat.div_add_mod m (2 ^ e)
    have hr : n % 2 ^ e ≤ m % 2 ^ e := by rw [heq] at hn; omega
    unfold roundShift
    dsimp only
    rw [heq]
    split_ifs <;> omega

theorem roundShift_add {q x e : ℕ} (hx : 2 * x ≤ 2 ^ e) (htie : 2 * x = 2 ^ e → q % 2 = 0) :
    roundShift (q * 2 ^ e + x) e = q := by
  have hpos : 0 < 2 ^ e := Nat.two_pow_pos e
  have hlt : x < 2 ^ e := by omega
  have hdiv : (q * 2 ^ e + x) / 2 ^ e = q := by
    rw [Nat.add_comm, Nat.add_mul_div_right _ _ hpos, Nat.div_eq_of_lt hlt, Nat.zero_add]
  have hmod : (q * 2 ^ e + x) % 2 ^ e = x := by
    rw [Nat.add_comm, Nat.add_mul_mod_self_right, Nat.mod_eq_of_lt hlt]
  unfold roundShift
  dsimp only
  rw [hdiv, hmod, if_neg]
  rintro (h | ⟨h, hq⟩)
  · omega
  · have := htie h; omega

theorem round53_lower {n k : ℕ} (hk : 2 ^ k ≤ n) : 2 ^ k ≤ round53 n := by
  have hn : n ≠ 0 := by have := Nat.two_pow_pos k; omega
  have hlog : k ≤ n.log2 := (Nat.le_log2 hn).mpr hk
  have hpow : 2 ^ n.log2 ≤ n := Nat.log2_self_le hn
  set e := n.log2 - 52 with he
  have hq : 2 ^ (n.log2 - e) ≤ n / 2 ^ e := by
    rw [Nat.le_div_iff_mul_le (Nat.two_pow_pos e), ← pow_add]
    simpa [show n.log2 - e + e = n.log2 by omega] using hpow
  calc 2 ^ k ≤ 2 ^ n.log2 := Nat.pow_le_pow_right (by norm_num) hlog
    _ = 2 ^ (n.log2 - e) * 2 ^ e := by rw [← pow_add]; congr 1; omega
    _ ≤ roundShift n e * 2 ^ e := Nat.mul_le_mul_right _ (hq.trans (le_roundShift n e))

theorem round53_upper {n k : ℕ} (hk : n < 2 ^ k) : round53 n ≤ 2 ^ k := by
  by_cases hn : n = 0
  · subst hn; exact Nat.zero_le _
  have hlog : n.log2 < k := (Nat.log2_lt hn).mpr hk
  set e := n.log2 - 52 with he
  have hq : n / 2 ^ e < 2 ^ (k - e) := by
    rw [Nat.div_lt_iff_lt_mul (Nat.two_pow_pos e), ← pow_add]
    simpa [show k - e + e = k by omega] using hk
  calc roundShift n e * 2 ^ e ≤ 2 ^ (k - e) * 2 ^ e :=
        Nat.mul_le_mul_right _ ((roundShift_le n e).trans hq)
    _ = 2 ^ k := by rw [← pow_add]; congr 1; omega

theorem round53_mono {n m : ℕ} (h : n ≤ m) : round53 n ≤ round53 m := by
  rcases Nat.eq_zero_or_pos n with rfl | hn
  · exact Nat.zero_le _
  have hm : m ≠ 0 := by omega
  have hlog : n.log2 ≤ m.log2 := (Nat.le_log2 hm).mpr ((Nat.log2_self_le (by omega)).trans h)
  rcases Nat.lt_or_eq_of_le hlog with hlt | heq
  · calc round53 n ≤ 2 ^ (n.log2 + 1) := round53_upper Nat.lt_log2_self
      _ ≤ 2 ^ m.log2 := Nat.pow_le_pow_right (by norm_num) hlt
      _ ≤ round53 m := round53_lower (Nat.log2_self_le hm)
  · rw [round53, round53, heq]
    exact Nat.mul_le_mul_right _ (roundShift_mono _ h)

/-- Multiples of the last place are exact. -/
theorem round53_of_dvd {n : ℕ} (h : 2 ^ (n.log2 - 52) ∣ n) : round53 n = n := by
  obtain ⟨q, hq⟩ := h
  set e := n.log2 - 52 with he
  have hpos : 0 < 2 ^ e := Nat.two_pow_pos e
  have hround : roundShift (q * 2 ^ e + 0) e = q := by
    refine roundShift_add (by simp) fun h => ?_
    omega
  rw [Nat.add_zero, Nat.mul_comm, ← hq] at hround
  rw [round53, ← he, hround, Nat.mul_comm, ← hq]

theorem round53_of_lt {n : ℕ} (h : n < 2 ^ 53) : round53 n = n := by
  refine round53_of_dvd ?_
  by_cases hn : n = 0
  · simp [hn]
  have hlog : n.log2 < 53 := (Nat.log2_lt hn).mpr h
  simp [show n.log2 - 52 = 0 by omega]

theorem round53_two_pow (k : ℕ) : round53 (2 ^ k) = 2 ^ k := by
  refine round53_of_dvd ?_
  rw [Nat.log2_two_pow]
  exact Nat.pow_dvd_pow 2 (by omega)

theorem dvd_round53 (n : ℕ) : 2 ^ ((round53 n).log2 - 52) ∣ round53 n := by
  by_cases hn : n = 0
  · subst hn; decide
  have hlow := round53_lower (Nat.log2_self_le hn)
  have hup := round53_upper (Nat.lt_log2_self (n := n))
  have hne : round53 n ≠ 0 := by have := Nat.two_pow_pos n.log2; omega
  rcases Nat.lt_or_eq_of_le hup with hlt | heq
  · have hlog : (round53 n).log2 = n.log2 := by
      have h1 := (Nat.log2_lt hne).mpr hlt
      have h2 := (Nat.le_log2 hne).mpr hlow
      omega
    rw [hlog, round53]
    exact Nat.dvd_mul_left _ _
  · rw [heq, Nat.log2_two_pow]
    exact Nat.pow_dvd_pow 2 (by omega)

theorem round53_round53 (n : ℕ) : round53 (round53 n) = round53 n :=
  round53_of_dvd (dvd_round53 n)

/-! ## Multiply-add by limbs -/

/-- Stands for infinity: the first power of two that is not a finite double. -/
def overflow : ℕ := 2 ^ 1024

/-- An exact natural result as a double. -/
def ofExact (n : ℕ) : ℕ := min (round53 n) (overflow)

/-- `r.mul_add(2^64, limb as f64)`. -/
def mulAdd (r limb : ℕ) : ℕ := ofExact (r * 2 ^ 64 + ofExact limb)

/-- Fold limbs from the most significant one down; the list is least significant first. -/
def ofLimbs (limbs : List ℕ) : ℕ := limbs.foldr (fun limb r => mulAdd r limb) 0

/-- Value of a limb list, least significant limb first. -/
def limbsValue (limbs : List ℕ) : ℕ := limbs.foldr (fun limb v => limb + 2 ^ 64 * v) 0

@[simp] theorem ofLimbs_nil : ofLimbs [] = 0 := rfl

theorem ofLimbs_cons (limb : ℕ) (limbs : List ℕ) :
    ofLimbs (limb :: limbs) = mulAdd (ofLimbs limbs) limb := List.foldr_cons

@[simp] theorem limbsValue_nil : limbsValue [] = 0 := rfl

theorem limbsValue_cons (limb : ℕ) (limbs : List ℕ) :
    limbsValue (limb :: limbs) = limb + 2 ^ 64 * limbsValue limbs := List.foldr_cons

theorem two_pow_le_overflow {k : ℕ} (h : k ≤ 1024) : 2 ^ k ≤ overflow := by
  unfold overflow
  gcongr
  exact one_le_two

theorem round53_overflow : round53 overflow = overflow := round53_two_pow 1024

theorem ofExact_zero : ofExact 0 = 0 := Nat.zero_min _

theorem ofExact_mono {n m : ℕ} (h : n ≤ m) : ofExact n ≤ ofExact m :=
  min_le_min_right _ (round53_mono h)

theorem ofExact_le (n : ℕ) : ofExact n ≤ overflow := min_le_right _ _

theorem ofExact_of_round {n : ℕ} (hn : n ≤ overflow) : ofExact n = round53 n := by
  refine min_eq_left ?_
  calc round53 n ≤ round53 overflow := round53_mono hn
    _ = overflow := round53_overflow

theorem ofExact_limb_le {limb : ℕ} (h : limb < 2 ^ 64) : ofExact limb ≤ 2 ^ 64 :=
  (min_le_left _ _).trans (round53_upper h)

theorem ofExact_inf {n : ℕ} (h : overflow ≤ n) : ofExact n = overflow :=
  min_eq_right (round53_lower h)

theorem mulAdd_zero (limb : ℕ) : mulAdd 0 limb = ofExact limb := by
  rw [mulAdd, Nat.zero_mul, Nat.zero_add]
  rcases le_total (round53 limb) (overflow) with h | h
  · have hlimb : ofExact limb = round53 limb := min_eq_left h
    rw [hlimb, ofExact, round53_round53, min_eq_left h]
  · have hlimb : ofExact limb = overflow := min_eq_right h
    rw [hlimb, ofExact_inf le_rfl]

theorem log2_significand_add {q x e : ℕ} (hq : 2 ^ 52 ≤ q) (hq53 : q < 2 ^ 53) (hx : x < 2 ^ e) :
    (q * 2 ^ e + x).log2 = e + 52 := by
  have hlow : 2 ^ (e + 52) ≤ q * 2 ^ e + x := by
    calc 2 ^ (e + 52) = 2 ^ 52 * 2 ^ e := by rw [pow_add, Nat.mul_comm]
      _ ≤ q * 2 ^ e := Nat.mul_le_mul_right _ hq
      _ ≤ q * 2 ^ e + x := Nat.le_add_right _ _
  have hup : q * 2 ^ e + x < 2 ^ (e + 53) := by
    calc q * 2 ^ e + x < (q + 1) * 2 ^ e := by rw [Nat.add_mul, Nat.one_mul]; omega
      _ ≤ 2 ^ 53 * 2 ^ e := Nat.mul_le_mul_right _ hq53
      _ = 2 ^ (e + 53) := by rw [pow_add, Nat.mul_comm]
  have hne : q * 2 ^ e + x ≠ 0 := by have := Nat.two_pow_pos (e + 52); omega
  have h1 := (Nat.le_log2 hne).mpr hlow
  have h2 := (Nat.log2_lt hne).mpr hup
  omega

/-- At most half of the last place is rounded away, except a tie above an odd significand. -/
theorem round53_significand_add {q x e : ℕ} (hq : 2 ^ 52 ≤ q) (hq53 : q < 2 ^ 53)
    (hx : 2 * x ≤ 2 ^ e) (htie : 2 * x = 2 ^ e → q % 2 = 0) :
    round53 (q * 2 ^ e + x) = q * 2 ^ e := by
  have hpos := Nat.two_pow_pos e
  rw [round53, log2_significand_add hq hq53 (by omega), Nat.add_sub_cancel, roundShift_add hx htie]

/-- A double with more than 52 bits is a significand times a power of two. -/
theorem exists_significand {r : ℕ} (hr : round53 r = r) (hbig : 2 ^ 53 ≤ r) :
    ∃ q e, 1 ≤ e ∧ 2 ^ 52 ≤ q ∧ q < 2 ^ 53 ∧ r = q * 2 ^ e := by
  have hne : r ≠ 0 := by omega
  have hlog : 53 ≤ r.log2 := (Nat.le_log2 hne).mpr hbig
  obtain ⟨e, he⟩ : ∃ e, r.log2 = e + 52 := ⟨r.log2 - 52, by omega⟩
  obtain ⟨q, hq⟩ : 2 ^ e ∣ r := by
    have hdvd := dvd_round53 r
    rwa [hr, he, Nat.add_sub_cancel] at hdvd
  have hlow : 2 ^ e * 2 ^ 52 ≤ 2 ^ e * q := by
    rw [← hq, ← pow_add, ← he]
    exact Nat.log2_self_le hne
  have hup : 2 ^ e * q < 2 ^ e * 2 ^ 53 := by
    rw [← hq, ← pow_add, show e + 53 = r.log2 + 1 by omega]
    exact Nat.lt_log2_self
  exact ⟨q, e, by omega, Nat.le_of_mul_le_mul_left hlow (Nat.two_pow_pos e),
    Nat.lt_of_mul_lt_mul_left hup, by rw [hq, Nat.mul_comm]⟩

/-- A large double swallows the next limb, unless its significand is odd and the limb is half of
its last place. -/
theorem round53_mul_add {r x : ℕ} (hr : round53 r = r) (hbig : 2 ^ 53 ≤ r)
    (heven : r < 2 ^ 54 → r % 4 = 0) (hx : x ≤ 2 ^ 64) :
    round53 (r * 2 ^ 64 + x) = r * 2 ^ 64 := by
  obtain ⟨q, e, he, hq, hq53, rfl⟩ := exists_significand hr hbig
  have hsplit : q * 2 ^ e * 2 ^ 64 = q * 2 ^ (e + 64) := by rw [pow_add, Nat.mul_assoc]
  rw [hsplit]
  rcases Nat.lt_or_eq_of_le he with he2 | rfl
  · have hlarge : 2 ^ 66 ≤ 2 ^ (e + 64) := Nat.pow_le_pow_right (by norm_num) (by omega)
    exact round53_significand_add hq hq53 (by omega) (by omega)
  · have h4 := heven (by omega)
    exact round53_significand_add hq hq53 (by omega) (by omega)

/-- Only an even significand below `2 ^ 54` collects more than one integer. -/
theorem even_of_round53_eq {v w : ℕ} (hvw : v < w) (heq : round53 v = round53 w)
    (hr : round53 v < 2 ^ 54) : 2 ^ 53 ≤ round53 v ∧ round53 v % 4 = 0 := by
  have hv54 : v < 2 ^ 54 := by
    by_contra h
    have := round53_lower (k := 54) (n := v) (by omega)
    omega
  have hw54 : w < 2 ^ 54 := by
    by_contra h
    have := round53_lower (k := 54) (n := w) (by omega)
    omega
  have hexact : ∀ n, 2 ^ 53 ≤ n → n < 2 ^ 54 →
      round53 n = 2 * (if n % 2 = 1 ∧ n / 2 % 2 = 1 then n / 2 + 1 else n / 2) := by
    intro n hlo hhi
    have hlog : n.log2 = 53 := by
      have h1 := (Nat.le_log2 (n := n) (by omega)).mpr hlo
      have h2 := (Nat.log2_lt (n := n) (by omega)).mpr hhi
      omega
    rw [round53, hlog, roundShift]
    norm_num
    split_ifs <;> omega
  by_cases hw : w < 2 ^ 53
  · rw [round53_of_lt hw, round53_of_lt (by omega : v < 2 ^ 53)] at heq
    omega
  by_cases hv : v < 2 ^ 53
  · have := round53_lower (k := 53) (n := w) (by omega)
    rw [round53_of_lt hv] at heq
    omega
  rw [hexact v (by omega) hv54] at heq ⊢
  rw [hexact w (by omega) hw54] at heq
  split_ifs at heq ⊢ <;> omega

/-- What a fold of limbs of value `v` leaves behind. -/
structure Folded (v r : ℕ) : Prop where
  exact : round53 r = r
  le_inf : r ≤ overflow
  of_small : v < 2 ^ 64 → r = round53 v
  of_large : 2 ^ 64 ≤ v → 2 ^ 64 ≤ r

theorem Folded.zero : Folded 0 0 where
  exact := by decide
  le_inf := Nat.zero_le _
  of_small _ := by decide
  of_large h := by omega

theorem Folded.pos {v r : ℕ} (h : Folded v r) (hv : 1 ≤ v) : 1 ≤ r := by
  by_cases hsmall : v < 2 ^ 64
  · rw [h.of_small hsmall]
    exact round53_lower (k := 0) hv
  · have := h.of_large (by omega)
    omega

theorem round53_ofExact (n : ℕ) : round53 (ofExact n) = ofExact n := by
  rcases le_total (round53 n) (overflow) with h | h
  · rw [ofExact, min_eq_left h, round53_round53]
  · rw [ofExact, min_eq_right h, round53_overflow]

theorem Folded.mulAdd {v r limb : ℕ} (h : Folded v r) (hl : limb < 2 ^ 64) :
    Folded (limb + 2 ^ 64 * v) (mulAdd r limb) where
  exact := round53_ofExact _
  le_inf := ofExact_le _
  of_small hv := by
    have hv0 : v = 0 := by omega
    subst hv0
    have hr : r = 0 := by rw [h.of_small (by omega)]; rfl
    have hle : limb ≤ overflow := hl.le.trans (two_pow_le_overflow (by norm_num))
    rw [hr, mulAdd_zero, ofExact_of_round hle]
    simp
  of_large hv := by
    have hr := h.pos (v := v) (by omega)
    have hlow : 2 ^ 64 ≤ r * 2 ^ 64 + ofExact limb := by omega
    exact le_min (round53_lower hlow) (two_pow_le_overflow (by norm_num))

theorem ofLimbs_folded {limbs : List ℕ} (h : ∀ l ∈ limbs, l < 2 ^ 64) :
    Folded (limbsValue limbs) (ofLimbs limbs) := by
  induction limbs with
  | nil => exact Folded.zero
  | cons l ls ih =>
    rw [limbsValue_cons, ofLimbs_cons]
    exact (ih fun x hx => h x (by simp [hx])).mulAdd (h l (by simp))

/-- One step keeps the order, also where the two folds so far are equal and the values are not. -/
theorem mulAdd_le_mulAdd {v w r t l m : ℕ} (hr : Folded v r) (ht : Folded w t)
    (hl : l < 2 ^ 64) (hvw : v < w) (hrt : r ≤ t) : mulAdd r l ≤ mulAdd t m := by
  have hlimb := ofExact_limb_le hl
  rcases Nat.lt_or_eq_of_le hrt with hlt | rfl
  · refine ofExact_mono ?_
    have hstep : (r + 1) * 2 ^ 64 ≤ t * 2 ^ 64 := Nat.mul_le_mul_right _ hlt
    omega
  · have hbig : 2 ^ 53 ≤ r ∧ (r < 2 ^ 54 → r % 4 = 0) := by
      by_cases h54 : r < 2 ^ 54
      · have hv : v < 2 ^ 64 := by
          by_contra h
          have := hr.of_large (by omega)
          omega
        have hw : w < 2 ^ 64 := by
          by_contra h
          have := ht.of_large (by omega)
          omega
        have heq : round53 v = round53 w := (hr.of_small hv).symm.trans (ht.of_small hw)
        have heven := even_of_round53_eq hvw heq (by rw [← hr.of_small hv]; exact h54)
        rw [← hr.of_small hv] at heven
        exact ⟨heven.1, fun _ => heven.2⟩
      · exact ⟨by omega, fun h => absurd h h54⟩
    have hswallow := round53_mul_add hr.exact hbig.1 hbig.2 hlimb
    calc mulAdd r l = min (r * 2 ^ 64) (overflow) := by rw [mulAdd, ofExact, hswallow]
      _ ≤ min (round53 (r * 2 ^ 64 + ofExact m)) (overflow) := by
          refine min_le_min_right _ ?_
          calc r * 2 ^ 64 = round53 (r * 2 ^ 64 + 0) :=
                (round53_mul_add hr.exact hbig.1 hbig.2 (by omega)).symm
            _ ≤ round53 (r * 2 ^ 64 + ofExact m) := round53_mono (by omega)

/-- The fold is monotone in the value of the limbs. -/
theorem ofLimbs_mono : ∀ {ls ms : List ℕ}, (∀ l ∈ ls, l < 2 ^ 64) → (∀ m ∈ ms, m < 2 ^ 64) →
    limbsValue ls ≤ limbsValue ms → ofLimbs ls ≤ ofLimbs ms
  | [], _, _, _, _ => Nat.zero_le _
  | l :: ls, [], hls, _, hle => by
    rw [limbsValue_cons, limbsValue_nil] at hle
    have hrest : ofLimbs ls ≤ ofLimbs [] :=
      ofLimbs_mono (fun x hx => hls x (by simp [hx])) (by simp)
        (by rw [limbsValue_nil]; omega)
    have hr : ofLimbs ls = 0 := Nat.le_zero.mp hrest
    have hl : l = 0 := by omega
    rw [ofLimbs_cons, hr, hl, mulAdd_zero, ofExact_zero]
    exact Nat.zero_le _
  | l :: ls, m :: ms, hls, hms, hle => by
    have hl := hls l (by simp)
    have hm := hms m (by simp)
    have hls' : ∀ x ∈ ls, x < 2 ^ 64 := fun x hx => hls x (by simp [hx])
    have hms' : ∀ x ∈ ms, x < 2 ^ 64 := fun x hx => hms x (by simp [hx])
    rw [limbsValue_cons, limbsValue_cons] at hle
    rw [ofLimbs_cons, ofLimbs_cons]
    have hrest := ofLimbs_mono hls' hms' (by omega)
    rcases Nat.lt_or_ge (limbsValue ls) (limbsValue ms) with hlt | hge
    · exact mulAdd_le_mulAdd (ofLimbs_folded hls') (ofLimbs_folded hms') hl hlt hrest
    · have heq : ofLimbs ls = ofLimbs ms := le_antisymm hrest (ofLimbs_mono hms' hls' hge)
      have hlm : l ≤ m := by omega
      rw [heq]
      exact ofExact_mono (Nat.add_le_add_left (ofExact_mono hlm) _)
termination_by ls ms => ls.length + ms.length

theorem ofLimbs_singleton (limb : ℕ) : ofLimbs [limb] = ofExact limb := mulAdd_zero limb

/-! ## Doubles -/

/-- Bits of an integer-valued double without its sign. -/
def encode (n : ℕ) : ℕ := if n = 0 then 0 else (1022 + n.log2) * 2 ^ 52 + n * 2 ^ 52 / 2 ^ n.log2

/-- Bits of positive infinity; larger magnitudes are NaNs. -/
def infinityBits : ℕ := 2047 * 2 ^ 52

theorem encode_mono {n m : ℕ} (h : n ≤ m) : encode n ≤ encode m := by
  unfold encode
  by_cases hn : n = 0
  · simp [hn]
  have hm : m ≠ 0 := by omega
  rw [if_neg hn, if_neg hm]
  have hlog : n.log2 ≤ m.log2 := (Nat.le_log2 hm).mpr ((Nat.log2_self_le hn).trans h)
  rcases Nat.lt_or_eq_of_le hlog with hlt | heq
  · have hup : n * 2 ^ 52 / 2 ^ n.log2 < 2 ^ 53 := by
      rw [Nat.div_lt_iff_lt_mul (Nat.two_pow_pos _)]
      have hn2 := Nat.lt_log2_self (n := n)
      rw [pow_succ] at hn2
      omega
    have hlow : 2 ^ 52 ≤ m * 2 ^ 52 / 2 ^ m.log2 := by
      rw [Nat.le_div_iff_mul_le (Nat.two_pow_pos _), Nat.mul_comm]
      exact Nat.mul_le_mul_right _ (Nat.log2_self_le hm)
    omega
  · rw [heq]
    exact Nat.add_le_add_left (Nat.div_le_div_right (Nat.mul_le_mul_right _ h)) _

theorem encode_two_pow (k : ℕ) : encode (2 ^ k) = (1023 + k) * 2 ^ 52 := by
  rw [encode, if_neg (Nat.two_pow_pos k).ne', Nat.log2_two_pow,
    Nat.mul_div_cancel_left _ (Nat.two_pow_pos k)]
  ring

theorem encode_overflow : encode overflow = infinityBits := encode_two_pow 1024

theorem encode_lt {n : ℕ} (h : n ≤ overflow) : encode n < 2 ^ 63 := by
  have hle := encode_mono h
  rw [encode_overflow, infinityBits] at hle
  omega

theorem encode_eq_zero_iff {n : ℕ} : encode n = 0 ↔ n = 0 := by
  unfold encode
  split
  · next h => simp [h]
  · next h =>
    have hpos : (1022 + n.log2) * 2 ^ 52 ≠ 0 := by positivity
    exact ⟨fun h0 => absurd (Nat.add_eq_zero_iff.mp h0).1 hpos, fun h0 => absurd h0 h⟩

end Float64

/-- A binary64 value: sign bit and the 63 bits below it. -/
structure Float64 where
  negative : Bool
  magnitude : ℕ
  lt : magnitude < 2 ^ 63
  deriving DecidableEq

namespace Float64

def toBits (x : Float64) : ℕ := (if x.negative then 2 ^ 63 else 0) + x.magnitude

def isNaN (x : Float64) : Bool := infinityBits < x.magnitude

/-- Place in the total order: bits as a signed integer, negative values reversed. -/
def totalKey (x : Float64) : ℤ := if x.negative then -(x.magnitude : ℤ) - 1 else x.magnitude

/-- `f64::total_cmp`. -/
def totalCmp (x y : Float64) : Ordering := compare x.totalKey y.totalKey

/-- `==` on doubles: NaN is unequal to everything and the two zeros are equal. -/
def ieeeEq (x y : Float64) : Bool :=
  !x.isNaN && !y.isNaN && (x == y || (x.magnitude == 0 && y.magnitude == 0))

/-- A signed integer-valued double. -/
def ofSigned (negative : Bool) (n : ℕ) (h : n ≤ overflow) : Float64 := ⟨negative, encode n, encode_lt h⟩

/-- Nearest double of an integer, as a cast computes it. -/
def ofInt (i : ℤ) : Float64 := ofSigned (decide (i < 0)) (ofExact i.natAbs) (ofExact_le _)

theorem totalKey_injective {x y : Float64} (h : x.totalKey = y.totalKey) : x = y := by
  obtain ⟨n, m, hm⟩ := x
  obtain ⟨n', m', hm'⟩ := y
  unfold totalKey at h
  cases n <;> cases n' <;> simp at h ⊢ <;> omega

theorem totalCmp_eq_iff {x y : Float64} : x.totalCmp y = .eq ↔ x = y := by
  rw [totalCmp, Std.LawfulEqOrd.compare_eq_iff_eq]
  exact ⟨totalKey_injective, congrArg _⟩

theorem toBits_injective {x y : Float64} (h : x.toBits = y.toBits) : x = y := by
  obtain ⟨n, m, hm⟩ := x
  obtain ⟨n', m', hm'⟩ := y
  unfold toBits at h
  cases n <;> cases n' <;> simp at h ⊢ <;> omega

/-- Conversions are monotone when their magnitudes are. -/
theorem totalKey_ofSigned_le {a b : Bool} {n m : ℕ} (hn : n ≤ overflow) (hm : m ≤ overflow)
    (h : match a, b with
      | false, false => n ≤ m
      | true, true => m ≤ n
      | true, false => True
      | false, true => False) :
    (ofSigned a n hn).totalKey ≤ (ofSigned b m hm).totalKey := by
  unfold totalKey ofSigned
  cases a <;> cases b <;> simp only [Bool.false_eq_true, if_true, if_false] at h ⊢
  · exact_mod_cast encode_mono h
  · omega
  · have := encode_mono h
    omega

end Float64
