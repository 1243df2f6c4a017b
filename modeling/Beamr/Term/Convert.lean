import Beamr.Atom
import Beamr.Term.BigIntMath

/-!
# Conversions of big integers

Bytes in two's complement or with a sign, and text in the radices 2 to 36. The byte
conversions are exact and canonical at every width; the text ones are inverse to each
other, and the parser reads exactly the signed numerals of its radix.
-/
namespace Beamr.Term

open ByteOrder

/-! ## Radix text -/

def minRadix : ℕ := 2

def maxRadix : ℕ := 36

/-- The loop of `div_small_in_place`, from the highest limb down. -/
def divSmallLoop (divisor : ℕ) : List ℕ → ℕ → List ℕ × ℕ
  | [], remainder => ([], remainder)
  | limb :: limbs, remainder =>
    let value := remainder * 2 ^ 64 + limb
    let (rest, last) := divSmallLoop divisor limbs (value % divisor)
    (value / divisor % 2 ^ 64 :: rest, last)

/-- The limbs divided, without high zero limbs, and the remainder. -/
def divSmallInPlace (limbs : List ℕ) (divisor : ℕ) : List ℕ × ℕ :=
  let (out, remainder) := divSmallLoop divisor limbs.reverse 0
  (normalizeLimbs out.reverse, remainder)

/-- The loop of `mul_small_add_in_place` with its carry. -/
def mulSmallAddInPlace (factor : ℕ) : List ℕ → ℕ → List ℕ
  | [], carry => if carry ≠ 0 then [carry % 2 ^ 64] else []
  | limb :: limbs, carry =>
    (limb * factor + carry) % 2 ^ 64 ::
      mulSmallAddInPlace factor limbs ((limb * factor + carry) / 2 ^ 64)

def asciiDigit (digit : UInt8) : UInt8 := if digit < 10 then 48 + digit else 65 + (digit - 10)

/-- The digit loop of `to_string_radix`, lowest digit first, with a bound on its rounds. -/
def digitLoop (radix : ℕ) : ℕ → List ℕ → List UInt8 → Option (List UInt8)
  | _, [], digits => some digits
  | 0, _ :: _, _ => none
  | fuel + 1, limb :: limbs, digits =>
    let (limbs, remainder) := divSmallInPlace (limb :: limbs) radix
    digitLoop radix fuel limbs (digits ++ [asciiDigit (UInt8.ofNat remainder)])

def toStringRadix (value : BigIntValue) (radix : ℕ) : Option (List UInt8) :=
  if ¬ (minRadix ≤ radix ∧ radix ≤ maxRadix) then none
  else
    let limbs := normalizeLimbs value.limbs
    if limbs.isEmpty then some [48]
    else do
      -- every round at least halves the value
      let digits ← digitLoop radix (64 * limbs.length) limbs []
      let digits := if value.isNegative then digits ++ [45] else digits
      if utf8Valid digits.reverse then some digits.reverse else none

/-- `char::to_digit`, for a byte as a character. -/
def toDigit (byte : UInt8) (radix : ℕ) : Option ℕ :=
  let code := byte.toNat
  let digit :=
    if 48 ≤ code ∧ code ≤ 57 then some (code - 48)
    else if 97 ≤ code ∧ code ≤ 122 then some (code - 97 + 10)
    else if 65 ≤ code ∧ code ≤ 90 then some (code - 65 + 10)
    else none
  digit.filter fun d => decide (d < radix)

/-- The loop of `from_str_radix` over the digits. -/
def parseLoop (radix : ℕ) : List UInt8 → List ℕ → Option (List ℕ)
  | [], limbs => some limbs
  | byte :: bytes, limbs =>
    match toDigit byte radix with
    | some digit => parseLoop radix bytes (mulSmallAddInPlace radix limbs digit)
    | none => none

/-- Sign and digits of a text. -/
def splitSign : List UInt8 → Bool × List UInt8
  | [] => (false, [])
  | byte :: rest =>
    if byte = 45 then (true, rest) else if byte = 43 then (false, rest) else (false, byte :: rest)

def fromStrRadix (text : List UInt8) (radix : ℕ) : Option BigIntValue :=
  if ¬ (minRadix ≤ radix ∧ radix ≤ maxRadix) then none
  else
    let (negative, digits) := splitSign text
    if digits.isEmpty then none
    else (parseLoop radix digits []).map (.new negative)

/-! ## Limb loops -/

theorem limbsNat_append (low high : List ℕ) :
    limbsNat (low ++ high) = limbsNat low + 2 ^ (64 * low.length) * limbsNat high := by
  induction low with
  | nil => simp [limbsNat]
  | cons l low ih =>
    rw [List.cons_append, limbsNat, limbsNat, ih, List.length_cons, Nat.mul_succ, pow_add]
    ring

theorem limbsNat_singleton (limb : ℕ) : limbsNat [limb] = limb := by
  rw [limbsNat, limbsNat, Nat.mul_zero, Nat.add_zero]

theorem divSmallLoop_cons (divisor limb : ℕ) (limbs : List ℕ) (remainder : ℕ) :
    divSmallLoop divisor (limb :: limbs) remainder =
      ((remainder * 2 ^ 64 + limb) / divisor % 2 ^ 64 ::
        (divSmallLoop divisor limbs ((remainder * 2 ^ 64 + limb) % divisor)).1,
        (divSmallLoop divisor limbs ((remainder * 2 ^ 64 + limb) % divisor)).2) := rfl

/-- A value divided above a position, when what is below it is divided with its remainder. -/
theorem divide_below {value divisor weight quotient last low : ℕ}
    (h : quotient * divisor + last = value % divisor * weight + low) :
    (quotient + weight * (value / divisor)) * divisor + last = value * weight + low := by
  have hsplit := Nat.div_add_mod value divisor
  calc (quotient + weight * (value / divisor)) * divisor + last
      = quotient * divisor + last + weight * (divisor * (value / divisor)) := by ring
    _ = (divisor * (value / divisor) + value % divisor) * weight + low := by rw [h]; ring
    _ = value * weight + low := by rw [hsplit]

/-- The loop divides the remainder so far followed by the limbs. -/
theorem divSmallLoop_eq {divisor : ℕ} {limbs : List ℕ} {remainder : ℕ}
    (hr : remainder < divisor) (hl : Limbs limbs) :
    limbsNat (divSmallLoop divisor limbs remainder).1.reverse * divisor +
        (divSmallLoop divisor limbs remainder).2 =
      remainder * 2 ^ (64 * limbs.length) + limbsNat limbs.reverse ∧
    (divSmallLoop divisor limbs remainder).2 < divisor ∧
    (divSmallLoop divisor limbs remainder).1.length = limbs.length ∧
    Limbs (divSmallLoop divisor limbs remainder).1 := by
  induction limbs generalizing remainder with
  | nil => exact ⟨by simp [divSmallLoop, limbsNat], hr, rfl, .nil⟩
  | cons limb limbs ih =>
    have hlimb := hl.head
    have hmod : (remainder * 2 ^ 64 + limb) % divisor < divisor := Nat.mod_lt _ (by omega)
    obtain ⟨hvalue, hlast, hlength, hlimbs⟩ := ih hmod hl.tail
    have hdiv : (remainder * 2 ^ 64 + limb) / divisor < 2 ^ 64 := by
      rw [Nat.div_lt_iff_lt_mul (by omega)]
      have : remainder * 2 ^ 64 + 2 ^ 64 ≤ divisor * 2 ^ 64 := by
        rw [← Nat.succ_mul]
        exact Nat.mul_le_mul_right _ hr
      rw [Nat.mul_comm (2 ^ 64)]
      omega
    rw [divSmallLoop_cons]
    refine ⟨?_, hlast, congrArg (· + 1) hlength, .cons (Nat.mod_lt _ (by norm_num)) hlimbs⟩
    have hpow : (2 : ℕ) ^ (64 * (limbs.length + 1)) = 2 ^ 64 * 2 ^ (64 * limbs.length) := by
      rw [← pow_add, Nat.mul_succ, Nat.add_comm]
    rw [List.reverse_cons, List.reverse_cons, limbsNat_append, limbsNat_append,
      Nat.mod_eq_of_lt hdiv, List.length_reverse, List.length_reverse, hlength, limbsNat_singleton,
      limbsNat_singleton, List.length_cons, hpow, divide_below hvalue]
    ring

theorem Limbs.reverse {ls : List ℕ} (h : Limbs ls) : Limbs ls.reverse :=
  fun l hl => h l (List.mem_reverse.mp hl)

/-- Quotient and remainder of the value. -/
theorem divSmallInPlace_spec {limbs : List ℕ} {divisor : ℕ} (hd : 0 < divisor) (hl : Limbs limbs) :
    limbsNat (divSmallInPlace limbs divisor).1 = limbsNat limbs / divisor ∧
      (divSmallInPlace limbs divisor).2 = limbsNat limbs % divisor ∧
      Limbs (divSmallInPlace limbs divisor).1 ∧
      normalizeLimbs (divSmallInPlace limbs divisor).1 = (divSmallInPlace limbs divisor).1 := by
  obtain ⟨hvalue, hlast, -, hlimbs⟩ := divSmallLoop_eq hd hl.reverse
  rw [List.reverse_reverse, Nat.zero_mul, Nat.zero_add] at hvalue
  rw [divSmallInPlace]
  dsimp only
  refine ⟨?_, ?_, hlimbs.reverse.normalize, normalizeLimbs_idem _⟩
  · rw [limbsNat_normalizeLimbs, ← hvalue, Nat.mul_comm, Nat.mul_add_div hd,
      Nat.div_eq_of_lt hlast, Nat.add_zero]
  · rw [← hvalue, Nat.mul_comm, Nat.mul_add_mod, Nat.mod_eq_of_lt hlast]

/-- A carry below the factor stays below it, so the last one is a limb. -/
theorem limbsNat_mulSmallAddInPlace {factor : ℕ} (hf : factor ≤ 2 ^ 64) {limbs : List ℕ}
    {carry : ℕ} (hl : Limbs limbs) (hc : carry < factor) :
    limbsNat (mulSmallAddInPlace factor limbs carry) = limbsNat limbs * factor + carry ∧
      Limbs (mulSmallAddInPlace factor limbs carry) := by
  induction limbs generalizing carry with
  | nil =>
    rw [mulSmallAddInPlace]
    split
    · refine ⟨?_, .cons (Nat.mod_lt _ (by norm_num)) .nil⟩
      simp only [limbsNat, Nat.mul_zero, Nat.add_zero, Nat.zero_mul, Nat.zero_add]
      exact Nat.mod_eq_of_lt (by omega)
    · exact ⟨by simp only [limbsNat]; omega, .nil⟩
  | cons limb limbs ih =>
    have hlimb := hl.head
    have hnext : (limb * factor + carry) / 2 ^ 64 < factor := by
      rw [Nat.div_lt_iff_lt_mul (by norm_num)]
      have : limb * factor + factor ≤ 2 ^ 64 * factor := by
        rw [← Nat.succ_mul]
        exact Nat.mul_le_mul_right _ hlimb
      rw [Nat.mul_comm factor]
      omega
    obtain ⟨hvalue, hlimbs⟩ := ih hl.tail hnext
    refine ⟨?_, .cons (Nat.mod_lt _ (by norm_num)) hlimbs⟩
    rw [mulSmallAddInPlace, limbsNat, hvalue, limbsNat]
    have hsplit := Nat.div_add_mod (limb * factor + carry) (2 ^ 64)
    calc (limb * factor + carry) % 2 ^ 64 +
          2 ^ 64 * (limbsNat limbs * factor + (limb * factor + carry) / 2 ^ 64)
        = 2 ^ 64 * (limbsNat limbs * factor) + (2 ^ 64 * ((limb * factor + carry) / 2 ^ 64) +
            (limb * factor + carry) % 2 ^ 64) := by ring
      _ = (limb + 2 ^ 64 * limbsNat limbs) * factor + carry := by rw [hsplit]; ring

/-! ## Digits -/

/-- The bytes that stand for a digit of the radix: `0` to `9`, then letters of either case. -/
inductive DenotesDigit (radix : ℕ) (byte : UInt8) (digit : ℕ) : Prop
  | decimal : digit < 10 → byte.toNat = 48 + digit → digit < radix → DenotesDigit radix byte digit
  | lower : 10 ≤ digit → digit < 36 → byte.toNat = 97 + (digit - 10) → digit < radix →
      DenotesDigit radix byte digit
  | upper : 10 ≤ digit → digit < 36 → byte.toNat = 65 + (digit - 10) → digit < radix →
      DenotesDigit radix byte digit

theorem DenotesDigit.lt {radix digit : ℕ} {byte : UInt8} (h : DenotesDigit radix byte digit) :
    digit < radix := by
  cases h <;> assumption

theorem toDigit_eq_some_iff {radix digit : ℕ} {byte : UInt8} :
    toDigit byte radix = some digit ↔ DenotesDigit radix byte digit := by
  rw [toDigit, Option.filter_eq_some_iff, decide_eq_true_eq]
  constructor
  · rintro ⟨hbyte, hlt⟩
    split_ifs at hbyte with hdecimal hlower hupper
    · obtain rfl := Option.some.inj hbyte
      exact .decimal (by omega) (by omega) hlt
    · obtain rfl := Option.some.inj hbyte
      exact .lower (by omega) (by omega) (by omega) hlt
    · obtain rfl := Option.some.inj hbyte
      exact .upper (by omega) (by omega) (by omega) hlt
  · intro h
    refine ⟨?_, h.lt⟩
    cases h with
    | decimal hd hbyte _ =>
      rw [if_pos (by omega)]
      exact congrArg some (by omega)
    | lower hd hd' hbyte _ =>
      rw [if_neg (by omega), if_pos (by omega)]
      exact congrArg some (by omega)
    | upper hd hd' hbyte _ =>
      rw [if_neg (by omega), if_neg (by omega), if_pos (by omega)]
      exact congrArg some (by omega)

theorem asciiDigit_table : ∀ digit < 36, (asciiDigit (UInt8.ofNat digit)).toNat =
    if digit < 10 then 48 + digit else 65 + (digit - 10) := by
  decide

theorem denotesDigit_asciiDigit {radix digit : ℕ} (hr : radix ≤ maxRadix) (hd : digit < radix) :
    DenotesDigit radix (asciiDigit (UInt8.ofNat digit)) digit := by
  have hmax : digit < 36 := Nat.lt_of_lt_of_le hd hr
  have htable := asciiDigit_table digit hmax
  split at htable
  · next h => exact .decimal h htable hd
  · next h => exact .upper (by omega) hmax htable hd

/-- The format loop writes the digits of the value, lowest first, and does not run out of rounds
while the value fits their bits. -/
theorem digitLoop_eq {radix fuel : ℕ} (hr : 2 ≤ radix) {limbs : List ℕ} (hl : Limbs limbs)
    (hn : normalizeLimbs limbs = limbs) (hfuel : limbsNat limbs < 2 ^ fuel)
    (digits : List UInt8) :
    digitLoop radix fuel limbs digits = some (digits ++
      (Nat.digits radix (limbsNat limbs)).map fun d => asciiDigit (UInt8.ofNat d)) := by
  induction fuel generalizing limbs digits with
  | zero =>
    cases limbs with
    | nil => simp [digitLoop, limbsNat]
    | cons limb limbs =>
      have hle := le_limbsNat hn (List.cons_ne_nil limb limbs)
      have hpos := Nat.two_pow_pos (64 * ((limb :: limbs).length - 1))
      omega
  | succ fuel ih =>
    cases limbs with
    | nil => simp [digitLoop, limbsNat]
    | cons limb limbs =>
      obtain ⟨hq, hrem, hlimbs, hnorm⟩ := divSmallInPlace_spec (by omega : 0 < radix) hl
      have hpos : 0 < limbsNat (limb :: limbs) := by
        have hle := le_limbsNat hn (List.cons_ne_nil limb limbs)
        have hpow := Nat.two_pow_pos (64 * ((limb :: limbs).length - 1))
        omega
      have hhalf : limbsNat (limb :: limbs) / radix < 2 ^ fuel := by
        have hle : limbsNat (limb :: limbs) / radix ≤ limbsNat (limb :: limbs) / 2 :=
          Nat.div_le_div_left hr (by norm_num)
        rw [pow_succ] at hfuel
        omega
      rw [digitLoop]
      dsimp only
      rw [ih hlimbs hnorm (by rw [hq]; exact hhalf), hq, hrem, List.append_assoc,
        Nat.digits_def' hr hpos, List.map_cons, List.singleton_append]

theorem ofDigits_reverse_cons (radix digit : ℕ) (digits : List ℕ) :
    Nat.ofDigits radix (digit :: digits).reverse =
      Nat.ofDigits radix digits.reverse + radix ^ digits.length * digit := by
  rw [List.reverse_cons, Nat.ofDigits_append, Nat.ofDigits_singleton, List.length_reverse]

/-- The parse loop reads the digits after the value it has. -/
theorem parseLoop_of_digits {radix : ℕ} (hr : radix ≤ maxRadix) {bytes : List UInt8}
    {digits : List ℕ} (h : List.Forall₂ (DenotesDigit radix) bytes digits) {limbs : List ℕ}
    (hl : Limbs limbs) : ∃ limbs', parseLoop radix bytes limbs = some limbs' ∧ Limbs limbs' ∧
      limbsNat limbs' = limbsNat limbs * radix ^ digits.length +
        Nat.ofDigits radix digits.reverse := by
  induction h generalizing limbs with
  | nil => exact ⟨limbs, rfl, hl, by simp⟩
  | @cons byte digit bytes digits hbyte _ ih =>
    have hfactor : radix ≤ 2 ^ 64 := hr.trans (by norm_num [maxRadix])
    obtain ⟨hvalue, hlimbs⟩ := limbsNat_mulSmallAddInPlace hfactor hl hbyte.lt
    obtain ⟨limbs', hparse, hlimbs', hvalue'⟩ := ih hlimbs
    refine ⟨limbs', ?_, hlimbs', ?_⟩
    · rw [parseLoop, toDigit_eq_some_iff.mpr hbyte]
      exact hparse
    · rw [hvalue', hvalue, ofDigits_reverse_cons, List.length_cons, pow_succ]
      ring

/-- What the parse loop accepts is digits of the radix. -/
theorem digits_of_parseLoop {radix : ℕ} {bytes : List UInt8} {limbs limbs' : List ℕ}
    (h : parseLoop radix bytes limbs = some limbs') :
    ∃ digits, List.Forall₂ (DenotesDigit radix) bytes digits := by
  induction bytes generalizing limbs with
  | nil => exact ⟨[], .nil⟩
  | cons byte bytes ih =>
    rw [parseLoop] at h
    cases hdigit : toDigit byte radix with
    | none =>
      rw [hdigit] at h
      cases h
    | some digit =>
      rw [hdigit] at h
      obtain ⟨digits, hdigits⟩ := ih h
      exact ⟨digit :: digits, .cons (toDigit_eq_some_iff.mp hdigit) hdigits⟩

/-! ## Numerals -/

/-- An optional sign. -/
inductive Sign
  | none | plus | minus

def Sign.bytes : Sign → List UInt8
  | .none => []
  | .plus => [43]
  | .minus => [45]

def Sign.apply : Sign → ℕ → ℤ
  | .none, n => n
  | .plus, n => n
  | .minus, n => -n

/-- The text is an optional sign and at least one digit of the radix, and denotes the integer. -/
def Numeral (radix : ℕ) (text : List UInt8) (i : ℤ) : Prop :=
  ∃ (sign : Sign) (bytes : List UInt8) (digits : List ℕ), text = sign.bytes ++ bytes ∧
    bytes ≠ [] ∧ List.Forall₂ (DenotesDigit radix) bytes digits ∧
    i = sign.apply (Nat.ofDigits radix digits.reverse)

theorem DenotesDigit.not_sign {radix digit : ℕ} {byte : UInt8} (h : DenotesDigit radix byte digit) :
    byte ≠ 45 ∧ byte ≠ 43 := by
  constructor
  · rintro rfl
    cases h <;> simp at * <;> omega
  · rintro rfl
    cases h <;> simp at * <;> omega

/-- The sign is split off a numeral. -/
theorem splitSign_append {radix : ℕ} {bytes : List UInt8} {digits : List ℕ} (sign : Sign)
    (hdigits : List.Forall₂ (DenotesDigit radix) bytes digits) (hne : bytes ≠ []) :
    ∃ negative, splitSign (sign.bytes ++ bytes) = (negative, bytes) ∧
      ∀ n : ℕ, sign.apply n = if negative then -(n : ℤ) else n := by
  cases sign with
  | none =>
    cases hdigits with
    | nil => exact (hne rfl).elim
    | @cons byte digit bytes digits hbyte =>
      obtain ⟨hminus, hplus⟩ := hbyte.not_sign
      refine ⟨false, ?_, fun n => rfl⟩
      rw [Sign.bytes, List.nil_append, splitSign, if_neg hminus, if_neg hplus]
  | plus => exact ⟨false, rfl, fun n => rfl⟩
  | minus => exact ⟨true, rfl, fun n => rfl⟩

theorem splitSign_eq (text : List UInt8) :
    ∃ sign : Sign, text = sign.bytes ++ (splitSign text).2 := by
  cases text with
  | nil => exact ⟨.none, rfl⟩
  | cons byte rest =>
    rw [splitSign]
    split
    · next h => exact ⟨.minus, by rw [h]; rfl⟩
    · split
      · next h => exact ⟨.plus, by rw [h]; rfl⟩
      · exact ⟨.none, rfl⟩

/-- A numeral is parsed as the canonical form of the integer it denotes. -/
theorem fromStrRadix_of_numeral {radix : ℕ} (hmin : minRadix ≤ radix) (hmax : radix ≤ maxRadix)
    {text : List UInt8} {i : ℤ} (h : Numeral radix text i) :
    ∃ v, fromStrRadix text radix = some v ∧ v.Canonical ∧ v.toInt = i := by
  obtain ⟨sign, bytes, digits, rfl, hne, hdigits, rfl⟩ := h
  obtain ⟨negative, hsplit, happly⟩ := splitSign_append sign hdigits hne
  obtain ⟨limbs, hparse, hlimbs, hvalue⟩ := parseLoop_of_digits hmax hdigits .nil
  refine ⟨.new negative limbs, ?_, BigIntValue.new_canonical negative hlimbs, ?_⟩
  · rw [fromStrRadix, if_neg (not_not.mpr ⟨hmin, hmax⟩), hsplit]
    dsimp only
    rw [if_neg (by simpa using hne), hparse, Option.map_some]
  · rw [BigIntValue.toInt_new, hvalue, happly, limbsNat, Nat.zero_mul, Nat.zero_add]

/-- Only numerals are parsed. -/
theorem numeral_of_fromStrRadix {radix : ℕ} {text : List UInt8} {v : BigIntValue}
    (h : fromStrRadix text radix = some v) : ∃ i, Numeral radix text i := by
  obtain ⟨sign, htext⟩ := splitSign_eq text
  rw [fromStrRadix] at h
  dsimp only at h
  split_ifs at h with hradix hempty
  obtain ⟨limbs, hparse, -⟩ := Option.map_eq_some_iff.mp h
  obtain ⟨digits, hdigits⟩ := digits_of_parseLoop hparse
  exact ⟨_, sign, _, digits, htext, by simpa using hempty, hdigits, rfl⟩

/-- The parser accepts exactly the numerals and returns the canonical form of their integer. -/
theorem fromStrRadix_iff {radix : ℕ} (hmin : minRadix ≤ radix) (hmax : radix ≤ maxRadix)
    (text : List UInt8) (v : BigIntValue) :
    fromStrRadix text radix = some v ↔ v.Canonical ∧ Numeral radix text v.toInt := by
  constructor
  · intro h
    obtain ⟨i, hnumeral⟩ := numeral_of_fromStrRadix h
    obtain ⟨u, hu, hcanonical, rfl⟩ := fromStrRadix_of_numeral hmin hmax hnumeral
    obtain rfl := Option.some.inj (h.symm.trans hu)
    exact ⟨hcanonical, hnumeral⟩
  · rintro ⟨hcanonical, hnumeral⟩
    obtain ⟨u, hu, hcanonical', hvalue⟩ := fromStrRadix_of_numeral hmin hmax hnumeral
    rw [hu, hcanonical'.toInt_injective hcanonical hvalue]

/-! ## Round trip of the text -/

theorem utf8Valid_of_ascii {bytes : List UInt8} (h : ∀ b ∈ bytes, b ≤ 0x7F) :
    utf8Valid bytes = true := by
  induction bytes with
  | nil => rfl
  | cons b bytes ih =>
    unfold utf8Valid
    rw [if_pos (h b (by simp))]
    exact ih fun c hc => h c (by simp [hc])

theorem DenotesDigit.ascii {radix digit : ℕ} {byte : UInt8} (h : DenotesDigit radix byte digit) :
    byte ≤ 0x7F := by
  rw [UInt8.le_iff_toNat_le]
  have hmax : (0x7F : UInt8).toNat = 127 := rfl
  cases h <;> omega

theorem ascii_of_digits {radix : ℕ} {bytes : List UInt8} {digits : List ℕ}
    (h : List.Forall₂ (DenotesDigit radix) bytes digits) : ∀ b ∈ bytes, b ≤ 0x7F := by
  induction h with
  | nil => simp
  | cons hbyte _ ih => exact List.forall_mem_cons.mpr ⟨hbyte.ascii, ih⟩

theorem forall₂_map_self {α β : Type} {R : β → α → Prop} {f : α → β} {as : List α}
    (h : ∀ a ∈ as, R (f a) a) : List.Forall₂ R (as.map f) as := by
  rw [List.forall₂_map_left_iff, List.forall₂_same]
  exact h

/-- The formatted digits, highest first, are digits of the radix that denote the value. -/
theorem denotesDigits_format {radix : ℕ} (hmin : minRadix ≤ radix) (hmax : radix ≤ maxRadix)
    (n : ℕ) : List.Forall₂ (DenotesDigit radix)
      ((Nat.digits radix n).map fun d => asciiDigit (UInt8.ofNat d)).reverse
      (Nat.digits radix n).reverse := by
  rw [List.forall₂_reverse_iff]
  exact forall₂_map_self fun d hd => denotesDigit_asciiDigit hmax (Nat.digits_lt_base hmin hd)

theorem zero_numeral {radix : ℕ} (hmin : minRadix ≤ radix) : Numeral radix [48] 0 := by
  refine ⟨.none, [48], [0], rfl, List.cons_ne_nil _ _, .cons (.decimal ?_ rfl ?_) .nil, rfl⟩
  · norm_num
  · exact Nat.lt_of_lt_of_le (by norm_num [minRadix]) hmin

/-- Formatting ends, and writes a numeral of the value. -/
theorem toStringRadix_numeral {radix : ℕ} (hmin : minRadix ≤ radix) (hmax : radix ≤ maxRadix)
    {v : BigIntValue} (hv : v.Canonical) :
    ∃ text, toStringRadix v radix = some text ∧ Numeral radix text v.toInt := by
  have hradix : ¬ ¬ (minRadix ≤ radix ∧ radix ≤ maxRadix) := not_not.mpr ⟨hmin, hmax⟩
  rw [toStringRadix, if_neg hradix, hv.normalized]
  dsimp only
  by_cases hempty : v.limbs.isEmpty = true
  · refine ⟨[48], if_pos hempty, ?_⟩
    have hzero : v.toInt = 0 := (BigIntValue.isZero_iff hv).mp hempty
    rw [hzero]
    exact zero_numeral hmin
  · have hne : v.limbs ≠ [] := by simpa using hempty
    have hpos : 0 < limbsNat v.limbs :=
      (Nat.two_pow_pos _).trans_le (le_limbsNat hv.normalized hne)
    have hdigits := denotesDigits_format hmin hmax (limbsNat v.limbs)
    have hloop := digitLoop_eq hmin hv.limb_lt hv.normalized (limbsNat_lt hv.limb_lt) []
    rw [List.nil_append] at hloop
    generalize hwritten : (Nat.digits radix (limbsNat v.limbs)).map
      (fun d => asciiDigit (UInt8.ofNat d)) = written at hdigits hloop
    have hascii := ascii_of_digits hdigits
    have hwrittenNe : written.reverse ≠ [] := by
      rw [← hwritten]
      simpa [Nat.digits_eq_nil_iff_eq_zero] using hpos.ne'
    have hvalue : Nat.ofDigits radix (Nat.digits radix (limbsNat v.limbs)).reverse.reverse =
        limbsNat v.limbs := by
      rw [List.reverse_reverse, Nat.ofDigits_digits]
    rw [if_neg hempty, hloop]
    cases hneg : v.isNegative with
    | true =>
      refine ⟨45 :: written.reverse, ?_, .minus, _, _, rfl, hwrittenNe, hdigits, ?_⟩
      · have hvalid : utf8Valid (45 :: written.reverse) = true := utf8Valid_of_ascii (by
          intro b hb
          rcases List.mem_cons.mp hb with rfl | hb
          · decide
          · exact hascii b hb)
        simp [hvalid]
      · rw [hvalue, BigIntValue.toInt_eq, hneg]
        rfl
    | false =>
      refine ⟨written.reverse, ?_, .none, _, _, rfl, hwrittenNe, hdigits, ?_⟩
      · simp [utf8Valid_of_ascii hascii]
      · rw [hvalue, BigIntValue.toInt_eq, hneg]
        rfl

/-- In every radix from 2 to 36 formatting followed by parsing is the identity; the parser returns
a value exactly for the numerals of the radix, the canonical form of what they denote, and rejects
every other text. -/
theorem radix_text_exact {radix : ℕ} (hmin : minRadix ≤ radix) (hmax : radix ≤ maxRadix) :
    (∀ v : BigIntValue, v.Canonical →
      ∃ text, toStringRadix v radix = some text ∧ fromStrRadix text radix = some v) ∧
    (∀ text v, fromStrRadix text radix = some v ↔ v.Canonical ∧ Numeral radix text v.toInt) ∧
    ∀ text, fromStrRadix text radix = none ↔ ∀ i, ¬ Numeral radix text i := by
  refine ⟨?_, fromStrRadix_iff hmin hmax, ?_⟩
  · intro v hv
    obtain ⟨text, htext, hnumeral⟩ := toStringRadix_numeral hmin hmax hv
    exact ⟨text, htext, (fromStrRadix_iff hmin hmax text v).mpr ⟨hv, hnumeral⟩⟩
  · intro text
    constructor
    · intro hnone i hnumeral
      obtain ⟨v, hv, -⟩ := fromStrRadix_of_numeral hmin hmax hnumeral
      rw [hnone] at hv
      cases hv
    · intro hnot
      cases hparse : fromStrRadix text radix with
      | none => rfl
      | some v =>
        obtain ⟨i, hnumeral⟩ := numeral_of_fromStrRadix hparse
        exact (hnot i hnumeral).elim

/-- `-2^64` in base 16, and a letter digit of either case. -/
theorem radix_text_exact_hex :
    (∃ text, toStringRadix ⟨true, [0, 1]⟩ 16 = some text ∧
      fromStrRadix text 16 = some ⟨true, [0, 1]⟩) ∧
    fromStrRadix [43, 102, 70] 16 = some ⟨false, [255]⟩ ∧
    fromStrRadix [45] 16 = none := by
  obtain ⟨hround, hiff, -⟩ := @radix_text_exact 16 (by decide) (by decide)
  refine ⟨hround ⟨true, [0, 1]⟩ ⟨by decide, by decide, by decide⟩, ?_, by decide⟩
  refine (hiff [43, 102, 70] ⟨false, [255]⟩).mpr ⟨⟨by decide, by decide, by decide⟩, ?_⟩
  refine ⟨.plus, [102, 70], [15, 15], rfl, by decide, .cons ?_ (.cons ?_ .nil), by decide⟩
  · exact .lower (by decide) (by decide) (by decide) (by decide)
  · exact .upper (by decide) (by decide) (by decide) (by decide)

/-! ## Bytes -/

/-- The integer that big-endian bytes denote in two's complement. -/
def twosComplementBe (bytes : List UInt8) : ℤ := toSigned (8 * bytes.length) (beNat bytes)

theorem chunks8_short {bs : List UInt8} (h : bs.length < 8) (hne : bs ≠ []) :
    chunks8 bs = [bs] := by
  unfold chunks8
  split
  · simp at h
    omega
  · exact (hne rfl).elim
  · rfl

/-- The limbs of a byte string have its value. -/
theorem limbsNat_chunks8 (bs : List UInt8) : limbsNat ((chunks8 bs).map leNat) = leNat bs := by
  induction bs using chunks8.induct with
  | case1 a b c d e f g h rest ih =>
    rw [chunks8, List.map_cons, limbsNat, ih]
    have hsplit := leNat_append [a, b, c, d, e, f, g, h] rest
    simp only [List.length_cons, List.length_nil, List.cons_append, List.nil_append] at hsplit
    rw [hsplit]
    norm_num
  | case2 => rfl
  | case3 short h1 h2 =>
    have hne : short ≠ [] := fun h => h2 h
    rw [chunks8_short (length_lt_of_not_chunk h1) hne, List.map_cons, List.map_nil,
      limbsNat_singleton]

theorem fromSignMagnitudeLe_spec (negative : Bool) (magnitude : List UInt8) :
    (fromSignMagnitudeLe negative magnitude).Canonical ∧
      (fromSignMagnitudeLe negative magnitude).toInt =
        if negative then -(leNat magnitude : ℤ) else leNat magnitude := by
  refine ⟨BigIntValue.new_canonical negative (chunks8_lt magnitude), ?_⟩
  rw [fromSignMagnitudeLe, BigIntValue.toInt_new, limbsNat_chunks8]

theorem leNat_incrementLe (bs : List UInt8) :
    leNat (incrementLe bs) = (leNat bs + 1) % 256 ^ bs.length := by
  induction bs with
  | nil => simp [incrementLe, leNat]
  | cons b bs ih =>
    have hb := b.toNat_lt
    have hlt := leNat_lt bs
    have hpos : 0 < 256 ^ bs.length := Nat.pos_of_ne_zero (by positivity)
    rw [incrementLe, List.length_cons, pow_succ']
    split
    · next h =>
      subst h
      rw [leNat, leNat, ih, show (255 : UInt8).toNat = 255 from rfl,
        show 255 + 256 * leNat bs + 1 = 256 * (leNat bs + 1) by ring, Nat.mul_mod_mul_left]
      exact Nat.zero_add _
    · next h =>
      have hne : b.toNat ≠ 255 := fun heq => h (UInt8.toNat_inj.mp heq)
      have hsucc : (b + 1).toNat = b.toNat + 1 := by
        rw [UInt8.toNat_add]
        exact Nat.mod_eq_of_lt (by simp; omega)
      rw [leNat, leNat, hsucc, Nat.mod_eq_of_lt (by omega)]
      ring

theorem leNat_map_not (bs : List UInt8) :
    leNat (bs.map (~~~ ·)) + leNat bs + 1 = 256 ^ bs.length := by
  induction bs with
  | nil => rfl
  | cons b bs ih =>
    have hb := b.toNat_lt
    have hnot : (~~~b).toNat = 255 - b.toNat := by
      rw [UInt8.toNat_not]
      rfl
    rw [List.map_cons, leNat, leNat, hnot, List.length_cons, pow_succ']
    omega

/-- Negation of the bytes, at their width. -/
theorem beNat_negateTwosComplementBe (bytes : List UInt8) :
    beNat (negateTwosComplementBe bytes) =
      (256 ^ bytes.length - beNat bytes) % 256 ^ bytes.length := by
  have hnot := leNat_map_not bytes.reverse
  have hlength : (bytes.map (~~~ ·)).reverse.length = bytes.length := by simp
  rw [List.length_reverse] at hnot
  rw [beNat, negateTwosComplementBe, List.reverse_reverse, leNat_incrementLe, hlength,
    ← List.map_reverse, beNat]
  congr 1
  omega

theorem signBit_table : ∀ n < 256, (UInt8.ofNat n &&& 0x80 != 0) = decide (128 ≤ n) := by
  decide +kernel

/-- The top bit of the first byte tells the upper half of the values of the width. -/
theorem signBit_eq (b : UInt8) (bytes : List UInt8) :
    (b &&& 0x80 != 0) =
      decide (2 ^ (8 * (b :: bytes).length - 1) ≤ beNat (b :: bytes)) := by
  have htable := signBit_table b.toNat b.toNat_lt
  rw [UInt8.ofNat_toNat] at htable
  have hlt := beNat_lt bytes
  have hhalf : 2 ^ (8 * (b :: bytes).length - 1) = 128 * 256 ^ bytes.length := by
    rw [List.length_cons, show 8 * (bytes.length + 1) - 1 = 7 + 8 * bytes.length by omega, pow_add,
      pow_256]
    norm_num
  rw [htable, hhalf, beNat_cons, decide_eq_decide]
  constructor
  · intro h
    have := Nat.mul_le_mul_right (256 ^ bytes.length) h
    omega
  · intro h
    by_contra hlow
    have := Nat.mul_le_mul_right (256 ^ bytes.length) (show b.toNat + 1 ≤ 128 by omega)
    rw [Nat.succ_mul] at this
    omega

/-- Bytes of every width and sign are converted to the canonical form of what they denote. -/
theorem fromTwosComplementBe_spec (bytes : List UInt8) :
    (fromTwosComplementBe bytes).Canonical ∧
      (fromTwosComplementBe bytes).toInt = twosComplementBe bytes := by
  cases bytes with
  | nil => exact ⟨(fromSignMagnitudeLe_spec false []).1, by decide⟩
  | cons b bytes =>
    have hconvert : fromTwosComplementBe (b :: bytes) = fromSignMagnitudeLe (b &&& 0x80 != 0)
        (if b &&& 0x80 != 0 then negateTwosComplementBe (b :: bytes) else b :: bytes).reverse := rfl
    have hsign := signBit_eq b bytes
    generalize (b &&& 0x80 != 0) = negative at hconvert hsign
    subst hsign
    rw [hconvert, twosComplementBe, toSigned]
    have hlt := beNat_lt (b :: bytes)
    rw [pow_256] at hlt
    by_cases hneg : 2 ^ (8 * (b :: bytes).length - 1) ≤ beNat (b :: bytes)
    · rw [decide_eq_true hneg, if_pos rfl, if_neg (Nat.not_lt.mpr hneg)]
      obtain ⟨hcanonical, hvalue⟩ :=
        fromSignMagnitudeLe_spec true (negateTwosComplementBe (b :: bytes)).reverse
      refine ⟨hcanonical, ?_⟩
      have hmagnitude := beNat_negateTwosComplementBe (b :: bytes)
      have hpos := Nat.two_pow_pos (8 * (b :: bytes).length - 1)
      rw [pow_256, Nat.mod_eq_of_lt (by omega)] at hmagnitude
      rw [hvalue, if_pos rfl, ← beNat, hmagnitude, Nat.cast_sub hlt.le, neg_sub]
      push_cast
      rfl
    · rw [decide_eq_false hneg, if_neg Bool.false_ne_true, if_pos (Nat.not_le.mp hneg)]
      obtain ⟨hcanonical, hvalue⟩ := fromSignMagnitudeLe_spec false (b :: bytes).reverse
      exact ⟨hcanonical, hvalue⟩

/-- The minimal magnitude has no high zero byte and, with the sign, gives the value back. -/
theorem toSignMagnitudeLe_spec {v : BigIntValue} (hv : v.Canonical) :
    leNat (toSignMagnitudeLe v).2 = v.toInt.natAbs ∧
      (toSignMagnitudeLe v).1 = decide (v.toInt < 0) ∧
      (∀ h : (toSignMagnitudeLe v).2 ≠ [], (toSignMagnitudeLe v).2.getLast h ≠ 0) ∧
      fromSignMagnitudeLe (toSignMagnitudeLe v).1 (toSignMagnitudeLe v).2 = v := by
  have hmagnitude := leNat_toSignMagnitudeLe v hv.limb_lt
  have hsign : (toSignMagnitudeLe v).1 = v.isNegative := rfl
  have hpos := hv.limbsNat_pos
  refine ⟨?_, ?_, ?_, ?_⟩
  · rw [hmagnitude, BigIntValue.toInt_eq]
    split <;> omega
  · rw [hsign, BigIntValue.toInt_eq]
    cases hneg : v.isNegative with
    | true =>
      have := hpos hneg
      exact (decide_eq_true (by rw [if_pos rfl]; omega)).symm
    | false => exact (decide_eq_false (by rw [if_neg Bool.false_ne_true]; omega)).symm
  · intro h
    have hlast := List.rdropWhile_last_not (· == 0) (v.limbs.flatMap (leBytes 8)) h
    rw [beq_iff_eq] at hlast
    exact hlast
  · obtain ⟨hcanonical, hvalue⟩ :=
      fromSignMagnitudeLe_spec (toSignMagnitudeLe v).1 (toSignMagnitudeLe v).2
    refine hcanonical.toInt_injective hv ?_
    rw [hvalue, hmagnitude, hsign, BigIntValue.toInt_eq]

end Beamr.Term
