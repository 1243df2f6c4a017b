import Beamr.Lib.ByteOrder

/-!
# Decoders over a byte cursor

A decoder takes a side state and the bytes not yet read and either fails or
returns a value, the new side state and the bytes left over. `Reads` states that
a decoder accepts an explicit byte string in front of any continuation; the
composition rules turn a decoder and an encoder written in the same order into a
round trip. The `ok` lemmas invert a successful run.
-/
namespace Beamr

open ByteOrder

/-- A failing state transformer on (side state, unread bytes). -/
def Decoder (ε σ α : Type) : Type := σ → List UInt8 → Except ε (α × σ × List UInt8)

@[simp] theorem except_ok_bind {ε α β : Type} (a : α) (f : α → Except ε β) :
    (Except.ok a >>= f) = f a := rfl

theorem except_bind_ok_iff {ε α β : Type} {x : Except ε α} {f : α → Except ε β} {b : β} :
    (x >>= f) = .ok b ↔ ∃ a, x = .ok a ∧ f a = .ok b := by
  cases x with
  | error e => simp [bind, Except.bind]
  | ok a => simp [bind, Except.bind]

theorem except_map_ok {ε α β : Type} {f : α → β} {x : Except ε α} {b : β}
    (h : f <$> x = .ok b) : ∃ a, x = .ok a ∧ f a = b := by
  cases x with
  | error e => cases h
  | ok a => exact ⟨a, rfl, Except.ok.inj h⟩

theorem except_mapError_ok {ε ε' α : Type} {f : ε → ε'} {x : Except ε α} {a : α}
    (h : x.mapError f = .ok a) : x = .ok a := by
  cases x with
  | error e => cases h
  | ok b => exact congrArg Except.ok (Except.ok.inj h)

theorem except_mapM_cons_ok {ε α β : Type} {f : α → Except ε β} {a : α} {as : List α}
    {out : List β} (h : (a :: as).mapM f = .ok out) :
    ∃ b bs, f a = .ok b ∧ as.mapM f = .ok bs ∧ out = b :: bs := by
  rw [List.mapM_cons] at h
  obtain ⟨b, hb, h⟩ := except_bind_ok_iff.mp h
  obtain ⟨bs, hbs, h⟩ := except_bind_ok_iff.mp h
  exact ⟨b, bs, hb, hbs, (Except.ok.inj h).symm⟩

theorem except_mapM_concat_ok_iff {ε α β : Type} {f : α → Except ε β} {as : List α} {a : α}
    {out : List β} : (as ++ [a]).mapM f = .ok out ↔
      ∃ bs b, as.mapM f = .ok bs ∧ f a = .ok b ∧ out = bs ++ [b] := by
  simp only [List.mapM_append, List.mapM_cons, List.mapM_nil, bind_assoc, except_bind_ok_iff,
    pure_bind]
  constructor
  · rintro ⟨bs, hbs, b, hb, h⟩
    exact ⟨bs, b, hbs, hb, (Except.ok.inj h).symm⟩
  · rintro ⟨bs, b, hbs, hb, rfl⟩
    exact ⟨bs, hbs, b, hb, rfl⟩

namespace Decoder

variable {ε σ α β : Type}

protected def pure (a : α) : Decoder ε σ α := fun s c => .ok (a, s, c)

protected def bind (d : Decoder ε σ α) (f : α → Decoder ε σ β) : Decoder ε σ β := fun s c =>
  match d s c with
  | .error e => .error e
  | .ok (a, s', c') => f a s' c'

instance : Monad (Decoder ε σ) where
  pure := Decoder.pure
  bind := Decoder.bind

def fail (e : ε) : Decoder ε σ α := fun _ _ => .error e

def getState : Decoder ε σ σ := fun s c => .ok (s, s, c)

def setState (s : σ) : Decoder ε σ Unit := fun _ c => .ok ((), s, c)

/-- The bytes not yet read. -/
def remaining : Decoder ε σ (List UInt8) := fun s c => .ok (c, s, c)

/-- Read `n` bytes or fail with `e`. -/
def take (e : ε) (n : ℕ) : Decoder ε σ (List UInt8) := fun s c =>
  if n ≤ c.length then .ok (c.take n, s, c.drop n) else .error e

/-- Read one byte or fail with `e`. -/
def byte (e : ε) : Decoder ε σ UInt8 := fun s c =>
  match c with
  | [] => .error e
  | b :: c => .ok (b, s, c)

/-- Run a cursor reader that has no side state. -/
def lift (r : List UInt8 → Except ε (α × List UInt8)) : Decoder ε σ α := fun s c =>
  match r c with
  | .error e => .error e
  | .ok (a, c') => .ok (a, s, c')

/-- Fail with `e` unless the condition holds. -/
def require (p : Bool) (e : ε) : Decoder ε σ Unit := if p then pure () else fail e

def ofOption (e : ε) : Option α → Decoder ε σ α
  | some a => pure a
  | none => fail e

def ofExcept : Except ε α → Decoder ε σ α
  | .ok a => pure a
  | .error e => fail e

/-- Run a decoder `n` times, collecting the results. -/
def many (d : Decoder ε σ α) : ℕ → Decoder ε σ (List α)
  | 0 => pure []
  | n + 1 => do
    let a ← d
    let as ← many d n
    pure (a :: as)

/-! ## Inverting a successful run -/

@[simp] theorem pure_apply (a : α) (s : σ) (c : List UInt8) :
    (pure a : Decoder ε σ α) s c = .ok (a, s, c) := rfl

theorem bind_apply (d : Decoder ε σ α) (f : α → Decoder ε σ β) (s : σ) (c : List UInt8) :
    (d >>= f) s c = match d s c with
      | .error e => .error e
      | .ok (a, s', c') => f a s' c' := rfl

theorem bind_eq_of_ok {d : Decoder ε σ α} {f : α → Decoder ε σ β} {s s' : σ}
    {c c' : List UInt8} {a : α} (h : d s c = .ok (a, s', c')) :
    (d >>= f) s c = f a s' c' := by rw [bind_apply, h]

theorem bind_ok_iff {d : Decoder ε σ α} {f : α → Decoder ε σ β} {s s' : σ}
    {c c' : List UInt8} {b : β} :
    (d >>= f) s c = .ok (b, s', c') ↔
      ∃ a s₁ c₁, d s c = .ok (a, s₁, c₁) ∧ f a s₁ c₁ = .ok (b, s', c') := by
  rw [bind_apply]
  constructor
  · intro h
    cases hd : d s c with
    | error e => simp [hd] at h
    | ok r => obtain ⟨a, s₁, c₁⟩ := r; exact ⟨a, s₁, c₁, rfl, by simpa [hd] using h⟩
  · rintro ⟨a, s₁, c₁, hd, hf⟩
    simpa [hd] using hf

@[simp] theorem pure_ok_iff {a b : α} {s s' : σ} {c c' : List UInt8} :
    (pure a : Decoder ε σ α) s c = .ok (b, s', c') ↔ a = b ∧ s = s' ∧ c = c' := by
  simp

@[simp] theorem not_fail_ok {e : ε} {b : α} {s s' : σ} {c c' : List UInt8} :
    (fail e : Decoder ε σ α) s c ≠ .ok (b, s', c') := by simp [fail]

@[simp] theorem require_ok_iff {p : Bool} {e : ε} {u : Unit} {s s' : σ} {c c' : List UInt8} :
    (require p e : Decoder ε σ Unit) s c = .ok (u, s', c') ↔ p = true ∧ s = s' ∧ c = c' := by
  cases p <;> simp [require, fail]

@[simp] theorem getState_ok_iff {a s s' : σ} {c c' : List UInt8} :
    (getState : Decoder ε σ σ) s c = .ok (a, s', c') ↔ s = a ∧ s = s' ∧ c = c' := by
  simp [getState]

@[simp] theorem setState_ok_iff {t s s' : σ} {u : Unit} {c c' : List UInt8} :
    (setState t : Decoder ε σ Unit) s c = .ok (u, s', c') ↔ t = s' ∧ c = c' := by
  simp [setState]

@[simp] theorem remaining_ok_iff {a : List UInt8} {s s' : σ} {c c' : List UInt8} :
    (remaining : Decoder ε σ _) s c = .ok (a, s', c') ↔ c = a ∧ s = s' ∧ c = c' := by
  simp [remaining]

@[simp] theorem ofOption_ok_iff {o : Option α} {e : ε} {a : α} {s s' : σ} {c c' : List UInt8} :
    (ofOption e o : Decoder ε σ α) s c = .ok (a, s', c') ↔ o = some a ∧ s = s' ∧ c = c' := by
  cases o <;> simp [ofOption, fail]

@[simp] theorem ofExcept_ok_iff {r : Except ε α} {a : α} {s s' : σ} {c c' : List UInt8} :
    (ofExcept r : Decoder ε σ α) s c = .ok (a, s', c') ↔ r = .ok a ∧ s = s' ∧ c = c' := by
  cases r <;> simp [ofExcept, fail]

theorem take_ok_iff {e : ε} {n : ℕ} {a : List UInt8} {s s' : σ} {c c' : List UInt8} :
    (take e n : Decoder ε σ _) s c = .ok (a, s', c') ↔ a.length = n ∧ s = s' ∧ c = a ++ c' := by
  unfold take
  split_ifs with h
  · simp only [Except.ok.injEq, Prod.mk.injEq]
    constructor
    · rintro ⟨rfl, rfl, rfl⟩
      exact ⟨by simpa using h, rfl, (List.take_append_drop n c).symm⟩
    · rintro ⟨rfl, rfl, rfl⟩
      simp
  · simp only [false_iff]
    rintro ⟨rfl, -, rfl⟩
    simp at h

theorem byte_ok_iff {e : ε} {b : UInt8} {s s' : σ} {c c' : List UInt8} :
    (byte e : Decoder ε σ _) s c = .ok (b, s', c') ↔ s = s' ∧ c = b :: c' := by
  cases c with
  | nil => simp [byte]
  | cons x c => simp [byte]; tauto

theorem lift_ok_iff {r : List UInt8 → Except ε (α × List UInt8)} {a : α} {s s' : σ}
    {c c' : List UInt8} :
    (lift r : Decoder ε σ α) s c = .ok (a, s', c') ↔ r c = .ok (a, c') ∧ s = s' := by
  unfold lift
  cases hr : r c with
  | error e => simp
  | ok p => obtain ⟨x, y⟩ := p; simp; tauto

/-- Invariant rule for a counted loop: a relation between the states before and
after one element composes over the list of results. -/
theorem many_ok {d : Decoder ε σ α} {P : List α → σ → List UInt8 → σ → List UInt8 → Prop}
    (hnil : ∀ s c, P [] s c s c)
    (hcons : ∀ a as s c s₁ c₁ s' c', d s c = .ok (a, s₁, c₁) → P as s₁ c₁ s' c' →
      P (a :: as) s c s' c') :
    ∀ (n : ℕ) {as : List α} {s s' : σ} {c c' : List UInt8},
      many d n s c = .ok (as, s', c') → as.length = n ∧ P as s c s' c' := by
  intro n
  induction n with
  | zero =>
    intro as s s' c c' h
    obtain ⟨rfl, rfl, rfl⟩ := pure_ok_iff.mp h
    exact ⟨rfl, hnil s c⟩
  | succ n ih =>
    intro as s s' c c' h
    simp only [many, bind_ok_iff, pure_ok_iff] at h
    obtain ⟨a, s₁, c₁, hd, bs, s₂, c₂, hm, rfl, rfl, rfl⟩ := h
    obtain ⟨hlen, hP⟩ := ih hm
    exact ⟨by simp [hlen], hcons a bs s c s₁ c₁ s₂ c₂ hd hP⟩

/-! ## Bytes that are left -/

/-- `d` never leaves more bytes than it got. -/
def Shrinks (d : Decoder ε σ α) : Prop :=
  ∀ s s' c c' a, d s c = .ok (a, s', c') → c'.length ≤ c.length

theorem Shrinks.bind {d : Decoder ε σ α} {f : α → Decoder ε σ β} (hd : Shrinks d)
    (hf : ∀ a, Shrinks (f a)) : Shrinks (d >>= f) := by
  intro s s' c c' b h
  obtain ⟨a, s₁, c₁, ha, h⟩ := bind_ok_iff.mp h
  exact (hf a _ _ _ _ _ h).trans (hd _ _ _ _ _ ha)

theorem Shrinks.pure (a : α) : Shrinks (Pure.pure a : Decoder ε σ α) := by
  intro s s' c c' b h
  obtain ⟨-, -, rfl⟩ := pure_ok_iff.mp h
  exact le_rfl

theorem Shrinks.fail (e : ε) : Shrinks (Decoder.fail e : Decoder ε σ α) :=
  fun _ _ _ _ _ h => absurd h not_fail_ok

theorem Shrinks.many {d : Decoder ε σ α} (hd : Shrinks d) : ∀ k, Shrinks (Decoder.many d k)
  | 0 => Shrinks.pure []
  | k + 1 => hd.bind fun _ => (Shrinks.many hd k).bind fun _ => Shrinks.pure _

/-! ## Reading an explicit byte string -/

/-- `d` started in `s` consumes exactly `bytes`, whatever follows. -/
def Reads (d : Decoder ε σ α) (s : σ) (bytes : List UInt8) (a : α) (s' : σ) : Prop :=
  ∀ rest, d s (bytes ++ rest) = .ok (a, s', rest)

namespace Reads

theorem pure (a : α) (s : σ) : Reads (Pure.pure a : Decoder ε σ α) s [] a s := fun _ => rfl

theorem bind {d : Decoder ε σ α} {f : α → Decoder ε σ β} {s s₁ s₂ : σ} {xs ys : List UInt8}
    {a : α} {b : β} (h : Reads d s xs a s₁) (h' : Reads (f a) s₁ ys b s₂) :
    Reads (d >>= f) s (xs ++ ys) b s₂ := by
  intro rest
  rw [List.append_assoc, bind_eq_of_ok (h (ys ++ rest))]
  exact h' rest

/-- Composition with a first step that reads nothing. -/
theorem bind_nil {d : Decoder ε σ α} {f : α → Decoder ε σ β} {s s₁ s₂ : σ} {ys : List UInt8}
    {a : α} {b : β} (h : Reads d s [] a s₁) (h' : Reads (f a) s₁ ys b s₂) :
    Reads (d >>= f) s ys b s₂ := by
  simpa using h.bind h'

/-- Composition whose continuation reads nothing. -/
theorem bind_pure {d : Decoder ε σ α} {f : α → Decoder ε σ β} {s s₁ s₂ : σ} {xs : List UInt8}
    {a : α} {b : β} (h : Reads d s xs a s₁) (h' : Reads (f a) s₁ [] b s₂) :
    Reads (d >>= f) s xs b s₂ := by
  simpa using h.bind h'

theorem take (e : ε) (s : σ) (xs : List UInt8) {n : ℕ} (h : xs.length = n) :
    Reads (Decoder.take e n : Decoder ε σ _) s xs xs s := by
  intro rest
  exact take_ok_iff.mpr ⟨h, rfl, rfl⟩

theorem byte (e : ε) (s : σ) (b : UInt8) : Reads (Decoder.byte e : Decoder ε σ _) s [b] b s :=
  fun _ => rfl

theorem getState (s : σ) : Reads (Decoder.getState : Decoder ε σ σ) s [] s s := fun _ => rfl

theorem setState (s t : σ) : Reads (Decoder.setState t : Decoder ε σ Unit) s [] () t :=
  fun _ => rfl

theorem require {p : Bool} (e : ε) (s : σ) (h : p = true) :
    Reads (Decoder.require p e : Decoder ε σ Unit) s [] () s := by
  intro rest
  exact require_ok_iff.mpr ⟨h, rfl, rfl⟩

theorem ofOption {o : Option α} (e : ε) (s : σ) {a : α} (h : o = some a) :
    Reads (Decoder.ofOption e o : Decoder ε σ α) s [] a s := by
  intro rest
  exact ofOption_ok_iff.mpr ⟨h, rfl, rfl⟩

theorem ofExcept {r : Except ε α} (s : σ) {a : α} (h : r = .ok a) :
    Reads (Decoder.ofExcept r : Decoder ε σ α) s [] a s := by
  intro rest
  exact ofExcept_ok_iff.mpr ⟨h, rfl, rfl⟩

theorem lift {r : List UInt8 → Except ε (α × List UInt8)} (s : σ) {xs : List UInt8} {a : α}
    (h : ∀ rest, r (xs ++ rest) = .ok (a, rest)) :
    Reads (Decoder.lift r : Decoder ε σ α) s xs a s := by
  intro rest
  exact lift_ok_iff.mpr ⟨h rest, rfl⟩

/-- The first iteration of a counted loop and the others. -/
theorem many_cons {d : Decoder ε σ α} {s s₁ s₂ : σ} {xs ys : List UInt8} {a : α} {as : List α}
    {n : ℕ} (h : Reads d s xs a s₁) (h' : Reads (Decoder.many d n) s₁ ys as s₂) :
    Reads (Decoder.many d (n + 1)) s (xs ++ ys) (a :: as) s₂ :=
  h.bind (h'.bind_pure (Reads.pure _ _))

/-- A counted loop reads the concatenation of what its iterations read, each
from the state the previous one left. -/
theorem many {d : Decoder ε σ α} (enc : α → List UInt8) (next : σ → α → σ) :
    ∀ (as : List α) (s : σ),
      (∀ pre a post, as = pre ++ a :: post →
        Reads d (pre.foldl next s) (enc a) a (next (pre.foldl next s) a)) →
      Reads (Decoder.many d as.length) s (as.flatMap enc) as (as.foldl next s)
  | [], s, _ => Reads.pure [] s
  | a :: as, s, h => by
    have ha : Reads d s (enc a) a (next s a) := h [] a as rfl
    have has := many enc next as (next s a) (by
      intro pre b post hb
      exact h (a :: pre) b post (by rw [hb]; rfl))
    exact ha.bind (has.bind_pure (Reads.pure _ _))

end Reads

/-- `d` started in `s` fails with `e` on anything that starts with `bytes`. -/
def Fails (d : Decoder ε σ α) (s : σ) (bytes : List UInt8) (e : ε) : Prop :=
  ∀ rest, d s (bytes ++ rest) = .error e

namespace Fails

theorem fail (e : ε) (s : σ) (bytes : List UInt8) :
    Fails (Decoder.fail e : Decoder ε σ α) s bytes e := fun _ => rfl

theorem append {d : Decoder ε σ α} {s : σ} {xs : List UInt8} {e : ε} (h : Fails d s xs e)
    (ys : List UInt8) : Fails d s (xs ++ ys) e := by
  intro rest
  rw [List.append_assoc]
  exact h (ys ++ rest)

/-- Failing in the first step. -/
theorem bind_first {d : Decoder ε σ α} {s : σ} {xs : List UInt8} {e : ε} (h : Fails d s xs e)
    (f : α → Decoder ε σ β) : Fails (d >>= f) s xs e := by
  intro rest
  rw [bind_apply, h rest]

/-- Failing after a first step that succeeds. -/
theorem bind {d : Decoder ε σ α} {f : α → Decoder ε σ β} {s s₁ : σ} {xs ys : List UInt8} {a : α}
    {e : ε} (h : Reads d s xs a s₁) (h' : Fails (f a) s₁ ys e) :
    Fails (d >>= f) s (xs ++ ys) e := by
  intro rest
  rw [List.append_assoc, bind_eq_of_ok (h (ys ++ rest))]
  exact h' rest

end Fails

/-- `d` started in `s` on exactly `bytes` succeeds and leaves nothing. -/
def ReadsAll (d : Decoder ε σ α) (s : σ) (bytes : List UInt8) (a : α) (s' : σ) : Prop :=
  d s bytes = .ok (a, s', [])

theorem Reads.all {d : Decoder ε σ α} {s s' : σ} {bytes : List UInt8} {a : α}
    (h : Reads d s bytes a s') : ReadsAll d s bytes a s' := by
  have hnil := h []
  rwa [List.append_nil] at hnil

theorem Reads.bindAll {d : Decoder ε σ α} {f : α → Decoder ε σ β} {s s₁ s₂ : σ}
    {xs ys : List UInt8} {a : α} {b : β} (h : Reads d s xs a s₁)
    (h' : ReadsAll (f a) s₁ ys b s₂) : ReadsAll (d >>= f) s (xs ++ ys) b s₂ := by
  unfold ReadsAll
  rw [bind_eq_of_ok (h ys)]
  exact h'

theorem Reads.bindAll_nil {d : Decoder ε σ α} {f : α → Decoder ε σ β} {s s₁ s₂ : σ}
    {ys : List UInt8} {a : α} {b : β} (h : Reads d s [] a s₁)
    (h' : ReadsAll (f a) s₁ ys b s₂) : ReadsAll (d >>= f) s ys b s₂ := by
  simpa using h.bindAll h'

theorem Reads.bindAll_last {d : Decoder ε σ α} {f : α → Decoder ε σ β} {s s₁ s₂ : σ}
    {xs : List UInt8} {a : α} {b : β} (h : Reads d s xs a s₁)
    (h' : ReadsAll (f a) s₁ [] b s₂) : ReadsAll (d >>= f) s xs b s₂ := by
  simpa using h.bindAll h'

end Decoder

end Beamr
