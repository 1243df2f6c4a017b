import Beamr.Lib.Decoder

/-!
# Decoders bound to the bytes they use

Whatever a run of such a decoder returns is settled by the bytes it took off the
front: they alone, and they in front of anything else, give the same. Its accepted
inputs are then a prefix-free code.
-/
namespace Beamr.Decoder

variable {ε σ α β : Type}

/-- A successful run depends on the bytes it used and on nothing after them. -/
def PrefixBound (d : Decoder ε σ α) : Prop :=
  ∀ s c a s' c', d s c = .ok (a, s', c') → ∃ used, c = used ++ c' ∧ Reads d s used a s'

namespace PrefixBound

theorem pure (a : α) : PrefixBound (Pure.pure a : Decoder ε σ α) := by
  intro s c b s' c' h
  obtain ⟨rfl, rfl, rfl⟩ := pure_ok_iff.mp h
  exact ⟨[], rfl, Reads.pure a s⟩

theorem fail (e : ε) : PrefixBound (Decoder.fail e : Decoder ε σ α) := by
  intro s c b s' c' h
  exact absurd h not_fail_ok

theorem bind {d : Decoder ε σ α} {f : α → Decoder ε σ β} (hd : PrefixBound d)
    (hf : ∀ a, PrefixBound (f a)) : PrefixBound (d >>= f) := by
  intro s c b s' c' h
  obtain ⟨a, s₁, c₁, ha, hb⟩ := bind_ok_iff.mp h
  obtain ⟨xs, rfl, hxs⟩ := hd s c a s₁ c₁ ha
  obtain ⟨ys, rfl, hys⟩ := hf a s₁ c₁ b s' c' hb
  exact ⟨xs ++ ys, by simp, hxs.bind hys⟩

theorem take (e : ε) (n : ℕ) : PrefixBound (Decoder.take e n : Decoder ε σ _) := by
  intro s c a s' c' h
  obtain ⟨hlen, rfl, rfl⟩ := take_ok_iff.mp h
  exact ⟨a, rfl, Reads.take e s a hlen⟩

theorem byte (e : ε) : PrefixBound (Decoder.byte e : Decoder ε σ _) := by
  intro s c b s' c' h
  obtain ⟨rfl, rfl⟩ := byte_ok_iff.mp h
  exact ⟨[b], rfl, Reads.byte e s b⟩

theorem require (p : Bool) (e : ε) : PrefixBound (Decoder.require p e : Decoder ε σ Unit) := by
  cases p with
  | true => exact PrefixBound.pure ()
  | false => exact PrefixBound.fail e

theorem ofOption (e : ε) (o : Option α) :
    PrefixBound (Decoder.ofOption e o : Decoder ε σ α) := by
  cases o with
  | none => exact PrefixBound.fail e
  | some a => exact PrefixBound.pure a

theorem ofExcept (r : Except ε α) : PrefixBound (Decoder.ofExcept r : Decoder ε σ α) := by
  cases r with
  | error e => exact PrefixBound.fail e
  | ok a => exact PrefixBound.pure a

theorem getState : PrefixBound (Decoder.getState : Decoder ε σ σ) := by
  intro s c a s' c' h
  obtain ⟨rfl, rfl, rfl⟩ := getState_ok_iff.mp h
  exact ⟨[], rfl, Reads.getState s⟩

theorem setState (t : σ) : PrefixBound (Decoder.setState t : Decoder ε σ Unit) := by
  intro s c a s' c' h
  obtain ⟨rfl, rfl⟩ := setState_ok_iff.mp h
  exact ⟨[], rfl, Reads.setState s t⟩

theorem ite {p : Prop} [Decidable p] {d d' : Decoder ε σ α} (hd : PrefixBound d)
    (hd' : PrefixBound d') : PrefixBound (if p then d else d') := by
  split
  · exact hd
  · exact hd'

theorem many {d : Decoder ε σ α} (hd : PrefixBound d) (n : ℕ) :
    PrefixBound (Decoder.many d n) := by
  induction n with
  | zero => exact PrefixBound.pure []
  | succ n ih => exact hd.bind fun a => ih.bind fun as => PrefixBound.pure (a :: as)

variable {d : Decoder ε σ α} {s s' : σ} {bytes rest : List UInt8} {a : α}

/-- The bytes a run used, cut off the input by the length of what was left. -/
theorem reads_take (hd : PrefixBound d) (h : d s bytes = .ok (a, s', rest)) :
    rest.length ≤ bytes.length ∧ Reads d s (bytes.take (bytes.length - rest.length)) a s' := by
  obtain ⟨used, rfl, hused⟩ := hd s bytes a s' rest h
  simpa using hused

/-- No proper front of the bytes a run used is accepted. -/
theorem not_ok_take (hd : PrefixBound d) (h : d s bytes = .ok (a, s', rest)) {k : ℕ}
    (hk : k < bytes.length - rest.length) (b : α) (t : σ) (left : List UInt8) :
    d s (bytes.take k) ≠ .ok (b, t, left) := by
  intro hcut
  obtain ⟨used, hused, hreads⟩ := hd s (bytes.take k) b t left hcut
  have hwhole := hreads (left ++ bytes.drop k)
  rw [← List.append_assoc, ← hused, List.take_append_drop, h] at hwhole
  have hrest : rest = left ++ bytes.drop k := by simp_all
  have hlen := congrArg List.length hrest
  simp only [List.length_append, List.length_drop] at hlen
  omega

end PrefixBound

/-! ## Bytes that settle a run -/

/-- Started in `s` on anything that begins with `bytes`, `d` reads just them or fails for one
reason: what follows has no say. -/
def Settles (d : Decoder ε σ α) (s : σ) (bytes : List UInt8) : Prop :=
  (∃ a s', Reads d s bytes a s') ∨ ∃ e, Fails d s bytes e

namespace Settles

theorem pure (a : α) (s : σ) : Settles (Pure.pure a : Decoder ε σ α) s [] :=
  .inl ⟨a, s, Reads.pure a s⟩

theorem fail (e : ε) (s : σ) (bytes : List UInt8) :
    Settles (Decoder.fail e : Decoder ε σ α) s bytes :=
  .inr ⟨e, Fails.fail e s bytes⟩

theorem bind {d : Decoder ε σ α} {f : α → Decoder ε σ β} {s : σ} {xs ys : List UInt8}
    (h : Settles d s xs) (h' : ∀ a s', Settles (f a) s' ys) : Settles (d >>= f) s (xs ++ ys) := by
  obtain ⟨a, s', hreads⟩ | ⟨e, hfails⟩ := h
  · obtain ⟨b, t, hnext⟩ | ⟨e, hnext⟩ := h' a s'
    · exact .inl ⟨b, t, hreads.bind hnext⟩
    · exact .inr ⟨e, Fails.bind hreads hnext⟩
  · exact .inr ⟨e, (hfails.bind_first f).append ys⟩

/-- Composition whose continuation reads nothing. -/
theorem bind_last {d : Decoder ε σ α} {f : α → Decoder ε σ β} {s : σ} {xs : List UInt8}
    (h : Settles d s xs) (h' : ∀ a s', Settles (f a) s' []) : Settles (d >>= f) s xs := by
  simpa using h.bind h'

/-- Composition with a first step that reads nothing. -/
theorem skip {d : Decoder ε σ α} {f : α → Decoder ε σ β} {s : σ} {ys : List UInt8}
    (h : Settles d s []) (h' : ∀ a s', Settles (f a) s' ys) : Settles (d >>= f) s ys :=
  h.bind h'

/-- A first step with a known result. -/
theorem read {d : Decoder ε σ α} {f : α → Decoder ε σ β} {s s' : σ} {xs ys : List UInt8} {a : α}
    (h : Reads d s xs a s') (h' : Settles (f a) s' ys) : Settles (d >>= f) s (xs ++ ys) := by
  obtain ⟨b, t, hnext⟩ | ⟨e, hnext⟩ := h'
  · exact .inl ⟨b, t, h.bind hnext⟩
  · exact .inr ⟨e, Fails.bind h hnext⟩

theorem read_last {d : Decoder ε σ α} {f : α → Decoder ε σ β} {s s' : σ} {xs : List UInt8} {a : α}
    (h : Reads d s xs a s') (h' : Settles (f a) s' []) : Settles (d >>= f) s xs := by
  simpa using read h h'

theorem require (p : Bool) (e : ε) (s : σ) :
    Settles (Decoder.require p e : Decoder ε σ Unit) s [] := by
  cases p with
  | true => exact Settles.pure () s
  | false => exact Settles.fail e s []

theorem ofOption (e : ε) (o : Option α) (s : σ) :
    Settles (Decoder.ofOption e o : Decoder ε σ α) s [] := by
  cases o with
  | none => exact Settles.fail e s []
  | some a => exact Settles.pure a s

theorem ite {p : Prop} [Decidable p] {d d' : Decoder ε σ α} {s : σ} {bytes : List UInt8}
    (h : Settles d s bytes) (h' : Settles d' s bytes) :
    Settles (if p then d else d') s bytes := by
  split
  · exact h
  · exact h'

/-- The first iteration of a counted loop and the others. -/
theorem many_cons {d : Decoder ε σ α} {s : σ} {xs ys : List UInt8} {n : ℕ} (h : Settles d s xs)
    (h' : ∀ s', Settles (Decoder.many d n) s' ys) :
    Settles (Decoder.many d (n + 1)) s (xs ++ ys) :=
  h.bind fun a s' => (h' s').bind_last fun as t => Settles.pure (a :: as) t

end Settles

end Beamr.Decoder
