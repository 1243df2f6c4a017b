import Beamr.Lib.Decoder

/-!
# Decoders of one grammar

Two decoders of a format may take its grammar to mean different things. A survey is a third reader
of the format, without effects, which accepts whatever one of them may accept and lists the items on
which they part. A decoder follows the survey when it accepts what the survey accepts as far as the
items are good ones, over the same bytes. It may also fail with an excused error, such as one about
a resource.
-/
namespace Beamr.Decoder

variable {ε ε' σ α β ι : Type}

theorem bind_bind (d : Decoder ε σ α) (f : α → Decoder ε σ β) {γ : Type} (g : β → Decoder ε σ γ) :
    (d >>= f) >>= g = d >>= fun a => f a >>= g := by
  funext s c
  rw [bind_apply, bind_apply, bind_apply]
  cases d s c with
  | error e => rfl
  | ok r => rfl

/-- `d` gets through on the bytes `c` up to `c'`, or fails with an excused error. -/
def Passes (excused : ε → Prop) (d : Decoder ε σ α) (s : σ) (c c' : List UInt8) : Prop :=
  (∃ a s', d s c = .ok (a, s', c')) ∨ ∃ e, excused e ∧ d s c = .error e

structure Follows (excused : ε → Prop) (good : ι → Prop) (d : Decoder ε σ α)
    (p : Decoder ε' Unit (List ι)) : Prop where
  passes : ∀ {s c items c'}, p () c = .ok (items, (), c') → (∀ i ∈ items, good i) →
    Passes excused d s c c'
  surveyed : ∀ {s c a s' c'}, d s c = .ok (a, s', c') →
    ∃ items, p () c = .ok (items, (), c') ∧ ∀ i ∈ items, good i

/-- `d` reads what the reader `r` reads and leaves its state alone. -/
def SameRead (d : Decoder ε σ α) (r : Decoder ε' Unit α) : Prop :=
  ∀ s c a s' c', d s c = .ok (a, s', c') ↔ s' = s ∧ r () c = .ok (a, (), c')

namespace SameRead

theorem take (e : ε) (e' : ε') (n : ℕ) :
    SameRead (Decoder.take e n : Decoder ε σ _) (Decoder.take e' n) := by
  intro s c xs s' c'
  rw [take_ok_iff, take_ok_iff]
  constructor
  · rintro ⟨hlen, rfl, hc⟩
    exact ⟨rfl, hlen, rfl, hc⟩
  · rintro ⟨rfl, hlen, -, hc⟩
    exact ⟨hlen, rfl, hc⟩

theorem byte (e : ε) (e' : ε') : SameRead (Decoder.byte e : Decoder ε σ _) (Decoder.byte e') := by
  intro s c b s' c'
  rw [byte_ok_iff, byte_ok_iff]
  constructor
  · rintro ⟨rfl, hc⟩
    exact ⟨rfl, rfl, hc⟩
  · rintro ⟨rfl, -, hc⟩
    exact ⟨rfl, hc⟩

theorem map {d : Decoder ε σ α} {r : Decoder ε' Unit α} (h : SameRead d r) (g : α → β) :
    SameRead (do return g (← d)) (do return g (← r)) := by
  intro s c b s' c'
  rw [bind_ok_iff, bind_ok_iff]
  constructor
  · rintro ⟨a, s₁, c₁, hd, hb⟩
    obtain ⟨rfl, rfl, rfl⟩ := pure_ok_iff.mp hb
    obtain ⟨rfl, hr⟩ := (h _ _ _ _ _).mp hd
    exact ⟨rfl, a, (), c₁, hr, rfl⟩
  · rintro ⟨rfl, a, ⟨⟩, c₁, hr, hb⟩
    obtain ⟨rfl, -, rfl⟩ := pure_ok_iff.mp hb
    exact ⟨a, s', c₁, (h _ _ _ _ _).mpr ⟨rfl, hr⟩, rfl⟩

theorem remaining : SameRead (Decoder.remaining : Decoder ε σ _)
    (Decoder.remaining : Decoder ε' Unit _) := by
  intro s c a s' c'
  rw [remaining_ok_iff, remaining_ok_iff]
  constructor
  · rintro ⟨ha, rfl, hc⟩
    exact ⟨rfl, ha, rfl, hc⟩
  · rintro ⟨rfl, ha, -, hc⟩
    exact ⟨ha, rfl, hc⟩

end SameRead

theorem Shrinks.take (e : ε) (n : ℕ) : Shrinks (Decoder.take e n : Decoder ε σ _) := by
  intro s s' c c' xs h
  obtain ⟨-, -, rfl⟩ := take_ok_iff.mp h
  rw [List.length_append]
  exact Nat.le_add_left _ _

theorem Shrinks.byte (e : ε) : Shrinks (Decoder.byte e : Decoder ε σ _) := by
  intro s s' c c' b h
  obtain ⟨-, rfl⟩ := byte_ok_iff.mp h
  exact Nat.le_succ _

theorem Shrinks.require (p : Bool) (e : ε) : Shrinks (Decoder.require p e : Decoder ε σ _) := by
  intro s s' c c' u h
  obtain ⟨-, -, rfl⟩ := require_ok_iff.mp h
  exact Nat.le_refl _

/-- A survey after another. -/
def append (p q : Decoder ε Unit (List ι)) : Decoder ε Unit (List ι) := do
  let first ← p
  let second ← q
  return first ++ second

/-- A survey over and over. -/
def times (p : Decoder ε Unit (List ι)) (n : ℕ) : Decoder ε Unit (List ι) := do
  return (← many p n).flatten

theorem append_apply (p q : Decoder ε Unit (List ι)) (c : List UInt8) :
    append p q () c = match p () c with
      | .error e => .error e
      | .ok (xs, _, c) => match q () c with
        | .error e => .error e
        | .ok (ys, _, c) => .ok (xs ++ ys, (), c) := by
  rw [append, bind_apply]
  cases hp : p () c with
  | error e => rfl
  | ok r =>
    obtain ⟨xs, ⟨⟩, c₁⟩ := r
    dsimp only
    rw [bind_apply]
    cases hq : q () c₁ with
    | error e => rfl
    | ok r => rfl

theorem times_succ (p : Decoder ε Unit (List ι)) (n : ℕ) (c : List UInt8) :
    times p (n + 1) () c = append p (times p n) () c := by
  change ((p >>= fun a => many p n >>= fun as => Pure.pure (a :: as)) >>=
    fun lists => Pure.pure lists.flatten) () c =
    (p >>= fun xs => (many p n >>= fun as => Pure.pure as.flatten) >>=
      fun ys => Pure.pure (xs ++ ys)) () c
  simp only [bind_apply]
  cases hp : p () c with
  | error e => rfl
  | ok r =>
    obtain ⟨xs, ⟨⟩, c₁⟩ := r
    dsimp only
    cases hm : many p n () c₁ with
    | error e => rfl
    | ok r => rfl

/-- The survey never accepts fewer bytes. -/
def Consumes (p : Decoder ε Unit (List ι)) (n : ℕ) : Prop :=
  ∀ c items c', p () c = .ok (items, (), c') → c'.length + n ≤ c.length

namespace Consumes

theorem zero {p : Decoder ε Unit (List ι)} (h : Shrinks p) : Consumes p 0 :=
  fun _ _ _ hp => h _ _ _ _ _ hp

theorem byte (e : ε) {q : UInt8 → Decoder ε Unit (List ι)} (hq : ∀ b, Consumes (q b) 0) :
    Consumes (Decoder.byte e >>= q) 1 := by
  intro c items c' h
  obtain ⟨b, ⟨⟩, c₁, hb, h⟩ := bind_ok_iff.mp h
  obtain ⟨-, rfl⟩ := byte_ok_iff.mp hb
  have hrest := hq b _ _ _ h
  rw [List.length_cons]
  omega

theorem append {p q : Decoder ε Unit (List ι)} {m n : ℕ} (hp : Consumes p m) (hq : Consumes q n) :
    Consumes (p.append q) (m + n) := by
  intro c items c' h
  obtain ⟨xs, ⟨⟩, c₁, hxs, h⟩ := bind_ok_iff.mp h
  obtain ⟨ys, ⟨⟩, c₂, hys, h⟩ := bind_ok_iff.mp h
  obtain ⟨-, -, rfl⟩ := pure_ok_iff.mp h
  have hfirst := hp _ _ _ hxs
  have hsecond := hq _ _ _ hys
  omega

theorem times {p : Decoder ε Unit (List ι)} {k : ℕ} (hp : Consumes p k) (n : ℕ) :
    Consumes (p.times n) (n * k) := by
  intro c items c' h
  obtain ⟨lists, ⟨⟩, c₁, hlists, h⟩ := bind_ok_iff.mp h
  obtain ⟨-, -, rfl⟩ := pure_ok_iff.mp h
  obtain ⟨hlen, hcount⟩ := many_ok
    (P := fun lists _ (c : List UInt8) _ c' => c'.length + lists.length * k ≤ c.length)
    (fun _ _ => by simp)
    (fun a as _ c _ c₁ _ c' ha has => by
      have hfirst := hp _ _ _ ha
      rw [List.length_cons, Nat.succ_mul]
      omega) n hlists
  rwa [hlen] at hcount

end Consumes

namespace Follows

variable {excused : ε → Prop} {good : ι → Prop}

/-- A decoder that reads nothing more and can only fail with an excused error. -/
theorem settled {d : Decoder ε σ α} {items : List ι} (h : ∀ s c, Passes excused d s c c)
    (hstay : ∀ {s c a s' c'}, d s c = .ok (a, s', c') → c' = c) (hgood : ∀ i ∈ items, good i) :
    Follows excused good d (Pure.pure items : Decoder ε' Unit (List ι)) where
  passes := by
    intro s c items c' hp _
    obtain ⟨-, -, rfl⟩ := pure_ok_iff.mp hp
    exact h s c
  surveyed := by
    intro s c a s' c' hd
    obtain rfl := hstay hd
    exact ⟨items, rfl, hgood⟩

theorem pure (a : α) {items : List ι} (hgood : ∀ i ∈ items, good i) :
    Follows excused good (Pure.pure a : Decoder ε σ α)
      (Pure.pure items : Decoder ε' Unit (List ι)) :=
  settled (fun s _ => .inl ⟨a, s, rfl⟩) (fun hd => (pure_ok_iff.mp hd).2.2.symm) hgood

/-- Items that are known to be good may be listed. -/
theorem listing {d : Decoder ε σ α} {items : List ι}
    (h : Follows excused good d (Pure.pure [] : Decoder ε' Unit (List ι)))
    (hgood : ∀ i ∈ items, good i) :
    Follows excused good d (Pure.pure items : Decoder ε' Unit (List ι)) where
  passes := by
    intro s c items' c' hp _
    obtain ⟨-, -, rfl⟩ := pure_ok_iff.mp hp
    exact h.passes rfl (List.forall_mem_nil _)
  surveyed := by
    intro s c a s' c' hd
    obtain ⟨items', hp, -⟩ := h.surveyed hd
    obtain ⟨-, -, rfl⟩ := pure_ok_iff.mp hp
    exact ⟨items, rfl, hgood⟩

/-- A decoder that fails where no word of the survey is a good one. -/
theorem refused {d : Decoder ε σ α} {p : Decoder ε' Unit (List ι)}
    (hd : ∀ {s c a s' c'}, d s c ≠ .ok (a, s', c'))
    (h : ∀ {c items c'}, p () c = .ok (items, (), c') → ∃ i ∈ items, ¬ good i) :
    Follows excused good d p where
  passes := by
    intro s c items c' hp hgood
    obtain ⟨i, hi, hbad⟩ := h hp
    exact absurd (hgood i hi) hbad
  surveyed := fun h => absurd h hd

theorem fail (e : ε) (e' : ε') :
    Follows excused good (Decoder.fail e : Decoder ε σ α)
      (Decoder.fail e' : Decoder ε' Unit (List ι)) :=
  refused not_fail_ok fun hp => absurd hp not_fail_ok

theorem bind {d : Decoder ε σ α} {f : α → Decoder ε σ β} {p q : Decoder ε' Unit (List ι)}
    (hd : Follows excused good d p) (hf : ∀ a, Follows excused good (f a) q) :
    Follows excused good (d >>= f) (p.append q) where
  passes := by
    intro s c items c' hp hgood
    obtain ⟨xs, ⟨⟩, c₁, hxs, hp⟩ := bind_ok_iff.mp hp
    obtain ⟨ys, ⟨⟩, c₂, hys, hp⟩ := bind_ok_iff.mp hp
    obtain ⟨rfl, -, rfl⟩ := pure_ok_iff.mp hp
    rcases hd.passes (s := s) hxs fun i hi => hgood i (List.mem_append_left _ hi) with
      ⟨a, s₁, ha⟩ | ⟨e, he, ha⟩
    · rcases (hf a).passes (s := s₁) hys fun i hi => hgood i (List.mem_append_right _ hi) with
        ⟨b, s₂, hb⟩ | ⟨e, he, hb⟩
      · exact .inl ⟨b, s₂, bind_ok_iff.mpr ⟨a, s₁, c₁, ha, hb⟩⟩
      · exact .inr ⟨e, he, (bind_eq_of_ok ha).trans hb⟩
    · refine .inr ⟨e, he, ?_⟩
      rw [bind_apply, ha]
  surveyed := by
    intro s c b s' c' h
    obtain ⟨a, s₁, c₁, ha, hb⟩ := bind_ok_iff.mp h
    obtain ⟨xs, hxs, hxgood⟩ := hd.surveyed ha
    obtain ⟨ys, hys, hygood⟩ := (hf a).surveyed hb
    refine ⟨xs ++ ys, bind_ok_iff.mpr ⟨xs, (), c₁, hxs, bind_ok_iff.mpr ⟨ys, (), c', hys, rfl⟩⟩, ?_⟩
    exact fun i hi => (List.mem_append.mp hi).elim (hxgood i) (hygood i)

theorem read {d : Decoder ε σ α} {r : Decoder ε' Unit α} {f : α → Decoder ε σ β}
    {q : α → Decoder ε' Unit (List ι)} (hd : SameRead d r)
    (hf : ∀ a, Follows excused good (f a) (q a)) :
    Follows excused good (d >>= f) (r >>= q) where
  passes := by
    intro s c items c' hp hgood
    obtain ⟨a, ⟨⟩, c₁, ha, hp⟩ := bind_ok_iff.mp hp
    have hread : d s c = .ok (a, s, c₁) := (hd _ _ _ _ _).mpr ⟨rfl, ha⟩
    rcases (hf a).passes (s := s) hp hgood with ⟨b, s₂, hb⟩ | ⟨e, he, hb⟩
    · exact .inl ⟨b, s₂, (bind_eq_of_ok hread).trans hb⟩
    · exact .inr ⟨e, he, (bind_eq_of_ok hread).trans hb⟩
  surveyed := by
    intro s c b s' c' h
    obtain ⟨a, s₁, c₁, ha, hb⟩ := bind_ok_iff.mp h
    obtain ⟨rfl, hr⟩ := (hd _ _ _ _ _).mp ha
    obtain ⟨items, hitems, hgood⟩ := (hf a).surveyed hb
    exact ⟨items, (bind_eq_of_ok hr).trans hitems, hgood⟩

theorem require {d : Decoder ε σ α} {q : Decoder ε' Unit (List ι)} {b : Bool} (e : ε) (e' : ε')
    (h : b = true → Follows excused good d q) :
    Follows excused good (do Decoder.require b e; d) (do Decoder.require b e'; q) := by
  cases b with
  | true => exact h rfl
  | false => exact fail e e'

/-- Both branch on one condition. -/
theorem ite {d d' : Decoder ε σ α} {p p' : Decoder ε' Unit (List ι)} {cond : Prop}
    [Decidable cond] (hthen : Follows excused good d p) (helse : Follows excused good d' p') :
    Follows excused good (if cond then d else d') (if cond then p else p') := by
  split_ifs
  · exact hthen
  · exact helse

/-- The bytes of a fixed length. -/
theorem take {f : List UInt8 → Decoder ε σ β} {q : List UInt8 → Decoder ε' Unit (List ι)} (e : ε)
    (e' : ε') {n : ℕ} (hf : ∀ xs, xs.length = n → Follows excused good (f xs) (q xs)) :
    Follows excused good (Decoder.take e n >>= f) (Decoder.take e' n >>= q) where
  passes := by
    intro s c items c' hp hgood
    obtain ⟨xs, ⟨⟩, c₁, hxs, hq⟩ := bind_ok_iff.mp hp
    obtain ⟨hlen, -, rfl⟩ := take_ok_iff.mp hxs
    have hread : (Decoder.take e n : Decoder ε σ _) s (xs ++ c₁) = .ok (xs, s, c₁) :=
      take_ok_iff.mpr ⟨hlen, rfl, rfl⟩
    rcases (hf xs hlen).passes (s := s) hq hgood with ⟨b, s₂, hb⟩ | ⟨x, hx, hb⟩
    · exact .inl ⟨b, s₂, (bind_eq_of_ok hread).trans hb⟩
    · exact .inr ⟨x, hx, (bind_eq_of_ok hread).trans hb⟩
  surveyed := by
    intro s c b s' c' h
    obtain ⟨xs, s₁, c₁, hxs, hb⟩ := bind_ok_iff.mp h
    obtain ⟨hlen, rfl, rfl⟩ := take_ok_iff.mp hxs
    obtain ⟨items, hitems, hgood⟩ := (hf xs hlen).surveyed hb
    have hread : (Decoder.take e' n : Decoder ε' Unit _) () (xs ++ c₁) = .ok (xs, (), c₁) :=
      take_ok_iff.mpr ⟨hlen, rfl, rfl⟩
    exact ⟨items, (bind_eq_of_ok hread).trans hitems, hgood⟩

/-- A decoder that first asks for as many bytes as the survey takes anyway. -/
theorem ensured {d : Decoder ε σ α} {p : Decoder ε' Unit (List ι)} {n : ℕ} (e : ε)
    (h : Follows excused good d p) (hn : Consumes p n) :
    Follows excused good
      ((do Decoder.require (n ≤ (← Decoder.remaining).length) e) >>= fun _ => d) p where
  passes := by
    intro s c items c' hp hgood
    have hlen : n ≤ c.length := by
      have hcount := hn _ _ _ hp
      omega
    have hsame : ((do Decoder.require (n ≤ (← Decoder.remaining).length) e) >>= fun _ => d) s c =
        d s c := by
      refine bind_eq_of_ok (a := ()) (bind_ok_iff.mpr ⟨c, s, c, rfl, ?_⟩)
      exact require_ok_iff.mpr ⟨decide_eq_true hlen, rfl, rfl⟩
    rcases h.passes (s := s) hp hgood with ⟨a, s', ha⟩ | ⟨x, hx, ha⟩
    · exact .inl ⟨a, s', hsame.trans ha⟩
    · exact .inr ⟨x, hx, hsame.trans ha⟩
  surveyed := by
    intro s c a s' c' hd
    obtain ⟨u, s₁, c₁, hu, hd⟩ := bind_ok_iff.mp hd
    obtain ⟨bytes, s₂, c₂, hbytes, hu⟩ := bind_ok_iff.mp hu
    obtain ⟨rfl, rfl, rfl⟩ := remaining_ok_iff.mp hbytes
    obtain ⟨-, rfl, rfl⟩ := require_ok_iff.mp hu
    exact h.surveyed hd

/-- The survey may be read in another way. -/
theorem congr {d : Decoder ε σ α} {p q : Decoder ε' Unit (List ι)} (h : Follows excused good d p)
    (hpq : ∀ c, q () c = p () c) : Follows excused good d q where
  passes := fun hq => h.passes ((hpq _).symm.trans hq)
  surveyed := by
    intro s c a s' c' hd
    obtain ⟨items, hp, hgood⟩ := h.surveyed hd
    exact ⟨items, (hpq c).trans hp, hgood⟩

/-- What follows the last read item. -/
theorem bind_nothing {d : Decoder ε σ α} {f : α → Decoder ε σ β} {p : Decoder ε' Unit (List ι)}
    (hd : Follows excused good d p)
    (hf : ∀ a, Follows excused good (f a) (Pure.pure [] : Decoder ε' Unit (List ι))) :
    Follows excused good (d >>= f) p := by
  refine (bind hd hf).congr fun c => ?_
  change p () c = (p >>= fun xs => Pure.pure [] >>= fun ys => Pure.pure (xs ++ ys)) () c
  rw [bind_apply]
  cases hp : p () c with
  | error e => rfl
  | ok r =>
    obtain ⟨xs, ⟨⟩, c₁⟩ := r
    change _ = Except.ok (xs ++ [], (), c₁)
    rw [List.append_nil]

theorem many {d : Decoder ε σ α} {p : Decoder ε' Unit (List ι)}
    (h : Follows excused good d p) (n : ℕ) :
    Follows excused good (Decoder.many d n) (p.times n) := by
  induction n with
  | zero => exact pure [] (List.forall_mem_nil _)
  | succ n ih =>
    have hstep := bind h fun a => bind_nothing (f := fun as => Pure.pure (a :: as)) ih fun as =>
      pure (a :: as) (List.forall_mem_nil _)
    exact hstep.congr (times_succ p n)

end Follows

end Beamr.Decoder
