import Mathlib.Data.List.Sort
import Mathlib.Order.SetNotation
import Mathlib.Tactic

/-!
# Three-way comparisons

A comparison returns an `Ordering`. The laws of a total preorder are stated on a
set, because a comparison may keep them only on some of its inputs. Keys, ties
broken by a second comparison, lists walked in step and the stable sort are the
ways in which comparisons of compound values are built here.
-/
namespace Comparison

variable {α β κ : Type*}

/-- Total preorder on `s`: reversing the arguments reverses the answer, and `≤` chains. -/
structure PreorderOn (s : Set α) (c : α → α → Ordering) : Prop where
  swap : ∀ a ∈ s, ∀ b ∈ s, c b a = (c a b).swap
  trans : ∀ a ∈ s, ∀ b ∈ s, ∀ d ∈ s, (c a b).isLE → (c b d).isLE → (c a d).isLE

namespace PreorderOn

variable {s t : Set α} {c d : α → α → Ordering}

theorem refl (h : PreorderOn s c) {a : α} (ha : a ∈ s) : c a a = .eq := by
  have hswap := h.swap a ha a ha
  cases hc : c a a <;> simp [hc] at hswap ⊢

theorem mono (h : PreorderOn s c) (hts : t ⊆ s) : PreorderOn t c where
  swap a ha b hb := h.swap a (hts ha) b (hts hb)
  trans a ha b hb d hd := h.trans a (hts ha) b (hts hb) d (hts hd)

/-- A comparison of images is a preorder where the comparison of the images is. -/
theorem comap {u : Set β} {e : β → β → Ordering} (h : PreorderOn u e) (f : α → β)
    (hf : ∀ a ∈ s, f a ∈ u) (hc : ∀ a ∈ s, ∀ b ∈ s, c a b = e (f a) (f b)) :
    PreorderOn s c where
  swap a ha b hb := by rw [hc a ha b hb, hc b hb a ha]; exact h.swap _ (hf a ha) _ (hf b hb)
  trans a ha b hb d hd := by
    rw [hc a ha b hb, hc b hb d hd, hc a ha d hd]
    exact h.trans _ (hf a ha) _ (hf b hb) _ (hf d hd)

/-- Laws for values of the form `g x` are laws for the `x`. -/
theorem of_form {u : Set β} (g : β → α) (hs : ∀ a ∈ s, ∃ b ∈ u, g b = a)
    (h : PreorderOn u fun x y => c (g x) (g y)) : PreorderOn s c where
  swap a ha b hb := by
    obtain ⟨x, hx, rfl⟩ := hs a ha
    obtain ⟨y, hy, rfl⟩ := hs b hb
    exact h.swap x hx y hy
  trans a ha b hb d hd := by
    obtain ⟨x, hx, rfl⟩ := hs a ha
    obtain ⟨y, hy, rfl⟩ := hs b hb
    obtain ⟨z, hz, rfl⟩ := hs d hd
    exact h.trans x hx y hy z hz

theorem of_ord [Ord α] [Std.TransOrd α] (s : Set α) : PreorderOn s compare where
  swap _ _ _ _ := Std.OrientedCmp.eq_swap
  trans _ _ _ _ _ _ := Std.TransCmp.isLE_trans

theorem of_key [Ord κ] [Std.TransOrd κ] (s : Set α) (key : α → κ) :
    PreorderOn s fun a b => compare (key a) (key b) :=
  (of_ord Set.univ).comap key (fun _ _ => trivial) (fun _ _ _ _ => rfl)

theorem of_subsingleton (h : ∀ a ∈ s, ∀ b ∈ s, c a b = .eq) : PreorderOn s c where
  swap a ha b hb := by rw [h a ha b hb, h b hb a ha]; rfl
  trans a ha b hb d hd := by rw [h a ha d hd]; simp

/-- Ties are interchangeable on the left. -/
theorem eq_left (h : PreorderOn s c) {a b e : α} (ha : a ∈ s) (hb : b ∈ s) (he : e ∈ s)
    (hab : c a b = .eq) : c a e = c b e := by
  have hba : c b a = .eq := by rw [h.swap a ha b hb, hab]; rfl
  have hle : (c a e).isLE ↔ (c b e).isLE :=
    ⟨h.trans b hb a ha e he (by simp [hba]), h.trans a ha b hb e he (by simp [hab])⟩
  have hge : (c e a).isLE ↔ (c e b).isLE :=
    ⟨fun hea => h.trans e he a ha b hb hea (by simp [hab]),
      fun heb => h.trans e he b hb a ha heb (by simp [hba])⟩
  rw [h.swap a ha e he, h.swap b hb e he] at hge
  cases hae : c a e <;> cases hbe : c b e <;> simp_all

theorem eq_right (h : PreorderOn s c) {a b e : α} (ha : a ∈ s) (hb : b ∈ s) (he : e ∈ s)
    (hab : c a b = .eq) : c e a = c e b := by
  rw [h.swap a ha e he, h.swap b hb e he, h.eq_left ha hb he hab]

/-- Breaking the ties of `c` by `d`. -/
theorem andThen (hc : PreorderOn s c) (hd : ∀ a ∈ s, PreorderOn {b ∈ s | c a b = .eq} d) :
    PreorderOn s (fun a b => (c a b).then (d a b)) where
  swap a ha b hb := by
    have hswap := hc.swap a ha b hb
    cases hab : c a b with
    | eq =>
      have hdab := (hd a ha).swap a ⟨ha, hc.refl ha⟩ b ⟨hb, hab⟩
      simp [hswap, hab, hdab]
    | lt => simp [hswap, hab]
    | gt => simp [hswap, hab]
  trans a ha b hb e he := by
    simp only [Ordering.isLE_then_iff_or]
    intro hab hbe
    have hac : (c a e).isLE :=
      hc.trans a ha b hb e he (by rcases hab with h | ⟨h, -⟩ <;> simp [h])
        (by rcases hbe with h | ⟨h, -⟩ <;> simp [h])
    cases hae : c a e with
    | lt => exact .inl rfl
    | gt => simp [hae] at hac
    | eq =>
      -- a strict step on either side would make the two ends differ
      have hcab : c a b = .eq := by
        rcases hab with h | ⟨h, -⟩
        · have hle : (c e b).isLE := by rw [← hc.eq_left ha he hb hae, h]; rfl
          rcases hbe with hbe | ⟨hbe, -⟩ <;> simp [hc.swap b hb e he, hbe] at hle
          have heq := hc.eq_right hb he ha hbe
          rw [h, hae] at heq
          cases heq
        · exact h
      have hcbe : c b e = .eq := by rw [← hc.eq_left ha hb he hcab, hae]
      refine .inr ⟨rfl, (hd a ha).trans a ⟨ha, hc.refl ha⟩ b ⟨hb, hcab⟩ e ⟨he, hae⟩ ?_ ?_⟩
      · simpa [hcab] using hab
      · simpa [hcbe] using hbe

/-- Two comparisons that keep the laws, one after the other. -/
theorem thenBy (hc : PreorderOn s c) (hd : PreorderOn s d) :
    PreorderOn s (fun a b => (c a b).then (d a b)) :=
  hc.andThen fun _ _ => hd.mono fun _ hb => hb.1

/-- Compare a key first: the rest has to keep the laws for each value of the key. -/
theorem byKey [Ord κ] [Std.TransOrd κ] [Std.LawfulEqOrd κ] (key : α → κ)
    (hd : ∀ k, PreorderOn {a ∈ s | key a = k} d) :
    PreorderOn s (fun a b => (compare (key a) (key b)).then (d a b)) := by
  refine (of_key s key).andThen fun a _ => (hd (key a)).mono ?_
  rintro b ⟨hb, hab⟩
  exact ⟨hb, (Std.LawfulEqOrd.eq_of_compare hab).symm⟩

end PreorderOn

/-! ## Lists walked in step -/

/-- First difference of two lists, up to the end of the shorter one. -/
def zipLex (c : α → α → Ordering) : List α → List α → Ordering
  | a :: as, b :: bs => (c a b).then (zipLex c as bs)
  | _, _ => .eq

theorem zipLex_congr {c c' : α → α → Ordering} {xs ys : List α}
    (h : ∀ a ∈ xs, ∀ b ∈ ys, c a b = c' a b) : zipLex c xs ys = zipLex c' xs ys := by
  induction xs generalizing ys with
  | nil => simp [zipLex]
  | cons a as ih =>
    cases ys with
    | nil => simp [zipLex]
    | cons b bs =>
      rw [zipLex, zipLex, h a (by simp) b (by simp),
        ih fun x hx y hy => h x (by simp [hx]) y (by simp [hy])]

theorem zipLex_eq_iff {c : α → α → Ordering} {xs ys : List α} (hlen : xs.length = ys.length) :
    zipLex c xs ys = .eq ↔ List.Forall₂ (fun a b => c a b = .eq) xs ys := by
  induction xs generalizing ys with
  | nil =>
    cases ys with
    | nil => simp [zipLex]
    | cons b bs => simp at hlen
  | cons a as ih =>
    cases ys with
    | nil => simp at hlen
    | cons b bs => simp [zipLex, Ordering.then_eq_eq, ih (by simpa using hlen)]

theorem PreorderOn.zipLex {s : Set α} {c : α → α → Ordering} (h : PreorderOn s c) (n : ℕ) :
    PreorderOn {xs : List α | (∀ a ∈ xs, a ∈ s) ∧ xs.length = n} (zipLex c) := by
  induction n with
  | zero =>
    refine of_subsingleton ?_
    rintro xs ⟨-, hx⟩ ys -
    rw [List.length_eq_zero_iff.mp hx]
    simp [Comparison.zipLex]
  | succ n ih =>
    have hd := (h.comap (c := fun x y : α × List α => c x.1 y.1)
      (s := {x | x.1 ∈ s ∧ x.2 ∈ {xs : List α | (∀ a ∈ xs, a ∈ s) ∧ xs.length = n}})
      Prod.fst (fun x hx => hx.1) (fun _ _ _ _ => rfl)).thenBy
        (ih.comap Prod.snd (fun x hx => hx.2) (fun _ _ _ _ => rfl))
    refine ⟨?_, ?_⟩
    · rintro (_ | ⟨a, as⟩) ⟨ha, hla⟩ (_ | ⟨b, bs⟩) ⟨hb, hlb⟩ <;> simp at hla hlb
      exact hd.swap (a, as) ⟨ha a (by simp), fun x hx => ha x (by simp [hx]), hla⟩
        (b, bs) ⟨hb b (by simp), fun x hx => hb x (by simp [hx]), hlb⟩
    · rintro (_ | ⟨a, as⟩) ⟨ha, hla⟩ (_ | ⟨b, bs⟩) ⟨hb, hlb⟩ (_ | ⟨e, es⟩) ⟨he, hle⟩ <;>
        simp at hla hlb hle
      exact hd.trans (a, as) ⟨ha a (by simp), fun x hx => ha x (by simp [hx]), hla⟩
        (b, bs) ⟨hb b (by simp), fun x hx => hb x (by simp [hx]), hlb⟩
        (e, es) ⟨he e (by simp), fun x hx => he x (by simp [hx]), hle⟩

/-- Lengths first, then element by element. -/
def lengthLex (c : α → α → Ordering) (xs ys : List α) : Ordering :=
  (compare xs.length ys.length).then (zipLex c xs ys)

theorem PreorderOn.lengthLex {s : Set α} {c : α → α → Ordering} (h : PreorderOn s c) :
    PreorderOn {xs : List α | ∀ a ∈ xs, a ∈ s} (lengthLex c) :=
  byKey List.length fun n => h.zipLex n

theorem lengthLex_congr {c c' : α → α → Ordering} {xs ys : List α}
    (h : ∀ a ∈ xs, ∀ b ∈ ys, c a b = c' a b) : lengthLex c xs ys = lengthLex c' xs ys := by
  rw [lengthLex, lengthLex, zipLex_congr h]

theorem lengthLex_eq_iff {c : α → α → Ordering} {xs ys : List α} :
    lengthLex c xs ys = .eq ↔ List.Forall₂ (fun a b => c a b = .eq) xs ys := by
  rw [lengthLex, Ordering.then_eq_eq]
  constructor
  · rintro ⟨hlen, hlex⟩
    exact (zipLex_eq_iff (Std.LawfulEqOrd.eq_of_compare hlen)).mp hlex
  · intro h
    exact ⟨by rw [h.length_eq]; exact Std.ReflOrd.compare_self, (zipLex_eq_iff h.length_eq).mpr h⟩

/-! ## Stable sort -/

/-- Stable sort by a comparison. -/
def sortBy (c : α → α → Ordering) (xs : List α) : List α :=
  xs.insertionSort fun a b => (c a b).isLE

@[simp] theorem sortBy_nil (c : α → α → Ordering) : sortBy c [] = [] := rfl

theorem sortBy_cons (c : α → α → Ordering) (a : α) (xs : List α) :
    sortBy c (a :: xs) = (sortBy c xs).orderedInsert (fun a b => (c a b).isLE) a := rfl

theorem perm_sortBy (c : α → α → Ordering) (xs : List α) : (sortBy c xs).Perm xs :=
  List.perm_insertionSort _ xs

theorem mem_sortBy {c : α → α → Ordering} {xs : List α} {a : α} : a ∈ sortBy c xs ↔ a ∈ xs :=
  (perm_sortBy c xs).mem_iff

theorem pairwise_sortBy {c : α → α → Ordering} (h : PreorderOn Set.univ c) (xs : List α) :
    (sortBy c xs).Pairwise fun a b => (c a b).isLE := by
  have htotal : Std.Total fun a b => (c a b).isLE = true := by
    refine ⟨fun a b => ?_⟩
    rw [h.swap a trivial b trivial]
    cases c a b <;> simp
  have htrans : IsTrans α fun a b => (c a b).isLE = true :=
    ⟨fun a b d => h.trans a trivial b trivial d trivial⟩
  exact List.pairwise_insertionSort _ xs

theorem sortBy_map (c : β → β → Ordering) (f : α → β) (xs : List α) :
    sortBy c (xs.map f) = (sortBy (fun a b => c (f a) (f b)) xs).map f :=
  (List.map_insertionSort _ _ f xs fun _ _ _ _ => Iff.rfl).symm

theorem pairwise_sortBy_of_mem {s : Set α} {c : α → α → Ordering} (h : PreorderOn s c)
    {xs : List α} (hxs : ∀ x ∈ xs, x ∈ s) : (sortBy c xs).Pairwise fun a b => (c a b).isLE := by
  lift xs to List s using hxs
  have hlaws : PreorderOn Set.univ fun a b : s => c a b :=
    h.comap Subtype.val (fun a _ => a.2) fun _ _ _ _ => rfl
  rw [sortBy_map, List.pairwise_map]
  exact pairwise_sortBy hlaws xs

/-- Two orders with the same ties that both sort a list one way agree on its elements. -/
theorem eq_of_pairwise_isLE {s : Set α} {c d : α → α → Ordering} (hc : PreorderOn s c)
    (hd : PreorderOn s d) (htie : ∀ a ∈ s, ∀ b ∈ s, c a b = .eq ↔ d a b = .eq) {xs : List α}
    (hxs : ∀ x ∈ xs, x ∈ s) (hcs : xs.Pairwise fun a b => (c a b).isLE)
    (hds : xs.Pairwise fun a b => (d a b).isLE) : ∀ a ∈ xs, ∀ b ∈ xs, c a b = d a b := by
  induction xs with
  | nil => exact fun a ha => absurd ha List.not_mem_nil
  | cons x xs ih =>
    obtain ⟨hcx, hcs⟩ := List.pairwise_cons.mp hcs
    obtain ⟨hdx, hds⟩ := List.pairwise_cons.mp hds
    have hx : x ∈ s := hxs x List.mem_cons_self
    have hrest : ∀ y ∈ xs, y ∈ s := fun y hy => hxs y (List.mem_cons_of_mem _ hy)
    have hhead : ∀ y ∈ xs, c x y = d x y := by
      intro y hy
      have hxy := htie x hx y (hrest y hy)
      have hcy := hcx y hy
      have hdy := hdx y hy
      cases hcc : c x y <;> cases hdd : d x y <;> simp_all
    intro a ha b hb
    rcases List.mem_cons.mp ha with rfl | ha'
    · rcases List.mem_cons.mp hb with rfl | hb'
      · rw [hc.refl hx, hd.refl hx]
      · exact hhead b hb'
    · rcases List.mem_cons.mp hb with rfl | hb'
      · rw [hc.swap b hx a (hrest a ha'), hd.swap b hx a (hrest a ha'), hhead a ha']
      · exact ih hrest hcs hds a ha' b hb'

/-- Sorted elements that do not tie are strictly ascending. -/
theorem pairwise_lt_sortBy {c : α → α → Ordering} (h : PreorderOn Set.univ c) {xs : List α}
    (hne : xs.Pairwise fun a b => c a b ≠ .eq) : (sortBy c xs).Pairwise fun a b => c a b = .lt := by
  have hne' : (sortBy c xs).Pairwise fun a b => c a b ≠ .eq := by
    refine (perm_sortBy c xs).symm.pairwise hne fun {a b} hab => ?_
    rw [h.swap a trivial b trivial]
    cases hc : c a b <;> simp_all
  refine (hne'.and (pairwise_sortBy h xs)).imp fun {a b} hab => ?_
  cases hc : c a b <;> simp_all

/-- In a strictly ascending list a key ties with at most one place. -/
theorem existsUnique_tie {c : α → α → Ordering} (h : PreorderOn Set.univ c) {xs : List α}
    (hlt : xs.Pairwise fun a b => c a b = .lt) {key : α} (hkey : ∃ x ∈ xs, c x key = .eq) :
    ∃! i : Fin xs.length, c (xs.get i) key = .eq := by
  obtain ⟨x, hx, hxk⟩ := hkey
  obtain ⟨i, rfl⟩ := List.mem_iff_get.mp hx
  refine ⟨i, hxk, fun j hj => ?_⟩
  have hji : c (xs.get j) (xs.get i) = .eq := by
    rw [h.eq_right (b := key) trivial trivial trivial hxk]
    exact hj
  have hij : c (xs.get i) (xs.get j) = .eq := by
    rw [h.swap _ trivial _ trivial, hji]
    rfl
  rcases lt_trichotomy i j with hlt' | heq | hgt
  · have := List.pairwise_iff_get.mp hlt i j hlt'
    rw [hij] at this
    cases this
  · exact heq.symm
  · have := List.pairwise_iff_get.mp hlt j i hgt
    rw [hji] at this
    cases this

/-- Inserting respects a relation under which the comparison cannot tell elements apart. -/
theorem forall₂_orderedInsert {R : α → β → Prop} {c : α → α → Ordering} {d : β → β → Ordering}
    {a : α} {b : β} {xs : List α} {ys : List β} (hab : R a b) (hxy : List.Forall₂ R xs ys)
    (hcd : ∀ x ∈ xs, ∀ y, R x y → c a x = d b y) :
    List.Forall₂ R (xs.orderedInsert (fun a b => (c a b).isLE) a)
      (ys.orderedInsert (fun a b => (d a b).isLE) b) := by
  induction hxy with
  | nil => simpa using hab
  | @cons x y xs ys hx hxs ih =>
    have hc := hcd x (by simp) y hx
    simp only [List.orderedInsert_cons, hc]
    split
    · exact .cons hab (.cons hx hxs)
    · exact .cons hx (ih fun x hx => hcd x (by simp [hx]))

theorem forall₂_sortBy {R : α → β → Prop} {c : α → α → Ordering} {d : β → β → Ordering}
    {xs : List α} {ys : List β} (hxy : List.Forall₂ R xs ys)
    (hcd : ∀ a ∈ xs, ∀ b, R a b → ∀ a' ∈ xs, ∀ b', R a' b' → c a a' = d b b') :
    List.Forall₂ R (sortBy c xs) (sortBy d ys) := by
  induction hxy with
  | nil => simp
  | @cons a b xs ys hab hxs ih =>
    rw [sortBy_cons, sortBy_cons]
    refine forall₂_orderedInsert hab (ih ?_) ?_
    · intro x hx y hxy x' hx'
      exact hcd x (by simp [hx]) y hxy x' (by simp [hx'])
    · intro x hx y hxy
      exact hcd a (by simp) b hab x (by simp [mem_sortBy.mp hx]) y hxy

theorem sortBy_congr {c c' : α → α → Ordering} {xs : List α}
    (h : ∀ a ∈ xs, ∀ b ∈ xs, c a b = c' a b) : sortBy c xs = sortBy c' xs := by
  have hrel : List.Forall₂ (fun a b => a = b ∧ b ∈ xs) xs xs :=
    List.forall₂_same.mpr fun a ha => ⟨rfl, ha⟩
  have hsort := forall₂_sortBy (c := c) (d := c') hrel (by
    rintro a ha _ ⟨rfl, -⟩ a' ha' _ ⟨rfl, -⟩
    exact h a ha a' ha')
  exact List.forall₂_eq_eq_eq.le _ _ (hsort.imp fun _ _ hab => hab.1)

/-- Elements that do not tie can be inserted in either order. -/
theorem orderedInsert_comm {s : Set α} {c : α → α → Ordering} (h : PreorderOn s c) {a b : α}
    (ha : a ∈ s) (hb : b ∈ s) (hab : c a b = .lt) {xs : List α} (hxs : ∀ x ∈ xs, x ∈ s) :
    (xs.orderedInsert (fun a b => (c a b).isLE) a).orderedInsert (fun a b => (c a b).isLE) b =
      (xs.orderedInsert (fun a b => (c a b).isLE) b).orderedInsert (fun a b => (c a b).isLE) a := by
  have hba : c b a = .gt := by rw [h.swap a ha b hb, hab]; rfl
  induction xs with
  | nil => simp [hab, hba]
  | cons x xs ih =>
    have hx := hxs x (by simp)
    have ih := ih fun y hy => hxs y (by simp [hy])
    by_cases hax : (c a x).isLE
    · by_cases hbx : (c b x).isLE
      · simp [hax, hbx, hab, hba]
      · simp [hax, hbx, hba]
    · have hbx : ¬ (c b x).isLE := fun hbx => hax (h.trans a ha b hb x hx (by simp [hab]) hbx)
      simp [hax, hbx, ih]

theorem sortBy_pair_comm {s : Set α} {c : α → α → Ordering} (h : PreorderOn s c) {a b : α}
    (ha : a ∈ s) (hb : b ∈ s) (hab : c a b ≠ .eq) : sortBy c [a, b] = sortBy c [b, a] := by
  cases hc : c a b with
  | lt => exact (orderedInsert_comm h ha hb hc (by simp)).symm
  | gt =>
    have hba : c b a = .lt := by rw [h.swap a ha b hb, hc]; rfl
    exact orderedInsert_comm h hb ha hba (by simp)
  | eq => exact absurd hc hab

theorem sortBy_orderedInsert {s : Set α} {c d : α → α → Ordering} (hc : PreorderOn s c)
    (htie : ∀ a ∈ s, ∀ b ∈ s, c a b = .eq → d a b = .eq) {a : α}
    (ha : a ∈ s) {xs : List α} (hxs : ∀ x ∈ xs, x ∈ s) :
    sortBy c (xs.orderedInsert (fun a b => (d a b).isLE) a) = sortBy c (a :: xs) := by
  induction xs with
  | nil => rfl
  | cons x xs ih =>
    have hx := hxs x (by simp)
    have hrest : ∀ y ∈ xs, y ∈ s := fun y hy => hxs y (by simp [hy])
    by_cases hax : (d a x).isLE
    · simp [hax]
    · have hsorted : ∀ y ∈ sortBy c xs, y ∈ s := fun y hy => hrest y (mem_sortBy.mp hy)
      rw [List.orderedInsert_cons, if_neg hax, sortBy_cons, ih hrest, sortBy_cons, sortBy_cons,
        sortBy_cons]
      cases hcax : c a x with
      | lt => exact orderedInsert_comm hc ha hx hcax hsorted
      | gt =>
        have hcxa : c x a = .lt := by rw [hc.swap a ha x hx, hcax]; rfl
        exact (orderedInsert_comm hc hx ha hcxa hsorted).symm
      | eq => simp [htie a ha x hx hcax] at hax

/-- Sorting by a comparison with more ties first changes nothing for one with fewer. -/
theorem sortBy_sortBy {s : Set α} {c d : α → α → Ordering} (hc : PreorderOn s c)
    (htie : ∀ a ∈ s, ∀ b ∈ s, c a b = .eq → d a b = .eq) {xs : List α} (hxs : ∀ x ∈ xs, x ∈ s) : sortBy c (sortBy d xs) = sortBy c xs := by
  induction xs with
  | nil => rfl
  | cons a xs ih =>
    have hrest : ∀ y ∈ xs, y ∈ s := fun y hy => hxs y (by simp [hy])
    have hsorted : ∀ y ∈ sortBy d xs, y ∈ s := fun y hy => hrest y (mem_sortBy.mp hy)
    rw [sortBy_cons, sortBy_orderedInsert hc htie (hxs a (by simp)) hsorted, sortBy_cons,
      sortBy_cons, ih hrest]

/-! ## Induction on a depth -/

/-- The laws pass from smaller depths to the next, so they hold at every depth. -/
theorem PreorderOn.of_depth {s : Set α} {c : α → α → Ordering} (depth : α → ℕ)
    (h : ∀ n, PreorderOn {a ∈ s | depth a < n} c → PreorderOn {a ∈ s | depth a < n + 1} c) :
    PreorderOn s c := by
  have hall : ∀ n, PreorderOn {a ∈ s | depth a < n} c := by
    intro n
    induction n with
    | zero => exact of_subsingleton fun a ha => absurd ha.2 (Nat.not_lt_zero _)
    | succ n ih => exact h n ih
  refine ⟨fun a ha b hb => ?_, fun a ha b hb e he => ?_⟩
  · exact (hall (max (depth a) (depth b) + 1)).swap a ⟨ha, by omega⟩ b ⟨hb, by omega⟩
  · exact (hall (max (depth a) (max (depth b) (depth e)) + 1)).trans a ⟨ha, by omega⟩
      b ⟨hb, by omega⟩ e ⟨he, by omega⟩

end Comparison
