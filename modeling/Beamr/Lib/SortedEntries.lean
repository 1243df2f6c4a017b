import Beamr.Lib.Comparison
import Beamr.Lib.Entries
import Mathlib.Data.List.Destutter

/-!
# Ordered maps as sorted lists of entries

The entries of a search tree in the order of its keys. Keys that tie are one key. Everything is
stated for a comparison that is a preorder on the keys in use.
-/
namespace SortedEntries

open Comparison Entries

variable {K V : Type*} (c : K → K → Ordering)

/-- The key test of the map. -/
def tied (a b : K) : Bool := c a b == .eq

/-- Insertion: a key that is there stays and takes the new value. -/
def place (key : K) (value : V) : List (K × V) → List (K × V)
  | [] => [(key, value)]
  | e :: rest =>
    match c key e.1 with
    | .lt => (key, value) :: e :: rest
    | .eq => (e.1, value) :: rest
    | .gt => e :: place key value rest

def Sorted (entries : List (K × V)) : Prop :=
  entries.Pairwise fun a b => c a.1 b.1 = .lt

/-- The first key after the cursor, which need not be there. -/
def after (cursor : K) (keys : List K) : Option K := keys.find? fun k => c cursor k == .lt

/-- The last key before the cursor. -/
def before (cursor : K) (keys : List K) : Option K :=
  (keys.filter fun k => c k cursor == .lt).getLast?

/-- Search of a sorted slice: the place of a match, or the place where one would go. -/
def binarySearchBy (f : K → Ordering) (keys : List K) : Except ℕ ℕ :=
  let index := keys.findIdx fun k => f k != .lt
  if keys[index]?.any fun k => f k == .eq then .ok index else .error index

section Laws

variable {c} {s : Set K}

theorem tied_iff {a b : K} : tied c a b = true ↔ c a b = .eq := by simp [tied]

theorem tied_sameOn (h : PreorderOn s c) : SameOn s (tied c) where
  refl a ha := tied_iff.mpr (h.refl ha)
  symm a ha b hb hab := by
    rw [tied_iff] at hab ⊢
    rw [h.swap b hb a ha] at hab
    cases hba : c b a <;> simp_all
  trans a ha b hb d hd hab hbd := by
    rw [tied_iff] at hab hbd ⊢
    rw [h.eq_left ha hb hd hab, hbd]

theorem gt_iff (h : PreorderOn s c) {a b : K} (ha : a ∈ s) (hb : b ∈ s) :
    c a b = .gt ↔ c b a = .lt := by
  rw [h.swap a ha b hb]
  cases c a b <;> simp

theorem lt_trans (h : PreorderOn s c) {a b d : K} (ha : a ∈ s) (hb : b ∈ s) (hd : d ∈ s)
    (hab : c a b = .lt) (hbd : c b d = .lt) : c a d = .lt := by
  have hle := h.trans a ha b hb d hd (by simp [hab]) (by simp [hbd])
  cases had : c a d with
  | lt => rfl
  | eq =>
    have hback := h.swap b hb d hd
    rw [← h.eq_left ha hd hb had, hab, hbd] at hback
    cases hback
  | gt => simp [had] at hle

theorem lt_of_lt_of_le (h : PreorderOn s c) {a b d : K} (ha : a ∈ s) (hb : b ∈ s) (hd : d ∈ s)
    (hab : c a b = .lt) (hbd : (c b d).isLE) : c a d = .lt := by
  cases hc : c b d with
  | lt => exact lt_trans h ha hb hd hab hc
  | eq => rw [← h.eq_right hb hd ha hc, hab]
  | gt => simp [hc] at hbd

variable {entries : List (K × V)} {key : K} {value : V}

theorem mem_place {e : K × V} (he : e ∈ place c key value entries) :
    e = (key, value) ∨ e ∈ entries ∨ ∃ x ∈ entries, c key x.1 = .eq ∧ e = (x.1, value) := by
  induction entries with
  | nil => exact .inl (List.mem_singleton.mp he)
  | cons first rest ih =>
    rw [place] at he
    split at he
    · rcases List.mem_cons.mp he with rfl | he
      · exact .inl rfl
      · exact .inr (.inl he)
    next heq =>
      rcases List.mem_cons.mp he with rfl | he
      · exact .inr (.inr ⟨first, List.mem_cons_self .., heq, rfl⟩)
      · exact .inr (.inl (List.mem_cons_of_mem _ he))
    · rcases List.mem_cons.mp he with rfl | he
      · exact .inr (.inl (List.mem_cons_self ..))
      · rcases ih he with hnew | hold | ⟨x, hx, hxe⟩
        · exact .inl hnew
        · exact .inr (.inl (List.mem_cons_of_mem _ hold))
        · exact .inr (.inr ⟨x, List.mem_cons_of_mem _ hx, hxe⟩)

theorem place_over (hover : Over s entries) (hkey : key ∈ s) :
    Over s (place c key value entries) := by
  intro e he
  rcases mem_place he with rfl | hold | ⟨x, hx, -, rfl⟩
  · exact hkey
  · exact hover e hold
  · exact hover x hx

theorem Sorted.place (h : PreorderOn s c) (hsorted : Sorted c entries) (hover : Over s entries)
    (hkey : key ∈ s) : Sorted c (place c key value entries) := by
  induction entries with
  | nil => exact List.pairwise_singleton _ _
  | cons first rest ih =>
    obtain ⟨hfirst, hrest⟩ := List.pairwise_cons.mp hsorted
    have hfirstIn : first.1 ∈ s := hover first (List.mem_cons_self ..)
    have hin : ∀ e ∈ rest, e.1 ∈ s := fun e he => hover e (List.mem_cons_of_mem _ he)
    rw [SortedEntries.place]
    split
    next hlt =>
      refine List.pairwise_cons.mpr ⟨fun e he => ?_, hsorted⟩
      rcases List.mem_cons.mp he with rfl | he
      · exact hlt
      · exact lt_trans h hkey hfirstIn (hin e he) hlt (hfirst e he)
    next => exact List.pairwise_cons.mpr ⟨hfirst, hrest⟩
    next hgt =>
      refine List.pairwise_cons.mpr ⟨fun e he => ?_, ih hrest hin⟩
      rcases mem_place he with rfl | hold | ⟨x, hx, -, rfl⟩
      · exact (gt_iff h hkey hfirstIn).mp hgt
      · exact hfirst e hold
      · exact hfirst x hx

theorem get_place (h : PreorderOn s c) (hsorted : Sorted c entries) (hover : Over s entries)
    (hkey : key ∈ s) {key' : K} (hkey' : key' ∈ s) :
    get (tied c) (place c key value entries) key' =
      if tied c key key' then some value else get (tied c) entries key' := by
  induction entries with
  | nil => simp [place, get_cons]
  | cons first rest ih =>
    obtain ⟨hfirst, hrest⟩ := List.pairwise_cons.mp hsorted
    have hfirstIn : first.1 ∈ s := hover first (List.mem_cons_self ..)
    have hin : ∀ e ∈ rest, e.1 ∈ s := fun e he => hover e (List.mem_cons_of_mem _ he)
    rw [place]
    split
    next => rw [get_cons]
    next heq =>
      rw [get_cons, get_cons, tied, tied, h.eq_left hkey hfirstIn hkey' heq]
      split <;> rfl
    next hgt =>
      rw [get_cons, get_cons, ih hrest hin]
      by_cases hsame : tied c first.1 key' = true
      · have hne : tied c key key' ≠ true := by
          intro hkeys
          rw [tied_iff] at hsame hkeys
          rw [h.eq_left hkey hkey' hfirstIn hkeys, h.swap _ hfirstIn _ hkey', hsame] at hgt
          cases hgt
        simp [hsame, hne]
      · simp [hsame]

theorem Sorted.erase (hsorted : Sorted c entries) : Sorted c (erase (tied c) key entries) :=
  hsorted.filter _

theorem Sorted.distinct (hsorted : Sorted c entries) : Distinct (tied c) entries :=
  hsorted.imp fun hlt => by simp [tied, hlt]

end Laws

/-! ## Neighbours in a sorted list of keys -/

section Neighbours

variable {c} {s : Set K} {keys : List K} {cursor : K}

/-- The keys before, at and after a cursor. -/
structure Cut (c : K → K → Ordering) (cursor : K) (low mid high : List K) : Prop where
  low : ∀ k ∈ low, c k cursor = .lt ∧ c cursor k = .gt
  here : ∀ k ∈ mid, c k cursor = .eq ∧ c cursor k = .eq
  high : ∀ k ∈ high, c k cursor = .gt ∧ c cursor k = .lt

theorem exists_cut (h : PreorderOn s c) (hsorted : keys.Pairwise fun a b => c a b = .lt)
    (hin : ∀ k ∈ keys, k ∈ s) (hcursor : cursor ∈ s) :
    ∃ low mid high, keys = low ++ mid ++ high ∧ mid.length ≤ 1 ∧ Cut c cursor low mid high := by
  have hback : ∀ k ∈ keys, ∀ o, c k cursor = o → c cursor k = o.swap := by
    rintro k hk _ rfl
    exact h.swap k (hin k hk) cursor hcursor
  induction keys with
  | nil => exact ⟨[], [], [], rfl, by simp, nofun, nofun, nofun⟩
  | cons first rest ih =>
    obtain ⟨hfirst, hrest⟩ := List.pairwise_cons.mp hsorted
    obtain ⟨hfirstIn, hrestIn⟩ := List.forall_mem_cons.mp hin
    obtain ⟨hfirstBack, hrestBack⟩ := List.forall_mem_cons.mp hback
    have hhigh : (c first cursor).isGE → ∀ k ∈ rest, c k cursor = .gt ∧ c cursor k = .lt := by
      intro hge k hk
      have hlt : c cursor k = .lt := by
        cases hc : c first cursor with
        | lt => simp [hc] at hge
        | eq => rw [← h.eq_left hfirstIn hcursor (hrestIn k hk) hc, hfirst k hk]
        | gt =>
          exact lt_trans h hcursor hfirstIn (hrestIn k hk) (hfirstBack _ hc) (hfirst k hk)
      exact ⟨(gt_iff h (hrestIn k hk) hcursor).mpr hlt, hlt⟩
    cases hc : c first cursor with
    | lt =>
      obtain ⟨low, mid, high, rfl, hat, hcut⟩ := ih hrest hrestIn hrestBack
      refine ⟨first :: low, mid, high, rfl, hat, ?_, hcut.here, hcut.high⟩
      exact List.forall_mem_cons.mpr ⟨⟨hc, hfirstBack _ hc⟩, hcut.low⟩
    | eq =>
      refine ⟨[], [first], rest, rfl, by simp, nofun, ?_, hhigh (by simp [hc])⟩
      simpa using ⟨hc, hfirstBack _ hc⟩
    | gt =>
      refine ⟨[], [], first :: rest, rfl, by simp, nofun, nofun, ?_⟩
      exact List.forall_mem_cons.mpr ⟨⟨hc, hfirstBack _ hc⟩, hhigh (by simp [hc])⟩

namespace Cut

variable {low mid high : List K}

theorem after_eq (h : Cut c cursor low mid high) :
    after c cursor (low ++ mid ++ high) = high.head? := by
  have hlow : low.find? (fun k => c cursor k == .lt) = none := by
    rw [List.find?_eq_none]
    intro k hk
    simp [(h.low k hk).2]
  have hat : mid.find? (fun k => c cursor k == .lt) = none := by
    rw [List.find?_eq_none]
    intro k hk
    simp [(h.here k hk).2]
  rw [after, List.find?_append, List.find?_append, hlow, hat]
  cases high with
  | nil => rfl
  | cons k rest => simp [(h.high k (List.mem_cons_self ..)).2]

theorem before_eq (h : Cut c cursor low mid high) :
    before c cursor (low ++ mid ++ high) = low.getLast? := by
  have hlow : low.filter (fun k => c k cursor == .lt) = low := by
    rw [List.filter_eq_self]
    intro k hk
    simp [(h.low k hk).1]
  have hat : mid.filter (fun k => c k cursor == .lt) = [] := by
    rw [List.filter_eq_nil_iff]
    intro k hk
    simp [(h.here k hk).1]
  have hhigh : high.filter (fun k => c k cursor == .lt) = [] := by
    rw [List.filter_eq_nil_iff]
    intro k hk
    simp [(h.high k hk).1]
  rw [before, List.filter_append, List.filter_append, hlow, hat, hhigh, List.append_nil,
    List.append_nil]

theorem binarySearchBy_eq (h : Cut c cursor low mid high) :
    binarySearchBy (fun k => c k cursor) (low ++ mid ++ high) =
      if mid = [] then .error low.length else .ok low.length := by
  have hlow : low.findIdx (fun k => c k cursor != .lt) = low.length :=
    List.findIdx_eq_length_of_false fun k hk => by simp [(h.low k hk).1]
  have hrest : (mid ++ high).findIdx (fun k => c k cursor != .lt) = 0 := by
    cases hmid : mid ++ high with
    | nil => rfl
    | cons k rest =>
      have hk : c k cursor ≠ .lt := by
        rcases List.mem_append.mp (hmid ▸ List.mem_cons_self : k ∈ mid ++ high) with hk | hk
        · simp [(h.here k hk).1]
        · simp [(h.high k hk).1]
      rw [List.findIdx_cons, bne_iff_ne.mpr hk, cond_true]
  have hindex : (low ++ (mid ++ high)).findIdx (fun k => c k cursor != .lt) = low.length := by
    rw [List.findIdx_append, hlow, if_neg (Nat.lt_irrefl _), hrest, Nat.zero_add]
  rw [List.append_assoc, binarySearchBy, hindex, List.getElem?_append_right (Nat.le_refl _),
    Nat.sub_self]
  cases mid with
  | cons k rest => simp [(h.here k (List.mem_cons_self ..)).1]
  | nil =>
    cases high with
    | nil => rfl
    | cons k rest => simp [(h.high k (List.mem_cons_self ..)).1]

/-- A key that ties with the cursor is the one in the middle. -/
theorem index_eq (h : Cut c cursor low mid high) (hmid : mid.length ≤ 1) {i : ℕ} {k : K}
    (hk : (low ++ mid ++ high)[i]? = some k) (htie : c k cursor = .eq) :
    i = low.length ∧ mid = [k] := by
  rcases Nat.lt_or_ge i low.length with hlow | hlow
  · rw [List.append_assoc, List.getElem?_append_left hlow] at hk
    have hlt := (h.low k (List.mem_of_getElem? hk)).1
    rw [htie] at hlt
    cases hlt
  rw [List.append_assoc, List.getElem?_append_right hlow] at hk
  rcases Nat.lt_or_ge (i - low.length) mid.length with hin | hin
  · rw [List.getElem?_append_left hin] at hk
    obtain ⟨x, rfl⟩ := List.length_eq_one_iff.mp (by omega : mid.length = 1)
    rw [List.length_singleton] at hin
    have hi : i - low.length = 0 := by omega
    rw [hi] at hk
    exact ⟨by omega, by simpa using hk⟩
  · rw [List.getElem?_append_right hin] at hk
    have hgt := (h.high k (List.mem_of_getElem? hk)).1
    rw [htie] at hgt
    cases hgt

end Cut

/-- From a key that is there the neighbours are the ones in the list. -/
theorem neighbours_of_tie (h : PreorderOn s c) (hsorted : keys.Pairwise fun a b => c a b = .lt)
    (hin : ∀ k ∈ keys, k ∈ s) (hcursor : cursor ∈ s) {i : ℕ} {k : K} (hk : keys[i]? = some k)
    (htie : c k cursor = .eq) :
    after c cursor keys = keys[i + 1]? ∧ before c cursor keys = (keys.take i).getLast? := by
  obtain ⟨low, mid, high, rfl, hmid, hcut⟩ := exists_cut h hsorted hin hcursor
  obtain ⟨rfl, rfl⟩ := hcut.index_eq hmid hk htie
  rw [hcut.after_eq, hcut.before_eq]
  constructor
  · rw [List.getElem?_append_right (by simp)]
    simp [List.head?_eq_getElem?]
  · simp

end Neighbours

/-! ## Sorting keys and dropping ties -/

section Ascending

variable {c} {s : Set K} {keys : List K}

/-- One key of each tie, ascending. -/
def ascending (c : K → K → Ordering) (keys : List K) : List K :=
  (sortBy c keys).destutter fun kept key => c key kept ≠ .eq

theorem mem_of_mem_ascending {k : K} (hk : k ∈ ascending c keys) : k ∈ keys :=
  mem_sortBy.mp ((List.destutter_sublist _ _).mem hk)

theorem pairwise_destutter' (h : PreorderOn s c) {a : K} (hin : ∀ k ∈ a :: keys, k ∈ s)
    (hsorted : (a :: keys).Pairwise fun a b => (c a b).isLE) :
    (keys.destutter' (fun kept key => c key kept ≠ .eq) a).Pairwise fun a b => c a b = .lt := by
  induction keys generalizing a with
  | nil => exact List.pairwise_singleton _ _
  | cons b rest ih =>
    obtain ⟨hfirst, hrest⟩ := List.pairwise_cons.mp hsorted
    obtain ⟨ha, hrestIn⟩ := List.forall_mem_cons.mp hin
    have hb : b ∈ s := hrestIn b (List.mem_cons_self ..)
    by_cases htie : c b a = .eq
    · rw [List.destutter'_cons_neg _ (by simp [htie])]
      refine ih (List.forall_mem_cons.mpr ⟨ha, fun k hk => ?_⟩)
        (List.pairwise_cons.mpr ⟨fun k hk => ?_, (List.pairwise_cons.mp hrest).2⟩)
      · exact hrestIn k (List.mem_cons_of_mem _ hk)
      · exact hfirst k (List.mem_cons_of_mem _ hk)
    · rw [List.destutter'_cons_pos _ htie]
      refine List.pairwise_cons.mpr ⟨fun k hk => ?_, ih hrestIn hrest⟩
      have hab : c a b = .lt := by
        have hle := hfirst b (List.mem_cons_self ..)
        rw [h.swap a ha b hb] at htie
        cases hc : c a b <;> simp_all
      rcases List.mem_cons.mp ((List.destutter'_sublist _ _ _).mem hk) with rfl | hk
      · exact hab
      · exact lt_of_lt_of_le h ha hb (hrestIn k (List.mem_cons_of_mem _ hk)) hab
          ((List.pairwise_cons.mp hrest).1 k hk)

theorem pairwise_ascending (h : PreorderOn s c) (hin : ∀ k ∈ keys, k ∈ s) :
    (ascending c keys).Pairwise fun a b => c a b = .lt := by
  have hsorted := pairwise_sortBy_of_mem h hin
  have hsortedIn : ∀ k ∈ sortBy c keys, k ∈ s := fun k hk => hin k (mem_sortBy.mp hk)
  rw [ascending]
  cases hsort : sortBy c keys with
  | nil => exact List.Pairwise.nil
  | cons a rest =>
    rw [hsort] at hsorted hsortedIn
    exact pairwise_destutter' h hsortedIn hsorted

theorem exists_mem_destutter' (h : PreorderOn s c) {a : K} (hin : ∀ k ∈ a :: keys, k ∈ s) :
    ∀ k ∈ a :: keys, ∃ kept ∈ keys.destutter' (fun kept key => c key kept ≠ .eq) a,
      c k kept = .eq := by
  induction keys generalizing a with
  | nil => simpa using h.refl (hin a (List.mem_cons_self ..))
  | cons b rest ih =>
    obtain ⟨ha, hrestIn⟩ := List.forall_mem_cons.mp hin
    intro k hk
    by_cases htie : c b a = .eq
    · rw [List.destutter'_cons_neg _ (by simp [htie])]
      have hrest := ih (a := a) (List.forall_mem_cons.mpr
        ⟨ha, fun k hk => hrestIn k (List.mem_cons_of_mem _ hk)⟩)
      rcases List.mem_cons.mp hk with rfl | hk
      · exact hrest k (List.mem_cons_self ..)
      rcases List.mem_cons.mp hk with rfl | hk
      · exact ⟨a, List.mem_destutter' _ _ _, htie⟩
      · exact hrest k (List.mem_cons_of_mem _ hk)
    · rw [List.destutter'_cons_pos _ htie]
      rcases List.mem_cons.mp hk with rfl | hk
      · exact ⟨k, List.mem_cons_self .., h.refl ha⟩
      · obtain ⟨kept, hkept, heq⟩ := ih hrestIn k hk
        exact ⟨kept, List.mem_cons_of_mem _ hkept, heq⟩

theorem exists_mem_ascending (h : PreorderOn s c) (hin : ∀ k ∈ keys, k ∈ s) {k : K}
    (hk : k ∈ keys) : ∃ kept ∈ ascending c keys, c k kept = .eq := by
  have hsortedIn : ∀ k ∈ sortBy c keys, k ∈ s := fun k hk => hin k (mem_sortBy.mp hk)
  have hk' := mem_sortBy (c := c).mpr hk
  rw [ascending]
  cases hsort : sortBy c keys with
  | nil => simp [hsort] at hk'
  | cons a rest =>
    rw [hsort] at hk' hsortedIn
    exact exists_mem_destutter' h hsortedIn k hk'

end Ascending

end SortedEntries
