import Mathlib.Tactic

/-!
# Bisection of a sorted list

Search that compares with the middle entry and goes on in the half below or above it. Where
several entries have the key, which one it finds is decided by the numbers of entries below,
at and above the key alone.
-/
namespace Beamr.Bisection

variable {α κ : Type} [LinearOrder κ]

/-- Compare with the middle entry, then search the half the key lies in. -/
def bisect (key : α → κ) (k : κ) (entries : List α) : Option α :=
  match h : entries[entries.length / 2]? with
  | none => none
  | some pivot =>
    if key pivot = k then some pivot
    else if k < key pivot then bisect key k (entries.take (entries.length / 2))
    else bisect key k (entries.drop (entries.length / 2 + 1))
termination_by entries.length
decreasing_by
  · have hlt := (List.getElem?_eq_some_iff.mp h).1
    rw [List.length_take]
    omega
  · have hlt := (List.getElem?_eq_some_iff.mp h).1
    rw [List.length_drop]
    omega

/-- The position, among `equal` entries with `below` before and `above` after them, of the one the
search meets first. -/
def landing (below equal above : ℕ) : ℕ :=
  let mid := (below + equal + above) / 2
  if equal = 0 then 0
  else if below + equal ≤ mid then landing below equal (mid - (below + equal))
  else if mid < below then landing (below - (mid + 1)) equal above
  else mid - below
termination_by below + equal + above

theorem landing_lt (below equal above : ℕ) (h : equal ≠ 0) : landing below equal above < equal := by
  fun_induction landing below equal above with
  | case1 => contradiction
  | case2 below above mid hne hleft ih => exact ih
  | case3 below above mid hne hleft hright ih => exact ih
  | case4 below above mid hne hleft hright => omega

theorem landing_zero (below above : ℕ) : landing below 0 above = 0 := by
  rw [landing]
  rfl

/-- A middle below the key leaves the upper half. -/
theorem landing_of_lt {below equal above : ℕ} (h : (below + equal + above) / 2 < below) :
    landing below equal above =
      landing (below - ((below + equal + above) / 2 + 1)) equal above := by
  rcases Nat.eq_zero_or_pos equal with rfl | hpos
  · rw [landing_zero, landing_zero]
  · rw [landing, if_neg hpos.ne', if_neg (by omega), if_pos h]

/-- A middle above the key leaves the lower half. -/
theorem landing_of_ge {below equal above : ℕ} (h : below + equal ≤ (below + equal + above) / 2) :
    landing below equal above =
      landing below equal ((below + equal + above) / 2 - (below + equal)) := by
  rcases Nat.eq_zero_or_pos equal with rfl | hpos
  · rw [landing_zero, landing_zero]
  · rw [landing, if_neg hpos.ne', if_pos h]

theorem landing_of_mem {below equal above : ℕ} (hle : below ≤ (below + equal + above) / 2)
    (hlt : (below + equal + above) / 2 < below + equal) :
    landing below equal above = (below + equal + above) / 2 - below := by
  rw [landing, if_neg (by omega), if_neg (by omega), if_neg (by omega)]

variable {key : α → κ} {k : κ}

theorem bisect_nil (key : α → κ) (k : κ) : bisect key k [] = none := by
  rw [bisect]
  rfl

/-- One step of the search. -/
theorem bisect_of_pivot {entries : List α} {pivot : α}
    (h : entries[entries.length / 2]? = some pivot) : bisect key k entries =
      if key pivot = k then some pivot
      else if k < key pivot then bisect key k (entries.take (entries.length / 2))
      else bisect key k (entries.drop (entries.length / 2 + 1)) := by
  rw [bisect]
  split
  · next hnone =>
    rw [hnone] at h
    cases h
  · next pivot' hpivot =>
    rw [hpivot] at h
    obtain rfl := Option.some.inj h
    rfl

/-- Entries below the key, entries at it, entries above it: the search finds the one of the middle
part it lands on. -/
theorem bisect_append {low equal high : List α} (hlow : ∀ a ∈ low, key a < k)
    (hequal : ∀ a ∈ equal, key a = k) (hhigh : ∀ a ∈ high, k < key a) :
    bisect key k (low ++ equal ++ high) =
      equal[landing low.length equal.length high.length]? := by
  induction hn : (low ++ equal ++ high).length using Nat.strong_induction_on
    generalizing low high with
  | _ n ih =>
    have hsum : low.length + equal.length + high.length = n := by
      rw [← hn, List.length_append, List.length_append]
    cases hpivot : (low ++ equal ++ high)[n / 2]? with
    | none =>
      -- only an empty list has no middle entry
      rw [List.getElem?_eq_none_iff, hn] at hpivot
      obtain rfl : low = [] := List.eq_nil_of_length_eq_zero (by omega)
      obtain rfl : equal = [] := List.eq_nil_of_length_eq_zero (by omega)
      obtain rfl : high = [] := List.eq_nil_of_length_eq_zero (by omega)
      exact bisect_nil key k
    | some pivot =>
      have hlt : n / 2 < n := by
        have := (List.getElem?_eq_some_iff.mp hpivot).1
        rwa [hn] at this
      have hstep : bisect key k (low ++ equal ++ high) = _ := bisect_of_pivot (hn ▸ hpivot)
      rw [hn] at hstep
      rw [hstep]
      rcases Nat.lt_or_ge (n / 2) low.length with hbelow | hbelow
      · -- the middle is below the key
        have hmem : pivot ∈ low := by
          rw [List.append_assoc, List.getElem?_append_left hbelow] at hpivot
          exact List.mem_of_getElem? hpivot
        have hdrop : (low ++ equal ++ high).drop (n / 2 + 1) =
            low.drop (n / 2 + 1) ++ equal ++ high := by
          rw [List.append_assoc, List.drop_append_of_le_length hbelow, List.append_assoc]
        have hlength : (low.drop (n / 2 + 1) ++ equal ++ high).length = n - (n / 2 + 1) := by
          rw [← hdrop, List.length_drop, hn]
        rw [if_neg (hlow pivot hmem).ne, if_neg (hlow pivot hmem).not_gt, hdrop,
          ih _ (by omega) (fun a ha => hlow a (List.mem_of_mem_drop ha)) hhigh hlength,
          List.length_drop, ← hsum, ← landing_of_lt (by omega)]
      rcases Nat.lt_or_ge (n / 2) (low.length + equal.length) with hat | habove
      · -- the middle is at the key
        have hlookup : equal[n / 2 - low.length]? = some pivot := by
          rwa [List.append_assoc, List.getElem?_append_right hbelow,
            List.getElem?_append_left (by omega)] at hpivot
        rw [if_pos (hequal pivot (List.mem_of_getElem? hlookup)), landing_of_mem (by omega)
          (by omega), hsum, hlookup]
      · -- the middle is above the key
        have hmem : pivot ∈ high := by
          rw [List.getElem?_append_right (by rw [List.length_append]; exact habove)] at hpivot
          exact List.mem_of_getElem? hpivot
        have htake : (low ++ equal ++ high).take (n / 2) =
            low ++ equal ++ high.take (n / 2 - (low.length + equal.length)) := by
          rw [List.take_append, List.length_append, List.take_of_length_le (by
            rw [List.length_append]
            exact habove)]
        have hlength : (low ++ equal ++ high.take (n / 2 - (low.length + equal.length))).length =
            n / 2 := by
          rw [← htake, List.length_take, hn]
          omega
        have hland : landing low.length equal.length high.length =
            landing low.length equal.length (n / 2 - (low.length + equal.length)) := by
          rw [← hsum] at habove ⊢
          exact landing_of_ge habove
        rw [if_neg (hhigh pivot hmem).ne', if_pos (hhigh pivot hmem), htake,
          ih _ hlt hlow (fun a ha => hhigh a (List.mem_of_mem_take ha)) hlength,
          List.length_take, hland, Nat.min_eq_left (by omega)]

/-- A sorted list is its entries below the key, at it and above it. -/
theorem sorted_split {entries : List α} (k : κ)
    (h : entries.Pairwise fun a b => key a ≤ key b) :
    entries = entries.filter (fun a => key a < k) ++ entries.filter (fun a => key a = k) ++
      entries.filter (fun a => k < key a) := by
  induction entries with
  | nil => rfl
  | cons a entries ih =>
    obtain ⟨hhead, htail⟩ := List.pairwise_cons.mp h
    have hrest := ih htail
    rcases lt_trichotomy (key a) k with hlt | heq | hgt
    · rw [List.filter_cons_of_pos (by simpa using hlt),
        List.filter_cons_of_neg (by simpa using hlt.ne),
        List.filter_cons_of_neg (by simpa using hlt.le), List.cons_append, List.cons_append,
        ← hrest]
    · have hnone : entries.filter (fun b => key b < k) = [] := by
        rw [List.filter_eq_nil_iff]
        intro b hb
        simpa [heq] using hhead b hb
      rw [hnone, List.nil_append] at hrest
      rw [List.filter_cons_of_neg (by simp [heq]), List.filter_cons_of_pos (by simpa using heq),
        List.filter_cons_of_neg (by simp [heq]), hnone, List.nil_append, List.cons_append, ← hrest]
    · have hnone : entries.filter (fun b => key b < k) = [] := by
        rw [List.filter_eq_nil_iff]
        intro b hb
        simpa using hgt.le.trans (hhead b hb)
      have hnone' : entries.filter (fun b => key b = k) = [] := by
        rw [List.filter_eq_nil_iff]
        intro b hb
        simpa using (hgt.trans_le (hhead b hb)).ne'
      rw [hnone, hnone', List.nil_append, List.nil_append] at hrest
      rw [List.filter_cons_of_neg (by simpa using hgt.le),
        List.filter_cons_of_neg (by simpa using hgt.ne'),
        List.filter_cons_of_pos (by simpa using hgt), hnone, hnone', List.nil_append,
        List.nil_append, ← hrest]

/-- Entries in the order of their keys, those with one key in their own order. -/
def sortByKey (key : α → κ) (entries : List α) : List α :=
  entries.mergeSort fun a b => decide (key a ≤ key b)

theorem le_key_trans (key : α → κ) (a b c : α) :
    decide (key a ≤ key b) → decide (key b ≤ key c) → decide (key a ≤ key c) := by
  simpa using le_trans

theorem le_key_total (key : α → κ) (a b : α) :
    decide (key a ≤ key b) || decide (key b ≤ key a) := by
  simpa using le_total (key a) (key b)

theorem sortByKey_perm (key : α → κ) (entries : List α) : (sortByKey key entries).Perm entries :=
  List.mergeSort_perm entries _

theorem sortByKey_pairwise (key : α → κ) (entries : List α) :
    (sortByKey key entries).Pairwise fun a b => key a ≤ key b := by
  have h := List.pairwise_mergeSort (le_key_trans key) (le_key_total key) entries
  simpa [sortByKey] using h

/-- Sorting by a key keeps the order of the entries with one key. -/
theorem filter_sortByKey (key : α → κ) (k : κ) (entries : List α) :
    (sortByKey key entries).filter (fun a => key a = k) =
      entries.filter fun a => key a = k := by
  have hequal : (entries.filter fun a => key a = k).Pairwise
      fun a b => decide (key a ≤ key b) = true := by
    refine List.pairwise_of_forall_mem_list ?_
    intro a ha b hb
    have ha := of_decide_eq_true (List.mem_filter.mp ha).2
    have hb := of_decide_eq_true (List.mem_filter.mp hb).2
    simp [ha, hb]
  have hsublist := List.sublist_mergeSort (le_key_trans key) (le_key_total key) hequal
    List.filter_sublist
  have hfiltered := hsublist.filter fun a => key a = k
  simp only [List.filter_filter, Bool.and_self] at hfiltered
  refine (hfiltered.eq_of_length ?_).symm
  exact ((sortByKey_perm key entries).filter _).length_eq.symm

/-- Bisection of the entries sorted by their key finds, among the entries with the key in their own
order, the one it lands on. -/
theorem bisect_sortByKey (key : α → κ) (k : κ) (entries : List α) :
    bisect key k (sortByKey key entries) =
      (entries.filter fun a => key a = k)[landing (entries.countP fun a => key a < k)
        (entries.countP fun a => key a = k) (entries.countP fun a => k < key a)]? := by
  have hperm := sortByKey_perm key entries
  rw [sorted_split k (sortByKey_pairwise key entries), bisect_append, filter_sortByKey,
    ← List.countP_eq_length_filter, ← List.countP_eq_length_filter,
    ← List.countP_eq_length_filter, hperm.countP_eq, hperm.countP_eq]
  · simp
  · simp
  · simp

end Beamr.Bisection
