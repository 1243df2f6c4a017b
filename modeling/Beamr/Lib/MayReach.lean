import Mathlib.Data.Finset.Card
import Mathlib.Logic.Relation
import Mathlib.Tactic

/-!
# May-reach analysis with a worklist

Some nodes of a graph are sources. The analysis marks every node that a path from a source
can enter: a node is taken off the worklist, and if it is a source or has its mark, its
successors are marked and queued. Every node is queued at the start, so each source is
visited at least once.
-/
namespace MayReach

variable {α : Type*} [DecidableEq α]

/-- The marked nodes, newest first, and the nodes still to visit, next first. -/
structure State (α : Type*) where
  marked : List α
  worklist : List α

/-- Marks a node and queues it, unless it has its mark. -/
def State.mark (s : State α) (b : α) : State α :=
  if b ∈ s.marked then s else ⟨b :: s.marked, b :: s.worklist⟩

section

variable (successors : α → List α) (source : α → Bool)

def visit (s : State α) (a : α) : State α :=
  if source a ∨ a ∈ s.marked then (successors a).foldl State.mark s else s

/-- The marks once the worklist is empty; no result when the fuel runs out before. -/
def loop : ℕ → State α → Option (List α)
  | 0, s => if s.worklist = [] then some s.marked else none
  | fuel + 1, s =>
    match s.worklist with
    | [] => some s.marked
    | a :: rest => loop fuel (visit successors source ⟨s.marked, rest⟩ a)

/-- A path of at least one step from a source ends in the node. -/
def Reached (nodes : Finset α) (b : α) : Prop :=
  ∃ a ∈ nodes, source a ∧ Relation.TransGen (fun a b => b ∈ successors a) a b

/-- Queued nodes are nodes of the graph, marked nodes are reached, and a node off the worklist
has passed its mark on. -/
structure Invariant (nodes : Finset α) (s : State α) : Prop where
  queued : ∀ a ∈ s.worklist, a ∈ nodes
  reached : ∀ b ∈ s.marked, Reached successors source nodes b
  passed : ∀ a ∈ nodes, a ∈ s.worklist ∨
    (source a ∨ a ∈ s.marked → ∀ b ∈ successors a, b ∈ s.marked)

end

/-! ## Termination -/

/-- Bound on the visits still to come: a fresh mark adds one node to the worklist. -/
def State.potential (nodes : Finset α) (s : State α) : ℕ :=
  s.worklist.length + 2 * (nodes.filter (· ∉ s.marked)).card

theorem State.potential_mark_le {nodes : Finset α} (s : State α) {b : α} (hb : b ∈ nodes) :
    (s.mark b).potential nodes ≤ s.potential nodes := by
  by_cases hmarked : b ∈ s.marked
  · simp only [State.mark, hmarked, if_true, le_refl]
  have hsub : nodes.filter (· ∉ b :: s.marked) ⊂ nodes.filter (· ∉ s.marked) := by
    apply Finset.ssubset_iff_of_subset _ |>.mpr
    · exact ⟨b, by simp [hb, hmarked], by simp⟩
    · intro x hx
      simp only [Finset.mem_filter, List.mem_cons, not_or] at hx ⊢
      exact ⟨hx.1, hx.2.2⟩
  have hcard := Finset.card_lt_card hsub
  simp only [State.mark, hmarked, if_false, State.potential, List.length_cons]
  omega

theorem State.potential_foldl_mark_le {nodes : Finset α} (bs : List α) (s : State α)
    (hbs : ∀ b ∈ bs, b ∈ nodes) :
    (bs.foldl State.mark s).potential nodes ≤ s.potential nodes := by
  induction bs generalizing s with
  | nil => exact le_rfl
  | cons b bs ih =>
    have hrest := ih (s.mark b) (fun c hc => hbs c (List.mem_cons_of_mem b hc))
    have hfirst := s.potential_mark_le (hbs b List.mem_cons_self)
    exact hrest.trans hfirst

/-! ## Marking -/

theorem State.mem_foldl_mark {bs : List α} {s : State α} {c : α} :
    c ∈ (bs.foldl State.mark s).marked ↔ c ∈ bs ∨ c ∈ s.marked := by
  induction bs generalizing s with
  | nil => simp
  | cons b bs ih =>
    rw [List.foldl_cons, ih, List.mem_cons]
    by_cases hb : b ∈ s.marked
    · simp only [State.mark, hb, if_true]
      constructor
      · rintro (h | h)
        · exact .inl (.inr h)
        · exact .inr h
      · rintro ((rfl | h) | h)
        · exact .inr hb
        · exact .inl h
        · exact .inr h
    · simp only [State.mark, hb, if_false, List.mem_cons]
      tauto

/-- Marking queues the nodes it marks and nothing else. -/
theorem State.mem_worklist_foldl_mark {bs : List α} {s : State α} {c : α} :
    c ∈ (bs.foldl State.mark s).worklist ↔ (c ∈ bs ∧ c ∉ s.marked) ∨ c ∈ s.worklist := by
  induction bs generalizing s with
  | nil => simp
  | cons b bs ih =>
    rw [List.foldl_cons, ih]
    by_cases hb : b ∈ s.marked
    · have hne : c = b → c ∈ s.marked := fun h => h ▸ hb
      simp only [State.mark, hb, if_true, List.mem_cons]
      tauto
    · have hne : c = b → c ∉ s.marked := fun h => h ▸ hb
      simp only [State.mark, hb, if_false, List.mem_cons]
      tauto

section

variable {successors : α → List α} {source : α → Bool} {nodes : Finset α}

theorem loop_cons (fuel : ℕ) (marked rest : List α) (a : α) :
    loop successors source (fuel + 1) ⟨marked, a :: rest⟩ =
      loop successors source fuel (visit successors source ⟨marked, rest⟩ a) := rfl

/-- More fuel gives the same marks. -/
theorem loop_mono {fuel : ℕ} {s : State α} {marked : List α}
    (h : loop successors source fuel s = some marked) (more : ℕ) :
    loop successors source (fuel + more) s = some marked := by
  induction fuel generalizing s with
  | zero =>
    obtain ⟨m, w⟩ := s
    simp only [loop] at h
    split at h
    next hempty =>
      cases hempty
      cases more with
      | zero => simpa [loop] using h
      | succ more => simpa [loop] using h
    next => cases h
  | succ fuel ih =>
    obtain ⟨m, w⟩ := s
    rw [Nat.add_right_comm]
    cases w with
    | nil => simpa [loop] using h
    | cons a rest => exact ih h

/-- The loop ends within the potential of its start. -/
theorem exists_loop (hclosed : ∀ a ∈ nodes, ∀ b ∈ successors a, b ∈ nodes) {fuel : ℕ}
    {s : State α} (hqueued : ∀ a ∈ s.worklist, a ∈ nodes) (hfuel : s.potential nodes ≤ fuel) :
    ∃ marked, loop successors source fuel s = some marked := by
  induction fuel generalizing s with
  | zero =>
    have hempty : s.worklist = [] := by
      apply List.eq_nil_of_length_eq_zero
      simp only [State.potential] at hfuel
      omega
    exact ⟨s.marked, by simp [loop, hempty]⟩
  | succ fuel ih =>
    obtain ⟨m, w⟩ := s
    cases w with
    | nil => exact ⟨m, rfl⟩
    | cons a rest =>
      have ha : a ∈ nodes := hqueued a List.mem_cons_self
      have hrest : ∀ c ∈ rest, c ∈ nodes := fun c hc => hqueued c (List.mem_cons_of_mem a hc)
      have hsmaller : State.potential nodes ⟨m, rest⟩ ≤ fuel := by
        simp only [State.potential, List.length_cons] at hfuel ⊢
        omega
      rw [loop_cons]
      unfold visit
      split
      next =>
        apply ih
        · intro c hc
          rcases State.mem_worklist_foldl_mark.mp hc with hc | hc
          · exact hclosed a ha c hc.1
          · exact hrest c hc
        · exact (State.potential_foldl_mark_le _ _ (hclosed a ha)).trans hsmaller
      next => exact ih hrest hsmaller

/-! ## What the marks say -/

omit [DecidableEq α] in
theorem Invariant.initial {worklist : List α} (hnodes : ∀ a, a ∈ worklist ↔ a ∈ nodes) :
    Invariant successors source nodes ⟨[], worklist⟩ where
  queued a ha := (hnodes a).mp ha
  reached _ hb := absurd hb List.not_mem_nil
  passed a ha := .inl ((hnodes a).mpr ha)

omit [DecidableEq α] in
theorem Reached.successor {a b : α} (ha : a ∈ nodes)
    (h : source a ∨ Reached successors source nodes a) (hb : b ∈ successors a) :
    Reached successors source nodes b := by
  rcases h with h | ⟨c, hc, hsource, hpath⟩
  · exact ⟨a, ha, h, .single hb⟩
  · exact ⟨c, hc, hsource, hpath.tail hb⟩

/-- One visit keeps the invariant. -/
theorem Invariant.visit (hclosed : ∀ a ∈ nodes, ∀ b ∈ successors a, b ∈ nodes)
    {marked rest : List α} {a : α} (hinv : Invariant successors source nodes ⟨marked, a :: rest⟩) :
    Invariant successors source nodes (visit successors source ⟨marked, rest⟩ a) := by
  have ha : a ∈ nodes := hinv.queued a List.mem_cons_self
  have hrest : ∀ c ∈ rest, c ∈ nodes :=
    fun c hc => hinv.queued c (List.mem_cons_of_mem a hc)
  unfold MayReach.visit
  split
  next htaint =>
    have htainted : source a ∨ Reached successors source nodes a := by
      rcases htaint with h | h
      · exact .inl h
      · exact .inr (hinv.reached a h)
    refine ⟨?_, ?_, ?_⟩
    · intro c hc
      rcases State.mem_worklist_foldl_mark.mp hc with hc | hc
      · exact hclosed a ha c hc.1
      · exact hrest c hc
    · intro b hb
      rcases State.mem_foldl_mark.mp hb with hb | hb
      · exact Reached.successor ha htainted hb
      · exact hinv.reached b hb
    · intro c hc
      by_cases hca : c = a
      · subst hca
        exact .inr fun _ b hb => State.mem_foldl_mark.mpr (.inl hb)
      rw [State.mem_worklist_foldl_mark, State.mem_foldl_mark]
      rcases hinv.passed c hc with hqueued | hpassed
      · have hmem : c ∈ rest := (List.mem_cons.mp hqueued).resolve_left hca
        exact .inl (.inr hmem)
      · by_cases hfresh : c ∈ successors a ∧ c ∉ marked
        · exact .inl (.inl hfresh)
        · refine .inr fun h b hb => State.mem_foldl_mark.mpr (.inr (hpassed ?_ b hb))
          rcases h with h | h | h
          · exact .inl h
          · exact .inr (not_not.mp fun hnot => hfresh ⟨h, hnot⟩)
          · exact .inr h
  next hclean =>
    refine ⟨hrest, hinv.reached, ?_⟩
    intro c hc
    by_cases hca : c = a
    · subst hca
      exact .inr fun h => absurd h hclean
    · rcases hinv.passed c hc with hqueued | hpassed
      · exact .inl ((List.mem_cons.mp hqueued).resolve_left hca)
      · exact .inr hpassed

theorem Invariant.loop (hclosed : ∀ a ∈ nodes, ∀ b ∈ successors a, b ∈ nodes) {fuel : ℕ}
    {s : State α} {marked : List α} (hinv : Invariant successors source nodes s)
    (h : loop successors source fuel s = some marked) :
    Invariant successors source nodes ⟨marked, []⟩ := by
  induction fuel generalizing s with
  | zero =>
    obtain ⟨m, w⟩ := s
    simp only [MayReach.loop] at h
    split at h
    next hempty =>
      cases hempty
      cases h
      exact hinv
    next => cases h
  | succ fuel ih =>
    obtain ⟨m, w⟩ := s
    cases w with
    | nil =>
      cases h
      exact hinv
    | cons a rest => exact ih (hinv.visit hclosed) h

omit [DecidableEq α] in
/-- With the worklist empty, marks are exactly the reached nodes. -/
theorem Invariant.mem_marked_iff (hclosed : ∀ a ∈ nodes, ∀ b ∈ successors a, b ∈ nodes)
    {marked : List α} (hinv : Invariant successors source nodes ⟨marked, []⟩) {b : α} :
    b ∈ marked ↔ Reached successors source nodes b := by
  have hstep : ∀ a ∈ nodes, (source a ∨ a ∈ marked) → ∀ b ∈ successors a, b ∈ marked := by
    intro a ha
    exact (hinv.passed a ha).resolve_left List.not_mem_nil
  constructor
  · exact hinv.reached b
  · rintro ⟨a, ha, hsource, hpath⟩
    have hboth : b ∈ nodes ∧ b ∈ marked := by
      induction hpath with
      | single hb => exact ⟨hclosed a ha _ hb, hstep a ha (.inl hsource) _ hb⟩
      | tail _ hc ih => exact ⟨hclosed _ ih.1 _ hc, hstep _ ih.1 (.inr ih.2) _ hc⟩
    exact hboth.2

omit [DecidableEq α] in
/-- Rule for another relation: where its steps from sources and reached nodes are successors,
its paths from sources only enter reached nodes. -/
theorem Reached.of_path {edge : α → α → Prop}
    (hclosed : ∀ a ∈ nodes, ∀ b ∈ successors a, b ∈ nodes)
    (hedge : ∀ a ∈ nodes, (source a ∨ Reached successors source nodes a) →
      ∀ b, edge a b → b ∈ successors a)
    {a b : α} (ha : a ∈ nodes) (hsource : source a) (hpath : Relation.TransGen edge a b) :
    b ∈ nodes ∧ Reached successors source nodes b := by
  induction hpath with
  | single h =>
    have hb := hedge a ha (.inl hsource) _ h
    exact ⟨hclosed a ha _ hb, Reached.successor ha (.inl hsource) hb⟩
  | tail _ h ih =>
    have hc := hedge _ ih.1 (.inr ih.2) _ h
    exact ⟨hclosed _ ih.1 _ hc, Reached.successor ih.1 (.inr ih.2) hc⟩

end

end MayReach
