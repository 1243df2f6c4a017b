import Mathlib.Data.List.Forall2
import Mathlib.Data.Set.Function

/-!
# Object graphs

Values that refer to labelled objects with fields. Two values denote the same structure when
their unfoldings agree to every depth; a bisimulation gives that. A map that carries objects
to objects keeps the paths as well, and where it is injective it keeps sharing.
-/
namespace Beamr

/-- What a value refers to: nothing for plain data, else a label and the fields. -/
structure ObjectGraph (V L : Type) where
  node : V → Option (L × List V)

/-- A structure cut off at some depth. -/
inductive Unfolding (V L : Type)
  | cut
  | leaf (value : V)
  | node (label : L) (fields : List (Unfolding V L))

namespace ObjectGraph

variable {V L : Type} (G H : ObjectGraph V L)

def unfold : ℕ → V → Unfolding V L
  | 0, _ => .cut
  | n + 1, v =>
    match G.node v with
    | none => .leaf v
    | some (label, fields) => .node label (fields.map (unfold n))

/-- `v` in `G` and `w` in `H` denote the same structure. -/
def SameStructure (v w : V) : Prop := ∀ n, G.unfold n v = H.unfold n w

/-- The value at the end of a path of field positions. -/
def follow : List ℕ → V → Option V
  | [], v => some v
  | i :: path, v =>
    match G.node v with
    | none => none
    | some (_, fields) => (fields[i]?).bind (follow path)

/-- Values met on some path from `v`. -/
def Reaches (v w : V) : Prop := ∃ path, G.follow path v = some w

variable {G H}

theorem SameStructure.refl (v : V) : SameStructure G G v v := fun _ => rfl

theorem SameStructure.trans {K : ObjectGraph V L} {u v w : V} (h : SameStructure G H u v)
    (h' : SameStructure H K v w) : SameStructure G K u w := fun n => (h n).trans (h' n)

theorem unfold_leaf {v : V} (h : G.node v = none) (n : ℕ) : G.unfold (n + 1) v = .leaf v := by
  rw [unfold, h]

theorem unfold_node {v : V} {label : L} {fields : List V} (h : G.node v = some (label, fields))
    (n : ℕ) : G.unfold (n + 1) v = .node label (fields.map (G.unfold n)) := by
  rw [unfold, h]

/-- A value that is an object in one graph and data in the other is not the same structure. -/
theorem SameStructure.node_isSome {v w : V} (h : SameStructure G H v w) :
    (G.node v).isSome = (H.node w).isSome := by
  have h1 := h 1
  cases hv : G.node v with
  | none =>
    cases hw : H.node w with
    | none => rfl
    | some r =>
      rw [unfold_leaf hv, unfold_node hw] at h1
      cases h1
  | some r =>
    cases hw : H.node w with
    | none =>
      rw [unfold_node hv, unfold_leaf hw] at h1
      cases h1
    | some r' => rfl

/-- Related values are both the same data, or objects with one label and related fields. -/
structure Bisimulation (G H : ObjectGraph V L) (R : V → V → Prop) : Prop where
  leaf : ∀ {v w}, R v w → G.node v = none → H.node w = none ∧ v = w
  node : ∀ {v w label fields}, R v w → G.node v = some (label, fields) →
    ∃ fields', H.node w = some (label, fields') ∧ List.Forall₂ R fields fields'

theorem Bisimulation.sameStructure {R : V → V → Prop} (hR : Bisimulation G H R) {v w : V}
    (h : R v w) : SameStructure G H v w := by
  intro n
  induction n generalizing v w with
  | zero => rfl
  | succ n ih =>
    cases hv : G.node v with
    | none =>
      obtain ⟨hw, rfl⟩ := hR.leaf h hv
      rw [unfold_leaf hv, unfold_leaf hw]
    | some r =>
      obtain ⟨label, fields⟩ := r
      obtain ⟨fields', hw, hrel⟩ := hR.node h hv
      rw [unfold_node hv, unfold_node hw]
      congr 1
      clear hv hw
      induction hrel with
      | nil => rfl
      | cons hhead htail iht =>
        rw [List.map_cons, List.map_cons, ih hhead, iht]

theorem follow_leaf {v : V} (h : G.node v = none) (i : ℕ) (path : List ℕ) :
    G.follow (i :: path) v = none := by rw [follow, h]

theorem follow_node {v : V} {label : L} {fields : List V} (h : G.node v = some (label, fields))
    (i : ℕ) (path : List ℕ) :
    G.follow (i :: path) v = (fields[i]?).bind (G.follow path) := by rw [follow, h]

theorem follow_append (p q : List ℕ) (v : V) :
    G.follow (p ++ q) v = (G.follow p v).bind (G.follow q) := by
  induction p generalizing v with
  | nil => rfl
  | cons i p ih =>
    cases hv : G.node v with
    | none => rw [List.cons_append, follow_leaf hv, follow_leaf hv]; rfl
    | some r =>
      obtain ⟨label, fields⟩ := r
      rw [List.cons_append, follow_node hv, follow_node hv]
      cases fields[i]? with
      | none => rfl
      | some w => exact ih w

/-- Values that denote the same structure do so along every path. -/
theorem SameStructure.follow {p : List ℕ} {v w x : V} (h : SameStructure G H v w)
    (hx : G.follow p v = some x) : ∃ y, H.follow p w = some y ∧ SameStructure G H x y := by
  induction p generalizing v w with
  | nil =>
    obtain rfl := Option.some.inj hx
    exact ⟨w, rfl, h⟩
  | cons i p ih =>
    cases hv : G.node v with
    | none => rw [follow_leaf hv] at hx; cases hx
    | some r =>
      obtain ⟨label, fields⟩ := r
      have hsome := h.node_isSome
      rw [hv] at hsome
      obtain ⟨⟨label', fields'⟩, hw⟩ := Option.isSome_iff_exists.mp hsome.symm
      rw [follow_node hv] at hx
      obtain ⟨u, hu, hx⟩ := Option.bind_eq_some_iff.mp hx
      -- the fields agree position by position, to every depth
      have hmap : ∀ n, fields.map (G.unfold n) = fields'.map (H.unfold n) := by
        intro n
        have hn := h (n + 1)
        rw [unfold_node hv, unfold_node hw] at hn
        exact (Unfolding.node.inj hn).2
      have hlen : fields.length = fields'.length := by simpa using congrArg List.length (hmap 0)
      have hi := (List.getElem?_eq_some_iff.mp hu).1
      have hu' : fields'[i]? = some (fields'[i]) := List.getElem?_eq_getElem (by omega)
      have hsame : SameStructure G H u (fields'[i]) := by
        intro n
        have hn := congrArg (fun l => l[i]?) (hmap n)
        simp only [List.getElem?_map, hu, hu', Option.map_some] at hn
        exact Option.some.inj hn
      obtain ⟨y, hy, hxy⟩ := ih hsame hx
      refine ⟨y, ?_, hxy⟩
      rw [follow_node hw, hu']
      exact hy

/-- `f` carries the objects of `G` within `S` to objects of `H`. -/
structure Carries (G H : ObjectGraph V L) (f : V → V) (S : Set V) : Prop where
  leaf : ∀ {v}, v ∈ S → G.node v = none → H.node (f v) = none ∧ f v = v
  node : ∀ {v label fields}, v ∈ S → G.node v = some (label, fields) →
    H.node (f v) = some (label, fields.map f) ∧ ∀ w ∈ fields, w ∈ S

variable {f : V → V} {S : Set V}

theorem Carries.bisimulation (hf : Carries G H f S) :
    Bisimulation G H fun v w => v ∈ S ∧ w = f v where
  leaf := by
    rintro v w ⟨hv, rfl⟩ hnode
    obtain ⟨hleaf, hfix⟩ := hf.leaf hv hnode
    exact ⟨hleaf, hfix.symm⟩
  node := by
    rintro v w label fields ⟨hv, rfl⟩ hnode
    obtain ⟨hmap, hfields⟩ := hf.node hv hnode
    refine ⟨fields.map f, hmap, ?_⟩
    rw [List.forall₂_map_right_iff, List.forall₂_same]
    exact fun w hw => ⟨hfields w hw, rfl⟩

theorem Carries.sameStructure (hf : Carries G H f S) {v : V} (hv : v ∈ S) :
    SameStructure G H v (f v) := hf.bisimulation.sameStructure ⟨hv, rfl⟩

theorem Carries.follow (hf : Carries G H f S) (path : List ℕ) {v : V} (hv : v ∈ S) :
    H.follow path (f v) = (G.follow path v).map f := by
  induction path generalizing v with
  | nil => rfl
  | cons i path ih =>
    cases hnode : G.node v with
    | none => rw [follow_leaf hnode, follow_leaf (hf.leaf hv hnode).1]; rfl
    | some r =>
      obtain ⟨label, fields⟩ := r
      obtain ⟨hmap, hfields⟩ := hf.node hv hnode
      rw [follow_node hnode, follow_node hmap, List.getElem?_map]
      cases hi : fields[i]? with
      | none => rfl
      | some w => exact ih (hfields w (List.mem_of_getElem? hi))

theorem Carries.mem_of_follow (hf : Carries G H f S) (path : List ℕ) {v w : V} (hv : v ∈ S)
    (h : G.follow path v = some w) : w ∈ S := by
  induction path generalizing v with
  | nil =>
    obtain rfl := Option.some.inj h
    exact hv
  | cons i path ih =>
    cases hnode : G.node v with
    | none => rw [follow_leaf hnode] at h; cases h
    | some r =>
      obtain ⟨label, fields⟩ := r
      rw [follow_node hnode] at h
      obtain ⟨u, hu, h⟩ := Option.bind_eq_some_iff.mp h
      exact ih ((hf.node hv hnode).2 u (List.mem_of_getElem? hu)) h

/-- Two paths meet after the move exactly when they met before. -/
theorem Carries.sharing (hf : Carries G H f S) (hinj : Set.InjOn f S) {v w : V} (hv : v ∈ S)
    (hw : w ∈ S) {p q : List ℕ} (hp : (G.follow p v).isSome) :
    G.follow p v = G.follow q w ↔ H.follow p (f v) = H.follow q (f w) := by
  rw [hf.follow p hv, hf.follow q hw]
  obtain ⟨x, hx⟩ := Option.isSome_iff_exists.mp hp
  have hxS := hf.mem_of_follow p hv hx
  constructor
  · intro h
    rw [h]
  · intro h
    cases hy : G.follow q w with
    | none =>
      rw [hx, hy] at h
      cases h
    | some y =>
      rw [hx, hy] at h
      rw [hx, hinj hxS (hf.mem_of_follow q hw hy) (Option.some.inj h)]

/-- What the image reaches is the image of what is reached. -/
theorem Carries.reaches (hf : Carries G H f S) {v w : V} (hv : v ∈ S) (h : H.Reaches (f v) w) :
    ∃ u ∈ S, w = f u := by
  obtain ⟨path, hpath⟩ := h
  rw [hf.follow path hv] at hpath
  obtain ⟨u, hu, rfl⟩ := Option.map_eq_some_iff.mp hpath
  exact ⟨u, hf.mem_of_follow path hv hu, rfl⟩

end ObjectGraph

end Beamr
