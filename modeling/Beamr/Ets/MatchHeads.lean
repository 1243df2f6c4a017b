import Beamr.Ets.Bag
import Beamr.Ets.MatchSpec
import Beamr.Lib.Constraints
import Beamr.Lib.Decoder

/-!
# Heads match by substitution

Matching takes the patterns of a head one after another and keeps a binding for each variable it
has met. The bindings stand for the assignments that are left, and every pattern adds its own
constraint to them, so a head matches exactly when some assignment makes it equal to the row.
-/
namespace Beamr.Ets

open Term Comparison Constraints

/-! ## Substitution -/

section Substitution

variable (table : AtomTable) (inMaps : Bool) (assignment : ℕ → Value)

mutual

/-- `filled` is the term with its variables replaced as the assignment says and each `_` by some
term, in tuples, in lists and, if asked for, in maps. -/
def Fills : Value → Value → Prop
  | term, filled =>
    match classifyAtom table term with
    | .dontCare => True
    | .variable index => filled = assignment index
    | _ =>
      match term with
      | .tuple elements => ∃ filleds, filled = .tuple filleds ∧ FillsAll elements filleds
      | .cons head tail => ∃ head' tail', filled = .cons head' tail' ∧ Fills head head' ∧
          Fills tail tail'
      | .map entries => if inMaps then ∃ filleds, filled = .map filleds ∧
          FillsEntries entries filleds else filled = .map entries
      | term => filled = term

def FillsAll : List Value → List Value → Prop
  | [], [] => True
  | term :: terms, filled :: filleds => Fills term filled ∧ FillsAll terms filleds
  | _, _ => False

def FillsEntries : List (Value × Value) → List (Value × Value) → Prop
  | [], [] => True
  | entry :: entries, filled :: filleds => FillsEntry entry filled ∧ FillsEntries entries filleds
  | _, _ => False

def FillsEntry : Value × Value → Value × Value → Prop
  | (key, value), filled => Fills key filled.1 ∧ Fills value filled.2

end

/-- The assignment makes the head exactly equal to the row. -/
def HeadEquals (head row : Value) : Prop :=
  ∃ filled, Fills table inMaps assignment head filled ∧ exactEq filled row = true

/-- The same element by element. -/
def ElementsEqual (terms values : List Value) : Prop :=
  ∃ filleds, FillsAll table inMaps assignment terms filleds ∧
    List.Forall₂ (fun a b => exactEq a b = true) filleds values

end Substitution

/-! ## Bindings as a set of assignments -/

/-- The assignments that agree with every binding. -/
def Bindings.allowed (bindings : Bindings) : Set (ℕ → Value) :=
  {assignment | ∀ index value, bindings[index]? = some (some value) →
    exactEq (assignment index) value = true}

theorem Bindings.allowed_nonempty (bindings : Bindings) : bindings.allowed.Nonempty := by
  refine ⟨fun index => (bindings.value index).getD .nil, ?_⟩
  intro index value hvalue
  simp [Bindings.value, hvalue, exactEq_refl]

theorem Bindings.allowed_replicate (length : ℕ) :
    Bindings.allowed (List.replicate length none) = Set.univ := by
  ext assignment
  simp [Bindings.allowed, List.getElem?_replicate]

theorem Bindings.allowed_set {bindings : Bindings} {index : ℕ}
    (hfree : bindings[index]? = some none) (value : Value) :
    Bindings.allowed (bindings.set index (some value)) =
      bindings.allowed ∩ {assignment | exactEq (assignment index) value = true} := by
  have hlt : index < bindings.length := (List.getElem?_eq_some_iff.mp hfree).1
  ext assignment
  simp only [Bindings.allowed, Set.mem_ofPred_eq, Set.mem_inter_iff, List.getElem?_set]
  constructor
  · intro h
    refine ⟨fun i v hv => ?_, h index value (by simp [hlt])⟩
    have hne : index ≠ i := by
      rintro rfl
      simp [hfree] at hv
    exact h i v (by simp [hne, hv])
  · intro h i v hv
    by_cases hi : index = i
    · subst hi
      simp only [if_true, hlt, Option.some.injEq] at hv
      exact hv ▸ h.2
    · exact h.1 i v (by simpa [hi] using hv)

theorem Bindings.allowed_bound {bindings : Bindings} {index : ℕ} {bound : Value}
    (hbound : bindings[index]? = some (some bound)) {value : Value}
    (heq : exactEq bound value = true) :
    bindings.allowed =
      bindings.allowed ∩ {assignment | exactEq (assignment index) value = true} := by
  refine (Set.inter_eq_left.mpr fun assignment hassignment => ?_).symm
  rw [Set.mem_ofPred_eq, exactEq_left (hassignment index bound hbound), heq]

/-- A value that differs from the binding leaves nothing. -/
theorem Bindings.allowed_clash {bindings : Bindings} {index : ℕ} {bound : Value}
    (hbound : bindings[index]? = some (some bound)) {value : Value}
    (hne : exactEq bound value ≠ true) :
    bindings.allowed ∩ {assignment | exactEq (assignment index) value = true} = ∅ := by
  ext assignment
  simp only [Set.mem_inter_iff, Set.mem_ofPred_eq, Set.mem_empty_iff_false, iff_false, not_and]
  intro hassignment heq
  rw [exactEq_left (hassignment index bound hbound)] at heq
  exact hne heq

/-! ## What a pattern asks for -/

section Fits

variable (assignment : ℕ → Value)

mutual

def Pattern.Fits : Pattern → Value → Prop
  | .variable index, value => exactEq (assignment index) value = true
  | .dontCare, _ => True
  | .literal term, value => exactEq term value = true
  | .tuple elements, value => ∃ values, value = .tuple values ∧ FitAll elements values
  | .list elements, value => ∃ values, properList value = .ok values ∧ FitAll elements values

def FitAll : List Pattern → List Value → Prop
  | [], [] => True
  | element :: elements, value :: values => Pattern.Fits element value ∧ FitAll elements values
  | _, _ => False

end

end Fits

mutual

/-- Every variable of the pattern has a place among `length` bindings. -/
def Pattern.Below (length : ℕ) : Pattern → Prop
  | .tuple elements => AllBelow length elements
  | .list elements => AllBelow length elements
  | .variable index => index < length
  | _ => True

def AllBelow (length : ℕ) : List Pattern → Prop
  | [] => True
  | element :: elements => element.Below length ∧ AllBelow length elements

end

mutual

/-- Matching a pattern adds what the pattern asks for. -/
theorem matchPattern_adds {length : ℕ} (pattern : Pattern) (h : pattern.Below length)
    (value : Value) : Adds Bindings.allowed {bindings | bindings.length = length}
      (matchPattern pattern value) {assignment | pattern.Fits assignment value} := by
  cases pattern with
  | «variable» index =>
    rw [Pattern.Below] at h
    simp only [Pattern.Fits]
    refine ⟨fun bindings hlength result hresult => ?_, fun bindings hlength hnone => ?_⟩
    · rw [matchPattern] at hresult
      rcases hslot : bindings[index]? with _ | _ | bound
      · simp [hslot] at hresult
      · simp only [hslot, Option.some.injEq] at hresult
        rw [← hresult, Bindings.allowed_set hslot]
        exact ⟨by simpa using hlength, rfl⟩
      · simp only [hslot, Option.ite_none_right_eq_some, Option.some.injEq] at hresult
        obtain ⟨heq, rfl⟩ := hresult
        exact ⟨hlength, Bindings.allowed_bound hslot heq⟩
    · have hlt : index < bindings.length := hlength ▸ h
      rw [matchPattern] at hnone
      rcases hslot : bindings[index]? with _ | _ | bound
      · simp [hlt] at hslot
      · simp [hslot] at hnone
      · refine Bindings.allowed_clash hslot fun heq => ?_
        simp [hslot, heq] at hnone
  | dontCare => exact Adds.pass.congr (fun _ => rfl) (by ext; simp [Pattern.Fits])
  | literal term =>
    refine (Adds.pass.ite (p := exactEq term value = true)).congr (fun _ => rfl) ?_
    ext assignment
    simp [Pattern.Fits]
  | tuple elements =>
    rw [Pattern.Below] at h
    cases value with
    | tuple values =>
      refine (elements_adds elements h values).congr (fun _ => by rw [matchPattern]) ?_
      ext assignment
      simp [Pattern.Fits]
    | _ => exact Adds.fail.congr (fun _ => by simp [matchPattern]) (by ext; simp [Pattern.Fits])
  | list elements =>
    rw [Pattern.Below] at h
    cases hproper : properList value with
    | error e =>
      refine Adds.fail.congr (fun _ => by rw [matchPattern, hproper]) ?_
      ext assignment
      simp [Pattern.Fits, hproper]
    | ok values =>
      refine (elements_adds elements h values).congr (fun _ => by rw [matchPattern, hproper]) ?_
      ext assignment
      simp [Pattern.Fits, hproper]

theorem elements_adds {length : ℕ} (elements : List Pattern) (h : AllBelow length elements)
    (values : List Value) : Adds Bindings.allowed {bindings | bindings.length = length}
      (fun bindings => if values.length = elements.length then
        matchPatterns elements values bindings else none)
      {assignment | FitAll assignment elements values} := by
  cases elements with
  | nil =>
    refine (Adds.pass.ite (p := values.length = 0)).congr (fun _ => by simp [matchPatterns]) ?_
    ext assignment
    cases values <;> simp [FitAll]
  | cons element elements =>
    cases values with
    | nil => exact Adds.fail.congr (fun _ => by simp) (by ext; simp [FitAll])
    | cons value values =>
      rw [AllBelow] at h
      have hrest := elements_adds elements h.2 values
      refine ((matchPattern_adds element h.1 value).bind hrest).congr (fun bindings => ?_) ?_
      · by_cases hlength : values.length = elements.length
        · simp [hlength, matchPatterns]
        · simp [hlength]
      · ext assignment
        simp [FitAll]

end

/-! ## Equal tuples and lists -/

theorem exactEq_tuple_iff {values : List Value} {v : Value} :
    exactEq (.tuple values) v = true ↔ ∃ values', v = .tuple values' ∧
      List.Forall₂ (fun a b => exactEq a b = true) values values' := by
  simp only [exactEq, beq_iff_eq]
  constructor
  · intro h
    have hrank := exactCmp_isTermOrder.rank_eq h
    cases v with
    | tuple values' =>
      rw [exactCmp_isTermOrder.tuple_tuple, lengthLex_eq_iff] at h
      exact ⟨values', rfl, h⟩
    | _ => cases hrank
  · intro h
    obtain ⟨values', rfl, hall⟩ := h
    rw [exactCmp_isTermOrder.tuple_tuple, lengthLex_eq_iff]
    exact hall

theorem exactEq_cons_iff {head tail v : Value} : exactEq (.cons head tail) v = true ↔
    ∃ head' tail', v = .cons head' tail' ∧ exactEq head head' = true ∧
      exactEq tail tail' = true := by
  simp only [exactEq, beq_iff_eq]
  constructor
  · intro h
    have hrank := exactCmp_isTermOrder.rank_eq h
    cases v with
    | cons head' tail' =>
      rw [exactCmp_isTermOrder.cons_cons, Ordering.then_eq_eq] at h
      exact ⟨head', tail', rfl, h⟩
    | _ => cases hrank
  · intro h
    obtain ⟨head', tail', rfl, hhead, htail⟩ := h
    rw [exactCmp_isTermOrder.cons_cons, hhead, htail]
    rfl

theorem exactEq_nil_iff {v : Value} : exactEq .nil v = true ↔ v = .nil := by
  constructor
  · intro h
    have hrank := exactCmp_isTermOrder.rank_eq (by simpa [exactEq] using h)
    cases v with
    | nil => rfl
    | _ => cases hrank
  · intro h
    rw [h, exactEq_refl]

theorem properList_eq_nil {list : Value} : properList list = .ok [] ↔ list = .nil := by
  cases list with
  | cons head tail =>
    rw [properList]
    cases properList tail <;> simp [Except.map]
  | _ => simp [properList]

theorem properList_eq_cons {list head : Value} {rest : List Value} :
    properList list = .ok (head :: rest) ↔
      ∃ tail, list = .cons head tail ∧ properList tail = .ok rest := by
  cases list with
  | cons head' tail =>
    rw [properList]
    cases htail : properList tail <;> simp [Except.map, htail]
  | _ => simp [properList]

/-- A term equal to a proper list is a proper list of equal elements. -/
theorem exactEq_properList_iff {list v : Value} {values : List Value}
    (hproper : properList list = .ok values) : exactEq list v = true ↔
      ∃ values', properList v = .ok values' ∧
        List.Forall₂ (fun a b => exactEq a b = true) values values' := by
  induction values generalizing list v with
  | nil =>
    obtain rfl := properList_eq_nil.mp hproper
    simp [exactEq_nil_iff, properList_eq_nil]
  | cons head rest ih =>
    obtain ⟨tail, rfl, htail⟩ := properList_eq_cons.mp hproper
    rw [exactEq_cons_iff]
    constructor
    · intro h
      obtain ⟨head', tail', rfl, hhead, heq⟩ := h
      obtain ⟨rest', hrest', hall⟩ := (ih htail).mp heq
      exact ⟨head' :: rest', properList_eq_cons.mpr ⟨tail', rfl, hrest'⟩, .cons hhead hall⟩
    · intro h
      obtain ⟨values', hvalues', hall⟩ := h
      obtain ⟨head', rest', hhead, hrest, rfl⟩ := List.forall₂_cons_left_iff.mp hall
      obtain ⟨tail', rfl, htail'⟩ := properList_eq_cons.mp hvalues'
      exact ⟨head', tail', rfl, hhead, (ih htail).mpr ⟨rest', htail', hrest⟩⟩

/-! ## Heads of parsed specifications -/

section Heads

variable {table : AtomTable} {assignment : ℕ → Value}

theorem classifyAtom_eq_literal {term : Value} (h : ∀ a, term ≠ .atom a) :
    classifyAtom table term = .literal := by
  cases term with
  | atom a => exact absurd rfl (h a)
  | _ => simp [classifyAtom, atomName]

theorem properList_foldr (values : List Value) :
    properList (values.foldr Value.cons .nil) = .ok values := by
  induction values with
  | nil => rfl
  | cons value values ih => exact properList_eq_cons.mpr ⟨_, rfl, ih⟩

section Fills

variable {inMaps : Bool} {filled : Value}

theorem fills_tuple {elements : List Value} :
    Fills table inMaps assignment (.tuple elements) filled ↔
      ∃ filleds, filled = .tuple filleds ∧ FillsAll table inMaps assignment elements filleds := by
  rw [Fills, classifyAtom_eq_literal (by simp)]

theorem fills_cons {head tail : Value} :
    Fills table inMaps assignment (.cons head tail) filled ↔
      ∃ head' tail', filled = .cons head' tail' ∧ Fills table inMaps assignment head head' ∧
        Fills table inMaps assignment tail tail' := by
  rw [Fills, classifyAtom_eq_literal (by simp)]

theorem fills_nil : Fills table inMaps assignment .nil filled ↔ filled = .nil := by
  simp [Fills, classifyAtom_eq_literal]

end Fills

/-- What fills a proper list is a proper list. -/
theorem fills_properList {list filled : Value} {terms : List Value}
    (hproper : properList list = .ok terms) :
    Fills table false assignment list filled ↔ ∃ filleds, properList filled = .ok filleds ∧
      FillsAll table false assignment terms filleds := by
  induction terms generalizing list filled with
  | nil =>
    obtain rfl := properList_eq_nil.mp hproper
    rw [fills_nil]
    constructor
    · intro h
      exact ⟨[], by rw [h, properList], by rw [FillsAll]; trivial⟩
    · intro h
      obtain ⟨filleds, hfilled, hall⟩ := h
      cases filleds with
      | nil => exact properList_eq_nil.mp hfilled
      | cons _ _ => simp [FillsAll] at hall
  | cons head rest ih =>
    obtain ⟨tail, rfl, htail⟩ := properList_eq_cons.mp hproper
    rw [fills_cons]
    constructor
    · intro h
      obtain ⟨head', tail', rfl, hhead, hfills⟩ := h
      obtain ⟨rest', hrest', hall⟩ := (ih htail).mp hfills
      exact ⟨head' :: rest', properList_eq_cons.mpr ⟨tail', rfl, hrest'⟩, by
        rw [FillsAll]; exact ⟨hhead, hall⟩⟩
    · intro h
      obtain ⟨filleds, hfilled, hall⟩ := h
      cases filleds with
      | nil => simp [FillsAll] at hall
      | cons head' rest' =>
        rw [FillsAll] at hall
        obtain ⟨tail', rfl, htail'⟩ := properList_eq_cons.mp hfilled
        exact ⟨head', tail', rfl, hall.1, (ih htail).mpr ⟨rest', htail', hall.2⟩⟩

theorem headEquals_tuple {elements : List Value} {value : Value} :
    HeadEquals table false assignment (.tuple elements) value ↔ ∃ values, value = .tuple values ∧
      ElementsEqual table false assignment elements values := by
  simp only [HeadEquals, ElementsEqual, fills_tuple]
  constructor
  · intro h
    obtain ⟨_, ⟨filleds, rfl, hfills⟩, heq⟩ := h
    obtain ⟨values, rfl, hall⟩ := exactEq_tuple_iff.mp heq
    exact ⟨values, rfl, filleds, hfills, hall⟩
  · intro h
    obtain ⟨values, rfl, filleds, hfills, hall⟩ := h
    exact ⟨_, ⟨filleds, rfl, hfills⟩, exactEq_tuple_iff.mpr ⟨values, rfl, hall⟩⟩

theorem headEquals_properList {list value : Value} {terms : List Value}
    (hproper : properList list = .ok terms) :
    HeadEquals table false assignment list value ↔ ∃ values, properList value = .ok values ∧
      ElementsEqual table false assignment terms values := by
  simp only [HeadEquals, ElementsEqual, fills_properList hproper]
  constructor
  · intro h
    obtain ⟨filled, ⟨filleds, hfilled, hfills⟩, heq⟩ := h
    obtain ⟨values, hvalues, hall⟩ := (exactEq_properList_iff hfilled).mp heq
    exact ⟨values, hvalues, filleds, hfills, hall⟩
  · intro h
    obtain ⟨values, hvalues, filleds, hfills, hall⟩ := h
    have hfilled := properList_foldr filleds
    exact ⟨_, ⟨filleds, hfilled, hfills⟩,
      (exactEq_properList_iff hfilled).mpr ⟨values, hvalues, hall⟩⟩

theorem fitAll_nil {values : List Value} :
    FitAll assignment [] values ↔ ElementsEqual table false assignment [] values := by
  constructor
  · intro h
    cases values with
    | nil => exact ⟨[], by rw [FillsAll]; trivial, .nil⟩
    | cons _ _ => simp [FitAll] at h
  · intro h
    obtain ⟨filleds, hfills, hall⟩ := h
    cases filleds with
    | nil =>
      cases hall
      simp [FitAll]
    | cons _ _ => simp [FillsAll] at hfills

theorem fitAll_cons {pattern : Pattern} {patterns : List Pattern} {term : Value}
    {terms values : List Value}
    (hhead : ∀ value, pattern.Fits assignment value ↔
      HeadEquals table false assignment term value)
    (htail : ∀ values, FitAll assignment patterns values ↔
      ElementsEqual table false assignment terms values) :
    FitAll assignment (pattern :: patterns) values ↔
      ElementsEqual table false assignment (term :: terms) values := by
  constructor
  · intro h
    cases values with
    | nil => simp [FitAll] at h
    | cons value values =>
      rw [FitAll, hhead, htail] at h
      obtain ⟨⟨filled, hfills, heq⟩, filleds, hfillsAll, hall⟩ := h
      exact ⟨filled :: filleds, by rw [FillsAll]; exact ⟨hfills, hfillsAll⟩, .cons heq hall⟩
  · intro h
    obtain ⟨filleds, hfills, hall⟩ := h
    cases filleds with
    | nil => simp [FillsAll] at hfills
    | cons filled filleds =>
      rw [FillsAll] at hfills
      obtain ⟨value, values, heq, hrest, rfl⟩ := List.forall₂_cons_left_iff.mp hall
      rw [FitAll, hhead, htail]
      exact ⟨⟨filled, hfills.1, heq⟩, filleds, hfills.2, hrest⟩

/-- One pattern and then the others. -/
theorem parsed_cons {first : Except MatchSpecError (Pattern × ℕ)}
    {rest : ℕ → Except MatchSpecError (List Pattern × ℕ)} {patterns : List Pattern} {last : ℕ}
    (h : (do
      let (element, maxVariable) ← first
      let (elements, maxVariable) ← rest maxVariable
      .ok (element :: elements, maxVariable)) = .ok (patterns, last)) :
    ∃ pattern maxVariable others, first = .ok (pattern, maxVariable) ∧
      rest maxVariable = .ok (others, last) ∧ patterns = pattern :: others := by
  obtain ⟨⟨pattern, maxVariable⟩, hfirst, hthen⟩ := except_bind_ok_iff.mp h
  obtain ⟨⟨others, last'⟩, hrest, hdone⟩ := except_bind_ok_iff.mp hthen
  obtain ⟨rfl, rfl⟩ := Prod.mk.inj (Except.ok.inj hdone)
  exact ⟨pattern, maxVariable, others, hfirst, hrest, rfl⟩

theorem parsePattern_literal {term : Value} {pattern : Pattern} {maxVariable maxVariable' : ℕ}
    (hclass : classifyAtom table term = .literal)
    (h : parsePattern table term maxVariable = .ok (pattern, maxVariable')) :
    (∃ terms elements, term = .tuple terms ∧ pattern = .tuple elements ∧
      parsePatterns table terms maxVariable = .ok (elements, maxVariable')) ∨
    (∃ terms elements, properList term = .ok terms ∧ pattern = .list elements ∧
      parseTail table term maxVariable = .ok (elements, maxVariable')) ∨
    (pattern = .literal term ∧ maxVariable' = maxVariable ∧
      ∀ (assignment : ℕ → Value) (filled : Value),
        Fills table false assignment term filled ↔ filled = term) := by
  rw [parsePattern.eq_def] at h
  simp only [hclass] at h
  cases term with
  | tuple terms =>
    obtain ⟨⟨elements, last⟩, hparse, hdone⟩ := except_bind_ok_iff.mp h
    obtain ⟨rfl, rfl⟩ := Prod.mk.inj (Except.ok.inj hdone)
    exact .inl ⟨terms, elements, rfl, rfl, hparse⟩
  | nil =>
    obtain ⟨rfl, rfl⟩ := Prod.mk.inj (Except.ok.inj h)
    exact .inr (.inl ⟨[], [], rfl, rfl, by rw [parseTail]; simp⟩)
  | cons head tail =>
    obtain ⟨terms, hproper, hthen⟩ := except_bind_ok_iff.mp h
    obtain ⟨⟨element, next⟩, hfirst, hthen⟩ := except_bind_ok_iff.mp hthen
    obtain ⟨⟨elements, last⟩, hrest, hdone⟩ := except_bind_ok_iff.mp hthen
    obtain ⟨rfl, rfl⟩ := Prod.mk.inj (Except.ok.inj hdone)
    refine .inr (.inl ⟨head :: terms, element :: elements, ?_, rfl, ?_⟩)
    · exact properList_eq_cons.mpr ⟨tail, rfl, except_mapError_ok hproper⟩
    · rw [parseTail]
      exact except_bind_ok_iff.mpr ⟨_, hfirst, except_bind_ok_iff.mpr ⟨_, hrest, rfl⟩⟩
  | _ =>
    obtain ⟨rfl, rfl⟩ := Prod.mk.inj (Except.ok.inj h)
    refine .inr (.inr ⟨rfl, rfl, fun assignment filled => ?_⟩)
    simp [Fills.eq_def, hclass]

mutual

/-- The pattern of a term asks for a row that equals the term, filled. -/
theorem fits_iff (term : Value) {pattern : Pattern} {maxVariable maxVariable' : ℕ}
    (h : parsePattern table term maxVariable = .ok (pattern, maxVariable')) (value : Value) :
    pattern.Fits assignment value ↔ HeadEquals table false assignment term value := by
  cases hclass : classifyAtom table term with
  | «variable» index =>
    rw [parsePattern.eq_def] at h
    simp only [hclass, Except.ok.injEq, Prod.mk.injEq] at h
    simp [← h.1, Pattern.Fits, HeadEquals, Fills.eq_def, hclass]
  | dontCare =>
    rw [parsePattern.eq_def] at h
    simp only [hclass, Except.ok.injEq, Prod.mk.injEq] at h
    simp only [← h.1, Pattern.Fits, true_iff]
    exact ⟨value, by simp [Fills.eq_def, hclass], exactEq_refl value⟩
  | specialReturn =>
    rw [parsePattern.eq_def] at h
    simp only [hclass, Except.ok.injEq, Prod.mk.injEq] at h
    cases term with
    | atom a => simp [← h.1, Pattern.Fits, HeadEquals, Fills.eq_def, hclass]
    | _ => simp [classifyAtom, atomName] at hclass
  | literal =>
    rcases parsePattern_literal hclass h with htuple | hlist | hliteral
    · obtain ⟨terms, elements, rfl, rfl, hparse⟩ := htuple
      rw [Pattern.Fits, headEquals_tuple]
      exact exists_congr fun values => and_congr_right fun _ => fitAll_iff terms hparse values
    · obtain ⟨terms, elements, hproper, rfl, hparse⟩ := hlist
      rw [Pattern.Fits, headEquals_properList hproper]
      refine exists_congr fun values => and_congr_right fun _ => ?_
      exact fitTail_iff term hproper hparse values
    · obtain ⟨rfl, -, hfills⟩ := hliteral
      simp [Pattern.Fits, HeadEquals, hfills]

theorem fitAll_iff (terms : List Value) {patterns : List Pattern}
    {maxVariable maxVariable' : ℕ}
    (h : parsePatterns table terms maxVariable = .ok (patterns, maxVariable'))
    (values : List Value) :
    FitAll assignment patterns values ↔ ElementsEqual table false assignment terms values := by
  cases terms with
  | nil =>
    simp only [parsePatterns, Except.ok.injEq, Prod.mk.injEq] at h
    rw [← h.1]
    exact fitAll_nil
  | cons term terms =>
    rw [parsePatterns] at h
    obtain ⟨pattern, _, patterns', hfirst, hrest, rfl⟩ := parsed_cons h
    exact fitAll_cons (fits_iff term hfirst) (fitAll_iff terms hrest)

theorem fitTail_iff (list : Value) {terms : List Value} {patterns : List Pattern}
    {maxVariable maxVariable' : ℕ} (hproper : properList list = .ok terms)
    (h : parseTail table list maxVariable = .ok (patterns, maxVariable'))
    (values : List Value) :
    FitAll assignment patterns values ↔ ElementsEqual table false assignment terms values := by
  cases list with
  | nil =>
    cases hproper
    simp only [parseTail, Except.ok.injEq, Prod.mk.injEq] at h
    rw [← h.1]
    exact fitAll_nil
  | cons head tail =>
    cases terms with
    | nil => cases properList_eq_nil.mp hproper
    | cons term terms =>
      obtain ⟨tail', hcons, htail⟩ := properList_eq_cons.mp hproper
      obtain ⟨rfl, rfl⟩ := Value.cons.inj hcons
      rw [parseTail] at h
      obtain ⟨pattern, _, patterns', hfirst, hrest, rfl⟩ := parsed_cons h
      exact fitAll_cons (fits_iff head hfirst) (fitTail_iff tail htail hrest)
  | _ => simp [properList] at hproper

end

end Heads

/-! ## The largest variable -/

section Climbs

variable {α β γ : Type}

/-- A parser only raises the largest variable, to one that is enough for what it returns. -/
def Climbs (P : ℕ → α → Prop) (parse : ℕ → Except MatchSpecError (α × ℕ)) : Prop :=
  ∀ first a last, parse first = .ok (a, last) → first ≤ last ∧ ∀ length, last < length → P length a

variable {P : ℕ → α → Prop} {Q : ℕ → β → Prop} {R : ℕ → γ → Prop}

theorem Climbs.ok {a : α} (h : ∀ length, P length a) : Climbs P fun n => .ok (a, n) := by
  intro first b last hrun
  obtain ⟨rfl, rfl⟩ := Prod.mk.inj (Except.ok.inj hrun)
  exact ⟨le_rfl, fun length _ => h length⟩

theorem Climbs.error (e : MatchSpecError) : Climbs P fun _ => .error e := by
  intro first a last hrun
  cases hrun

theorem Climbs.index {a : α} {index : ℕ} (h : ∀ length, index < length → P length a) :
    Climbs P fun n => .ok (a, max n index) := by
  intro first b last hrun
  obtain ⟨rfl, rfl⟩ := Prod.mk.inj (Except.ok.inj hrun)
  exact ⟨le_max_left _ _, fun length hlength => h length (by omega)⟩

theorem Climbs.map {parse : ℕ → Except MatchSpecError (α × ℕ)} (h : Climbs P parse) {f : α → β}
    (hf : ∀ a length, P length a → Q length (f a)) :
    Climbs Q fun n => parse n >>= fun r => .ok (f r.1, r.2) := by
  intro first b last hrun
  obtain ⟨⟨a, m⟩, ha, hdone⟩ := except_bind_ok_iff.mp hrun
  obtain ⟨rfl, rfl⟩ := Prod.mk.inj (Except.ok.inj hdone)
  obtain ⟨hle, hP⟩ := h first a m ha
  exact ⟨hle, fun length hlength => hf a length (hP length hlength)⟩

theorem Climbs.both {parse : ℕ → Except MatchSpecError (α × ℕ)}
    {rest : ℕ → Except MatchSpecError (β × ℕ)} (h : Climbs P parse) (h' : Climbs Q rest)
    {f : α → β → γ} (hf : ∀ a b length, P length a → Q length b → R length (f a b)) :
    Climbs R fun n => parse n >>= fun r => rest r.2 >>= fun r' => .ok (f r.1 r'.1, r'.2) := by
  intro first c last hrun
  obtain ⟨⟨a, m⟩, ha, hthen⟩ := except_bind_ok_iff.mp hrun
  obtain ⟨⟨b, m'⟩, hb, hdone⟩ := except_bind_ok_iff.mp hthen
  obtain ⟨rfl, rfl⟩ := Prod.mk.inj (Except.ok.inj hdone)
  obtain ⟨hle, hP⟩ := h first a m ha
  obtain ⟨hle', hQ⟩ := h' m b m' hb
  exact ⟨by omega, fun length hlength =>
    hf a b length (hP length (by omega)) (hQ length hlength)⟩

end Climbs

section Parsers

variable {table : AtomTable}

mutual

theorem parsePattern_climbs (term : Value) :
    Climbs (fun length pattern => pattern.Below length) (parsePattern table term) := by
  intro first pattern last h
  cases hclass : classifyAtom table term with
  | «variable» index =>
    rw [parsePattern.eq_def] at h
    simp only [hclass] at h
    exact Climbs.index (fun length hlength => by rwa [Pattern.Below]) first pattern last h
  | dontCare =>
    rw [parsePattern.eq_def] at h
    simp only [hclass] at h
    exact Climbs.ok (fun length => by simp [Pattern.Below]) first pattern last h
  | specialReturn =>
    rw [parsePattern.eq_def] at h
    simp only [hclass] at h
    exact Climbs.ok (fun length => by simp [Pattern.Below]) first pattern last h
  | literal =>
    rcases parsePattern_literal hclass h with htuple | hlist | hliteral
    · obtain ⟨terms, elements, rfl, rfl, hparse⟩ := htuple
      simpa only [Pattern.Below] using parsePatterns_climbs terms first elements last hparse
    · obtain ⟨terms, elements, hproper, rfl, hparse⟩ := hlist
      simpa only [Pattern.Below] using parseTail_climbs term first elements last hparse
    · obtain ⟨rfl, rfl, -⟩ := hliteral
      exact ⟨le_rfl, fun length _ => by simp [Pattern.Below]⟩

theorem parsePatterns_climbs (terms : List Value) :
    Climbs AllBelow (parsePatterns table terms) := by
  cases terms with
  | nil => exact Climbs.ok fun length => by rw [AllBelow]; trivial
  | cons term terms =>
    exact (parsePattern_climbs term).both (parsePatterns_climbs terms) (f := List.cons)
      (R := AllBelow) fun pattern patterns length h h' => by rw [AllBelow]; exact ⟨h, h'⟩

theorem parseTail_climbs (list : Value) : Climbs AllBelow (parseTail table list) := by
  cases list with
  | cons head tail =>
    exact (parsePattern_climbs head).both (parseTail_climbs tail) (f := List.cons)
      (R := AllBelow) fun pattern patterns length h h' => by rw [AllBelow]; exact ⟨h, h'⟩
  | _ => exact Climbs.ok fun length => by rw [AllBelow]; trivial

end

/-- Nothing is asked of guards and bodies but that they raise the variable. -/
abbrev Raises {α : Type} (parse : ℕ → Except MatchSpecError (α × ℕ)) : Prop :=
  Climbs (fun _ _ => True) parse

section Raises

variable {α β γ : Type} {first last : ℕ}

theorem Raises.ok (a : α) : Raises fun n => .ok (a, n) := Climbs.ok fun _ => trivial

theorem Raises.index (a : α) (index : ℕ) : Raises fun n => .ok (a, max n index) :=
  Climbs.index fun _ _ => trivial

theorem Raises.map {parse : ℕ → Except MatchSpecError (α × ℕ)} (h : Raises parse) (f : α → β) :
    Raises fun n => parse n >>= fun r => .ok (f r.1, r.2) :=
  Climbs.map h fun _ _ _ => trivial

theorem Raises.both {parse : ℕ → Except MatchSpecError (α × ℕ)}
    {rest : ℕ → Except MatchSpecError (β × ℕ)} (h : Raises parse) (h' : Raises rest)
    (f : α → β → γ) :
    Raises fun n => parse n >>= fun r => rest r.2 >>= fun r' => .ok (f r.1 r'.1, r'.2) :=
  Climbs.both h h' fun _ _ _ _ _ => trivial

end Raises

theorem parseGuardExpr_raises (term : Value) : Raises (parseGuardExpr table term) := by
  unfold parseGuardExpr
  split
  · exact Raises.index _ _
  · exact Climbs.error _
  · exact Climbs.error _
  · exact Raises.ok _

theorem parseGuard_raises (term : Value) : Raises (parseGuard table term) := by
  intro first guard last h
  unfold parseGuard at h
  split at h
  · split at h
    · cases h
    · split at h
      · exact (parseGuardExpr_raises _).both (parseGuardExpr_raises _) (Guard.compare _)
          first guard last h
      · cases h
      · exact (parseGuardExpr_raises _).map (Guard.typeTest _) first guard last h
      · cases h
      · cases h
  · cases h

theorem parseGuards_raises (terms : List Value) : Raises (parseGuards table terms) := by
  induction terms with
  | nil => exact Raises.ok _
  | cons term terms ih => exact (parseGuard_raises term).both ih List.cons

mutual

theorem parseBodyExpr_raises (term : Value) : Raises (parseBodyExpr table term) := by
  intro first expr last h
  rw [parseBodyExpr.eq_def] at h
  simp only at h
  split at h
  · exact Raises.index _ _ first expr last h
  · exact Raises.ok _ first expr last h
  · split at h
    · exact Raises.ok _ first expr last h
    · split at h
      · exact Raises.ok _ first expr last h
      · cases h
  · split at h
    · exact (parseBodyExprs_raises _).map BodyExpr.tuple first expr last h
    · cases h
    · exact (parseBodyExprs_raises _).map BodyExpr.tuple first expr last h
    · exact Raises.ok _ first expr last h
    · obtain ⟨_, -, hthen⟩ := except_bind_ok_iff.mp h
      exact (parseBodyExpr_raises _).both (parseBodyTail_raises _)
        (fun element elements => BodyExpr.list (element :: elements)) first expr last hthen
    · exact Raises.ok _ first expr last h

theorem parseBodyExprs_raises (terms : List Value) : Raises (parseBodyExprs table terms) := by
  cases terms with
  | nil => exact Raises.ok _
  | cons term terms => exact (parseBodyExpr_raises term).both (parseBodyExprs_raises terms) List.cons

theorem parseBodyTail_raises (list : Value) : Raises (parseBodyTail table list) := by
  cases list with
  | cons head tail => exact (parseBodyExpr_raises head).both (parseBodyTail_raises tail) List.cons
  | _ => exact Raises.ok _

end

/-- What a clause was parsed from. -/
theorem MatchClause.parse_ok {headTerm guardsTerm bodyTerm : Value} {clause : MatchClause}
    (h : MatchClause.parse table headTerm guardsTerm bodyTerm = .ok clause) :
    ∃ terms maxVariable, headTerm = .tuple terms ∧
      parsePatterns table terms 0 = .ok (clause.head, maxVariable) ∧
      maxVariable ≤ clause.maxVariable := by
  unfold MatchClause.parse at h
  split at h
  next terms =>
    obtain ⟨⟨head, m₁⟩, hhead, h⟩ := except_bind_ok_iff.mp h
    obtain ⟨guardTerms, -, h⟩ := except_bind_ok_iff.mp h
    obtain ⟨⟨guards, m₂⟩, hguards, h⟩ := except_bind_ok_iff.mp h
    obtain ⟨bodyTerms, -, h⟩ := except_bind_ok_iff.mp h
    split at h
    · cases h
    obtain ⟨⟨body, m₃⟩, hbody, h⟩ := except_bind_ok_iff.mp h
    obtain rfl := Except.ok.inj h
    have hle := (parseGuards_raises guardTerms _ _ _ hguards).1
    have hle' := (parseBodyExprs_raises bodyTerms _ _ _ hbody).1
    exact ⟨terms, m₁, rfl, hhead, hle.trans hle'⟩
  next => cases h

theorem parseClauses_ok {terms : List Value} {clauses : List MatchClause}
    (h : parseClauses table terms = .ok clauses) :
    List.Forall₂ (fun term clause => ∃ headTerm guardsTerm bodyTerm,
      term = .tuple [headTerm, guardsTerm, bodyTerm] ∧
      MatchClause.parse table headTerm guardsTerm bodyTerm = .ok clause) terms clauses := by
  induction terms generalizing clauses with
  | nil =>
    obtain rfl := Except.ok.inj h
    exact .nil
  | cons term terms ih =>
    unfold parseClauses at h
    split at h
    next => simp_all
    next headTerm guardsTerm bodyTerm terms' hterms =>
      obtain ⟨rfl, rfl⟩ := List.cons.inj hterms
      obtain ⟨clause, hclause, h⟩ := except_bind_ok_iff.mp h
      obtain ⟨clauses', hrest, h⟩ := except_bind_ok_iff.mp h
      obtain rfl := Except.ok.inj h
      exact .cons ⟨headTerm, guardsTerm, bodyTerm, rfl, hclause⟩ (ih hrest)
    next => cases h

theorem MatchSpec.parse_ok {specTerm : Value} {spec : MatchSpec}
    (h : MatchSpec.parse table specTerm = .ok spec) :
    ∃ clauseTerms, properList specTerm = .ok clauseTerms ∧
      parseClauses table clauseTerms = .ok spec.clauses := by
  obtain ⟨clauseTerms, hproper, h⟩ := except_bind_ok_iff.mp h
  split at h
  · cases h
  · obtain ⟨clauses, hclauses, h⟩ := except_bind_ok_iff.mp h
    obtain rfl := Except.ok.inj h
    exact ⟨clauseTerms, hproper, hclauses⟩

end Parsers

/-! ## Evaluation -/

section Evaluation

variable {table : AtomTable}

/-- The bindings of a head that matches. -/
def MatchClause.headBindings (clause : MatchClause) (row : Value) : Option Bindings :=
  (newBindings clause.maxVariable).bind (clause.matchesHead row)

/-- A guard is true: its operands have values, and they pass. -/
def Guard.Holds (table : AtomTable) (bindings : Bindings) : Guard → Prop
  | .compare op left right => ∃ l r, left.eval bindings = some l ∧ right.eval bindings = some r ∧
      op.holds table l r = true
  | .typeTest test value => ∃ v, value.eval bindings = some v ∧ test.holds v = true

theorem Guard.eval_iff (bindings : Bindings) (guard : Guard) :
    guard.eval table bindings = true ↔ guard.Holds table bindings := by
  cases guard with
  | compare op left right =>
    cases hl : left.eval bindings <;> cases hr : right.eval bindings <;>
      simp [Guard.eval, Guard.Holds, hl, hr]
  | typeTest test value => cases hv : value.eval bindings <;> simp [Guard.eval, Guard.Holds, hv]

/-- The clause takes the row, with these bindings. -/
def MatchClause.Fires (table : AtomTable) (row : Value) (clause : MatchClause)
    (bindings : Bindings) : Prop :=
  clause.headBindings row = some bindings ∧ ∀ guard ∈ clause.guards, guard.Holds table bindings

/-- A head matches exactly when an assignment makes it equal to the row, and the bindings allow
exactly these assignments. -/
structure MatchedExactly (table : AtomTable) (inMaps : Bool) (head row : Value)
    (clause : MatchClause) : Prop where
  matches_iff : (clause.headBindings row).isSome = true ↔
    ∃ assignment, HeadEquals table inMaps assignment head row
  bindings_iff : ∀ bindings, clause.headBindings row = some bindings → ∀ assignment,
    HeadEquals table inMaps assignment head row ↔ assignment ∈ bindings.allowed

/-- The vectors of bindings can be allocated. -/
def MatchSpec.Allocatable (spec : MatchSpec) : Prop :=
  ∀ clause ∈ spec.clauses, 16 * (clause.maxVariable + 1) ≤ isizeMax

theorem newBindings_eq {maxVariable : ℕ} (h : 16 * (maxVariable + 1) ≤ isizeMax) :
    newBindings maxVariable = some (List.replicate (maxVariable + 1) none) := by
  have hmin : min (maxVariable + 1) usizeMax = maxVariable + 1 := by
    rw [isizeMax] at h
    rw [usizeMax]
    omega
  simp only [newBindings, hmin, if_pos h]

/-- The head is matched as one tuple pattern. -/
theorem MatchClause.matchesHead_eq (clause : MatchClause) (row : Value) (bindings : Bindings) :
    clause.matchesHead row bindings = matchPattern (.tuple clause.head) row bindings := by
  cases row <;> simp only [matchesHead, matchPattern]

theorem matchedExactly_of_parse {headTerm guardsTerm bodyTerm : Value} {clause : MatchClause}
    (hparse : MatchClause.parse table headTerm guardsTerm bodyTerm = .ok clause)
    (hroom : 16 * (clause.maxVariable + 1) ≤ isizeMax) (row : Value) :
    MatchedExactly table false headTerm row clause := by
  obtain ⟨terms, maxVariable, rfl, hhead, hle⟩ := MatchClause.parse_ok hparse
  have hbelow : (Pattern.tuple clause.head).Below (clause.maxVariable + 1) := by
    rw [Pattern.Below]
    exact (parsePatterns_climbs terms 0 _ _ hhead).2 _ (by omega)
  have hadds := matchPattern_adds _ hbelow row
  have hfits : ∀ assignment, HeadEquals table false assignment (.tuple terms) row ↔
      (Pattern.tuple clause.head).Fits assignment row := by
    intro assignment
    rw [headEquals_tuple, Pattern.Fits]
    refine exists_congr fun values => and_congr_right fun _ => ?_
    exact (fitAll_iff terms hhead values).symm
  have hfresh : (List.replicate (clause.maxVariable + 1) none : Bindings) ∈
      {bindings : Bindings | bindings.length = clause.maxVariable + 1} := List.length_replicate
  have hall := Bindings.allowed_replicate (clause.maxVariable + 1)
  have hbindings : clause.headBindings row = matchPattern (.tuple clause.head) row
      (List.replicate (clause.maxVariable + 1) none) := by
    rw [MatchClause.headBindings, newBindings_eq hroom, Option.bind_some, clause.matchesHead_eq]
  refine ⟨?_, fun bindings hmatched assignment => ?_⟩
  · simp only [hbindings, hfits]
    exact hadds.isSome_iff hfresh hall fun bindings _ => bindings.allowed_nonempty
  · rw [hbindings] at hmatched
    rw [hfits, hadds.left_eq hfresh hall hmatched]
    rfl

section Clauses

variable {M : Type} (allocator : TermAllocator M) (row : Value) (memory : M)

/-- A clause that does not take the row is passed over. -/
theorem evalClauses_skip {clause : MatchClause} (clauses : List MatchClause)
    (hroom : 16 * (clause.maxVariable + 1) ≤ isizeMax)
    (hskip : ∀ bindings, ¬ clause.Fires table row bindings) :
    evalClauses table allocator row (clause :: clauses) memory =
      evalClauses table allocator row clauses memory := by
  have hbindings : clause.headBindings row =
      clause.matchesHead row (List.replicate (clause.maxVariable + 1) none) := by
    rw [MatchClause.headBindings, newBindings_eq hroom, Option.bind_some]
  rw [evalClauses, newBindings_eq hroom]
  simp only [← hbindings]
  cases hmatched : clause.headBindings row with
  | none => rfl
  | some bindings =>
    have hguards : ¬ clause.guards.all (·.eval table bindings) = true := by
      intro hall
      refine hskip bindings ⟨hmatched, fun guard hguard => ?_⟩
      exact (guard.eval_iff bindings).mp (List.all_eq_true.mp hall guard hguard)
    simp [hguards]

/-- A clause that takes the row answers with its body. -/
theorem evalClauses_fires {clause : MatchClause} (clauses : List MatchClause)
    (hroom : 16 * (clause.maxVariable + 1) ≤ isizeMax) {bindings : Bindings}
    (hfires : clause.Fires table row bindings) :
    evalClauses table allocator row (clause :: clauses) memory =
      answered (clause.evalBody allocator row bindings memory) := by
  have hbindings : clause.headBindings row =
      clause.matchesHead row (List.replicate (clause.maxVariable + 1) none) := by
    rw [MatchClause.headBindings, newBindings_eq hroom, Option.bind_some]
  have hguards : clause.guards.all (·.eval table bindings) = true :=
    List.all_eq_true.mpr fun guard hguard =>
      (guard.eval_iff bindings).mpr (hfires.2 guard hguard)
  rw [evalClauses, newBindings_eq hroom]
  simp only [← hbindings, hfires.1, hguards, if_true]

/-- Clauses that do not take the row are passed over. -/
theorem evalClauses_append {before : List MatchClause} (after : List MatchClause)
    (hroom : ∀ clause ∈ before, 16 * (clause.maxVariable + 1) ≤ isizeMax)
    (hskip : ∀ clause ∈ before, ∀ bindings, ¬ clause.Fires table row bindings) :
    evalClauses table allocator row (before ++ after) memory =
      evalClauses table allocator row after memory := by
  induction before with
  | nil => rfl
  | cons clause before ih =>
    rw [List.cons_append, evalClauses_skip allocator row memory _ (hroom clause (by simp))
      (hskip clause (by simp))]
    exact ih (fun c hc => hroom c (by simp [hc])) fun c hc => hskip c (by simp [hc])

end Clauses

/-- Clause by clause, the heads of the specification match by substitution. -/
def HeadsExact (table : AtomTable) (inMaps : Bool) (specTerm row : Value) (spec : MatchSpec) :
    Prop :=
  ∃ clauseTerms, properList specTerm = .ok clauseTerms ∧
    List.Forall₂ (fun term clause => ∃ headTerm guardsTerm bodyTerm,
      term = .tuple [headTerm, guardsTerm, bodyTerm] ∧
      MatchedExactly table inMaps headTerm row clause) clauseTerms spec.clauses

/-- Heads match exactly when an assignment of their variables makes them equal to the row, a
variable within a map standing for itself, and the answer is the body of the first clause that
takes the row. -/
theorem evalWithAllocator_exact {specTerm : Value} {spec : MatchSpec}
    (hparse : MatchSpec.parse table specTerm = .ok spec) (hroom : spec.Allocatable) (row : Value)
    {M : Type} (allocator : TermAllocator M) (memory : M) :
    HeadsExact table false specTerm row spec ∧
    ((∀ clause ∈ spec.clauses, ∀ bindings, ¬ clause.Fires table row bindings) →
      spec.evalWithAllocator table allocator row memory = .ok (none, memory)) ∧
    ∀ before clause after bindings, spec.clauses = before ++ clause :: after →
      (∀ earlier ∈ before, ∀ bindings', ¬ earlier.Fires table row bindings') →
      clause.Fires table row bindings →
      spec.evalWithAllocator table allocator row memory =
        answered (clause.evalBody allocator row bindings memory) := by
  obtain ⟨clauseTerms, hproper, hclauses⟩ := MatchSpec.parse_ok hparse
  refine ⟨⟨clauseTerms, hproper, ?_⟩, fun hnone => ?_, ?_⟩
  · refine forall₂_imp_mem (fun term _ clause hmem hterm => ?_) (parseClauses_ok hclauses)
    obtain ⟨headTerm, guardsTerm, bodyTerm, rfl, hclause⟩ := hterm
    exact ⟨headTerm, guardsTerm, bodyTerm, rfl,
      matchedExactly_of_parse hclause (hroom clause hmem) row⟩
  · have hall := evalClauses_append allocator row memory [] hroom hnone
    rwa [List.append_nil] at hall
  · intro before clause after bindings hsplit hskip hfires
    have hbefore : ∀ c ∈ before, 16 * (c.maxVariable + 1) ≤ isizeMax :=
      fun c hc => hroom c (by simp [hsplit, hc])
    rw [MatchSpec.evalWithAllocator, hsplit, evalClauses_append allocator row memory _ hbefore
      hskip]
    exact evalClauses_fires allocator row memory after (hroom clause (by simp [hsplit])) hfires

/-- The table of the one atom `$1`. -/
def dollarOne : AtomTable := ⟨[[0x24, 0x31]], by decide, by decide⟩

def digit (n : Fin 10) : Value :=
  .number (.smallInt (.ofRange n.val (by have := n.isLt; constructor <;> omega)))

/-- `[{{'$1', '$1'}, [], ['$1']}]` -/
def repeatedHead : Value :=
  .cons (.tuple [.tuple [.atom 0, .atom 0], .nil, .cons (.atom 0) .nil]) .nil

def repeatedSpec : MatchSpec where
  clauses := [{
    head := [.variable 1, .variable 1], guards := [], body := [.variable 1], maxVariable := 1 }]

theorem evalWithAllocator_exact_repeated :
    MatchSpec.parse dollarOne repeatedHead = .ok repeatedSpec ∧ repeatedSpec.Allocatable ∧
      HeadsExact dollarOne false repeatedHead (.tuple [digit 3, digit 3]) repeatedSpec ∧
      repeatedSpec.evalWithAllocator dollarOne matchArena (.tuple [digit 3, digit 3]) 0 =
        .ok (some (digit 3), 0) := by
  have hparse : MatchSpec.parse dollarOne repeatedHead = .ok repeatedSpec := by rfl
  have hroom : repeatedSpec.Allocatable := by
    intro clause hclause
    obtain rfl := List.mem_singleton.mp hclause
    decide
  obtain ⟨hheads, -, hfirst⟩ := evalWithAllocator_exact hparse hroom
    (.tuple [digit 3, digit 3]) matchArena 0
  refine ⟨hparse, hroom, hheads, ?_⟩
  refine (hfirst [] _ [] [none, some (digit 3)] rfl (by simp) ⟨?_, by simp⟩).trans rfl
  rfl

/-- `[{{#{1 => '$1'}}, [], [1]}]` -/
def mapHead : Value :=
  .cons (.tuple [.tuple [.map [(digit 1, .atom 0)]], .nil, .cons (digit 1) .nil]) .nil

def mapSpec : MatchSpec where
  clauses := [{
    head := [.literal (.map [(digit 1, .atom 0)])], guards := [], body := [.literal (digit 1)],
    maxVariable := 0 }]

/-- A variable within a map is not replaced: `{#{1 => '$1'}}` does not match `{#{1 => 2}}`. -/
theorem not_headsExact_inMaps : ¬ ∀ (table : AtomTable) (specTerm row : Value) (spec : MatchSpec),
    MatchSpec.parse table specTerm = .ok spec → HeadsExact table true specTerm row spec := by
  intro h
  obtain ⟨clauseTerms, hproper, hall⟩ :=
    h dollarOne mapHead (.tuple [.map [(digit 1, digit 2)]]) mapSpec rfl
  obtain rfl := Except.ok.inj hproper
  obtain ⟨clause, rest, hclause, -, hspec⟩ := List.forall₂_cons_left_iff.mp hall
  obtain ⟨rfl, -⟩ := List.cons.inj hspec
  obtain ⟨headTerm, guardsTerm, bodyTerm, hterm, hexact⟩ := hclause
  obtain ⟨rfl, -⟩ := List.cons.inj (Value.tuple.inj hterm)
  have hclass : classifyAtom dollarOne (.atom 0) = .variable 1 := by decide
  have hkey : Fills dollarOne true (fun _ => digit 2) (digit 1) (digit 1) := by
    simp [Fills.eq_def, classifyAtom, atomName, digit]
  have hvalue : Fills dollarOne true (fun _ => digit 2) (.atom 0) (digit 2) := by
    simp [Fills.eq_def, hclass]
  have hmap : Fills dollarOne true (fun _ => digit 2) (.map [(digit 1, .atom 0)])
      (.map [(digit 1, digit 2)]) := by
    simp [Fills, FillsEntries, FillsEntry, classifyAtom, atomName, hkey, hvalue]
  have hhead : FillsAll dollarOne true (fun _ => digit 2) [.map [(digit 1, .atom 0)]]
      [.map [(digit 1, digit 2)]] := by
    rw [FillsAll, FillsAll]
    exact ⟨hmap, trivial⟩
  have hmatches := hexact.matches_iff.mpr ⟨fun _ => digit 2, _,
    fills_tuple.mpr ⟨_, rfl, hhead⟩, exactEq_refl _⟩
  exact absurd hmatches (by decide)

end Evaluation

end Beamr.Ets
