import Beamr.Ets.MatchHeads

/-!
# The evaluators of a match specification

`eval` takes no atom table and no arena: its guards order atoms by a table of the common atoms
alone, and it has no place for a constructed result. Both evaluators go through the same selection
of a clause and part only after it.
-/
namespace Beamr.Term

open Comparison

/-! ## Order under two tables -/

section Tables

variable {table table' : AtomTable} {A : Set Atom}

/-- The tables order the atoms of `A` alike. -/
def OrdersAlike (table table' : AtomTable) (A : Set Atom) : Prop :=
  ∀ a ∈ A, ∀ b ∈ A, compareAtomsByName table a b = compareAtomsByName table' a b

theorem compareClosuresWith_congr {c d : Value → Value → Ordering}
    {atoms atoms' : Atom → Atom → Ordering} (hatoms : ∀ a ∈ A, ∀ b ∈ A, atoms a b = atoms' a b)
    {l r : Closure} {free free' : List Value} (hl : ∀ m, l.module = some m → m ∈ A)
    (hr : ∀ m, r.module = some m → m ∈ A)
    (hfree : ∀ x ∈ free, ∀ y ∈ free', c x y = d x y) :
    compareClosuresWith c atoms (l, free) (r, free') =
      compareClosuresWith d atoms' (l, free) (r, free') := by
  have hmodules : compareModules atoms l.module r.module =
      compareModules atoms' l.module r.module := by
    cases hml : l.module with
    | none => cases r.module <;> rfl
    | some m =>
      cases hmr : r.module with
      | none => rfl
      | some m' => exact hatoms m (hl m hml) m' (hr m' hmr)
  simp only [compareClosuresWith, hmodules, lengthLex_congr hfree]

/-- Terms over atoms that two tables order alike compare alike. -/
theorem cmp_congr (halike : OrdersAlike table table' A) {l r : Value}
    (hl : l ∈ Value.Over Set.univ A) (hr : r ∈ Value.Over Set.univ A) :
    cmp table l r = cmp table' l r := by
  induction hn : max l.depth r.depth using Nat.strong_induction_on generalizing l r with
  | _ n ih =>
    have hbelow : ∀ a ∈ Value.Over Set.univ A, a.depth < n → ∀ b ∈ Value.Over Set.univ A,
        b.depth < n → cmp table a b = cmp table' a b :=
      fun a ha had b hb hbd => ih _ (max_lt had hbd) ha hb rfl
    have hleft : ∀ x ∈ l.children, x ∈ Value.Over Set.univ A ∧ x.depth < n := fun x hx =>
      ⟨Value.over_child hl hx, by have := Value.depth_child hx; omega⟩
    have hright : ∀ x ∈ r.children, x ∈ Value.Over Set.univ A ∧ x.depth < n := fun x hx =>
      ⟨Value.over_child hr hx, by have := Value.depth_child hx; omega⟩
    have hchildren : ∀ x ∈ l.children, ∀ y ∈ r.children, cmp table x y = cmp table' x y :=
      fun x hx y hy => hbelow x (hleft x hx).1 (hleft x hx).2 y (hright y hy).1 (hright y hy).2
    rw [(cmp_isTermOrder table).unfold, (cmp_isTermOrder table').unfold, compareStep, compareStep]
    congr 1
    cases l with
    | atom a =>
      cases r with
      | atom b => exact halike a hl.here b hr.here
      | _ => rfl
    | closure c free =>
      cases r with
      | closure c' free' => exact compareClosuresWith_congr halike hl.here hr.here hchildren
      | _ => rfl
    | tuple xs =>
      cases r with
      | tuple ys => exact lengthLex_congr hchildren
      | _ => rfl
    | map es =>
      cases r with
      | map fs =>
        have hes := mem_entries_children (s := {x | x ∈ Value.Over Set.univ A ∧ x.depth < n}) hleft
        have hfs := mem_entries_children (s := {x | x ∈ Value.Over Set.univ A ∧ x.depth < n}) hright
        have hboth : ∀ e ∈ es ++ fs, e.1 ∈ Value.Over Set.univ A ∧ e.1.depth < n := by
          intro e he
          rcases List.mem_append.mp he with he | he
          · exact (hes e he).1
          · exact (hfs e he).1
        refine compareMapsWith_congr (fun a ha b hb => ?_) fun a ha b hb => ?_
        · exact hbelow _ (hboth a ha).1 (hboth a ha).2 _ (hboth b hb).1 (hboth b hb).2
        · exact hbelow _ (hes a ha).2.1 (hes a ha).2.2 _ (hfs b hb).2.1 (hfs b hb).2.2
      | _ => rfl
    | cons x y =>
      cases r with
      | cons x' y' =>
        have hhead := hchildren x (by simp [Value.children]) x' (by simp [Value.children])
        have htail := hchildren y (by simp [Value.children]) y' (by simp [Value.children])
        rw [compareSame, compareSame, compareListsWith, compareListsWith,
          (cmp_isTermOrder table).compareListsWith_eq,
          (cmp_isTermOrder table').compareListsWith_eq, hhead, htail]
      | _ => rfl
    | _ => cases r <;> rfl

end Tables

end Beamr.Term

namespace Beamr.Ets

open Term

/-! ## Bindings are parts of the row -/

section Parts

variable {A : Set Atom}

/-- Everything bound is a term over the atoms of `A`. -/
def Bindings.Over (A : Set Atom) (bindings : Bindings) : Prop :=
  ∀ index value, bindings.value index = some value → value ∈ Value.Over Set.univ A

theorem Bindings.Over.replicate (length : ℕ) :
    Bindings.Over A (List.replicate length none) := by
  intro index value h
  simp only [Bindings.value, List.getElem?_replicate] at h
  split at h <;> cases h

theorem Bindings.Over.set {bindings : Bindings} (h : bindings.Over A) {value : Value}
    (hvalue : value ∈ Value.Over Set.univ A) (index : ℕ) :
    Bindings.Over A (bindings.set index (some value)) := by
  intro i v hv
  by_cases hi : index = i
  · subst hi
    simp only [Bindings.value, List.getElem?_set, if_true, Option.join_eq_some_iff] at hv
    split at hv
    · obtain rfl : value = v := by simpa using hv
      exact hvalue
    · cases hv
  · exact h i v (by simpa [Bindings.value, hi] using hv)

theorem over_properList {list : Value} {values : List Value}
    (hproper : properList list = .ok values) (h : list ∈ Value.Over Set.univ A) :
    ∀ value ∈ values, value ∈ Value.Over Set.univ A := by
  induction values generalizing list with
  | nil => simp
  | cons head rest ih =>
    obtain ⟨tail, rfl, htail⟩ := properList_eq_cons.mp hproper
    have hhead : head ∈ Value.Over Set.univ A := Value.over_child h (by simp [Value.children])
    have hrest := ih htail (Value.over_child h (by simp [Value.children]))
    simpa [hhead] using hrest

mutual

/-- Matching binds parts of the row. -/
theorem matchPattern_over (pattern : Pattern) {value : Value} {bindings result : Bindings}
    (hvalue : value ∈ Value.Over Set.univ A) (h : bindings.Over A)
    (hresult : matchPattern pattern value bindings = some result) : result.Over A := by
  cases pattern with
  | «variable» index =>
    rw [matchPattern] at hresult
    rcases hslot : bindings[index]? with _ | _ | bound
    · simp [hslot] at hresult
    · simp only [hslot, Option.some.injEq] at hresult
      exact hresult ▸ h.set hvalue index
    · simp only [hslot, Option.ite_none_right_eq_some, Option.some.injEq] at hresult
      exact hresult.2 ▸ h
  | dontCare =>
    rw [matchPattern] at hresult
    exact Option.some.inj hresult ▸ h
  | literal term =>
    simp only [matchPattern, Option.ite_none_right_eq_some, Option.some.injEq] at hresult
    exact hresult.2 ▸ h
  | tuple elements =>
    cases value with
    | tuple values =>
      simp only [matchPattern, Option.ite_none_right_eq_some] at hresult
      exact matchPatterns_over elements (fun v hv => Value.over_child hvalue hv) h hresult.2
    | _ => simp [matchPattern] at hresult
  | list elements =>
    rw [matchPattern] at hresult
    cases hproper : properList value with
    | error e => simp [hproper] at hresult
    | ok values =>
      simp only [hproper, Option.ite_none_right_eq_some] at hresult
      exact matchPatterns_over elements (over_properList hproper hvalue) h hresult.2

theorem matchPatterns_over (elements : List Pattern) {values : List Value}
    {bindings result : Bindings} (hvalues : ∀ value ∈ values, value ∈ Value.Over Set.univ A)
    (h : bindings.Over A) (hresult : matchPatterns elements values bindings = some result) :
    result.Over A := by
  cases elements with
  | nil =>
    simp only [matchPatterns, Option.some.injEq] at hresult
    exact hresult ▸ h
  | cons element elements =>
    cases values with
    | nil =>
      simp only [matchPatterns, Option.some.injEq] at hresult
      exact hresult ▸ h
    | cons value values =>
      rw [matchPatterns] at hresult
      obtain ⟨middle, hmiddle, hrest⟩ := Option.bind_eq_some_iff.mp hresult
      have hover := matchPattern_over element (hvalues value (by simp)) h hmiddle
      exact matchPatterns_over elements (fun v hv => hvalues v (by simp [hv])) hover hrest

end

end Parts

/-! ## Guards under two tables -/

section Guards

variable {A : Set Atom} {table table' : AtomTable}

/-- The literals of the guard are terms over the atoms of `A`. -/
def GuardExpr.Over (A : Set Atom) : GuardExpr → Prop
  | .variable _ => True
  | .literal term => term ∈ Value.Over Set.univ A

def Guard.Over (A : Set Atom) : Guard → Prop
  | .compare _ left right => left.Over A ∧ right.Over A
  | .typeTest _ value => value.Over A

theorem GuardExpr.eval_over {bindings : Bindings} (h : bindings.Over A) {expr : GuardExpr}
    (hexpr : expr.Over A) {value : Value} (hvalue : expr.eval bindings = some value) :
    value ∈ Value.Over Set.univ A := by
  cases expr with
  | «variable» index => exact h index value hvalue
  | literal term =>
    obtain rfl := Option.some.inj hvalue
    exact hexpr

theorem CompareOp.holds_congr (halike : OrdersAlike table table' A) {left right : Value}
    (hleft : left ∈ Value.Over Set.univ A) (hright : right ∈ Value.Over Set.univ A)
    (op : CompareOp) : op.holds table left right = op.holds table' left right := by
  have hcmp := cmp_congr halike hleft hright
  cases op <;> simp only [CompareOp.holds, hcmp]

/-- Tables that order the atoms alike decide the guards alike. -/
theorem Guard.eval_congr (halike : OrdersAlike table table' A) {bindings : Bindings}
    (h : bindings.Over A) {guard : Guard} (hguard : guard.Over A) :
    guard.eval table bindings = guard.eval table' bindings := by
  cases guard with
  | compare op left right =>
    cases hl : left.eval bindings with
    | none => simp [Guard.eval, hl]
    | some l =>
      cases hr : right.eval bindings with
      | none => simp [Guard.eval, hl, hr]
      | some r =>
        simp only [Guard.eval, hl, hr]
        exact op.holds_congr halike (GuardExpr.eval_over h hguard.1 hl)
          (GuardExpr.eval_over h hguard.2 hr)
  | typeTest test value => rfl

end Guards

/-! ## The clause that answers -/

section Selection

variable (table : AtomTable) (row : Value)

/-- The first clause that takes the row, with its bindings. -/
def selectClause : List MatchClause → Except EvalFailure (Option (MatchClause × Bindings))
  | [] => .ok none
  | clause :: clauses =>
    match newBindings clause.maxVariable with
    | none => .error .capacityOverflow
    | some fresh =>
      match clause.matchesHead row fresh with
      | none => selectClause clauses
      | some bindings =>
        if clause.guards.all (·.eval table bindings) then .ok (some (clause, bindings))
        else selectClause clauses

/-- The answer of the evaluators that construct results. -/
def answerWith {M : Type} (allocator : TermAllocator M) (memory : M) :
    Option (MatchClause × Bindings) → Except EvalFailure (Option Value × M)
  | none => .ok (none, memory)
  | some (clause, bindings) => answered (clause.evalBody allocator row bindings memory)

/-- The answer of `eval`. -/
def answerWithout : Option (MatchClause × Bindings) → Option Value
  | none => none
  | some (clause, bindings) =>
    if clause.body.getLast?.any (·.allocatesResult) then none
    else ((clause.evalBody matchArena row bindings 0).map Prod.fst).toOption

theorem evalClauses_eq {M : Type} (allocator : TermAllocator M) (memory : M)
    (clauses : List MatchClause) : evalClauses table allocator row clauses memory =
      selectClause table row clauses >>= answerWith row allocator memory := by
  induction clauses with
  | nil => rfl
  | cons clause clauses ih =>
    rw [evalClauses, selectClause]
    cases newBindings clause.maxVariable with
    | none => rfl
    | some fresh =>
      cases hmatched : clause.matchesHead row fresh with
      | none => simpa only [hmatched] using ih
      | some bindings =>
        simp only [hmatched]
        by_cases hguards : clause.guards.all (·.eval table bindings) = true
        · rw [if_pos hguards, if_pos hguards]
          rfl
        · rw [if_neg hguards, if_neg hguards]
          exact ih

theorem evalCommonClauses_eq (clauses : List MatchClause) : evalCommonClauses row clauses =
    answerWithout row <$> selectClause .withCommonAtoms row clauses := by
  induction clauses with
  | nil => rfl
  | cons clause clauses ih =>
    rw [evalCommonClauses, selectClause]
    cases newBindings clause.maxVariable with
    | none => rfl
    | some fresh =>
      cases hmatched : clause.matchesHead row fresh with
      | none => simpa only [hmatched] using ih
      | some bindings =>
        simp only [hmatched]
        by_cases hguards : clause.guards.all (·.eval .withCommonAtoms bindings) = true
        · rw [if_pos hguards, if_pos hguards]
          change _ = Except.ok (answerWithout row (some (clause, bindings)))
          rw [answerWithout]
          by_cases hconstructs : clause.body.getLast?.any (·.allocatesResult) = true
          · rw [if_pos hconstructs, if_pos hconstructs]
          · rw [if_neg hconstructs, if_neg hconstructs]
            cases clause.evalBody matchArena row bindings 0 <;> rfl
        · rw [if_neg hguards, if_neg hguards]
          exact ih

/-- Tables that order the atoms alike select the same clause. -/
theorem selectClause_congr {table' : AtomTable} {A : Set Atom}
    (halike : OrdersAlike table table' A) (hrow : row ∈ Value.Over Set.univ A)
    {clauses : List MatchClause}
    (hguards : ∀ clause ∈ clauses, ∀ guard ∈ clause.guards, guard.Over A) :
    selectClause table row clauses = selectClause table' row clauses := by
  induction clauses with
  | nil => rfl
  | cons clause clauses ih =>
    have hrest := ih fun c hc => hguards c (by simp [hc])
    rw [selectClause, selectClause]
    cases hfresh : newBindings clause.maxVariable with
    | none => rfl
    | some fresh =>
      cases hmatched : clause.matchesHead row fresh with
      | none => simpa only [hmatched] using hrest
      | some bindings =>
        have hempty : fresh.Over A := by
          simp only [newBindings, Option.ite_none_right_eq_some, Option.some.injEq] at hfresh
          exact hfresh.2 ▸ Bindings.Over.replicate _
        have hover : bindings.Over A := by
          rw [clause.matchesHead_eq] at hmatched
          exact matchPattern_over _ hrow hempty hmatched
        have hsame : clause.guards.all (·.eval table bindings) =
            clause.guards.all (·.eval table' bindings) := by
          refine Bool.eq_iff_iff.mpr ?_
          simp only [List.all_eq_true]
          refine forall₂_congr fun guard hguard => ?_
          rw [guard.eval_congr halike hover (hguards clause (by simp) guard hguard)]
        simp only [hmatched, hsame, hrest]

end Selection

/-! ## Bodies in the arena -/

section Bodies

variable (row : Value) (bindings : Bindings)

mutual

/-- The value of a body expression, whatever holds it. -/
def BodyExpr.value : BodyExpr → Except Value Value
  | .variable index =>
    match bindings.value index with
    | some value => .ok value
    | none => .error badarg
  | .literal term => .ok term
  | .tuple elements => do .ok (.tuple (← exprValues elements))
  | .list elements => do .ok ((← exprValues elements).foldr .cons .nil)
  | .returnObject => .ok row
  | .returnBindings => .ok (((bindings.drop 1).filterMap id).foldr .cons .nil)

def exprValues : List BodyExpr → Except Value (List Value)
  | [] => .ok []
  | expr :: exprs => do
    let value ← BodyExpr.value expr
    .ok (value :: (← exprValues exprs))

end

def bodyValue : List BodyExpr → Value → Except Value Value
  | [], result => .ok result
  | expr :: exprs, _ => do
    let value ← expr.value row bindings
    bodyValue exprs value

variable {row bindings}

mutual

/-- The arena holds the value of an expression, wherever it starts. -/
theorem BodyExpr.eval_matchArena (expr : BodyExpr) (blocks : ℕ) :
    (expr.eval matchArena row bindings blocks).map Prod.fst = expr.value row bindings := by
  cases expr with
  | «variable» index =>
    rw [BodyExpr.eval, BodyExpr.value]
    cases bindings.value index <;> rfl
  | tuple elements =>
    have helements := evalBodyExprs_matchArena elements blocks
    rw [BodyExpr.eval, BodyExpr.value, ← helements]
    cases evalBodyExprs matchArena row bindings elements blocks <;> rfl
  | list elements =>
    have helements := evalBodyExprs_matchArena elements blocks
    rw [BodyExpr.eval, BodyExpr.value, ← helements]
    cases evalBodyExprs matchArena row bindings elements blocks <;> rfl
  | _ => rfl

theorem evalBodyExprs_matchArena (exprs : List BodyExpr) (blocks : ℕ) :
    (evalBodyExprs matchArena row bindings exprs blocks).map Prod.fst =
      exprValues row bindings exprs := by
  cases exprs with
  | nil => rfl
  | cons expr exprs =>
    rw [evalBodyExprs, exprValues, ← expr.eval_matchArena blocks]
    cases expr.eval matchArena row bindings blocks with
    | error e => rfl
    | ok r =>
      simp only [← evalBodyExprs_matchArena exprs r.2]
      cases evalBodyExprs matchArena row bindings exprs r.2 <;> rfl

end

theorem evalBodyLoop_matchArena (exprs : List BodyExpr) (result : Value) (blocks : ℕ) :
    (evalBodyLoop matchArena row bindings exprs result blocks).map Prod.fst =
      bodyValue row bindings exprs result := by
  induction exprs generalizing result blocks with
  | nil => rfl
  | cons expr exprs ih =>
    rw [evalBodyLoop, bodyValue, ← expr.eval_matchArena blocks]
    cases expr.eval matchArena row bindings blocks with
    | error e => rfl
    | ok r => exact ih r.1 r.2

end Bodies

/-! ## Agreement -/

theorem toOption_answered (result : Except Value (Value × ℕ)) :
    (answered result).toOption.bind Prod.fst = (result.map Prod.fst).toOption := by
  cases result <;> rfl

/-- The result of the clause is one that its last body expression constructs. -/
def MatchClause.Constructs (clause : MatchClause) : Prop :=
  clause.body.getLast?.any (·.allocatesResult) = true

/-- Under a table that orders the atoms of the row and of the guards as the common table does,
both evaluators select the same clause. Where its result is not constructed they return the same
term, `eval` nothing in place of an error; a constructed result `eval` does not return. -/
theorem eval_agrees {table : AtomTable} {A : Set Atom}
    (halike : OrdersAlike .withCommonAtoms table A) {row : Value}
    (hrow : row ∈ Value.Over Set.univ A) {spec : MatchSpec}
    (hguards : ∀ clause ∈ spec.clauses, ∀ guard ∈ clause.guards, guard.Over A) (blocks : ℕ) :
    selectClause .withCommonAtoms row spec.clauses = selectClause table row spec.clauses ∧
    ∀ selected, selectClause table row spec.clauses = .ok selected →
      ((∃ clause bindings, selected = some (clause, bindings) ∧ clause.Constructs) →
        spec.eval row = .ok none) ∧
      ((∀ clause bindings, selected = some (clause, bindings) → ¬ clause.Constructs) →
        spec.eval row = .ok ((spec.evalWithAllocator table matchArena row blocks).toOption.bind
          Prod.fst)) := by
  have hselect := selectClause_congr _ _ halike hrow hguards
  refine ⟨hselect, fun selected hselected => ?_⟩
  have heval : spec.eval row = .ok (answerWithout row selected) := by
    rw [MatchSpec.eval, evalCommonClauses_eq, hselect, hselected]
    rfl
  have harena : spec.evalWithAllocator table matchArena row blocks =
      answerWith row matchArena blocks selected := by
    rw [MatchSpec.evalWithAllocator, evalClauses_eq, hselected]
    rfl
  constructor
  · intro h
    obtain ⟨clause, bindings, rfl, hconstructs⟩ := h
    rw [MatchClause.Constructs] at hconstructs
    rw [heval, answerWithout, if_pos hconstructs]
  · intro h
    rw [heval, harena]
    cases selected with
    | none => rfl
    | some found =>
      obtain ⟨clause, bindings⟩ := found
      have hplain := h clause bindings rfl
      rw [MatchClause.Constructs] at hplain
      rw [answerWithout, answerWith, if_neg hplain]
      rw [toOption_answered, MatchClause.evalBody, MatchClause.evalBody,
        evalBodyLoop_matchArena, evalBodyLoop_matchArena]

/-- The common atoms and `$1`, `<`, `zb` and `za`. -/
def ownAtoms : AtomTable where
  names := AtomTable.commonAtomNames ++ ["$1", "<", "zb", "za"].map AtomTable.ascii
  nodup := by decide +kernel
  valid := by decide +kernel

/-- The specification `[{{'$1'}, [{'>', '$1', error}], ['$1']}]`. -/
def errorClauses : MatchSpec where
  clauses := [{
    head := [.variable 1], guards := [.compare .gt (.variable 1) (.literal (.atom 1))],
    body := [.variable 1], maxVariable := 1 }]

theorem eval_agrees_error :
    OrdersAlike .withCommonAtoms ownAtoms {0, 1} ∧
      errorClauses.eval (.tuple [.atom 0]) = .ok ((errorClauses.evalWithAllocator ownAtoms
        matchArena (.tuple [.atom 0]) 0).toOption.bind Prod.fst) := by
  have halike : OrdersAlike .withCommonAtoms ownAtoms {0, 1} := by
    intro a ha b hb
    rcases ha with rfl | rfl <;> rcases hb with rfl | rfl <;> rfl
  have hok : Value.atom 0 ∈ Value.Over Set.univ {0, 1} := .intro (.inl rfl) (by simp [Value.children])
  have herror : Value.atom 1 ∈ Value.Over Set.univ {0, 1} :=
    .intro (.inr rfl) (by simp [Value.children])
  have hrow : Value.tuple [.atom 0] ∈ Value.Over Set.univ {0, 1} :=
    .intro trivial fun c hc => List.mem_singleton.mp hc ▸ hok
  have hguards : ∀ clause ∈ errorClauses.clauses, ∀ guard ∈ clause.guards, guard.Over {0, 1} := by
    intro clause hclause guard hguard
    obtain rfl := List.mem_singleton.mp hclause
    obtain rfl := List.mem_singleton.mp hguard
    exact ⟨trivial, herror⟩
  obtain ⟨-, hagrees⟩ := eval_agrees halike hrow hguards 0
  refine ⟨halike, (hagrees (some (_, [none, some (.atom 0)])) rfl).2 ?_⟩
  intro clause bindings hsome
  obtain ⟨rfl, -⟩ := Prod.mk.inj (Option.some.inj hsome)
  simp [MatchClause.Constructs, BodyExpr.allocatesResult]

/-- `[{{'$1'}, [{'<', '$1', za}], [za]}]` -/
def orderingSpec : Value :=
  .cons (.tuple [.tuple [.atom 78], .cons (.tuple [.atom 79, .atom 78, .atom 81]) .nil,
    .cons (.atom 81) .nil]) .nil

def orderingClauses : MatchSpec where
  clauses := [{
    head := [.variable 1], guards := [.compare .lt (.variable 1) (.literal (.atom 81))],
    body := [.literal (.atom 81)], maxVariable := 1 }]

/-- `[{{'$1'}, [], ['$$']}]` -/
def bindingsClauses : MatchSpec where
  clauses := [{ head := [.variable 1], guards := [], body := [.returnBindings], maxVariable := 1 }]

/-- A list of the bindings is constructed, so `eval` does not return it. And `zb` is not before
`za`, but it has the smaller index. -/
theorem not_eval_agrees :
    bindingsClauses.eval (.tuple [digit 3]) = .ok none ∧
      bindingsClauses.evalWithAllocator ownAtoms matchArena (.tuple [digit 3]) 0 =
        .ok (some (.cons (digit 3) .nil), 1) ∧
      MatchSpec.parse ownAtoms orderingSpec = .ok orderingClauses ∧
      orderingClauses.eval (.tuple [.atom 80]) = .ok (some (.atom 81)) ∧
      orderingClauses.evalWithAllocator ownAtoms matchArena (.tuple [.atom 80]) 0 =
        .ok (none, 0) :=
  ⟨rfl, rfl, by rfl, by rfl, by rfl⟩

end Beamr.Ets
