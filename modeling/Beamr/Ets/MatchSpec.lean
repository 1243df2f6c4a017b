import Beamr.Term.Compare

/-!
# Match specifications

The compiler and the evaluator of `ets::match_spec`. A clause has a tuple of patterns as its head,
comparisons and type tests as its guards and a body; variables are the atoms `$1`, `$2` and so on.
Where the source fills a slice of bindings and returns a flag, the bindings are returned, or
nothing: no caller reads the slice after a failure.
-/
namespace Beamr.Ets

open Term

/-! ## Parsed specifications -/

inductive Pattern
  | variable (index : ℕ)
  | dontCare
  | literal (term : Value)
  | tuple (elements : List Pattern)
  | list (elements : List Pattern)

inductive CompareOp
  | eq | ne | lt | gt | le | ge
  deriving DecidableEq

inductive TypeTest
  | atom | integer | binary | tuple | list
  deriving DecidableEq

inductive GuardExpr
  | variable (index : ℕ)
  | literal (term : Value)

inductive Guard
  | compare (op : CompareOp) (left right : GuardExpr)
  | typeTest (test : TypeTest) (value : GuardExpr)

inductive BodyExpr
  | variable (index : ℕ)
  | literal (term : Value)
  | tuple (elements : List BodyExpr)
  | list (elements : List BodyExpr)
  | returnObject
  | returnBindings

structure MatchClause where
  head : List Pattern
  guards : List Guard
  body : List BodyExpr
  maxVariable : ℕ

structure MatchSpec where
  clauses : List MatchClause

inductive MatchSpecError
  | badSpec | badClause | badHead | badGuard | badBody | badList | unknownGuard
  deriving DecidableEq

/-! ## Atoms with a meaning -/

inductive AtomClass
  | variable (index : ℕ)
  | dontCare
  | specialReturn
  | literal
  deriving DecidableEq

/-- `usize::MAX`. -/
def usizeMax : ℕ := 2 ^ 64 - 1

def isAsciiDigit (byte : UInt8) : Bool := 0x30 ≤ byte && byte ≤ 0x39

/-- `digits.parse::<usize>()` of ASCII digits. -/
def parseUsize (digits : List UInt8) : Option ℕ :=
  let value := digits.foldl (fun n digit => 10 * n + (digit.toNat - 0x30)) 0
  if value ≤ usizeMax then some value else none

def parseVariableName : List UInt8 → Option ℕ
  | [] => none
  | dollar :: digits =>
    if dollar ≠ 0x24 then none
    else if digits.isEmpty || !digits.all isAsciiDigit then none
    else (parseUsize digits).filter fun index => 0 < index

/-- `_` -/
def dontCareName : List UInt8 := [0x5F]

/-- `$_` -/
def returnObjectName : List UInt8 := [0x24, 0x5F]

/-- `$$` -/
def returnBindingsName : List UInt8 := [0x24, 0x24]

def atomName (table : AtomTable) : Value → Option (List UInt8)
  | .atom a => table.resolve a
  | _ => none

def classifyAtom (table : AtomTable) (term : Value) : AtomClass :=
  match atomName table term with
  | none => .literal
  | some name =>
    if name = dontCareName then .dontCare
    else if name = returnObjectName ∨ name = returnBindingsName then .specialReturn
    else match parseVariableName name with
      | some index => .variable index
      | none => .literal

/-! ## Parsing -/

/-- The elements of a list, unless its last tail is something else than `[]`. -/
def properList : Value → Except MatchSpecError (List Value)
  | .nil => .ok []
  | .cons head tail => (properList tail).map (head :: ·)
  | _ => .error .badList

section Parsing

variable (table : AtomTable)

mutual

/-- A pattern and the largest variable so far. -/
def parsePattern : Value → ℕ → Except MatchSpecError (Pattern × ℕ)
  | term, maxVariable =>
    match classifyAtom table term with
    | .variable index => .ok (.variable index, max maxVariable index)
    | .dontCare => .ok (.dontCare, maxVariable)
    | .specialReturn => .ok (.literal term, maxVariable)
    | .literal =>
      match term with
      | .tuple terms => do
        let (elements, maxVariable) ← parsePatterns terms maxVariable
        .ok (.tuple elements, maxVariable)
      | .nil => .ok (.list [], maxVariable)
      | .cons head tail => do
        let _ ← (properList tail).mapError fun _ => .badHead
        let (element, maxVariable) ← parsePattern head maxVariable
        let (elements, maxVariable) ← parseTail tail maxVariable
        .ok (.list (element :: elements), maxVariable)
      | term => .ok (.literal term, maxVariable)

/-- Patterns of a tuple, one by one. -/
def parsePatterns : List Value → ℕ → Except MatchSpecError (List Pattern × ℕ)
  | [], maxVariable => .ok ([], maxVariable)
  | term :: terms, maxVariable => do
    let (element, maxVariable) ← parsePattern term maxVariable
    let (elements, maxVariable) ← parsePatterns terms maxVariable
    .ok (element :: elements, maxVariable)

/-- Patterns of the other elements of a proper list. -/
def parseTail : Value → ℕ → Except MatchSpecError (List Pattern × ℕ)
  | .cons head tail, maxVariable => do
    let (element, maxVariable) ← parsePattern head maxVariable
    let (elements, maxVariable) ← parseTail tail maxVariable
    .ok (element :: elements, maxVariable)
  | _, maxVariable => .ok ([], maxVariable)

end

def parseGuardExpr (term : Value) (maxVariable : ℕ) :
    Except MatchSpecError (GuardExpr × ℕ) :=
  match classifyAtom table term with
  | .variable index => .ok (.variable index, max maxVariable index)
  | .dontCare => .error .badGuard
  | .specialReturn => .error .badGuard
  | .literal => .ok (.literal term, maxVariable)

/-- `==`, `/=`, `<`, `>`, `=<` and `>=`. -/
def parseCompareOp (name : List UInt8) : Option CompareOp :=
  if name = [0x3D, 0x3D] then some .eq
  else if name = [0x2F, 0x3D] then some .ne
  else if name = [0x3C] then some .lt
  else if name = [0x3E] then some .gt
  else if name = [0x3D, 0x3C] then some .le
  else if name = [0x3E, 0x3D] then some .ge
  else none

/-- `is_atom`, `is_integer`, `is_binary`, `is_tuple` and `is_list`. -/
def parseTypeTest (name : List UInt8) : Option TypeTest :=
  if name = [0x69, 0x73, 0x5F, 0x61, 0x74, 0x6F, 0x6D] then some .atom
  else if name = [0x69, 0x73, 0x5F, 0x69, 0x6E, 0x74, 0x65, 0x67, 0x65, 0x72] then some .integer
  else if name = [0x69, 0x73, 0x5F, 0x62, 0x69, 0x6E, 0x61, 0x72, 0x79] then some .binary
  else if name = [0x69, 0x73, 0x5F, 0x74, 0x75, 0x70, 0x6C, 0x65] then some .tuple
  else if name = [0x69, 0x73, 0x5F, 0x6C, 0x69, 0x73, 0x74] then some .list
  else none

def parseGuard (term : Value) (maxVariable : ℕ) : Except MatchSpecError (Guard × ℕ) :=
  match term with
  | .tuple elements =>
    match elements[0]? >>= atomName table with
    | none => .error .badGuard
    | some name =>
      match parseCompareOp name, parseTypeTest name, elements with
      | some op, _, [_, left, right] => do
        let (left, maxVariable) ← parseGuardExpr table left maxVariable
        let (right, maxVariable) ← parseGuardExpr table right maxVariable
        .ok (.compare op left right, maxVariable)
      | some _, _, _ => .error .badGuard
      | none, some test, [_, value] => do
        let (value, maxVariable) ← parseGuardExpr table value maxVariable
        .ok (.typeTest test value, maxVariable)
      | none, some _, _ => .error .badGuard
      | none, none, _ => .error .unknownGuard
  | _ => .error .badGuard

def parseGuards : List Value → ℕ → Except MatchSpecError (List Guard × ℕ)
  | [], maxVariable => .ok ([], maxVariable)
  | term :: terms, maxVariable => do
    let (guard, maxVariable) ← parseGuard table term maxVariable
    let (guards, maxVariable) ← parseGuards terms maxVariable
    .ok (guard :: guards, maxVariable)

mutual

/-- A tuple is built by `{{…}}`, or by a tuple that has not exactly one element. -/
def parseBodyExpr : Value → ℕ → Except MatchSpecError (BodyExpr × ℕ)
  | term, maxVariable =>
    match classifyAtom table term with
    | .variable index => .ok (.variable index, max maxVariable index)
    | .dontCare => .ok (.literal term, maxVariable)
    | .specialReturn =>
      if atomName table term = some returnObjectName then .ok (.returnObject, maxVariable)
      else if atomName table term = some returnBindingsName then .ok (.returnBindings, maxVariable)
      else .error .badBody
    | .literal =>
      match term with
      | .tuple [.tuple terms] => do
        let (elements, maxVariable) ← parseBodyExprs terms maxVariable
        .ok (.tuple elements, maxVariable)
      | .tuple [_] => .error .badBody
      | .tuple terms => do
        let (elements, maxVariable) ← parseBodyExprs terms maxVariable
        .ok (.tuple elements, maxVariable)
      | .nil => .ok (.list [], maxVariable)
      | .cons head tail => do
        let _ ← (properList tail).mapError fun _ => .badBody
        let (element, maxVariable) ← parseBodyExpr head maxVariable
        let (elements, maxVariable) ← parseBodyTail tail maxVariable
        .ok (.list (element :: elements), maxVariable)
      | term => .ok (.literal term, maxVariable)

def parseBodyExprs : List Value → ℕ → Except MatchSpecError (List BodyExpr × ℕ)
  | [], maxVariable => .ok ([], maxVariable)
  | term :: terms, maxVariable => do
    let (element, maxVariable) ← parseBodyExpr term maxVariable
    let (elements, maxVariable) ← parseBodyExprs terms maxVariable
    .ok (element :: elements, maxVariable)

/-- The other elements of a proper list. -/
def parseBodyTail : Value → ℕ → Except MatchSpecError (List BodyExpr × ℕ)
  | .cons head tail, maxVariable => do
    let (element, maxVariable) ← parseBodyExpr head maxVariable
    let (elements, maxVariable) ← parseBodyTail tail maxVariable
    .ok (element :: elements, maxVariable)
  | _, maxVariable => .ok ([], maxVariable)

end

/-- `MatchClause::parse` -/
def MatchClause.parse (headTerm guardsTerm bodyTerm : Value) :
    Except MatchSpecError MatchClause := do
  let .tuple elements := headTerm | .error .badHead
  let (head, maxVariable) ← parsePatterns table elements 0
  let guardTerms ← (properList guardsTerm).mapError fun _ => .badGuard
  let (guards, maxVariable) ← parseGuards table guardTerms maxVariable
  let bodyTerms ← (properList bodyTerm).mapError fun _ => .badBody
  if bodyTerms.isEmpty then .error .badBody
  else do
    let (body, maxVariable) ← parseBodyExprs table bodyTerms maxVariable
    .ok { head, guards, body, maxVariable }

def parseClauses : List Value → Except MatchSpecError (List MatchClause)
  | [] => .ok []
  | .tuple [headTerm, guardsTerm, bodyTerm] :: terms => do
    let clause ← MatchClause.parse table headTerm guardsTerm bodyTerm
    let clauses ← parseClauses terms
    .ok (clause :: clauses)
  | _ :: _ => .error .badClause

/-- `MatchSpec::parse`, which is also all that `CompiledMatchSpec::compile` does. -/
def MatchSpec.parse (spec : Value) : Except MatchSpecError MatchSpec := do
  let clauseTerms ← properList spec
  if clauseTerms.isEmpty then .error .badSpec
  else do
    let clauses ← parseClauses table clauseTerms
    .ok { clauses }

end Parsing

/-! ## Matching -/

abbrev Bindings := List (Option Value)

/-- The largest size of an allocation, `isize::MAX`. -/
def isizeMax : ℕ := 2 ^ 63 - 1

/-- `vec![None; max_variable.saturating_add(1)]`: an `Option<Term>` takes two words, and a vector
of more than `isize::MAX` bytes is a capacity overflow. -/
def newBindings (maxVariable : ℕ) : Option Bindings :=
  let length := min (maxVariable + 1) usizeMax
  if 16 * length ≤ isizeMax then some (List.replicate length none) else none

mutual

def matchPattern : Pattern → Value → Bindings → Option Bindings
  | .variable index, value, bindings =>
    match bindings[index]? with
    | none => none
    | some (some bound) => if exactEq bound value then some bindings else none
    | some none => some (bindings.set index (some value))
  | .dontCare, _, bindings => some bindings
  | .literal term, value, bindings => if exactEq term value then some bindings else none
  | .tuple elements, value, bindings =>
    match value with
    | .tuple values =>
      if values.length = elements.length then matchPatterns elements values bindings else none
    | _ => none
  | .list elements, value, bindings =>
    match properList value with
    | .ok values =>
      if values.length = elements.length then matchPatterns elements values bindings else none
    | .error _ => none

/-- The loop over the elements, in order, as long as they match. -/
def matchPatterns : List Pattern → List Value → Bindings → Option Bindings
  | element :: elements, value :: values, bindings =>
    (matchPattern element value bindings).bind (matchPatterns elements values)
  | _, _, bindings => some bindings

end

def MatchClause.matchesHead (clause : MatchClause) (object : Value) (bindings : Bindings) :
    Option Bindings :=
  match object with
  | .tuple values =>
    if values.length = clause.head.length then matchPatterns clause.head values bindings else none
  | _ => none

/-! ## Guards -/

def Bindings.value (bindings : Bindings) (index : ℕ) : Option Value := bindings[index]?.join

def GuardExpr.eval (bindings : Bindings) : GuardExpr → Option Value
  | .variable index => bindings.value index
  | .literal term => some term

def CompareOp.holds (table : AtomTable) (left right : Value) : CompareOp → Bool
  | .eq => numericEq left right
  | .ne => !numericEq left right
  | .lt => cmp table left right == .lt
  | .gt => cmp table left right == .gt
  | .le => cmp table left right != .gt
  | .ge => cmp table left right != .lt

def TypeTest.holds : TypeTest → Value → Bool
  | .atom, .atom _ => true
  | .integer, .number (.smallInt _) => true
  | .integer, .number (.bigInt _ _) => true
  | .binary, .binary _ => true
  | .tuple, .tuple _ => true
  | .list, .cons _ _ => true
  | .list, .nil => true
  | _, _ => false

def Guard.eval (table : AtomTable) (bindings : Bindings) : Guard → Bool
  | .compare op left right =>
    match left.eval bindings with
    | none => false
    | some left =>
      match right.eval bindings with
      | none => false
      | some right => op.holds table left right
  | .typeTest test value =>
    match value.eval bindings with
    | none => false
    | some value => test.holds value

/-! ## Bodies -/

/-- Where constructed results go: a process heap or an arena. -/
structure TermAllocator (M : Type) where
  allocTuple : List Value → M → Except Value (Value × M)
  allocList : List Value → M → Except Value (Value × M)

/-- The arena, as the number of the blocks it owns: a tuple is one, a list one for each cell. -/
def matchArena : TermAllocator ℕ where
  allocTuple elements blocks := .ok (.tuple elements, blocks + 1)
  allocList elements blocks := .ok (elements.foldr .cons .nil, blocks + elements.length)

/-- `Atom::BADARG` -/
def badarg : Value := .atom 9

section Bodies

variable {M : Type} (allocator : TermAllocator M) (object : Value) (bindings : Bindings)

mutual

def BodyExpr.eval : BodyExpr → M → Except Value (Value × M)
  | .variable index, memory =>
    match bindings.value index with
    | some value => .ok (value, memory)
    | none => .error badarg
  | .literal term, memory => .ok (term, memory)
  | .tuple elements, memory =>
    match evalBodyExprs elements memory with
    | .error e => .error e
    | .ok (evaluated, memory) => allocator.allocTuple evaluated memory
  | .list elements, memory =>
    match evalBodyExprs elements memory with
    | .error e => .error e
    | .ok (evaluated, memory) => allocator.allocList evaluated memory
  | .returnObject, memory => .ok (object, memory)
  | .returnBindings, memory => allocator.allocList ((bindings.drop 1).filterMap id) memory

def evalBodyExprs : List BodyExpr → M → Except Value (List Value × M)
  | [], memory => .ok ([], memory)
  | expr :: exprs, memory =>
    match BodyExpr.eval expr memory with
    | .error e => .error e
    | .ok (value, memory) =>
      match evalBodyExprs exprs memory with
      | .error e => .error e
      | .ok (evaluated, memory) => .ok (value :: evaluated, memory)

end

/-- Every expression of the body in order; the value of the last one. -/
def evalBodyLoop : List BodyExpr → Value → M → Except Value (Value × M)
  | [], result, memory => .ok (result, memory)
  | expr :: exprs, _, memory =>
    match BodyExpr.eval allocator object bindings expr memory with
    | .error e => .error e
    | .ok (result, memory) => evalBodyLoop exprs result memory

def MatchClause.evalBody (clause : MatchClause) (memory : M) : Except Value (Value × M) :=
  evalBodyLoop allocator object bindings clause.body .nil memory

end Bodies

/-! ## Evaluation -/

/-- How an evaluation ends without an answer: the term of an error, or a panic. -/
inductive EvalFailure
  | raised (term : Value)
  | capacityOverflow

/-- The result of a body as the answer of the specification. -/
def answered {M : Type} (result : Except Value (Value × M)) :
    Except EvalFailure (Option Value × M) :=
  (result.mapError .raised).map fun r => (some r.1, r.2)

section Evaluation

variable {M : Type} (table : AtomTable) (allocator : TermAllocator M) (object : Value)

def evalClauses : List MatchClause → M → Except EvalFailure (Option Value × M)
  | [], memory => .ok (none, memory)
  | clause :: clauses, memory =>
    match newBindings clause.maxVariable with
    | none => .error .capacityOverflow
    | some bindings =>
      match clause.matchesHead object bindings with
      | none => evalClauses clauses memory
      | some bindings =>
        if clause.guards.all (·.eval table bindings) then
          answered (clause.evalBody allocator object bindings memory)
        else evalClauses clauses memory

/-- `MatchSpec::eval_with_allocator`, behind `eval_with_context` and `eval_with_arena`. -/
def MatchSpec.evalWithAllocator (spec : MatchSpec) (memory : M) :
    Except EvalFailure (Option Value × M) :=
  evalClauses table allocator object spec.clauses memory

end Evaluation

def BodyExpr.allocatesResult : BodyExpr → Bool
  | .tuple _ => true
  | .list _ => true
  | .returnBindings => true
  | _ => false

def evalCommonClauses (object : Value) : List MatchClause → Except EvalFailure (Option Value)
  | [] => .ok none
  | clause :: clauses =>
    match newBindings clause.maxVariable with
    | none => .error .capacityOverflow
    | some bindings =>
      match clause.matchesHead object bindings with
      | none => evalCommonClauses object clauses
      | some bindings =>
        if clause.guards.all (·.eval .withCommonAtoms bindings) then
          if clause.body.getLast?.any (·.allocatesResult) then .ok none
          else match clause.evalBody matchArena object bindings 0 with
            | .error _ => .ok none
            | .ok (result, _) => .ok (some result)
        else evalCommonClauses object clauses

/-- `CompiledMatchSpec::eval`: no atom table and no arena of the caller. -/
def MatchSpec.eval (spec : MatchSpec) (object : Value) : Except EvalFailure (Option Value) :=
  evalCommonClauses object spec.clauses

end Beamr.Ets
