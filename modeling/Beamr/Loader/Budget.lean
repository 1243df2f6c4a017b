import Beamr.Lib.Persist
import Beamr.Loader.Literals

/-!
# The budget of a literal decode

`decode_external_term` with its budget as the caller holds it: whatever the call returns, the
budget and the atom table are as the call has left them. The counters beside them say how many
calls are under way, how many a call was ever nested in, and how many literals have been built.
-/
namespace Beamr.Loader.Budget

open ByteOrder Persist

/-- The four allowances, each a `usize`. -/
structure DecodeBudget where
  depthRemaining : UInt64
  nodesRemaining : UInt64
  bytesRemaining : UInt64
  atomsRemaining : UInt64

structure TermState where
  cursor : List UInt8
  atomTable : AtomTable
  budget : DecodeBudget
  /-- Calls of the decoder that are under way. -/
  level : ℕ
  /-- The most calls that a call was nested in. -/
  deepest : ℕ
  /-- Literals that calls have returned. -/
  built : ℕ

abbrev TermM := Persist TermState LoadError

/-! ## Charges -/

def chargeNode : TermM Unit := fun s =>
  if s.budget.nodesRemaining = 0 then (.error (.decodeError "decode node budget exhausted"), s)
  else (.ok (), { s with budget.nodesRemaining := s.budget.nodesRemaining - 1 })

def chargeBytes (n : ℕ) : TermM Unit := fun s =>
  if n > s.budget.bytesRemaining.toNat then
    (.error (.decodeError "decode byte budget exhausted"), s)
  else (.ok (), { s with budget.bytesRemaining := s.budget.bytesRemaining - UInt64.ofNat n })

def chargeAtom : TermM Unit := fun s =>
  if s.budget.atomsRemaining = 0 then (.error (.decodeError "decode atom budget exhausted"), s)
  else (.ok (), { s with budget.atomsRemaining := s.budget.atomsRemaining - 1 })

def descend : TermM Unit := fun s =>
  if s.budget.depthRemaining = 0 then (.error (.decodeError "ETF nesting exceeds limit"), s)
  else (.ok (), { s with budget.depthRemaining := s.budget.depthRemaining - 1 })

/-- `saturating_add`. -/
def ascend (s : TermState) : TermState :=
  { s with budget.depthRemaining :=
      if s.budget.depthRemaining = 0xFFFFFFFFFFFFFFFF then s.budget.depthRemaining
      else s.budget.depthRemaining + 1 }

/-- A descent around a part of the decoder, undone whatever the part returns. -/
def descending (part : TermM Literal) : TermM Literal := fun s =>
  match descend s with
  | (.error e, s) => (.error e, s)
  | (.ok (), s) => ((part s).1, ascend (part s).2)

/-- A read of the cursor; one that fails leaves the cursor where it was. -/
def read {α : Type} (d : Decoder LoadError Unit α) : TermM α := fun s =>
  match d () s.cursor with
  | .ok (a, _, cursor) => (.ok a, { s with cursor })
  | .error e => (.error e, s)

/-! ## The decoder -/

/-- The atom of a name, which is paid for when it is new. -/
def internName (bytes : List UInt8) (h : utf8Valid bytes = true) : TermM Literal := fun s =>
  match s.atomTable.lookup bytes with
  | some atom => (.ok (.atom atom), s)
  | none =>
    match chargeAtom s with
    | (.error e, s) => (.error e, s)
    | (.ok (), s) =>
      (.ok (.atom (s.atomTable.intern bytes h).1),
        { s with atomTable := (s.atomTable.intern bytes h).2 })

def decodeAtomLiteral (bytes : List UInt8) : TermM Literal :=
  if h : utf8Valid bytes = true then internName bytes h
  else throw (.decodeError "ETF atom is not valid UTF-8")

def decodeTuple (term : TermM Literal) (arity : ℕ) : TermM Literal := do
  read (ensureCount arity 1 "ETF tuple arity")
  chargeBytes (arity * sizeOfLiteral)
  descending do
    let elements ← many term arity
    pure (.tuple elements)

def decodeList (term : TermM Literal) : TermM Literal := do
  let len ← read readU32
  read (ensureCount len 1 "ETF list length")
  chargeBytes (len * sizeOfLiteral)
  descending do
    let elements ← many term len
    let tail ← term
    pure (.list elements tail)

def decodePair (term : TermM Literal) : TermM (Literal × Literal) := do
  let key ← term
  let value ← term
  pure (key, value)

def decodeMap (term : TermM Literal) : TermM Literal := do
  let len ← read readU32
  read (ensureCount len 2 "ETF map size")
  chargeBytes (len * (2 * sizeOfLiteral))
  descending do
    let pairs ← many (decodePair term) len
    pure (.map pairs)

def exportFun : Literal → Literal → Literal → TermM Literal
  | .atom module, .atom function, .integer arity =>
    if 0 ≤ arity ∧ arity < 256 then pure (.exportFun module function arity.toNat)
    else throw (.decodeError "EXPORT_EXT arity out of range")
  | _, _, _ => throw (.decodeError "EXPORT_EXT components must be two atoms and an arity")

def decodeExportFun (term : TermM Literal) : TermM Literal :=
  descending do
    let module ← term
    let function ← term
    let arity ← term
    chargeBytes (3 * sizeOfLiteral)
    exportFun module function arity

def decodeBigInteger (len : ℕ) : TermM Literal := do
  let sign ← read readU8
  if sign > 1 then throw (.decodeError s!"invalid bignum sign {sign}")
  else do
    let bytes ← read (readBytes len)
    if len ≤ 8 ∧ FitsSigned 64 (bigMagnitude sign bytes) then
      pure (.integer (bigMagnitude sign bytes))
    else do
      chargeBytes (len + 1)
      pure (.bigInteger (sign :: bytes))

def decodeBody (term : TermM Literal) (tag : ℕ) : TermM Literal :=
  match tag with
  | 70 => do pure (.float (beNat (← read (readBytes 8))))
  | 97 => do pure (.integer ((← read readU8).toNat : ℤ))
  | 98 => do pure (.integer (← read readI32))
  | 100 => do decodeAtomLiteral (← read (readBytes (← read readU16)))
  | 118 => do decodeAtomLiteral (← read (readBytes (← read readU16)))
  | 119 => do decodeAtomLiteral (← read (readBytes (← read readU8).toNat))
  | 104 => do decodeTuple term (← read readU8).toNat
  | 105 => do decodeTuple term (← read readU32)
  | 106 => pure .nil
  | 107 => do
    let len ← read readU16
    chargeBytes len
    pure (.string (← read (readBytes len)))
  | 108 => decodeList term
  | 109 => do
    let len ← read readU32
    chargeBytes len
    pure (.binary (← read (readBytes len)))
  | 110 => do decodeBigInteger (← read readU8).toNat
  | 111 => do decodeBigInteger (← read readU32)
  | 113 => decodeExportFun term
  | 116 => decodeMap term
  | other => throw (.decodeError s!"unsupported ETF literal tag {other}")

/-- The counters when a call begins. -/
def enter (s : TermState) : TermState :=
  { s with level := s.level + 1, deepest := max s.deepest s.level }

/-- The counters when a call returns. -/
def leave (result : Except LoadError Literal) (s : TermState) : TermState :=
  { s with level := s.level - 1, built := s.built + (if result.isOk then 1 else 0) }

def counted (call : TermM Literal) : TermM Literal := fun s =>
  ((call (enter s)).1, leave (call (enter s)).1 (call (enter s)).2)

/-- The term after its tag byte is read. -/
def decodeTagged (term : TermM Literal) : TermM Literal := do
  let tag ← read readU8
  decodeBody term tag.toNat

/-- One call, with the nested calls it makes. -/
def decodeTermWith (term : TermM Literal) : TermM Literal := counted do
  chargeNode
  decodeTagged term

/-- The decoder with a bound on the nesting. -/
def decodeNested : ℕ → TermM Literal
  | 0 => throw (.decodeError "ETF nesting exceeds limit")
  | nesting + 1 => decodeTermWith (decodeNested nesting)

/-- The nesting allowance bounds the nesting, so the decoder is the recursion that
`decodeExternalTerm_eq` says it is. -/
def decodeExternalTerm : TermM Literal := fun s =>
  decodeNested (s.budget.depthRemaining.toNat + 1) s

/-! ## What a run spends -/

/-- The state after a run: the depth allowance is back, the others have not grown, a literal has
cost a node and a new atom an atom, and no call was nested deeper than the allowance, less the
descents that nested calls have yet to make. -/
structure Spends (descents : ℕ) (s s' : TermState) : Prop where
  depth : s'.budget.depthRemaining = s.budget.depthRemaining
  nodes : s'.budget.nodesRemaining ≤ s.budget.nodesRemaining
  bytes : s'.budget.bytesRemaining ≤ s.budget.bytesRemaining
  atoms : s'.budget.atomsRemaining ≤ s.budget.atomsRemaining
  built : s'.built + s'.budget.nodesRemaining.toNat ≤ s.built + s.budget.nodesRemaining.toNat
  interned : s'.atomTable.names.length + s'.budget.atomsRemaining.toNat ≤
    s.atomTable.names.length + s.budget.atomsRemaining.toNat
  level : s'.level = s.level
  deepest : s'.deepest ≤ max s.deepest (s.level + s.budget.depthRemaining.toNat - descents)

theorem Spends.refl (descents : ℕ) (s : TermState) : Spends descents s s where
  depth := rfl
  nodes := UInt64.le_refl _
  bytes := UInt64.le_refl _
  atoms := UInt64.le_refl _
  built := Nat.le_refl _
  interned := Nat.le_refl _
  level := rfl
  deepest := Nat.le_max_left _ _

theorem Spends.trans {descents : ℕ} (s t u : TermState) (h : Spends descents s t)
    (h' : Spends descents t u) : Spends descents s u where
  depth := h'.depth.trans h.depth
  nodes := UInt64.le_trans h'.nodes h.nodes
  bytes := UInt64.le_trans h'.bytes h.bytes
  atoms := UInt64.le_trans h'.atoms h.atoms
  built := Nat.le_trans h'.built h.built
  interned := Nat.le_trans h'.interned h.interned
  level := h'.level.trans h.level
  deepest := by
    have hfirst := h.deepest
    have hsecond := h'.deepest
    rw [h.level, h.depth] at hsecond
    omega

/-- A part of the decoder spends what it spends, on success and on failure. -/
abbrev Frugal {α : Type} (descents : ℕ) (m : TermM α) : Prop := Relates (Spends descents) m

section Frugal

variable {α β : Type} {descents : ℕ}

theorem Frugal.pure (a : α) : Frugal descents (Pure.pure a) := Relates.pure (Spends.refl _) a

theorem Frugal.throw (e : LoadError) : Frugal descents (throw e : TermM α) :=
  Relates.throw (Spends.refl _) e

theorem Frugal.bind {m : TermM α} {f : α → TermM β} (hm : Frugal descents m)
    (hf : ∀ a, Frugal descents (f a)) : Frugal descents (m >>= f) := Relates.bind Spends.trans hm hf

theorem Frugal.many {m : TermM α} (hm : Frugal descents m) (n : ℕ) : Frugal descents (many m n) :=
  Relates.many (Spends.refl _) Spends.trans hm n

theorem Frugal.read (d : Decoder LoadError Unit α) : Frugal descents (read d) := by
  intro s
  rw [Budget.read]
  split
  · exact { Spends.refl descents s with }
  · exact .refl _ s

theorem toNat_sub_one {n : UInt64} (h : n ≠ 0) : (n - 1).toNat = n.toNat - 1 := by
  have hne : n.toNat ≠ 0 := fun heq => h (UInt64.toNat_inj.mp heq)
  have hone : (1 : UInt64).toNat = 1 := rfl
  have hle : (1 : UInt64) ≤ n := by
    rw [UInt64.le_iff_toNat_le]
    omega
  rw [UInt64.toNat_sub_of_le _ _ hle, hone]

theorem Frugal.chargeBytes (n : ℕ) : Frugal descents (chargeBytes n) := by
  intro s
  rw [Budget.chargeBytes]
  split
  next => exact .refl _ s
  next henough =>
    refine { Spends.refl descents s with bytes := ?_ }
    have hlt := s.budget.bytesRemaining.toNat_lt
    have hle : n ≤ s.budget.bytesRemaining.toNat := Nat.not_lt.mp henough
    have hofNat : (UInt64.ofNat n).toNat = n := by
      rw [UInt64.toNat_ofNat', Nat.mod_eq_of_lt (by omega)]
    rw [UInt64.le_iff_toNat_le, UInt64.toNat_sub_of_le]
    · omega
    · rw [UInt64.le_iff_toNat_le]
      omega

theorem length_intern_le (table : AtomTable) (name : List UInt8) (h : utf8Valid name = true) :
    (table.intern name h).2.names.length ≤ table.names.length + 1 := by
  unfold AtomTable.intern
  split
  · exact Nat.le_succ _
  · simp

theorem Frugal.internName (bytes : List UInt8) (hutf8 : utf8Valid bytes = true) :
    Frugal descents (internName bytes hutf8) := by
  intro s
  rw [Budget.internName]
  cases s.atomTable.lookup bytes with
  | some atom => exact .refl _ s
  | none =>
    by_cases hatoms : s.budget.atomsRemaining = 0
    · simp only [chargeAtom, if_pos hatoms]
      exact .refl _ s
    · have hsub := toNat_sub_one hatoms
      have hne : s.budget.atomsRemaining.toNat ≠ 0 := fun heq => hatoms (UInt64.toNat_inj.mp heq)
      have hlength := length_intern_le s.atomTable bytes hutf8
      simp only [chargeAtom, if_neg hatoms]
      refine { Spends.refl descents s with atoms := ?_, interned := ?_ }
      · rw [UInt64.le_iff_toNat_le]
        dsimp only
        omega
      · dsimp only
        omega

theorem Frugal.decodeAtomLiteral (bytes : List UInt8) :
    Frugal descents (decodeAtomLiteral bytes) := by
  unfold Budget.decodeAtomLiteral
  split
  · exact .internName _ _
  · exact .throw _

/-- A descent costs nothing in the end; the part inside it has one level less. -/
theorem Frugal.descending {part : TermM Literal} (hpart : Frugal 0 part) :
    Frugal 1 (descending part) := by
  intro s
  rw [Budget.descending, descend]
  by_cases hdepth : s.budget.depthRemaining = 0
  · simp only [if_pos hdepth]
    exact .refl _ s
  · simp only [if_neg hdepth]
    have hsub := toNat_sub_one hdepth
    have hne : s.budget.depthRemaining.toNat ≠ 0 := fun heq => hdepth (UInt64.toNat_inj.mp heq)
    obtain ⟨hback, hnodes, hbytes, hatoms, hbuilt, hinterned, hlevel, hdeepest⟩ :=
      hpart { s with budget.depthRemaining := s.budget.depthRemaining - 1 }
    refine ⟨?_, hnodes, hbytes, hatoms, hbuilt, hinterned, hlevel, ?_⟩
    · have hlt := s.budget.depthRemaining.toNat_lt
      have hnotMax : s.budget.depthRemaining - 1 ≠ 0xFFFFFFFFFFFFFFFF := by
        intro hmax
        have hmaxNat : (0xFFFFFFFFFFFFFFFF : UInt64).toNat = 2 ^ 64 - 1 := rfl
        rw [hmax] at hsub
        omega
      simp only [ascend, hback, if_neg hnotMax]
      exact UInt64.sub_add_cancel _ _
    · dsimp only [ascend] at hdeepest ⊢
      omega

/-! ## The decoder is frugal -/

variable {term : TermM Literal}

theorem Frugal.exportFun (module function arity : Literal) :
    Frugal descents (exportFun module function arity) := by
  unfold Budget.exportFun
  split
  · split
    · exact .pure _
    · exact .throw _
  · exact .throw _

theorem Frugal.decodeTuple (hterm : Frugal 0 term) (arity : ℕ) :
    Frugal 1 (decodeTuple term arity) :=
  (Frugal.read _).bind fun _ => (Frugal.chargeBytes _).bind fun _ =>
    .descending ((hterm.many arity).bind fun _ => .pure _)

theorem Frugal.decodeList (hterm : Frugal 0 term) : Frugal 1 (decodeList term) :=
  (Frugal.read _).bind fun len => (Frugal.read _).bind fun _ => (Frugal.chargeBytes _).bind fun _ =>
    .descending ((hterm.many len).bind fun _ => hterm.bind fun _ => .pure _)

theorem Frugal.decodePair (hterm : Frugal 0 term) : Frugal 0 (decodePair term) :=
  hterm.bind fun _ => hterm.bind fun _ => .pure _

theorem Frugal.decodeMap (hterm : Frugal 0 term) : Frugal 1 (decodeMap term) :=
  (Frugal.read _).bind fun len => (Frugal.read _).bind fun _ => (Frugal.chargeBytes _).bind fun _ =>
    .descending ((hterm.decodePair.many len).bind fun _ => .pure _)

theorem Frugal.decodeExportFun (hterm : Frugal 0 term) : Frugal 1 (decodeExportFun term) :=
  .descending (hterm.bind fun module => hterm.bind fun function => hterm.bind fun arity =>
    (Frugal.chargeBytes _).bind fun _ => .exportFun module function arity)

theorem Frugal.decodeBigInteger (len : ℕ) : Frugal descents (decodeBigInteger len) := by
  refine (Frugal.read _).bind fun sign => ?_
  split
  · exact .throw _
  · refine (Frugal.read _).bind fun bytes => ?_
    split
    · exact .pure _
    · exact (Frugal.chargeBytes _).bind fun _ => .pure _

theorem Frugal.decodeBody (hterm : Frugal 0 term) (tag : ℕ) : Frugal 1 (decodeBody term tag) := by
  unfold Budget.decodeBody
  split
  · exact (Frugal.read _).bind fun _ => .pure _
  · exact (Frugal.read _).bind fun _ => .pure _
  · exact (Frugal.read _).bind fun _ => .pure _
  · exact (Frugal.read _).bind fun _ => (Frugal.read _).bind fun _ => .decodeAtomLiteral _
  · exact (Frugal.read _).bind fun _ => (Frugal.read _).bind fun _ => .decodeAtomLiteral _
  · exact (Frugal.read _).bind fun _ => (Frugal.read _).bind fun _ => .decodeAtomLiteral _
  · exact (Frugal.read _).bind fun _ => hterm.decodeTuple _
  · exact (Frugal.read _).bind fun _ => hterm.decodeTuple _
  · exact .pure _
  · exact (Frugal.read _).bind fun _ => (Frugal.chargeBytes _).bind fun _ =>
      (Frugal.read _).bind fun _ => .pure _
  · exact hterm.decodeList
  · exact (Frugal.read _).bind fun _ => (Frugal.chargeBytes _).bind fun _ =>
      (Frugal.read _).bind fun _ => .pure _
  · exact (Frugal.read _).bind fun _ => .decodeBigInteger _
  · exact (Frugal.read _).bind fun _ => .decodeBigInteger _
  · exact hterm.decodeExportFun
  · exact hterm.decodeMap
  · exact .throw _

theorem Frugal.decodeTagged (hterm : Frugal 0 term) : Frugal 1 (decodeTagged term) :=
  (Frugal.read _).bind fun _ => hterm.decodeBody _

/-- The node that a call charges first pays for the literal it returns. -/
theorem Frugal.decodeTermWith (hterm : Frugal 0 term) : Frugal 0 (decodeTermWith term) := by
  intro s
  rw [Budget.decodeTermWith, counted]
  by_cases hnodes : s.budget.nodesRemaining = 0
  · have hcharge : chargeNode (enter s) =
        (.error (.decodeError "decode node budget exhausted"), enter s) := if_pos hnodes
    rw [bind_apply, hcharge]
    refine { Spends.refl 0 s with deepest := ?_ }
    dsimp only [leave, enter]
    omega
  · have hcharge : chargeNode (enter s) = (.ok (),
        { enter s with budget.nodesRemaining := s.budget.nodesRemaining - 1 }) := if_neg hnodes
    have hsub := toNat_sub_one hnodes
    have hne : s.budget.nodesRemaining.toNat ≠ 0 := fun heq => hnodes (UInt64.toNat_inj.mp heq)
    obtain ⟨hdepth, hnodesLe, hbytes, hatoms, hbuilt, hinterned, hlevel, hdeepest⟩ :=
      hterm.decodeTagged { enter s with budget.nodesRemaining := s.budget.nodesRemaining - 1 }
    rw [bind_apply, hcharge]
    dsimp only at hdepth hnodesLe hbytes hatoms hbuilt hinterned hlevel hdeepest ⊢
    generalize Budget.decodeTagged term
      { enter s with budget.nodesRemaining := s.budget.nodesRemaining - 1 } = r at *
    dsimp only [enter] at *
    refine ⟨hdepth, ?_, hbytes, hatoms, ?_, hinterned, ?_, ?_⟩
    · rw [UInt64.le_iff_toNat_le] at hnodesLe ⊢
      dsimp only [leave]
      omega
    · dsimp only [leave]
      split <;> omega
    · dsimp only [leave]
      omega
    · dsimp only [leave]
      omega

theorem Frugal.decodeNested (nesting : ℕ) : Frugal 0 (decodeNested nesting) := by
  induction nesting with
  | zero => exact .throw _
  | succ nesting ih => exact ih.decodeTermWith

end Frugal

/-! ## The bounds -/

/-- A state in which no call is under way. -/
def start (cursor : List UInt8) (atomTable : AtomTable) (budget : DecodeBudget) : TermState :=
  ⟨cursor, atomTable, budget, 0, 0, 0⟩

/-- Whatever a decode returns, the depth allowance is as before, the others have not grown, no more
literals have been built than nodes spent, no more atoms interned than atoms spent, and no call was
nested deeper than the allowance. -/
theorem decodeExternalTerm_within_budget (cursor : List UInt8) (atomTable : AtomTable)
    (budget : DecodeBudget) :
    let after := (decodeExternalTerm (start cursor atomTable budget)).2
    after.budget.depthRemaining = budget.depthRemaining ∧
    after.budget.nodesRemaining ≤ budget.nodesRemaining ∧
    after.budget.bytesRemaining ≤ budget.bytesRemaining ∧
    after.budget.atomsRemaining ≤ budget.atomsRemaining ∧
    after.built ≤ budget.nodesRemaining.toNat - after.budget.nodesRemaining.toNat ∧
    after.atomTable.names.length - atomTable.names.length ≤
      budget.atomsRemaining.toNat - after.budget.atomsRemaining.toNat ∧
    after.deepest ≤ budget.depthRemaining.toNat := by
  obtain ⟨hdepth, hnodes, hbytes, hatoms, hbuilt, hinterned, -, hdeepest⟩ :=
    Frugal.decodeNested (budget.depthRemaining.toNat + 1) (start cursor atomTable budget)
  rw [UInt64.le_iff_toNat_le] at hnodes hatoms
  dsimp only [start] at *
  refine ⟨hdepth, hnodes, hbytes, hatoms, ?_, ?_, ?_⟩
  · dsimp only [decodeExternalTerm]
    omega
  · dsimp only [decodeExternalTerm]
    omega
  · dsimp only [decodeExternalTerm]
    omega

end Beamr.Loader.Budget
