import Beamr.Distribution.TermFates
import Beamr.Lib.DecoderSurvey

/-!
# Scanning a term

`scan_term_prefix` finds the end of the control term of a frame without building it. It repeats the
grammar of the decoder, and the two part on integers of up to eight bytes that are no `i64`, and on
the node names of pids and references: to the decoder such a name is a term one level further down,
so that it counts for the nesting and may be the tail of a list without elements. A survey of the
grammar lists both.
-/
namespace Beamr.Distribution.TermCodec

open Term ByteOrder Decoder
open Etf (DecodeState)

/-! ## The scanner -/

/-- A cursor without an atom table and a heap behind it. -/
abbrev Cursor := Decoder DecodeError Unit

namespace Cursor

def readU8 : Cursor UInt8 := byte .truncated

def readBytes (n : ℕ) : Cursor (List UInt8) := take .truncated n

def skipBytes (n : ℕ) : Cursor Unit := do
  let _ ← readBytes n
  return ()

def readU16 : Cursor ℕ := do return beNat (← readBytes 2)

def readU32 : Cursor ℕ := do return beNat (← readBytes 4)

end Cursor

/-- The bytes of an atom's name. -/
def scanName (length : ℕ) : Cursor Unit := do
  let bytes ← Cursor.readBytes length
  require (utf8Valid bytes) .invalidUtf8
  return ()

def scanNodeAtom : Cursor Unit := do
  let tag ← Cursor.readU8
  if tag = Etf.Tags.atomUtf8Ext then do scanName (← Cursor.readU16)
  else if tag = Etf.Tags.smallAtomUtf8Ext then do scanName (← Cursor.readU8).toNat
  else fail .invalidExternalNode

def scanBig (length : ℕ) : Cursor Unit := do
  let sign ← Cursor.readU8
  if sign = 0 ∨ sign = 1 then Cursor.skipBytes length else fail (.invalidBigSign sign)

section Nested

-- `scanOne` scans a term one level further down.
variable (scanOne : Cursor Unit)

def scanTerms (count : ℕ) : Cursor Unit := do
  let _ ← many scanOne count
  return ()

def scanList (length : ℕ) : Cursor Unit := do
  scanTerms scanOne length
  scanOne

def scanEntry : Cursor Unit := do
  scanOne
  scanOne

def scanNewPid : Cursor Unit := do
  scanNodeAtom
  Cursor.skipBytes 12

def scanNewerReference : Cursor Unit := do
  let length ← Cursor.readU16
  require (length ≠ 0 ∧ length ≤ 2) (.invalidReferenceArity length)
  scanNodeAtom
  Cursor.skipBytes (4 + length * 4)

def scanBody (tag : UInt8) : Cursor Unit :=
  if tag = Etf.Tags.newFloatExt then Cursor.skipBytes 8
  else if tag = Etf.Tags.smallIntegerExt then Cursor.skipBytes 1
  else if tag = Etf.Tags.integerExt then Cursor.skipBytes 4
  else if tag = Etf.Tags.atomUtf8Ext then do scanName (← Cursor.readU16)
  else if tag = Etf.Tags.smallAtomUtf8Ext then do scanName (← Cursor.readU8).toNat
  else if tag = Etf.Tags.smallTupleExt then do scanTerms scanOne (← Cursor.readU8).toNat
  else if tag = Etf.Tags.largeTupleExt then do scanTerms scanOne (← Cursor.readU32)
  else if tag = Etf.Tags.nilExt then return ()
  else if tag = Etf.Tags.stringExt then do Cursor.skipBytes (← Cursor.readU16)
  else if tag = Etf.Tags.listExt then do scanList scanOne (← Cursor.readU32)
  else if tag = Etf.Tags.binaryExt then do Cursor.skipBytes (← Cursor.readU32)
  else if tag = Etf.Tags.smallBigExt then do scanBig (← Cursor.readU8).toNat
  else if tag = Etf.Tags.largeBigExt then do scanBig (← Cursor.readU32)
  else if tag = Etf.Tags.mapExt then do scanTerms (scanEntry scanOne) (← Cursor.readU32)
  else if tag = Etf.Tags.newPidExt then scanNewPid
  else if tag = Etf.Tags.newerReferenceExt then scanNewerReference
  else fail (.unsupportedTag tag)

end Nested

def scanOne : ℕ → Cursor Unit
  | 0 => fail .tooDeep
  | left + 1 => do scanBody (scanOne left) (← Cursor.readU8)

/-- The version byte and what `next` reads. -/
def afterVersion {α : Type} (next : Cursor α) : Cursor α := do
  let bytes ← remaining
  require (!bytes.isEmpty) .emptyInput
  let version ← Cursor.readU8
  require (version == Etf.Tags.version) (.badVersion version)
  next

/-- How many of the bytes a reader took. -/
def used {ε σ α : Type} (bytes : List UInt8) : Except ε (α × σ × List UInt8) → Except ε ℕ
  | .error e => .error e
  | .ok (_, _, rest) => .ok (bytes.length - rest.length)

def scanTermPrefix (bytes : List UInt8) : Except DecodeError ℕ :=
  used bytes (afterVersion (scanOne (Etf.maxEtfDepth + 1)) () bytes)

/-! ## A survey of the grammar -/

/-- Where scanner and decoder part: an integer by sign and magnitude, and a node name that stands
under so many lists without elements where the nesting has so many levels left. -/
inductive Item
  | integer (negative : Bool) (magnitude : List UInt8)
  | node (lists levels : ℕ)
  deriving DecidableEq

namespace Item

/-- The scanner takes any integer, and a node name by itself. -/
def scanned : Item → Bool
  | .integer _ _ => true
  | .node lists _ => lists = 0

/-- The decoder asks whether the value of up to eight bytes is an `i64`, and whether the nesting has
a level for the name after those of the lists. -/
def decoded : Item → Bool
  | .integer negative magnitude => magnitude.length ≤ 8 →
      FitsSigned 64 (if negative then -leNat magnitude else leNat magnitude)
  | .node lists levels => lists < levels

end Item

/-- So many bytes of any kind. -/
def blank (n : ℕ) : Cursor (List Item) := do
  let _ ← Cursor.readBytes n
  return []

/-- An atom's name, behind which the items are known. -/
def surveyText (items : List Item) (length : ℕ) : Cursor (List Item) := do
  let bytes ← Cursor.readBytes length
  require (utf8Valid bytes) .invalidUtf8
  return items

/-- A node name, `wrapped` being what reads it where it is the tail of a list. -/
def surveyName (found : Item) (wrapped : Cursor (List Item)) : Cursor (List Item) := do
  let tag ← Cursor.readU8
  if tag = Etf.Tags.atomUtf8Ext then do surveyText [found] (← Cursor.readU16)
  else if tag = Etf.Tags.smallAtomUtf8Ext then do surveyText [found] (← Cursor.readU8).toNat
  else if tag = Etf.Tags.listExt then do
    let length ← Cursor.readU32
    require (length = 0) .invalidExternalNode
    wrapped
  else fail .invalidExternalNode

/-- A node name with `left` of `levels` levels below the lists so far. -/
def surveyNodeAt (levels : ℕ) : ℕ → ℕ → Cursor (List Item)
  | 0, lists => surveyName (.node lists levels) (fail .tooDeep)
  | left + 1, lists => surveyName (.node lists levels) (surveyNodeAt levels left (lists + 1))

def surveyNode (levels : ℕ) : Cursor (List Item) := surveyNodeAt levels levels 0

def surveyBig (length : ℕ) : Cursor (List Item) := do
  let sign ← Cursor.readU8
  if sign = 0 ∨ sign = 1 then do return [.integer (sign = 1) (← Cursor.readBytes length)]
  else fail (.invalidBigSign sign)

def surveyReference (left length : ℕ) : Cursor (List Item) := do
  require (length ≠ 0 ∧ length ≤ 2) (.invalidReferenceArity length)
  append (surveyNode left) (blank (4 + length * 4))

def surveyBody (surveyOne : Cursor (List Item)) (left : ℕ) (tag : UInt8) : Cursor (List Item) :=
  if tag = Etf.Tags.newFloatExt then blank 8
  else if tag = Etf.Tags.smallIntegerExt then blank 1
  else if tag = Etf.Tags.integerExt then blank 4
  else if tag = Etf.Tags.atomUtf8Ext then do surveyText [] (← Cursor.readU16)
  else if tag = Etf.Tags.smallAtomUtf8Ext then do surveyText [] (← Cursor.readU8).toNat
  else if tag = Etf.Tags.smallTupleExt then do times surveyOne (← Cursor.readU8).toNat
  else if tag = Etf.Tags.largeTupleExt then do times surveyOne (← Cursor.readU32)
  else if tag = Etf.Tags.nilExt then return []
  else if tag = Etf.Tags.stringExt then do blank (← Cursor.readU16)
  else if tag = Etf.Tags.listExt then do
    let length ← Cursor.readU32
    append (times surveyOne length) surveyOne
  else if tag = Etf.Tags.binaryExt then do blank (← Cursor.readU32)
  else if tag = Etf.Tags.smallBigExt then do surveyBig (← Cursor.readU8).toNat
  else if tag = Etf.Tags.largeBigExt then do surveyBig (← Cursor.readU32)
  else if tag = Etf.Tags.mapExt then do
    let length ← Cursor.readU32
    times (append surveyOne surveyOne) length
  else if tag = Etf.Tags.newPidExt then append (surveyNode left) (blank 12)
  else if tag = Etf.Tags.newerReferenceExt then do surveyReference left (← Cursor.readU16)
  else fail (.unsupportedTag tag)

def surveyOne : ℕ → Cursor (List Item)
  | 0 => fail .tooDeep
  | left + 1 => do surveyBody (surveyOne left) left (← Cursor.readU8)

def surveyTermPrefix : Cursor (List Item) := afterVersion (surveyOne (Etf.maxEtfDepth + 1))

/-- The term in front, as far as there is one, is taken by both readers or by neither. -/
def Agreeable (bytes : List UInt8) : Prop :=
  ∀ items rest, surveyTermPrefix () bytes = .ok (items, (), rest) →
    ((∀ i ∈ items, i.scanned = true) ↔ ∀ i ∈ items, i.decoded = true)

/-! ## Both follow the survey -/

section Follow

variable {σ α : Type} {excused : DecodeError → Prop} {good : Item → Prop}

theorem blank_apply (n : ℕ) (c : List UInt8) :
    blank n () c = if n ≤ c.length then .ok ([], (), c.drop n) else .error .truncated := by
  by_cases h : n ≤ c.length
  · rw [if_pos h]
    exact bind_eq_of_ok (if_pos h)
  · have hread : Cursor.readBytes n () c = .error .truncated := if_neg h
    rw [if_neg h, blank, bind_apply, hread]

/-- Bytes can be skipped in two parts. -/
theorem blank_add (m n : ℕ) (c : List UInt8) :
    blank (m + n) () c = append (blank m) (blank n) () c := by
  rw [append_apply, blank_apply, blank_apply]
  by_cases hm : m ≤ c.length
  · rw [if_pos hm]
    dsimp only
    rw [blank_apply, List.length_drop]
    by_cases hn : n ≤ c.length - m
    · rw [if_pos (by omega), if_pos hn, List.drop_drop]
      rfl
    · rw [if_neg (by omega), if_neg hn]
  · rw [if_neg hm, if_neg (by omega)]

/-- Words of one size are skipped together. -/
theorem blank_mul (size n : ℕ) (c : List UInt8) :
    blank (n * size) () c = times (blank size) n () c := by
  induction n generalizing c with
  | zero =>
    rw [Nat.zero_mul, blank_apply, if_pos (Nat.zero_le _)]
    rfl
  | succ n ih =>
    rw [Nat.succ_mul, Nat.add_comm, blank_add, times_succ, append_apply, append_apply]
    simp only [ih]

theorem follows_blank {n : ℕ} {f : List UInt8 → Decoder DecodeError σ α}
    (hf : ∀ bytes, Follows excused good (f bytes) (pure [] : Cursor (List Item))) :
    Follows excused good (take .truncated n >>= f) (blank n) :=
  .read (SameRead.take _ _ n) hf

theorem follows_skipBytes (n : ℕ) :
    Follows excused good (Cursor.skipBytes n) (blank n) :=
  follows_blank fun _ => .pure () (List.forall_mem_nil _)

theorem same_readU8 : SameRead (byte .truncated : Decoder DecodeError σ UInt8) Cursor.readU8 :=
  SameRead.byte _ _

theorem same_readU16 : SameRead
    (do return beNat (← take .truncated 2) : Decoder DecodeError σ ℕ) Cursor.readU16 :=
  (SameRead.take _ _ 2).map beNat

theorem same_readU32 : SameRead
    (do return beNat (← take .truncated 4) : Decoder DecodeError σ ℕ) Cursor.readU32 :=
  (SameRead.take _ _ 4).map beNat

/-- What a node name under lists is made of. -/
theorem surveyName_ok {found : Item} {wrapped : Cursor (List Item)} {P : List Item → Prop}
    (hfound : P [found]) (hwrapped : ∀ {c items c'}, wrapped () c = .ok (items, (), c') → P items)
    {c : List UInt8} {items : List Item} {c' : List UInt8}
    (h : surveyName found wrapped () c = .ok (items, (), c')) : P items := by
  have htext : ∀ {n c c'}, surveyText [found] n () c = .ok (items, (), c') → P items := by
    intro n c c' h
    simp only [surveyText, bind_ok_iff, pure_ok_iff] at h
    obtain ⟨bytes, _, _, _, _, _, _, _, rfl, _⟩ := h
    exact hfound
  obtain ⟨tag, ⟨⟩, c₁, -, h⟩ := bind_ok_iff.mp h
  split_ifs at h
  · obtain ⟨n, ⟨⟩, c₂, -, h⟩ := bind_ok_iff.mp h
    exact htext h
  · obtain ⟨n, ⟨⟩, c₂, -, h⟩ := bind_ok_iff.mp h
    exact htext h
  · obtain ⟨n, ⟨⟩, c₂, -, h⟩ := bind_ok_iff.mp h
    obtain ⟨⟨⟩, ⟨⟩, c₃, -, h⟩ := bind_ok_iff.mp h
    exact hwrapped h
  · exact absurd h not_fail_ok

theorem surveyNodeAt_ok {levels left lists : ℕ} {c : List UInt8} {items : List Item}
    {c' : List UInt8} (h : surveyNodeAt levels left lists () c = .ok (items, (), c')) :
    ∃ k, lists ≤ k ∧ items = [.node k levels] := by
  induction left generalizing lists c items c' with
  | zero =>
    exact surveyName_ok (P := fun items => ∃ k, lists ≤ k ∧ items = [.node k levels])
      ⟨lists, Nat.le_refl _, rfl⟩ (fun h => absurd h not_fail_ok) h
  | succ left ih =>
    refine surveyName_ok (P := fun items => ∃ k, lists ≤ k ∧ items = [.node k levels])
      ⟨lists, Nat.le_refl _, rfl⟩ (fun h => ?_) h
    obtain ⟨k, hk, hitems⟩ := ih h
    exact ⟨k, by omega, hitems⟩

/-- A name is read with the item found, or refused where the item is a bad one. -/
theorem follows_surveyText {n : ℕ} {items : List Item} {d : List UInt8 → Decoder DecodeError σ α}
    (hd : ∀ bytes, utf8Valid bytes = true → ∀ s c, Passes excused (d bytes) s c c)
    (hstay : ∀ {bytes s c a s' c'}, d bytes s c = .ok (a, s', c') →
      utf8Valid bytes = true ∧ c' = c) (hgood : ∀ i ∈ items, good i) :
    Follows excused good (take .truncated n >>= d) (surveyText items n) := by
  refine .read (SameRead.take _ _ n) fun bytes => ?_
  by_cases hvalid : utf8Valid bytes = true
  · rw [hvalid]
    exact .settled (hd bytes hvalid) (fun h => (hstay h).2) hgood
  · rw [Bool.not_eq_true] at hvalid
    rw [hvalid]
    refine .refused (fun h => ?_) (p := fail DecodeError.invalidUtf8) fun h => absurd h not_fail_ok
    have htrue := (hstay h).1
    rw [hvalid] at htrue
    cases htrue

/-! ### The scanner -/

section Scanned

variable {inner : Cursor Unit} {survey : Cursor (List Item)}

theorem follows_scanName {n : ℕ} {items : List Item} (hgood : ∀ i ∈ items, good i) :
    Follows excused good (scanName n) (surveyText items n) := by
  refine follows_surveyText (fun bytes hvalid s c => ?_) (fun {bytes s c a s' c'} h => ?_) hgood
  · rw [hvalid]
    exact .inl ⟨(), s, rfl⟩
  · obtain ⟨_, _, _, hrequired, h⟩ := bind_ok_iff.mp h
    obtain ⟨hvalid, -, rfl⟩ := require_ok_iff.mp hrequired
    exact ⟨hvalid, (pure_ok_iff.mp h).2.2.symm⟩

theorem surveyNode_eq (levels : ℕ) : ∃ wrapped, surveyNode levels =
      surveyName (.node 0 levels) wrapped ∧
    ∀ {c items c'}, wrapped () c = .ok (items, (), c') →
      ∃ k, 1 ≤ k ∧ items = [.node k levels] := by
  cases levels with
  | zero => exact ⟨_, rfl, fun h => absurd h not_fail_ok⟩
  | succ levels => exact ⟨_, rfl, fun h => surveyNodeAt_ok h⟩

theorem follows_scanNodeAtom (levels : ℕ) :
    Follows excused (·.scanned = true) scanNodeAtom (surveyNode levels) := by
  obtain ⟨wrapped, hnode, hwrapped⟩ := surveyNode_eq levels
  have hplain : ∀ i ∈ [Item.node 0 levels], i.scanned = true := by
    intro i hi
    rw [List.mem_singleton.mp hi]
    rfl
  rw [hnode]
  refine .read same_readU8 fun tag => ?_
  split_ifs
  · exact .read same_readU16 fun n => follows_scanName hplain
  · exact .read same_readU8 fun n => follows_scanName hplain
  · -- The scanner knows no other names.
    refine .refused not_fail_ok fun {c items c'} h => ?_
    obtain ⟨n, ⟨⟩, c₁, -, h⟩ := bind_ok_iff.mp h
    obtain ⟨⟨⟩, ⟨⟩, c₂, -, h⟩ := bind_ok_iff.mp h
    obtain ⟨k, hk, rfl⟩ := hwrapped h
    refine ⟨.node k levels, List.mem_singleton_self _, ?_⟩
    rw [Item.scanned, decide_eq_true_eq]
    omega
  · exact .fail _ _

theorem follows_scanBig (n : ℕ) :
    Follows excused (·.scanned = true) (scanBig n) (surveyBig n) := by
  refine .read same_readU8 fun sign => ?_
  split_ifs
  · refine .read (SameRead.take _ _ n) fun bytes => .pure () fun i hi => ?_
    rw [List.mem_singleton.mp hi]
    rfl
  · exact .fail _ _

variable (h : Follows excused (·.scanned = true) inner survey)

include h

theorem follows_scanTerms (n : ℕ) :
    Follows excused (·.scanned = true) (scanTerms inner n) (times survey n) :=
  .bind_nothing (h.many n) fun _ => .pure () (List.forall_mem_nil _)

theorem follows_scanBody (levels : ℕ) (tag : UInt8) :
    Follows excused (·.scanned = true) (scanBody inner tag) (surveyBody survey levels tag) := by
  have hreference : Follows excused (·.scanned = true) scanNewerReference
      (do surveyReference levels (← Cursor.readU16)) := by
    refine .read same_readU16 fun n => .require _ _ fun _ => ?_
    exact .bind (follows_scanNodeAtom levels) fun _ => follows_skipBytes _
  rw [scanBody, surveyBody]
  refine .ite (follows_skipBytes 8) <| .ite (follows_skipBytes 1) <|
    .ite (follows_skipBytes 4) <|
    .ite (.read same_readU16 fun n => follows_scanName (List.forall_mem_nil _)) <|
    .ite (.read same_readU8 fun n => follows_scanName (List.forall_mem_nil _)) <|
    .ite (.read same_readU8 fun n => follows_scanTerms h _) <|
    .ite (.read same_readU32 fun n => follows_scanTerms h _) <|
    .ite (.pure () (List.forall_mem_nil _)) <|
    .ite (.read same_readU16 follows_skipBytes) <|
    .ite (.read same_readU32 fun n => .bind (follows_scanTerms h n) fun _ => h) <|
    .ite (.read same_readU32 follows_skipBytes) <|
    .ite (.read same_readU8 fun n => follows_scanBig _) <|
    .ite (.read same_readU32 fun n => follows_scanBig _) <|
    .ite (.read same_readU32 fun n => follows_scanTerms (.bind h fun _ => h) n) <|
    .ite (.bind (follows_scanNodeAtom levels) fun _ => follows_skipBytes 12) <|
    .ite hreference (.fail _ _)

end Scanned

theorem follows_scanOne (left : ℕ) :
    Follows excused (·.scanned = true) (scanOne left) (surveyOne left) := by
  induction left with
  | zero => exact .fail _ _
  | succ left ih => exact .read same_readU8 fun tag => follows_scanBody ih left tag

/-! ### The survey takes a byte at least for each term -/

theorem shrinks_blank (n : ℕ) : Shrinks (blank n) :=
  (Shrinks.take _ n).bind fun _ => Shrinks.pure _

theorem shrinks_readU16 : Shrinks Cursor.readU16 := (Shrinks.take _ 2).bind fun _ => Shrinks.pure _

theorem shrinks_readU32 : Shrinks Cursor.readU32 := (Shrinks.take _ 4).bind fun _ => Shrinks.pure _

theorem shrinks_surveyText (items : List Item) (n : ℕ) : Shrinks (surveyText items n) :=
  (Shrinks.take _ n).bind fun _ => (Shrinks.require _ _).bind fun _ => Shrinks.pure _

theorem shrinks_append {p q : Cursor (List Item)} (hp : Shrinks p) (hq : Shrinks q) :
    Shrinks (append p q) :=
  hp.bind fun _ => hq.bind fun _ => Shrinks.pure _

theorem shrinks_times {p : Cursor (List Item)} (hp : Shrinks p) (n : ℕ) : Shrinks (times p n) :=
  (hp.many n).bind fun _ => Shrinks.pure _

theorem shrinks_ite {cond : Prop} [Decidable cond] {p q : Cursor (List Item)} (hp : Shrinks p)
    (hq : Shrinks q) : Shrinks (if cond then p else q) := by
  split_ifs
  · exact hp
  · exact hq

theorem shrinks_surveyName (found : Item) {wrapped : Cursor (List Item)} (h : Shrinks wrapped) :
    Shrinks (surveyName found wrapped) := by
  refine (Shrinks.byte _).bind fun tag => ?_
  refine shrinks_ite (shrinks_readU16.bind fun _ => shrinks_surveyText _ _) <|
    shrinks_ite ((Shrinks.byte _).bind fun _ => shrinks_surveyText _ _) <|
    shrinks_ite ?_ (Shrinks.fail _)
  exact shrinks_readU32.bind fun _ => (Shrinks.require _ _).bind fun _ => h

theorem shrinks_surveyNodeAt (levels left lists : ℕ) :
    Shrinks (surveyNodeAt levels left lists) := by
  induction left generalizing lists with
  | zero => exact shrinks_surveyName _ (Shrinks.fail _)
  | succ left ih => exact shrinks_surveyName _ (ih (lists + 1))

theorem shrinks_surveyBig (n : ℕ) : Shrinks (surveyBig n) := by
  refine (Shrinks.byte _).bind fun sign => shrinks_ite ?_ (Shrinks.fail _)
  exact (Shrinks.take _ n).bind fun _ => Shrinks.pure _

theorem shrinks_surveyBody {survey : Cursor (List Item)} (h : Shrinks survey) (levels : ℕ)
    (tag : UInt8) : Shrinks (surveyBody survey levels tag) := by
  have hnode := shrinks_surveyNodeAt levels levels 0
  rw [surveyBody]
  refine shrinks_ite (shrinks_blank 8) <| shrinks_ite (shrinks_blank 1) <|
    shrinks_ite (shrinks_blank 4) <|
    shrinks_ite (shrinks_readU16.bind fun _ => shrinks_surveyText _ _) <|
    shrinks_ite ((Shrinks.byte _).bind fun _ => shrinks_surveyText _ _) <|
    shrinks_ite ((Shrinks.byte _).bind fun _ => shrinks_times h _) <|
    shrinks_ite (shrinks_readU32.bind fun _ => shrinks_times h _) <|
    shrinks_ite (Shrinks.pure _) <|
    shrinks_ite (shrinks_readU16.bind fun _ => shrinks_blank _) <|
    shrinks_ite (shrinks_readU32.bind fun _ => shrinks_append (shrinks_times h _) h) <|
    shrinks_ite (shrinks_readU32.bind fun _ => shrinks_blank _) <|
    shrinks_ite ((Shrinks.byte _).bind fun _ => shrinks_surveyBig _) <|
    shrinks_ite (shrinks_readU32.bind fun _ => shrinks_surveyBig _) <|
    shrinks_ite (shrinks_readU32.bind fun _ => shrinks_times (shrinks_append h h) _) <|
    shrinks_ite (shrinks_append hnode (shrinks_blank _)) <|
    shrinks_ite (shrinks_readU16.bind fun _ => ?_) (Shrinks.fail _)
  exact (Shrinks.require _ _).bind fun _ => shrinks_append hnode (shrinks_blank _)

theorem shrinks_surveyOne (left : ℕ) : Shrinks (surveyOne left) := by
  induction left with
  | zero => exact Shrinks.fail _
  | succ left ih => exact (Shrinks.byte _).bind fun tag => shrinks_surveyBody ih left tag

theorem surveyOne_consumes (left : ℕ) : Consumes (surveyOne left) 1 := by
  cases left with
  | zero => exact fun _ _ _ h => absurd h not_fail_ok
  | succ left =>
    refine Consumes.byte _ fun tag => Consumes.zero ?_
    exact shrinks_surveyBody (shrinks_surveyOne left) left tag

/-! ### The decoder -/

section Decoded

/-- The decoder has run out of heap. -/
def HeapFull (e : DecodeError) : Prop := e = .heapAllocationFailed

theorem follows_alloc (words : ℕ) (term : Value) :
    Follows HeapFull good (alloc words term) (pure [] : Cursor (List Item)) := by
  refine .settled (fun s c => ?_) (fun {s c a s' c'} h => ?_) (List.forall_mem_nil _)
  · by_cases hwords : words ≤ s.heap
    · refine .inl ⟨term, { s with heap := s.heap - words }, ?_⟩
      exact reads_allocated hwords term c
    · refine .inr ⟨_, rfl, ?_⟩
      have hstate : (getState : TermDecoder _) s c = .ok (s, s, c) := rfl
      rw [alloc, bind_eq_of_ok hstate, decide_eq_false hwords]
      rfl
  · simp only [alloc, bind_ok_iff, getState_ok_iff, require_ok_iff, setState_ok_iff,
      pure_ok_iff] at h
    obtain ⟨_, _, _, ⟨rfl, rfl, rfl⟩, _, _, _, ⟨-, rfl, rfl⟩, _, _, _, ⟨rfl, rfl⟩, -, -, rfl⟩ := h
    rfl

theorem follows_allocList (elements : List Value) (tail : Value) :
    Follows HeapFull good (allocList elements tail) (pure [] : Cursor (List Item)) := by
  induction elements with
  | nil => exact .pure tail (List.forall_mem_nil _)
  | cons element rest ih => exact .bind_nothing ih fun tail => follows_alloc 2 _

theorem follows_decodeAtom (n : ℕ) {items : List Item} (hgood : ∀ i ∈ items, good i) :
    Follows HeapFull good (take .truncated n >>= decodeAtom) (surveyText items n) := by
  refine follows_surveyText (fun bytes hvalid s c => ?_) (fun {bytes s c a s' c'} h => ?_) hgood
  · rw [decodeAtom, dif_pos hvalid]
    exact .inl ⟨_, _, rfl⟩
  · by_cases hvalid : utf8Valid bytes = true
    · rw [decodeAtom, dif_pos hvalid] at h
      simp only [bind_ok_iff, getState_ok_iff, setState_ok_iff, pure_ok_iff] at h
      obtain ⟨_, _, _, ⟨rfl, rfl, rfl⟩, _, _, _, ⟨-, rfl⟩, -, -, rfl⟩ := h
      exact ⟨hvalid, rfl⟩
    · rw [decodeAtom, dif_neg hvalid] at h
      exact absurd h not_fail_ok

theorem follows_readU32 : Follows HeapFull good readU32 (blank 4) :=
  follows_blank fun bytes => .pure (beNat bytes) (List.forall_mem_nil _)

theorem follows_word {n : ℕ} {f : ℕ → TermDecoder α}
    (hf : ∀ word, Follows HeapFull good (f word) (blank n)) :
    Follows HeapFull good (readU32 >>= f) (blank (4 + n)) :=
  (Follows.bind follows_readU32 hf).congr (blank_add 4 n)

theorem follows_readU8 {f : UInt8 → TermDecoder α}
    (hf : ∀ b, Follows HeapFull good (f b) (pure [] : Cursor (List Item))) :
    Follows HeapFull good (readU8 >>= f) (blank 1) := by
  refine (Follows.read same_readU8 hf).congr fun c => ?_
  rw [blank_apply]
  cases c with
  | nil => rfl
  | cons b c => rfl

/-- Four bytes always fit a small integer. -/
theorem follows_integer :
    Follows HeapFull good (do decodeSmallInteger (← readI32)) (blank 4) := by
  have hread : (do decodeSmallInteger (← readI32)) =
      (take .truncated 4 : TermDecoder _) >>= fun bytes =>
        decodeSmallInteger (toSigned 32 (beNat bytes)) := by
    rw [readI32, readU32, bind_bind, bind_bind]
    rfl
  rw [hread]
  refine Follows.take _ _ fun bytes hlen => ?_
  have hlt : beNat bytes < 2 ^ 32 := by
    have hbound := beNat_lt bytes
    rw [hlen] at hbound
    exact hbound
  have hfits := fitsSigned_toSigned (w := 32) (by norm_num) hlt
  have hsmall : -(2 ^ 60) ≤ toSigned 32 (beNat bytes) ∧ toSigned 32 (beNat bytes) < 2 ^ 60 := by
    unfold FitsSigned at hfits
    norm_num at hfits ⊢
    omega
  rw [decodeSmallInteger, Etf.trySmallInt, dif_pos hsmall]
  exact .pure _ (List.forall_mem_nil _)

theorem follows_allocBigint (negative : Bool) (limbs : List UInt64) :
    Follows HeapFull good (allocBigint negative limbs) (pure [] : Cursor (List Item)) :=
  follows_alloc _ _

theorem follows_decodeWord (signed : ℤ) (hfits : FitsSigned 64 signed) :
    Follows HeapFull good (decodeWord signed) (pure [] : Cursor (List Item)) := by
  rw [decodeWord, if_pos hfits]
  cases Etf.trySmallInt signed with
  | some n => exact .pure _ (List.forall_mem_nil _)
  | none => exact follows_allocBigint _ _

theorem follows_magnitude {n : ℕ} {bytes : List UInt8} (hlen : bytes.length = n)
    (negative : Bool) :
    Follows HeapFull (·.decoded = true)
      (if n ≤ 8 then decodeWord (if negative then -leNat bytes else leNat bytes)
        else allocBigint negative (Etf.limbsOf bytes))
      (pure [.integer negative bytes] : Cursor (List Item)) := by
  have hdecoded : Item.decoded (.integer negative bytes) = true ↔ (n ≤ 8 →
      FitsSigned 64 (if negative then -leNat bytes else leNat bytes)) := by
    rw [Item.decoded, decide_eq_true_eq, hlen]
  have hgood : Item.decoded (.integer negative bytes) = true →
      ∀ i ∈ [Item.integer negative bytes], i.decoded = true := by
    intro h i hi
    rw [List.mem_singleton.mp hi]
    exact h
  by_cases hword : n ≤ 8
  · rw [if_pos hword]
    by_cases hfits : FitsSigned 64 (if negative then -leNat bytes else leNat bytes)
    · exact (follows_decodeWord _ hfits).listing (hgood (hdecoded.mpr fun _ => hfits))
    · rw [decodeWord, if_neg hfits]
      refine .refused not_fail_ok fun h => ?_
      obtain ⟨rfl, -, -⟩ := pure_ok_iff.mp h
      exact ⟨_, List.mem_singleton_self _, fun h => hfits (hdecoded.mp h hword)⟩
  · rw [if_neg hword]
    exact (follows_allocBigint _ _).listing (hgood (hdecoded.mpr fun h => absurd h hword))

theorem follows_decodeBigInteger (n : ℕ) :
    Follows HeapFull (·.decoded = true) (decodeBigInteger n) (surveyBig n) := by
  rw [decodeBigInteger, decodeSign, bind_bind]
  refine .read same_readU8 fun sign => ?_
  by_cases hzero : sign = 0
  · subst hzero
    exact Follows.take _ _ fun bytes hlen => follows_magnitude hlen false
  by_cases hone : sign = 1
  · subst hone
    exact Follows.take _ _ fun bytes hlen => follows_magnitude hlen true
  have hneither : ¬ (sign = 0 ∨ sign = 1) := by
    rintro (h | h)
    · exact hzero h
    · exact hone h
  rw [if_neg hneither]
  refine .refused (fun {s c a s' c'} h => ?_) (p := fail (DecodeError.invalidBigSign sign))
    fun h => absurd h not_fail_ok
  obtain ⟨negative, s₁, c₁, hsign, -⟩ := bind_ok_iff.mp h
  split at hsign
  · exact hzero rfl
  · exact hone rfl
  · exact not_fail_ok hsign

/-! #### Node names -/

/-- The values a decoder comes to. -/
def Yields (P : Value → Prop) (d : TermDecoder Value) : Prop :=
  ∀ s c v s' c', d s c = .ok (v, s', c') → P v

namespace Yields

variable {P : Value → Prop}

theorem bind {d : TermDecoder α} {f : α → TermDecoder Value} (hf : ∀ a, Yields P (f a)) :
    Yields P (d >>= f) := by
  intro s c v s' c' h
  obtain ⟨a, s₁, c₁, -, hv⟩ := bind_ok_iff.mp h
  exact hf a _ _ _ _ _ hv

theorem pure {v : Value} (h : P v) : Yields P (Pure.pure v) := by
  intro s c w s' c' hw
  obtain ⟨rfl, -, -⟩ := pure_ok_iff.mp hw
  exact h

theorem fail (e : DecodeError) : Yields P (Decoder.fail e) :=
  fun _ _ _ _ _ h => absurd h not_fail_ok

theorem ite {cond : Prop} [Decidable cond] {d d' : TermDecoder Value} (hthen : cond → Yields P d)
    (helse : ¬ cond → Yields P d') : Yields P (if cond then d else d') := by
  split_ifs with h
  · exact hthen h
  · exact helse h

theorem alloc (words : ℕ) {term : Value} (h : P term) : Yields P (alloc words term) :=
  bind fun _ => bind fun _ => bind fun _ => pure h

end Yields

/-- The value is no atom. -/
def NoAtom (v : Value) : Prop := ∀ a, v ≠ .atom a

theorem yields_allocList {elements : List Value} {tail : Value}
    (h : elements = [] → NoAtom tail) : Yields NoAtom (allocList elements tail) := by
  cases elements with
  | nil => exact .pure (h rfl)
  | cons element rest => exact .bind fun tail => .alloc 2 fun a => by rintro ⟨⟩

theorem yields_decodeBigInteger (n : ℕ) : Yields NoAtom (decodeBigInteger n) := by
  refine .bind fun negative => .bind fun bytes => .ite (fun _ => ?_) fun _ => ?_
  · refine .ite (fun _ => ?_) fun _ => .fail _
    cases Etf.trySmallInt (if negative then -leNat bytes else leNat bytes) with
    | some n => exact .pure fun a => by rintro ⟨⟩
    | none => exact .alloc _ fun a => by rintro ⟨⟩
  · exact .alloc _ fun a => by rintro ⟨⟩

/-- Only atoms, and lists whose tail they are, are decoded to atoms. -/
theorem yields_decodeBody {inner : TermDecoder Value} {tag : UInt8}
    (hatom : tag ≠ Etf.Tags.atomUtf8Ext) (hsmall : tag ≠ Etf.Tags.smallAtomUtf8Ext)
    (hlist : tag ≠ Etf.Tags.listExt) : Yields NoAtom (decodeBody inner tag) := by
  have hallocated : ∀ (words : ℕ) {term : Value}, NoAtom term → Yields NoAtom (alloc words term) :=
    fun words _ h => .alloc words h
  have htuple : ∀ n, Yields NoAtom (decodeTuple inner n) := fun n =>
    .bind fun _ => .bind fun elements => .alloc _ fun a => by rintro ⟨⟩
  have hstring : Yields NoAtom (do
      let length ← readU16
      let bytes ← readBytes length
      allocList (bytes.map Etf.smallInt) .nil) :=
    .bind fun _ => .bind fun _ => yields_allocList fun _ a => by rintro ⟨⟩
  rw [decodeBody]
  refine .ite (fun _ => .bind fun bytes => .alloc _ fun a => by rintro ⟨⟩) fun _ => ?_
  refine .ite (fun _ => .bind fun b => .pure fun a => by rintro ⟨⟩) fun _ => ?_
  refine .ite (fun _ => .bind fun v => .bind fun n => .pure fun a => by rintro ⟨⟩) fun _ => ?_
  refine .ite (fun h => absurd h hatom) fun _ => .ite (fun h => absurd h hsmall) fun _ => ?_
  refine .ite (fun _ => .bind fun _ => htuple _) fun _ => ?_
  refine .ite (fun _ => .bind fun _ => htuple _) fun _ => ?_
  refine .ite (fun _ => .pure fun a => by rintro ⟨⟩) fun _ => .ite (fun _ => hstring) fun _ => ?_
  refine .ite (fun h => absurd h hlist) fun _ => ?_
  refine .ite (fun _ => .bind fun _ => .bind fun _ => .alloc _ fun a => by rintro ⟨⟩) fun _ => ?_
  refine .ite (fun _ => .bind fun _ => yields_decodeBigInteger _) fun _ => ?_
  refine .ite (fun _ => .bind fun _ => yields_decodeBigInteger _) fun _ => ?_
  refine .ite (fun _ => .bind fun _ => .bind fun _ => .bind fun _ =>
    .alloc _ fun a => by rintro ⟨⟩) fun _ => ?_
  refine .ite (fun _ => .bind fun _ => .bind fun _ => .bind fun _ => .bind fun _ =>
    .alloc _ fun a => by rintro ⟨⟩) fun _ => ?_
  refine .ite (fun _ => .bind fun _ => .bind fun _ => .bind fun _ => .bind fun _ =>
    .bind fun _ => .alloc _ fun a => by rintro ⟨⟩) fun _ => .fail _

/-- What the node of a pid is taken from. -/
def nodeOf : Value → TermDecoder Atom
  | .atom node => return node
  | _ => fail .invalidExternalNode

theorem decodeNodeAtom_eq (inner : TermDecoder Value) :
    decodeNodeAtom inner = inner >>= nodeOf := by
  rw [decodeNodeAtom]
  congr 1

theorem not_nodeOf_ok {v : Value} (h : NoAtom v) {s : DecodeState ℕ} {c : List UInt8} {a : Atom}
    {s' : DecodeState ℕ} {c' : List UInt8} : nodeOf v s c ≠ .ok (a, s', c') := by
  cases v with
  | atom b => exact absurd rfl (h b)
  | _ => exact not_fail_ok (s := s) (c := c)

theorem follows_atomName (n : ℕ) {items : List Item} (hgood : ∀ i ∈ items, good i) :
    Follows HeapFull good (take .truncated n >>= fun bytes => decodeAtom bytes >>= nodeOf)
      (surveyText items n) := by
  refine follows_surveyText (fun bytes hvalid s c => ?_) (fun {bytes s c a s' c'} h => ?_) hgood
  · rw [decodeAtom, dif_pos hvalid]
    exact .inl ⟨_, _, rfl⟩
  · by_cases hvalid : utf8Valid bytes = true
    · rw [decodeAtom, dif_pos hvalid] at h
      simp only [bind_ok_iff, getState_ok_iff, setState_ok_iff, pure_ok_iff] at h
      obtain ⟨_, _, _, ⟨_, _, _, ⟨rfl, rfl, rfl⟩, _, _, _, ⟨-, rfl⟩, rfl, -, rfl⟩, h⟩ := h
      exact ⟨hvalid, (pure_ok_iff.mp h).2.2.symm⟩
    · rw [decodeAtom, dif_neg hvalid] at h
      obtain ⟨_, _, _, h, -⟩ := bind_ok_iff.mp h
      exact absurd h not_fail_ok

theorem consumes_surveyNodeAt (levels left lists : ℕ) :
    Consumes (surveyNodeAt levels left lists) 1 := by
  have hname : ∀ found wrapped, Shrinks wrapped → Consumes (surveyName found wrapped) 1 := by
    intro found wrapped h
    refine Consumes.byte _ fun tag => Consumes.zero ?_
    refine shrinks_ite (shrinks_readU16.bind fun _ => shrinks_surveyText _ _) <|
      shrinks_ite ((Shrinks.byte _).bind fun _ => shrinks_surveyText _ _) <|
      shrinks_ite ?_ (Shrinks.fail _)
    exact shrinks_readU32.bind fun _ => (Shrinks.require _ _).bind fun _ => h
  cases left with
  | zero => exact hname _ _ (Shrinks.fail _)
  | succ left => exact hname _ _ (shrinks_surveyNodeAt _ _ _)

/-- A list without elements is its tail. -/
theorem decodeList_zero (inner : TermDecoder Value) : decodeList inner 0 >>= nodeOf =
    ensureDecodableSequence 1 >>= fun _ => decodeNodeAtom inner := by
  rw [decodeList, bind_bind, decodeNodeAtom_eq]
  congr 1
  funext u
  change (inner >>= fun tail => allocList [] tail) >>= nodeOf = _
  rw [bind_bind]
  rfl

theorem decodeList_succ {inner : TermDecoder Value} {n : ℕ} (hn : n ≠ 0)
    {s : DecodeState ℕ} {c : List UInt8} {a : Atom} {s' : DecodeState ℕ} {c' : List UInt8} :
    (decodeList inner n >>= nodeOf) s c ≠ .ok (a, s', c') := by
  intro h
  obtain ⟨v, s₁, c₁, hv, h⟩ := bind_ok_iff.mp h
  simp only [decodeList, bind_ok_iff] at hv
  obtain ⟨-, s₂, c₂, -, elements, s₃, c₃, hmany, tail, s₄, c₄, -, hlist⟩ := hv
  have hlen := (many_ok (P := fun _ _ _ _ _ => True) (fun _ _ => trivial)
    (fun _ _ _ _ _ _ _ _ _ _ => trivial) n hmany).1
  refine not_nodeOf_ok (yields_allocList (fun hnil => ?_) _ _ _ _ _ hlist) h
  rw [hnil] at hlen
  exact absurd hlen.symm hn

theorem follows_decodeNodeAtom (left lists : ℕ) :
    Follows HeapFull (·.decoded = true) (decodeNodeAtom (decodeOne left))
      (surveyNodeAt (lists + left) left lists) := by
  induction left generalizing lists with
  | zero =>
    refine .refused (fun h => ?_) fun h => ?_
    · obtain ⟨_, _, _, h, -⟩ := bind_ok_iff.mp h
      exact not_fail_ok h
    · obtain ⟨k, hk, rfl⟩ := surveyNodeAt_ok h
      refine ⟨_, List.mem_singleton_self _, ?_⟩
      rw [Item.decoded, decide_eq_true_eq]
      omega
  | succ left ih =>
    have hlevels : lists + (left + 1) = lists + 1 + left := by omega
    have hgood : ∀ i ∈ [Item.node lists (lists + (left + 1))], i.decoded = true := by
      intro i hi
      rw [List.mem_singleton.mp hi, Item.decoded, decide_eq_true_eq]
      omega
    rw [decodeNodeAtom_eq, decodeOne, bind_bind]
    refine .read same_readU8 fun tag => ?_
    by_cases hatom : tag = Etf.Tags.atomUtf8Ext
    · have hbody : decodeBody (decodeOne left) Etf.Tags.atomUtf8Ext =
          readU16 >>= fun n => readBytes n >>= decodeAtom := rfl
      rw [if_pos hatom, hatom, hbody, bind_bind]
      refine .read same_readU16 fun n => ?_
      rw [bind_bind]
      exact follows_atomName n hgood
    by_cases hsmall : tag = Etf.Tags.smallAtomUtf8Ext
    · have hbody : decodeBody (decodeOne left) Etf.Tags.smallAtomUtf8Ext =
          readU8 >>= fun n => readBytes n.toNat >>= decodeAtom := rfl
      rw [if_neg hatom, if_pos hsmall, hsmall, hbody, bind_bind]
      refine .read same_readU8 fun n => ?_
      rw [bind_bind]
      exact follows_atomName _ hgood
    by_cases hlist : tag = Etf.Tags.listExt
    · have hbody : decodeBody (decodeOne left) Etf.Tags.listExt =
          readU32 >>= decodeList (decodeOne left) := rfl
      rw [if_neg hatom, if_neg hsmall, if_pos hlist, hlist, hbody, bind_bind]
      refine .read same_readU32 fun n => ?_
      by_cases hn : n = 0
      · subst hn
        rw [decodeList_zero, hlevels]
        exact .ensured _ (ih (lists + 1)) (consumes_surveyNodeAt _ _ _)
      · rw [decide_eq_false hn]
        refine .refused (decodeList_succ hn) fun h => ?_
        obtain ⟨_, _, _, h, -⟩ := bind_ok_iff.mp h
        exact absurd (require_ok_iff.mp h).1 Bool.false_ne_true
    · rw [if_neg hatom, if_neg hsmall, if_neg hlist]
      refine .refused (fun h => ?_) fun h => absurd h not_fail_ok
      obtain ⟨v, s₁, c₁, hv, h⟩ := bind_ok_iff.mp h
      exact not_nodeOf_ok (yields_decodeBody hatom hsmall hlist _ _ _ _ _ hv) h

/-! #### Terms -/

variable {inner : TermDecoder Value} {survey : Cursor (List Item)}

section Inner

variable (h : Follows HeapFull good inner survey) (hsurvey : Consumes survey 1)

include h hsurvey

theorem follows_decodeTuple (n : ℕ) :
    Follows HeapFull good (decodeTuple inner n) (times survey n) := by
  refine .ensured _ (.bind_nothing (h.many n) fun elements => follows_alloc _ _) ?_
  have hcount := hsurvey.times n
  rwa [Nat.mul_one] at hcount

theorem follows_decodeList (n : ℕ) :
    Follows HeapFull good (decodeList inner n) (append (times survey n) survey) := by
  refine .ensured _ (.bind (h.many n) fun elements => .bind_nothing h fun tail =>
    follows_allocList elements tail) ?_
  have hcount := (hsurvey.times n).append hsurvey
  rwa [Nat.mul_one] at hcount

theorem follows_decodeMap (n : ℕ) :
    Follows HeapFull good (decodeMap inner n) (times (append survey survey) n) := by
  have hentry : Follows HeapFull good (decodeEntry inner) (append survey survey) :=
    .bind h fun key => .bind_nothing h fun value => .pure (key, value) (List.forall_mem_nil _)
  refine .ensured _ (.bind_nothing (hentry.many n) fun entries => follows_alloc _ _) ?_
  exact (hsurvey.append hsurvey).times n

end Inner

theorem follows_decodeBody (left : ℕ)
    (h : Follows HeapFull (·.decoded = true) (decodeOne left) survey) (hsurvey : Consumes survey 1)
    (tag : UInt8) :
    Follows HeapFull (·.decoded = true) (decodeBody (decodeOne left) tag)
      (surveyBody survey left tag) := by
  have hnode : Follows HeapFull (·.decoded = true) (decodeNodeAtom (decodeOne left))
      (surveyNode left) := by
    have hzero := follows_decodeNodeAtom left 0
    rwa [Nat.zero_add] at hzero
  have hpid : Follows HeapFull (·.decoded = true) (decodeNewPid (decodeOne left))
      (append (surveyNode left) (blank 12)) :=
    .bind hnode fun node => follows_word fun id => follows_word fun serial =>
      .bind_nothing follows_readU32 fun _ => follows_alloc _ _
  have hreference : Follows HeapFull (·.decoded = true) (decodeNewerReference (decodeOne left))
      (do surveyReference left (← Cursor.readU16)) := by
    refine .read same_readU16 fun n => .require _ _ fun _ => .bind hnode fun node =>
      follows_word fun _ => ?_
    refine .bind_nothing ?_ fun words => follows_alloc _ _
    exact (follows_readU32.many n).congr (blank_mul 4 n)
  rw [decodeBody, surveyBody]
  refine .ite (follows_blank fun _ => follows_alloc _ _) <|
    .ite (follows_readU8 fun _ => .pure _ (List.forall_mem_nil _)) <|
    .ite follows_integer <|
    .ite (.read same_readU16 fun n => follows_decodeAtom n (List.forall_mem_nil _)) <|
    .ite (.read same_readU8 fun n => follows_decodeAtom _ (List.forall_mem_nil _)) <|
    .ite (.read same_readU8 fun n => follows_decodeTuple h hsurvey _) <|
    .ite (.read same_readU32 fun n => follows_decodeTuple h hsurvey n) <|
    .ite (.pure _ (List.forall_mem_nil _)) <|
    .ite (.read same_readU16 fun n => follows_blank fun _ => follows_allocList _ _) <|
    .ite (.read same_readU32 fun n => follows_decodeList h hsurvey n) <|
    .ite (.read same_readU32 fun n => follows_blank fun _ => follows_alloc _ _) <|
    .ite (.read same_readU8 fun n => follows_decodeBigInteger _) <|
    .ite (.read same_readU32 fun n => follows_decodeBigInteger _) <|
    .ite (.read same_readU32 fun n => follows_decodeMap h hsurvey n) <|
    .ite hpid <| .ite hreference (.fail _ _)

end Decoded

theorem follows_decodeOne (left : ℕ) :
    Follows HeapFull (·.decoded = true) (decodeOne left) (surveyOne left) := by
  induction left with
  | zero => exact .fail _ _
  | succ left ih =>
    exact .read same_readU8 fun tag => follows_decodeBody left ih (surveyOne_consumes left) tag

/-! ### Prefixes -/

theorem follows_scanPrefix : Follows excused (·.scanned = true)
    (afterVersion (scanOne (Etf.maxEtfDepth + 1))) surveyTermPrefix :=
  .read SameRead.remaining fun _ => .require _ _ fun _ => .read same_readU8 fun _ =>
    .require _ _ fun _ => follows_scanOne _

theorem follows_decodeTermPrefix :
    Follows HeapFull (·.decoded = true) decodeTermPrefix surveyTermPrefix :=
  .read SameRead.remaining fun _ => .require _ _ fun _ => .read same_readU8 fun _ =>
    .require _ _ fun _ => follows_decodeOne _

end Follow

theorem used_ok_iff {ε σ α : Type} {bytes : List UInt8}
    {r : Except ε (α × σ × List UInt8)} {n : ℕ} :
    used bytes r = .ok n ↔ ∃ a s rest, r = .ok (a, s, rest) ∧ bytes.length - rest.length = n := by
  cases r with
  | error e => simp [used]
  | ok r =>
    obtain ⟨a, s, rest⟩ := r
    simp [used]

/-- What `decode_term_prefix` says it used. -/
def decodeUsed (s : DecodeState ℕ) (bytes : List UInt8) : Except DecodeError ℕ :=
  used bytes (decodeTermPrefix s bytes)

/-- With room on the heap, scanner and decoder agree just where the grammar's two gaps are both
open or both shut. -/
theorem scan_agrees {s : DecodeState ℕ} {bytes : List UInt8}
    (hroom : decodeTermPrefix s bytes ≠ .error .heapAllocationFailed) :
    (∀ n, scanTermPrefix bytes = .ok n ↔ decodeUsed s bytes = .ok n) ↔ Agreeable bytes := by
  have hscan : Follows (fun _ => False) (·.scanned = true)
    (afterVersion (scanOne (Etf.maxEtfDepth + 1))) surveyTermPrefix := follows_scanPrefix
  have hdecode := follows_decodeTermPrefix
  have hscans : ∀ {items rest}, surveyTermPrefix () bytes = .ok (items, (), rest) →
      (∀ i ∈ items, i.scanned = true) →
      scanTermPrefix bytes = .ok (bytes.length - rest.length) := by
    intro items rest hp hgood
    rcases hscan.passes hp hgood with ⟨u, s', h⟩ | ⟨e, he, -⟩
    · exact used_ok_iff.mpr ⟨u, s', rest, h, rfl⟩
    · exact he.elim
  have hdecodes : ∀ {items rest}, surveyTermPrefix () bytes = .ok (items, (), rest) →
      (∀ i ∈ items, i.decoded = true) →
      decodeUsed s bytes = .ok (bytes.length - rest.length) := by
    intro items rest hp hgood
    rcases hdecode.passes (s := s) hp hgood with ⟨term, s', h⟩ | ⟨e, he, h⟩
    · exact used_ok_iff.mpr ⟨term, s', rest, h, rfl⟩
    · rw [he] at h
      exact absurd h hroom
  have hscanned : ∀ {n}, scanTermPrefix bytes = .ok n → ∃ items rest,
      surveyTermPrefix () bytes = .ok (items, (), rest) ∧ (∀ i ∈ items, i.scanned = true) ∧
        bytes.length - rest.length = n := by
    intro n h
    obtain ⟨u, s', rest, h, hn⟩ := used_ok_iff.mp h
    obtain ⟨items, hp, hgood⟩ := hscan.surveyed h
    exact ⟨items, rest, hp, hgood, hn⟩
  have hdecoded : ∀ {n}, decodeUsed s bytes = .ok n → ∃ items rest,
      surveyTermPrefix () bytes = .ok (items, (), rest) ∧ (∀ i ∈ items, i.decoded = true) ∧
        bytes.length - rest.length = n := by
    intro n h
    obtain ⟨term, s', rest, h, hn⟩ := used_ok_iff.mp h
    obtain ⟨items, hp, hgood⟩ := hdecode.surveyed h
    exact ⟨items, rest, hp, hgood, hn⟩
  constructor
  · intro hagree items rest hp
    constructor
    · intro hgood
      obtain ⟨items', rest', hp', hgood', -⟩ := hdecoded ((hagree _).mp (hscans hp hgood))
      obtain ⟨rfl, -⟩ := Prod.mk.inj (Except.ok.inj (hp.symm.trans hp'))
      exact hgood'
    · intro hgood
      obtain ⟨items', rest', hp', hgood', -⟩ := hscanned ((hagree _).mpr (hdecodes hp hgood))
      obtain ⟨rfl, -⟩ := Prod.mk.inj (Except.ok.inj (hp.symm.trans hp'))
      exact hgood'
  · intro hagree n
    constructor
    · intro h
      obtain ⟨items, rest, hp, hgood, rfl⟩ := hscanned h
      exact hdecodes hp ((hagree items rest hp).mp hgood)
    · intro h
      obtain ⟨items, rest, hp, hgood, rfl⟩ := hdecoded h
      exact hscans hp ((hagree items rest hp).mpr hgood)

end Beamr.Distribution.TermCodec
