import Beamr.Etf.Decode
import Beamr.Interpreter.Extraction
import Beamr.Lib.Outcome

/-!
# Match commands

`bs_match` runs a list of commands on one match context, which it holds by address. It
reserves the heap words of the whole list before it starts, and puts the context back where
it stood when a command does not match or fails.
-/
namespace Beamr.Interpreter

open Loader Term ByteOrder Outcome

/-! ## Commands -/

inductive CommandTag
  | ensureAtLeast
  | ensureExactly
  | integer
  | float
  | binary
  | skip
  | getTail
  | exact
  deriving DecidableEq

/-- A command with its arguments. -/
abbrev Command := CommandTag × List Operand

def numberedCommand : ℤ → Except ExecError CommandTag
  | 0 => .ok .ensureAtLeast
  | 1 => .ok .ensureExactly
  | 2 => .ok .integer
  | 3 => .ok .float
  | 4 => .ok .binary
  | 5 => .ok .skip
  | 6 => .ok .getTail
  | _ => .error (.invalidOperand "bs_match command")

/-- The commands by their interned names. -/
def namedCommand : Atom → Except ExecError CommandTag
  | 68 => .ok .ensureAtLeast
  | 69 => .ok .ensureExactly
  | 70 => .ok .integer
  | 71 => .ok .float
  | 72 => .ok .binary
  | 73 => .ok .skip
  | 74 => .ok .getTail
  | 75 => .ok .exact
  | _ => .error (.invalidOperand "bs_match command")

def commandName : Operand → Except ExecError CommandTag
  | .atom none => .ok .exact
  | .unsigned value => numberedCommand value
  | .integer value => numberedCommand value
  | .atom (some name) => namedCommand name
  | _ => .error (.invalidOperand "bs_match command")

def nestedCommand : Operand → Except ExecError Command
  | .list (tag :: args) => do .ok (← commandName tag, args)
  | _ => .error (.invalidOperand "bs_match command")

/-- Arguments of a command in the flat form, of `left` operands after its name. -/
def flatArity (tag : CommandTag) (left : ℕ) : ℕ :=
  match tag with
  | .ensureAtLeast => 2
  | .ensureExactly => 1
  | .integer | .float | .binary => 5
  | .skip => 1
  | .getTail => if 3 ≤ left then 3 else 2
  | .exact => 3

/-- The commands of the flat form, up to the first that cannot be read; the fuel is the number of
operands. -/
def flatCommands : ℕ → List Operand → List (Except ExecError Command)
  | fuel + 1, name :: rest =>
    match commandName name with
    | .error e => [.error e]
    | .ok tag =>
      if flatArity tag rest.length ≤ rest.length then
        .ok (tag, rest.take (flatArity tag rest.length)) ::
          flatCommands fuel (rest.drop (flatArity tag rest.length))
      else [.error (.invalidOperand "bs_match command")]
  | _, _ => []

def isNested : Operand → Bool
  | .list _ => true
  | _ => false

/-- What both loops over the commands go through: the commands in order, an error where one cannot
be read. -/
def commandStream (commands : List Operand) : List (Except ExecError Command) :=
  if commands.all isNested then commands.map nestedCommand
  else flatCommands commands.length commands

/-! ## Words reserved -/

def subBinaryWords : ℕ := 5

def MatchContext.remainingBits (context : MatchContext) : ℕ :=
  context.totalBits - context.positionBits

def commandHeapNeed (context : MatchContext) : Command → Except ExecError ℕ
  | (.float, _) => .ok 2
  | (.binary, [_live, _flags, size, unit, _dst]) => do
    let bits ← Matching.segmentBits size unit
    .ok (max subBinaryWords (Etf.allocBinaryWordCount (bits / 8)))
  | (.getTail, _) => .ok (Etf.allocBinaryWordCount (context.remainingBits / 8))
  | _ => .ok 0

def matchCommandsHeapNeed (context : MatchContext) :
    List (Except ExecError Command) → Except ExecError ℕ
  | [] => .ok 0
  | command :: rest => do
    let needed ← commandHeapNeed context (← command)
    .ok (needed + (← matchCommandsHeapNeed context rest))

/-! ## The process -/

/-- What a command puts on the heap. -/
inductive NewObject
  | binary (b : BinaryRef)
  | float (x : Float64)

def NewObject.value : NewObject → Value
  | .binary b => .binary b
  | .float x => .number (.float x)

/-- The memory with an object at the word. -/
def putObject (memory : Memory) (word : Word) (object : NewObject) : Memory where
  object := Function.update memory.object word object.value
  boxed w h := by
    by_cases hw : w = word
    · subst hw
      rw [Function.update_self] at h
      cases object <;> exact h
    · rw [Function.update_of_ne hw] at h
      exact memory.boxed w h
  other w raw h := by
    by_cases hw : w = word
    · subst hw
      rw [Function.update_self] at h
      cases object <;> cases h
    · rw [Function.update_of_ne hw] at h
      exact memory.other w raw h

/-- A process with the words left in its nursery, and where the nursery puts the next object. -/
structure MatchProcess extends BinaryProcess where
  free : ℕ
  place : ℕ → Word

abbrev MatchM := EStateM ExecError MatchProcess

/-- The bump allocator of the nursery, which never collects. -/
def allocObject (words : ℕ) (object : NewObject) : MatchM Word := fun p =>
  if words ≤ p.free then
    .ok (p.place p.free)
      { p with free := p.free - words, memory := putObject p.memory (p.place p.free) object }
  else .error (.heapFull words p.free) p

def writeDestination (term : Word) (destination : Operand) : MatchM Unit := fun p =>
  match writeTerm p.registers term destination with
  | .ok registers => .ok () { p with registers }
  | .error e => .error e p

/-- The context at an address. -/
def deref (word : Word) : MatchM MatchContext := fun p =>
  match p.contexts word with
  | some context => .ok context p
  | none => .error .badarg p

def setPosition (word : Word) (context : MatchContext) (bits : ℕ) : MatchM Unit := fun p =>
  .ok () { p with toBinaryProcess := setPositionBits p.toBinaryProcess word context bits }

/-! ## Running a command -/

section Commands

-- `f32::from_bits(_) as f64`
variable (widenSingle : ℕ → Float64)

theorem mod_signBit_lt (bits : ℕ) : bits % 2 ^ 63 < 2 ^ 63 := Nat.mod_lt _ (Nat.two_pow_pos 63)

def doubleOfBits (bits : ℕ) : Float64 := ⟨2 ^ 63 ≤ bits, bits % 2 ^ 63, mod_signBit_lt bits⟩

def getFloatValue (context : MatchContext) (memory : Memory) (size unit flags : Operand) :
    Except ExecError (Option (Float64 × ℕ)) := do
  let bits ← Matching.segmentBits size unit
  if ¬ (bits = 32 ∨ bits = 64) ∨ context.positionBits % 8 ≠ 0 then .error .badarg
  else if context.hasBits bits = false then .ok none
  else
    match context.slice memory bits with
    | none => .error .badarg
    | some bytes =>
      let value := match Endian.fromFlags flags with
        | .big => beNat bytes
        | .little => leNat bytes
      .ok (some (if bits = 32 then widenSingle value else doubleOfBits value, bits))

def getBinaryBytes (context : MatchContext) (memory : Memory) (size unit : Operand) :
    Except ExecError (Option (List UInt8 × ℕ)) := do
  let bits ← Matching.segmentBits size unit
  if bits % 8 ≠ 0 ∨ context.positionBits % 8 ≠ 0 then .error .badarg
  else if context.hasBits bits = false then .ok none
  else
    match context.slice memory bits with
    | none => .error .badarg
    | some bytes => .ok (some (bytes, bits))

def matchBytes (context : MatchContext) (memory : Memory) (bits : ℕ) (expected : List UInt8) :
    Except ExecError Bool :=
  if bits % 8 ≠ 0 then .error .badarg
  else if context.positionBits % 8 ≠ 0 ∨ context.hasBits bits = false then .ok false
  else
    match context.slice memory bits with
    | none => .error .badarg
    | some bytes => .ok (bytes = expected)

/-- The next bits as a number, two halves for a whole word. -/
def segmentNumber (context : MatchContext) (memory : Memory) (bits : ℕ) :
    Except ExecError ℕ :=
  if bits = 0 then .ok 0
  else if bits ≤ 63 then
    match context.readBitsBigEndian memory context.positionBits bits with
    | some value => .ok value
    | none => .error .badarg
  else if bits = 64 then
    match context.readBitsBigEndian memory context.positionBits 32,
        context.readBitsBigEndian memory (context.positionBits + 32) 32 with
    | some high, some low => .ok (high <<< 32 ||| low)
    | _, _ => .error .badarg
  else .error .badarg

def exactSegmentMatches (module : BinaryModule) (context : MatchContext) (memory : Memory)
    (bits : ℕ) (value : Operand) : Except ExecError Bool :=
  match value with
  | .literal index =>
    if bits % 8 ≠ 0 then .error .badarg
    else do
      let expected ← literalBytes module (.literal index) (bits / 8)
      matchBytes context memory bits expected
  | value => do
    let expected ← operandUsize value "bs_match exact value"
    let actual ← segmentNumber context memory bits
    .ok (actual = expected)

def allocateBinary (bytes : List UInt8) : MatchM Word :=
  allocObject (Etf.allocBinaryWordCount bytes.length) (.binary (Etf.storedBinary bytes))

/-- A segment of an off-heap binary shares its bytes, any other segment is copied. -/
def allocateExtractedBinary (context : MatchContext) (bytes : List UInt8) (bits : ℕ) :
    MatchM Word := do
  match (← get).memory.read context.sourceTerm with
  | .binary (.refc parent) =>
    if h : context.positionBits / 8 + bits / 8 ≤ parent.length then
      allocObject subBinaryWords
        (.binary (.sub ⟨parent, context.positionBits / 8, bits / 8, h⟩))
    -- the bytes were read from the parent, so they are in its range
    else throw .badarg
  | _ => allocateBinary bytes

/-- `get_tail`: a copy of whatever remains. -/
def getTail (word : Word) (dst : Operand) : MatchM Bool := do
  let context ← deref word
  if context.positionBits % 8 ≠ 0 then return false
  else
    match context.slice (← get).memory context.remainingBits with
    | none => throw .badarg
    | some bytes => do
      let binary ← allocateBinary bytes
      writeDestination binary dst
      setPosition word context context.totalBits
      return true

def runCommandArgs (module : BinaryModule) (word : Word) : Command → MatchM Bool
  | (.ensureAtLeast, [stride, unit]) => do
    let context ← deref word
    let stride ← lift (operandUsize stride "bs_match ensure stride")
    let unit := max (← lift (operandUsize unit "bs_match ensure unit")) 1
    return stride ≤ context.remainingBits ∧ context.remainingBits % unit = 0
  | (.ensureExactly, [stride, _]) | (.ensureExactly, [stride]) => do
    let context ← deref word
    let stride ← lift (operandUsize stride "bs_match ensure exactly")
    return context.remainingBits = stride
  | (.integer, [_live, flags, size, unit, dst]) => do
    let context ← deref word
    match ← lift (getIntegerValue context (← get).memory size unit flags) with
    | none => return false
    | some (value, bits) => do
      let term ← lift (readSmallInt value)
      writeDestination term dst
      setPosition word context (context.positionBits + bits)
      return true
  | (.float, [_live, flags, size, unit, dst]) => do
    let context ← deref word
    match ← lift (getFloatValue widenSingle context (← get).memory size unit flags) with
    | none => return false
    | some (value, bits) => do
      let term ← allocObject 2 (.float value)
      writeDestination term dst
      setPosition word context (context.positionBits + bits)
      return true
  | (.binary, [_live, _flags, size, unit, dst]) => do
    let context ← deref word
    match ← lift (getBinaryBytes context (← get).memory size unit) with
    | none => return false
    | some (bytes, bits) => do
      let binary ← allocateExtractedBinary context bytes bits
      writeDestination binary dst
      setPosition word context (context.positionBits + bits)
      return true
  | (.skip, [stride]) => do
    let context ← deref word
    let bits ← lift (operandUsize stride "bs_match skip stride")
    if context.hasBits bits then do
      setPosition word context (context.positionBits + bits)
      return true
    else return false
  | (.getTail, [_live, dst]) | (.getTail, [_live, _, dst]) => getTail word dst
  | (.exact, [_live, bits, value]) => do
    let context ← deref word
    let bits ← lift (operandUsize bits "bs_match exact bits")
    if context.hasBits bits then do
      if ← lift (exactSegmentMatches module context (← get).memory bits value) then do
        setPosition word context (context.positionBits + bits)
        return true
      else return false
    else return false
  | _ => throw (.invalidOperand "bs_match command")

def runMatchCommands (module : BinaryModule) (word : Word) :
    List (Except ExecError Command) → MatchM Bool
  | [] => return true
  | command :: rest => do
    let command ← lift command
    if ← runCommandArgs widenSingle module word command then runMatchCommands module word rest
    else return false

/-! ## The instruction -/

def readContextM (module : BinaryModule) (operand : Operand) : MatchM (Word × MatchContext) :=
  fun p => lift (readContext module p.toBinaryProcess operand) p

/-- The part of `bs_match` after the reservation. -/
def matchCommands (module : BinaryModule) (fail context : Operand) (commands : List Operand) :
    MatchM Branch := do
  let (word, context) ← readContextM module context
  fun p =>
    match runMatchCommands widenSingle module word (commandStream commands) p with
    | .ok true p => .ok .next p
    | .ok false p => (do
        setPosition word (← deref word) context.positionBits
        let _ ← lift (operandLabel fail)
        return Branch.fail) p
    | .error e p => (do
        setPosition word (← deref word) context.positionBits
        throw e) p

/-- The commands of the nested form are one operand, those of the flat form the rest. -/
def commandOperands : List Operand → List Operand
  | [.list commands] => commands
  | rest => rest

/-- `bs_match`; `ensureSpace` makes room, after a collection if need be. -/
def bsMatch (ensureSpace : ℕ → MatchM Unit) (module : BinaryModule) :
    List Operand → MatchM Branch
  | fail :: context :: operands => do
    let commands := commandOperands operands
    let (_, standing) ← readContextM module context
    let needed ← lift (matchCommandsHeapNeed standing (commandStream commands))
    if 0 < needed then ensureSpace needed
    matchCommands widenSingle module fail context commands
  | _ => throw (.invalidOperand "bs_match operands")

end Commands

/-! ## Errors of the parts -/

/-- Not the error of the allocator. -/
def ExecError.Plain (e : ExecError) : Prop :=
  ∀ requested available, e ≠ .heapFull requested available

/-- Fails with plain errors only. -/
def FailsPlain {α : Type} (x : Except ExecError α) : Prop := ∀ e, x = .error e → e.Plain

theorem failsPlain_ok {α : Type} (a : α) : FailsPlain (.ok a : Except ExecError α) :=
  fun _ h => by cases h

theorem failsPlain_badarg {α : Type} : FailsPlain (.error .badarg : Except ExecError α) := by
  rintro e h r a rfl
  cases h

theorem failsPlain_invalidOperand {α : Type} (context : String) :
    FailsPlain (.error (.invalidOperand context) : Except ExecError α) := by
  rintro e h r a rfl
  cases h

theorem FailsPlain.bind {α β : Type} {x : Except ExecError α} {f : α → Except ExecError β}
    (hx : FailsPlain x) (hf : ∀ a, FailsPlain (f a)) : FailsPlain (x >>= f) := by
  intro e h
  cases x with
  | ok a => exact hf a e h
  | error e' =>
    cases h
    exact hx e rfl

theorem failsPlain_operandUsize (operand : Operand) (context : String) :
    FailsPlain (operandUsize operand context) := by
  unfold operandUsize
  split
  · exact failsPlain_ok _
  · split
    · exact failsPlain_ok _
    · exact failsPlain_invalidOperand _
  · exact failsPlain_ok _
  · exact failsPlain_invalidOperand _

theorem failsPlain_segmentBits (size unit : Operand) :
    FailsPlain (Matching.segmentBits size unit) := by
  refine (failsPlain_operandUsize _ _).bind fun s => (failsPlain_operandUsize _ _).bind fun u => ?_
  split
  · exact failsPlain_ok _
  · exact failsPlain_invalidOperand _

theorem failsPlain_decodeInteger (bytes : List UInt8) (flags : SegmentFlags) :
    FailsPlain (decodeInteger bytes flags) := by
  unfold decodeInteger
  split
  · exact failsPlain_badarg
  · dsimp only
    split <;> exact failsPlain_ok _

theorem failsPlain_getIntegerValue (context : MatchContext) (memory : Memory)
    (size unit flags : Operand) : FailsPlain (getIntegerValue context memory size unit flags) := by
  refine (failsPlain_segmentBits _ _).bind fun bits => ?_
  dsimp only
  split
  · exact failsPlain_ok _
  split
  · exact failsPlain_ok _
  split
  · split
    · exact failsPlain_badarg
    · exact (failsPlain_decodeInteger _ _).bind fun _ => failsPlain_ok _
  split
  · exact failsPlain_badarg
  split
  · exact failsPlain_badarg
  split
  · exact failsPlain_badarg
  · exact failsPlain_ok _

theorem failsPlain_readSmallInt (value : ℤ) : FailsPlain (readSmallInt value) := by
  unfold readSmallInt
  split
  · exact failsPlain_ok _
  · exact failsPlain_badarg

theorem failsPlain_getFloatValue (widenSingle : ℕ → Float64) (context : MatchContext)
    (memory : Memory) (size unit flags : Operand) :
    FailsPlain (getFloatValue widenSingle context memory size unit flags) := by
  refine (failsPlain_segmentBits _ _).bind fun bits => ?_
  split
  · exact failsPlain_badarg
  split
  · exact failsPlain_ok _
  split
  · exact failsPlain_badarg
  · exact failsPlain_ok _

theorem failsPlain_getBinaryBytes (context : MatchContext) (memory : Memory)
    (size unit : Operand) : FailsPlain (getBinaryBytes context memory size unit) := by
  refine (failsPlain_segmentBits _ _).bind fun bits => ?_
  split
  · exact failsPlain_badarg
  split
  · exact failsPlain_ok _
  split
  · exact failsPlain_badarg
  · exact failsPlain_ok _

theorem failsPlain_literalBytes (module : BinaryModule) (operand : Operand) (byteLen : ℕ) :
    FailsPlain (literalBytes module operand byteLen) := by
  have htake : ∀ (bytes : List UInt8), FailsPlain
      (if byteLen ≤ bytes.length then .ok (bytes.take byteLen) else .error .badarg) := by
    intro bytes
    split
    · exact failsPlain_ok _
    · exact failsPlain_badarg
  unfold literalBytes
  split
  · split
    · exact htake _
    · exact htake _
    · exact failsPlain_badarg
  · refine (failsPlain_operandUsize _ _).bind fun offset => ?_
    split
    · exact failsPlain_ok _
    · exact failsPlain_badarg

theorem failsPlain_matchBytes (context : MatchContext) (memory : Memory) (bits : ℕ)
    (expected : List UInt8) : FailsPlain (matchBytes context memory bits expected) := by
  unfold matchBytes
  split
  · exact failsPlain_badarg
  split
  · exact failsPlain_ok _
  split
  · exact failsPlain_badarg
  · exact failsPlain_ok _

theorem failsPlain_segmentNumber (context : MatchContext) (memory : Memory) (bits : ℕ) :
    FailsPlain (segmentNumber context memory bits) := by
  unfold segmentNumber
  split
  · exact failsPlain_ok _
  split
  · split
    · exact failsPlain_ok _
    · exact failsPlain_badarg
  split
  · split
    · exact failsPlain_ok _
    · exact failsPlain_badarg
  · exact failsPlain_badarg

theorem failsPlain_exactSegmentMatches (module : BinaryModule) (context : MatchContext)
    (memory : Memory) (bits : ℕ) (value : Operand) :
    FailsPlain (exactSegmentMatches module context memory bits value) := by
  unfold exactSegmentMatches
  split
  · split
    · exact failsPlain_badarg
    · exact (failsPlain_literalBytes _ _ _).bind fun _ => failsPlain_matchBytes _ _ _ _
  · exact (failsPlain_operandUsize _ _).bind fun _ =>
      (failsPlain_segmentNumber _ _ _).bind fun _ => failsPlain_ok _

theorem failsPlain_u16FromU32 (value : ℕ) (context : String) :
    FailsPlain (u16FromU32 value context) := by
  unfold u16FromU32
  split
  · exact failsPlain_ok _
  · exact failsPlain_invalidOperand _

theorem failsPlain_writeTerm (registers : Registers) (w : Word) (operand : Operand) :
    FailsPlain (writeTerm registers w operand) := by
  fun_induction writeTerm registers w operand with
  | case1 index =>
    refine (failsPlain_u16FromU32 _ _).bind fun n => ?_
    split
    · exact failsPlain_ok _
    · rintro e h r a rfl
      cases h
  | case2 index =>
    refine (failsPlain_u16FromU32 _ _).bind fun n => ?_
    split
    · exact failsPlain_ok _
    · rintro e h r a rfl
      cases h
  | case3 register type ih => exact ih
  | case4 => exact failsPlain_invalidOperand _

/-! ## What a command does -/

/-- The bits a command consumes when so many remain. -/
def bitsOf (remaining : ℕ) : Command → ℕ
  | (.integer, [_, _, size, unit, _]) | (.float, [_, _, size, unit, _])
  | (.binary, [_, _, size, unit, _]) => ((Matching.segmentBits size unit).toOption).getD 0
  | (.skip, [stride]) => ((operandUsize stride "bs_match skip stride").toOption).getD 0
  | (.getTail, _) => remaining
  | (.exact, [_, bits, _]) => ((operandUsize bits "bs_match exact bits").toOption).getD 0
  | _ => 0

def MatchContext.forward (context : MatchContext) (bits : ℕ) : MatchContext :=
  { context with positionBits := context.positionBits + bits }

/-- After a command that did not fail: a match has consumed the bits of the command and not passed
the end, and no more words are gone than were to be reserved. -/
structure Consumed (word : Word) (context : MatchContext) (command : Command) (p : MatchProcess)
    (matched : Bool) (p' : MatchProcess) : Prop where
  stands : p'.contexts word = some (if matched then
    context.forward (bitsOf context.remainingBits command) else context)
  fits : matched = true →
    context.positionBits + bitsOf context.remainingBits command ≤ context.totalBits
  free : ∀ n, commandHeapNeed context command = .ok n → p.free ≤ p'.free + n

/-- After a command that failed: the context has not moved, and it was not for want of the words
that were to be reserved. -/
structure Kept (word : Word) (context : MatchContext) (command : Command) (p : MatchProcess)
    (e : ExecError) (p' : MatchProcess) : Prop where
  stands : p'.contexts word = some context
  free : ∀ n, commandHeapNeed context command = .ok n → n ≤ p.free → e.Plain

section Rules

variable {p : MatchProcess} {word : Word} {context : MatchContext} {α : Type}

theorem deref_bind {f : MatchContext → MatchM α} (h : p.contexts word = some context) :
    (deref word >>= f) p = f context p := by
  change EStateM.bind (deref word) f p = _
  rw [EStateM.bind, deref, h]

theorem get_bind {f : MatchProcess → MatchM α} : (get >>= f) p = f p p := rfl

/-- A part computed apart from the state fails with plain errors. -/
theorem ends_lift {β : Type} {x : Except ExecError β} {f : β → MatchM α}
    {value : α → MatchProcess → Prop} {command : Command} (h : p.contexts word = some context)
    (hplain : FailsPlain x)
    (hf : ∀ b, x = .ok b → Ends value (Kept word context command p) (f b p)) :
    Ends value (Kept word context command p) ((lift x >>= f) p) := by
  have hx : Ends (fun b q => q = p ∧ x = .ok b) (Kept word context command p) (lift x p) :=
    .lift (fun b hb => ⟨rfl, hb⟩) fun e he => ⟨h, fun _ _ _ => hplain e he⟩
  refine hx.bind ?_
  rintro b q ⟨rfl, hb⟩
  exact hf b hb

theorem writeDestination_ends (p : MatchProcess) (term : Word) (destination : Operand) :
    Ends (fun _ q => q.contexts = p.contexts ∧ q.free = p.free) (fun e q => q = p ∧ e.Plain)
      (writeDestination term destination p) := by
  unfold writeDestination
  split
  · exact ⟨rfl, rfl⟩
  · next e he => exact ⟨rfl, failsPlain_writeTerm _ _ _ e he⟩

theorem allocObject_ends (p : MatchProcess) (words : ℕ) (object : NewObject) :
    Ends (fun _ q => q.contexts = p.contexts ∧ p.free = q.free + words)
      (fun e q => q = p ∧ (words ≤ p.free → e.Plain)) (allocObject words object p) := by
  unfold allocObject
  split
  · next h => exact ⟨rfl, (Nat.sub_add_cancel h).symm⟩
  · next h => exact ⟨rfl, fun hle => absurd hle h⟩

theorem slice_length {memory : Memory} {bits : ℕ} {bytes : List UInt8}
    (h : context.slice memory bits = some bytes) : bytes.length = bits / 8 := by
  unfold MatchContext.slice at h
  split at h
  · cases h
  · obtain ⟨source, -, h⟩ := Option.bind_eq_some_iff.mp h
    split at h
    · next hle =>
      obtain rfl := Option.some.inj h
      rw [List.length_take, List.length_drop]
      omega
    · cases h

/-- An extracted binary takes the words reserved for it at most. -/
theorem allocateExtractedBinary_ends (p : MatchProcess) (context : MatchContext)
    {bytes : List UInt8} {bits : ℕ} (h : bytes.length = bits / 8) :
    Ends (fun _ q => q.contexts = p.contexts ∧
        p.free ≤ q.free + max subBinaryWords (Etf.allocBinaryWordCount (bits / 8)))
      (fun e q => q = p ∧
        (max subBinaryWords (Etf.allocBinaryWordCount (bits / 8)) ≤ p.free → e.Plain))
      (allocateExtractedBinary context bytes bits p) := by
  have hcopy : Ends (fun _ q => q.contexts = p.contexts ∧
        p.free ≤ q.free + max subBinaryWords (Etf.allocBinaryWordCount (bits / 8)))
      (fun e q => q = p ∧
        (max subBinaryWords (Etf.allocBinaryWordCount (bits / 8)) ≤ p.free → e.Plain))
      (allocateBinary bytes p) := by
    rw [allocateBinary, h]
    refine (allocObject_ends p _ _).imp ?_ ?_
    · rintro a q ⟨hcontexts, hfree⟩
      exact ⟨hcontexts, by omega⟩
    · rintro e q ⟨rfl, hplain⟩
      exact ⟨rfl, fun hle => hplain (le_trans (le_max_right _ _) hle)⟩
  rw [allocateExtractedBinary, get_bind]
  cases p.memory.read context.sourceTerm with
  | binary b =>
    cases b with
    | refc parent =>
      dsimp only
      split
      · refine (allocObject_ends p _ _).imp ?_ ?_
        · rintro a q ⟨hcontexts, hfree⟩
          exact ⟨hcontexts, by omega⟩
        · rintro e q ⟨rfl, hplain⟩
          exact ⟨rfl, fun hle => hplain (le_trans (le_max_left _ _) hle)⟩
      · refine ⟨rfl, fun _ => ?_⟩
        rintro r a hcontra
        cases hcontra
    | _ => exact hcopy
  | _ => exact hcopy

/-- The end of an extraction: the term is written and the context goes behind the segment. -/
theorem ends_finish {q : MatchProcess} {command : Command} {bits : ℕ} (term : Word)
    (destination : Operand) (hq : q.contexts word = some context)
    (hbits : bitsOf context.remainingBits command = bits)
    (hfits : context.positionBits + bits ≤ context.totalBits)
    (hfree : ∀ n, commandHeapNeed context command = .ok n → p.free ≤ q.free + n) :
    Ends (Consumed word context command p) (Kept word context command p)
      ((do
        writeDestination term destination
        setPosition word context (context.positionBits + bits)
        return true : MatchM Bool) q) := by
  refine .bind ((writeDestination_ends q term destination).imp (fun _ _ h => h) ?_) ?_
  · rintro e r ⟨rfl, hplain⟩
    exact ⟨hq, fun _ _ _ => hplain⟩
  · rintro _ r ⟨hcontexts, hrfree⟩
    refine ⟨?_, fun _ => hbits ▸ hfits, fun n hn => ?_⟩
    · rw [hbits]
      exact Function.update_self ..
    · have hle := hfree n hn
      rw [← hrfree] at hle
      exact hle

end Rules

section Specs

variable {p : MatchProcess} {word : Word} {context : MatchContext} {size unit flags : Operand}
  {bits : ℕ}

theorem hasBits_le (h : context.hasBits bits = true) :
    context.positionBits + bits ≤ context.totalBits := of_decide_eq_true h

theorem getIntegerValue_fits {memory : Memory} {value : ℤ}
    (h : getIntegerValue context memory size unit flags = .ok (some (value, bits))) :
    Matching.segmentBits size unit = .ok bits ∧
      context.positionBits + bits ≤ context.totalBits := by
  obtain ⟨n, hn, h⟩ := except_bind_ok_iff.mp h
  dsimp only at h
  split at h
  · cases h
  next hhas =>
  have hle := hasBits_le (eq_true_of_ne_false hhas)
  have hout : n = bits := by
    split at h
    · next hzero =>
      cases h
      exact hzero
    split at h
    · split at h
      · cases h
      · obtain ⟨v, -, h⟩ := except_bind_ok_iff.mp h
        cases h
        rfl
    split at h
    · cases h
    split at h
    · cases h
    split at h
    · cases h
    · cases h
      rfl
  exact ⟨hout ▸ hn, hout ▸ hle⟩

theorem getFloatValue_fits {widenSingle : ℕ → Float64} {memory : Memory} {value : Float64}
    (h : getFloatValue widenSingle context memory size unit flags = .ok (some (value, bits))) :
    Matching.segmentBits size unit = .ok bits ∧
      context.positionBits + bits ≤ context.totalBits := by
  obtain ⟨n, hn, h⟩ := except_bind_ok_iff.mp h
  split at h
  · cases h
  split at h
  · cases h
  next hhas =>
  split at h
  · cases h
  · cases h
    exact ⟨hn, hasBits_le (eq_true_of_ne_false hhas)⟩

theorem getBinaryBytes_fits {memory : Memory} {bytes : List UInt8}
    (h : getBinaryBytes context memory size unit = .ok (some (bytes, bits))) :
    Matching.segmentBits size unit = .ok bits ∧
      context.positionBits + bits ≤ context.totalBits ∧ bytes.length = bits / 8 := by
  obtain ⟨n, hn, h⟩ := except_bind_ok_iff.mp h
  split at h
  · cases h
  split at h
  · cases h
  next hhas =>
  split at h
  · cases h
  · next hslice =>
    cases h
    exact ⟨hn, hasBits_le (eq_true_of_ne_false hhas), slice_length hslice⟩

end Specs

section Run

variable {p : MatchProcess} {word : Word} {context : MatchContext}

@[simp] theorem forward_zero (context : MatchContext) : context.forward 0 = context := rfl

theorem toOption_getD {x : Except ExecError ℕ} {n : ℕ} (h : x = .ok n) : x.toOption.getD 0 = n := by
  rw [h]
  rfl

/-- A command that does not match leaves everything as it is. -/
theorem consumed_false {command : Command} (h : p.contexts word = some context) :
    Consumed word context command p false p :=
  ⟨h, (fun hcontra => by cases hcontra), fun n _ => Nat.le_add_right _ n⟩

/-- A test consumes nothing. -/
theorem consumed_test {command : Command} (h : p.contexts word = some context)
    (hpos : context.positionBits ≤ context.totalBits)
    (hbits : bitsOf context.remainingBits command = 0) (matched : Bool) :
    Consumed word context command p matched p := by
  refine ⟨?_, fun _ => by rwa [hbits], fun n _ => Nat.le_add_right _ n⟩
  rw [hbits, forward_zero, ite_self]
  exact h

/-- The context goes behind a segment and nothing else happens. -/
theorem ends_forward {command : Command} {bits : ℕ}
    (hbits : bitsOf context.remainingBits command = bits) (hfits : context.hasBits bits = true) :
    Ends (Consumed word context command p) (Kept word context command p)
      ((do
        setPosition word context (context.positionBits + bits)
        return true : MatchM Bool) p) := by
  refine ⟨?_, fun _ => hbits ▸ hasBits_le hfits, fun n _ => Nat.le_add_right _ n⟩
  rw [hbits]
  exact Function.update_self ..

theorem getTail_ends (h : p.contexts word = some context)
    (hpos : context.positionBits ≤ context.totalBits) (args : List Operand) (dst : Operand) :
    Ends (Consumed word context (.getTail, args) p) (Kept word context (.getTail, args) p)
      (getTail word dst p) := by
  have hplain : (ExecError.badarg).Plain := failsPlain_badarg (α := Unit) _ rfl
  have htotal : context.totalBits = context.positionBits + context.remainingBits :=
    (Nat.add_sub_cancel' hpos).symm
  rw [getTail, deref_bind h]
  split
  · exact consumed_false h
  · rw [get_bind]
    cases hslice : context.slice p.memory context.remainingBits with
    | none => exact ⟨h, fun _ _ _ => hplain⟩
    | some bytes =>
      dsimp only
      rw [allocateBinary, slice_length hslice]
      have halloc := allocObject_ends p (Etf.allocBinaryWordCount (context.remainingBits / 8))
        (.binary (Etf.storedBinary bytes))
      refine Ends.bind (halloc.imp (fun _ _ hq => hq) ?_) ?_
      · rintro e q ⟨rfl, hplain⟩
        refine ⟨h, fun n hn hle => hplain ?_⟩
        cases hn
        exact hle
      · rintro term q ⟨hcontexts, hfree⟩
        rw [htotal]
        refine ends_finish term dst (hcontexts ▸ h) rfl htotal.ge fun n hn => ?_
        cases hn
        exact hfree.le

variable (widenSingle : ℕ → Float64) (module : BinaryModule)

/-- What a command that ran to an answer consumed, and that a failed one has not moved the
context. -/
theorem runCommandArgs_ends (h : p.contexts word = some context)
    (hpos : context.positionBits ≤ context.totalBits) (command : Command) :
    Ends (Consumed word context command p) (Kept word context command p)
      (runCommandArgs widenSingle module word command p) := by
  unfold runCommandArgs
  split
  · next stride unit =>
    rw [deref_bind h]
    refine ends_lift h (failsPlain_operandUsize _ _) fun _ _ => ?_
    refine ends_lift h (failsPlain_operandUsize _ _) fun _ _ => ?_
    exact consumed_test h hpos rfl _
  · next stride unit =>
    rw [deref_bind h]
    refine ends_lift h (failsPlain_operandUsize _ _) fun _ _ => ?_
    exact consumed_test h hpos rfl _
  · next stride =>
    rw [deref_bind h]
    refine ends_lift h (failsPlain_operandUsize _ _) fun _ _ => ?_
    exact consumed_test h hpos rfl _
  · next live flags size unit dst =>
    rw [deref_bind h, get_bind]
    refine ends_lift h (failsPlain_getIntegerValue _ _ _ _ _) fun found hfound => ?_
    cases found with
    | none => exact consumed_false h
    | some segment =>
      obtain ⟨value, bits⟩ := segment
      obtain ⟨hbits, hfits⟩ := getIntegerValue_fits hfound
      refine ends_lift h (failsPlain_readSmallInt _) fun term _ => ?_
      exact ends_finish term dst h (toOption_getD hbits) hfits fun n _ => Nat.le_add_right _ n
  · next live flags size unit dst =>
    rw [deref_bind h, get_bind]
    refine ends_lift h (failsPlain_getFloatValue _ _ _ _ _ _) fun found hfound => ?_
    cases found with
    | none => exact consumed_false h
    | some segment =>
      obtain ⟨value, bits⟩ := segment
      obtain ⟨hbits, hfits⟩ := getFloatValue_fits hfound
      have halloc := allocObject_ends p 2 (.float value)
      refine Ends.bind (halloc.imp (fun _ _ hq => hq) ?_) ?_
      · rintro e q ⟨rfl, hplain⟩
        refine ⟨h, fun n hn hle => hplain ?_⟩
        cases hn
        exact hle
      · rintro term q ⟨hcontexts, hfree⟩
        refine ends_finish term dst (hcontexts ▸ h) (toOption_getD hbits) hfits fun n hn => ?_
        cases hn
        exact hfree.le
  · next live flags size unit dst =>
    rw [deref_bind h, get_bind]
    refine ends_lift h (failsPlain_getBinaryBytes _ _ _ _) fun found hfound => ?_
    cases found with
    | none => exact consumed_false h
    | some segment =>
      obtain ⟨bytes, bits⟩ := segment
      obtain ⟨hbits, hfits, hlength⟩ := getBinaryBytes_fits hfound
      have hneed : ∀ n, commandHeapNeed context (.binary, [live, flags, size, unit, dst]) = .ok n →
          n = max subBinaryWords (Etf.allocBinaryWordCount (bits / 8)) := by
        intro n hn
        rw [commandHeapNeed, hbits] at hn
        exact (Except.ok.inj hn).symm
      refine Ends.bind ((allocateExtractedBinary_ends p context hlength).imp
        (fun _ _ hq => hq) ?_) ?_
      · rintro e q ⟨rfl, hplain⟩
        exact ⟨h, fun n hn hle => hplain (hneed n hn ▸ hle)⟩
      · rintro term q ⟨hcontexts, hfree⟩
        refine ends_finish term dst (hcontexts ▸ h) (toOption_getD hbits) hfits fun n hn => ?_
        rw [hneed n hn]
        exact hfree
  · next stride =>
    rw [deref_bind h]
    refine ends_lift h (failsPlain_operandUsize _ _) fun bits hbits => ?_
    split
    · next hfits => exact ends_forward (toOption_getD hbits) hfits
    · exact consumed_false h
  · next live dst => exact getTail_ends h hpos _ dst
  · next live unit dst => exact getTail_ends h hpos _ dst
  · next live bits value =>
    rw [deref_bind h]
    refine ends_lift h (failsPlain_operandUsize _ _) fun n hn => ?_
    split
    · next hfits =>
      rw [get_bind]
      refine ends_lift h (failsPlain_exactSegmentMatches _ _ _ _ _) fun matched _ => ?_
      split
      · exact ends_forward (toOption_getD hn) hfits
      · exact consumed_false h
    · exact consumed_false h
  · refine ⟨h, fun _ _ _ => ?_⟩
    rintro r a hcontra
    cases hcontra

/-! ## Running the list -/

/-- The bits the commands consume one after the other when so many remain. -/
def totalConsumed (remaining : ℕ) : List Command → ℕ
  | [] => 0
  | command :: rest =>
    bitsOf remaining command + totalConsumed (remaining - bitsOf remaining command) rest

/-- The commands of a stream that can be read. -/
def readable (stream : List (Except ExecError Command)) : List Command :=
  stream.filterMap Except.toOption

/-- The context is somewhere in its binary. -/
def Moved (word : Word) (context : MatchContext) (p : MatchProcess) : Prop :=
  ∃ bits, p.contexts word = some { context with positionBits := bits }

theorem Moved.forward {bits : ℕ} {q : MatchProcess} (h : Moved word (context.forward bits) q) :
    Moved word context q := h

theorem remainingBits_forward (context : MatchContext) (bits : ℕ) :
    (context.forward bits).remainingBits = context.remainingBits - bits :=
  (Nat.sub_sub _ _ _).symm

/-- A list that matched has consumed the bits of all its commands. -/
theorem runMatchCommands_ends {stream : List (Except ExecError Command)}
    (h : p.contexts word = some context) (hpos : context.positionBits ≤ context.totalBits) :
    Ends (fun matched q => Moved word context q ∧ (matched = true →
        q.contexts word =
          some (context.forward (totalConsumed context.remainingBits (readable stream))) ∧
        context.positionBits + totalConsumed context.remainingBits (readable stream) ≤
          context.totalBits))
      (fun _ q => Moved word context q) (runMatchCommands widenSingle module word stream p) := by
  induction stream generalizing p context with
  | nil => exact ⟨⟨_, h⟩, fun _ => ⟨h, hpos⟩⟩
  | cons command rest ih =>
    cases command with
    | error e => exact ⟨_, h⟩
    | ok command =>
      have hcommand := (runCommandArgs_ends widenSingle module h hpos command).imp
        (fun _ _ hq => hq) fun _ q hq => (⟨_, hq.stands⟩ : Moved word context q)
      refine Ends.bind (m := runCommandArgs widenSingle module word command) hcommand ?_
      intro matched q hq
      cases matched with
      | false => exact ⟨⟨_, hq.stands⟩, fun hcontra => by cases hcontra⟩
      | true =>
        have hrest := @ih q _ hq.stands (hq.fits rfl)
        rw [if_pos rfl, remainingBits_forward] at hrest
        refine hrest.imp ?_ fun _ r hr => hr.forward
        rintro matched r ⟨hmoved, hdone⟩
        refine ⟨hmoved.forward, fun hmatched => ?_⟩
        obtain ⟨hstands, hfits⟩ := hdone hmatched
        rw [MatchContext.forward, MatchContext.forward, Nat.add_assoc] at hstands
        rw [MatchContext.forward, Nat.add_assoc] at hfits
        exact ⟨hstands, hfits⟩

/-- Every tail copied fits the words of the tail at the start. -/
def TailsCovered (start remaining : ℕ) : List Command → Prop
  | [] => True
  | command :: rest =>
    (command.1 = .getTail →
      Etf.allocBinaryWordCount (remaining / 8) ≤ Etf.allocBinaryWordCount (start / 8)) ∧
    TailsCovered start (remaining - bitsOf remaining command) rest

/-- Only a tail needs more words where more remains. -/
theorem commandHeapNeed_eq (first context : MatchContext) {command : Command}
    (h : command.1 ≠ .getTail) :
    commandHeapNeed first command = commandHeapNeed context command := by
  unfold commandHeapNeed
  split
  · rfl
  · rfl
  · exact absurd rfl h
  · rfl

/-- What a command needs where it runs is what was reserved for it at the start, tails apart. -/
theorem commandHeapNeed_le {first : MatchContext} {command : Command} {n : ℕ}
    (hn : commandHeapNeed first command = .ok n)
    (htail : command.1 = .getTail → Etf.allocBinaryWordCount (context.remainingBits / 8) ≤
      Etf.allocBinaryWordCount (first.remainingBits / 8)) :
    ∃ n', commandHeapNeed context command = .ok n' ∧ n' ≤ n := by
  by_cases htag : command.1 = .getTail
  · obtain ⟨tag, args⟩ := command
    obtain rfl : tag = .getTail := htag
    exact ⟨_, rfl, (htail rfl).trans (Except.ok.inj hn).le⟩
  · exact ⟨n, commandHeapNeed_eq first context htag ▸ hn, le_rfl⟩

/-- With the words of the list there, no command runs out of heap. -/
theorem runMatchCommands_plain {first : MatchContext} {stream : List (Except ExecError Command)}
    {n : ℕ} (h : p.contexts word = some context) (hpos : context.positionBits ≤ context.totalBits)
    (hneed : matchCommandsHeapNeed first stream = .ok n) (hfree : n ≤ p.free)
    (htails : TailsCovered first.remainingBits context.remainingBits (readable stream)) :
    Ends (fun _ _ => True) (fun e _ => e.Plain)
      (runMatchCommands widenSingle module word stream p) := by
  induction stream generalizing p context n with
  | nil => trivial
  | cons command rest ih =>
    cases command with
    | error e => cases hneed
    | ok command =>
      obtain ⟨_, hread, hneed⟩ := except_bind_ok_iff.mp hneed
      obtain rfl := Except.ok.inj hread
      obtain ⟨need, hcommand, htotal⟩ := except_bind_ok_iff.mp hneed
      obtain ⟨needRest, hrest, hsum⟩ := except_bind_ok_iff.mp htotal
      cases hsum
      obtain ⟨htail, htails⟩ := htails
      obtain ⟨need', hneed', hle⟩ := commandHeapNeed_le hcommand htail
      refine Ends.bind (m := runCommandArgs widenSingle module word command)
        ((runCommandArgs_ends widenSingle module h hpos command).imp (fun _ _ hq => hq)
          fun _ q hq => hq.free need' hneed' (by omega)) ?_
      intro matched q hq
      cases matched with
      | false => trivial
      | true =>
        have hgone := hq.free need' hneed'
        refine @ih q _ _ hq.stands (hq.fits rfl) hrest (by omega) ?_
        rwa [if_pos rfl, remainingBits_forward]

/-! ## What is reserved -/

/-- The words reserved for a list bound what its commands allocate: with as many words free the
list never runs out of heap. -/
def NeedBounds (p : MatchProcess) (word : Word) (context : MatchContext)
    (commands : List Operand) : Prop :=
  ∀ n free, matchCommandsHeapNeed context (commandStream commands) = .ok n → n ≤ free →
    Ends (fun _ _ => True) (fun e _ => e.Plain)
      (runMatchCommands widenSingle module word (commandStream commands) { p with free })

theorem needBounds_of_tailsCovered {commands : List Operand} (h : p.contexts word = some context)
    (hpos : context.positionBits ≤ context.totalBits)
    (htails : TailsCovered context.remainingBits context.remainingBits
      (readable (commandStream commands))) :
    NeedBounds widenSingle module p word context commands :=
  fun _ _ hneed hfree => runMatchCommands_plain widenSingle module h hpos hneed hfree htails

/-- Up to the threshold a shorter binary takes no more words. -/
theorem allocBinaryWordCount_le {short long : ℕ} (hle : short ≤ long)
    (hlong : long ≤ Etf.refcBinaryThreshold) :
    Etf.allocBinaryWordCount short ≤ Etf.allocBinaryWordCount long := by
  rw [Etf.allocBinaryWordCount, Etf.allocBinaryWordCount, if_pos (hle.trans hlong), if_pos hlong,
    Etf.packedWordCount, Etf.packedWordCount]
  omega

theorem tailsCovered_of_le {start remaining : ℕ} (hle : remaining ≤ start)
    (hstart : start / 8 ≤ Etf.refcBinaryThreshold) (commands : List Command) :
    TailsCovered start remaining commands := by
  induction commands generalizing remaining with
  | nil => trivial
  | cons command rest ih =>
    exact ⟨fun _ => allocBinaryWordCount_le (Nat.div_le_div_right hle) hstart,
      ih (by omega)⟩

/-- Skips to the last 64 bytes and copies them. -/
def shortTail (skipped : ℕ) : List Operand :=
  [.list [.unsigned 5, .unsigned skipped], .list [.unsigned 6, .unsigned 0, .x 0]]

theorem runMatchCommands_cons {command : Command} (rest : List (Except ExecError Command))
    {q : MatchProcess} (h : runCommandArgs widenSingle module word command p = .ok true q) :
    runMatchCommands widenSingle module word (.ok command :: rest) p =
      runMatchCommands widenSingle module word rest q := by
  change EStateM.bind (runCommandArgs widenSingle module word command) _ p = _
  rw [EStateM.bind, h]
  rfl

theorem runMatchCommands_error {command : Command} (rest : List (Except ExecError Command))
    {q : MatchProcess} {e : ExecError}
    (h : runCommandArgs widenSingle module word command p = .error e q) :
    runMatchCommands widenSingle module word (.ok command :: rest) p = .error e q := by
  change EStateM.bind (runCommandArgs widenSingle module word command) _ p = _
  rw [EStateM.bind, h]

theorem skip_ok {skipped : ℕ} (h : p.contexts word = some context)
    (hfits : context.hasBits skipped = true) :
    ∃ q, runCommandArgs widenSingle module word (.skip, [.unsigned skipped]) p = .ok true q ∧
      q.contexts word = some (context.forward skipped) ∧ q.free = p.free ∧ q.memory = p.memory := by
  refine ⟨{ p with toBinaryProcess :=
    setPositionBits p.toBinaryProcess word context (context.positionBits + skipped) }, ?_,
    Function.update_self .., rfl, rfl⟩
  rw [runCommandArgs, deref_bind h]
  change (if context.hasBits skipped = true then _ else _ : MatchM Bool) p = _
  rw [if_pos hfits]
  rfl

/-- A tail that does not fit the nursery. -/
theorem getTail_full {bytes : List UInt8} (dst : Operand) (h : p.contexts word = some context)
    (haligned : context.positionBits % 8 = 0)
    (hslice : context.slice p.memory context.remainingBits = some bytes)
    (hfull : p.free < Etf.allocBinaryWordCount bytes.length) :
    getTail word dst p = .error (.heapFull (Etf.allocBinaryWordCount bytes.length) p.free) p := by
  rw [getTail, deref_bind h, if_neg (not_not_intro haligned), get_bind, hslice]
  change EStateM.bind (allocateBinary bytes) _ p = _
  rw [EStateM.bind, allocateBinary, allocObject, if_neg (by omega)]

/-- After more than 64 bytes at the start, a copy of the last 64 takes more words than were
reserved. -/
theorem not_needBounds_shortTail {bytes : List UInt8} (h : p.contexts word = some context)
    (htotal : context.totalBits = 8 * bytes.length)
    (hsource : context.source p.memory = some bytes)
    (hlong : Etf.refcBinaryThreshold < context.remainingBits / 8) :
    ¬ NeedBounds widenSingle module p word context
      (shortTail (8 * (bytes.length - 64) - context.positionBits)) := by
  intro hbounds
  rw [MatchContext.remainingBits, htotal, Etf.refcBinaryThreshold] at hlong
  have hneed : matchCommandsHeapNeed context (commandStream (shortTail
      (8 * (bytes.length - 64) - context.positionBits))) =
        .ok (0 + (Etf.allocBinaryWordCount (context.remainingBits / 8) + 0)) := rfl
  have hwords : Etf.allocBinaryWordCount (context.remainingBits / 8) = 3 := by
    rw [Etf.allocBinaryWordCount, if_neg (by
      rw [MatchContext.remainingBits, htotal, Etf.refcBinaryThreshold]
      omega)]
    rfl
  rw [hwords] at hneed
  have hrun := hbounds 3 3 hneed le_rfl
  obtain ⟨q, hskip, hq, hfree, hmemory⟩ := @skip_ok { p with free := 3 } word context widenSingle
    module (8 * (bytes.length - 64) - context.positionBits) h (by
      rw [MatchContext.hasBits, htotal, decide_eq_true_eq]
      omega)
  have hposition : (context.forward (8 * (bytes.length - 64) - context.positionBits)).positionBits =
      8 * (bytes.length - 64) := by
    change context.positionBits + (8 * (bytes.length - 64) - context.positionBits) = _
    omega
  have hremaining :
      (context.forward (8 * (bytes.length - 64) - context.positionBits)).remainingBits = 512 := by
    rw [MatchContext.remainingBits, hposition, MatchContext.forward, htotal]
    omega
  have hslice : (context.forward (8 * (bytes.length - 64) - context.positionBits)).slice q.memory
      512 = some ((bytes.drop (bytes.length - 64)).take 64) := by
    rw [MatchContext.slice, hposition, if_neg (by omega), hmemory]
    change context.source p.memory >>= _ = _
    rw [hsource]
    have hstart : 8 * (bytes.length - 64) / 8 = bytes.length - 64 := by omega
    change (if 8 * (bytes.length - 64) / 8 + 64 ≤ bytes.length then _ else _) = _
    rw [hstart, if_pos (by omega)]
  have hlength : ((bytes.drop (bytes.length - 64)).take 64).length = 64 := by
    rw [List.length_take, List.length_drop]
    omega
  have hfull : q.free < Etf.allocBinaryWordCount
      ((bytes.drop (bytes.length - 64)).take 64).length := by
    rw [hlength, hfree]
    exact (by decide : 3 < Etf.allocBinaryWordCount 64)
  have htail := getTail_full (.x 0) hq (by rw [hposition]; omega) (hremaining ▸ hslice) hfull
  have hcommand : runCommandArgs widenSingle module word (.getTail, [.unsigned 0, .x 0]) q =
      .error _ q := htail
  have herror := (runMatchCommands_cons widenSingle module [.ok (.getTail, [.unsigned 0, .x 0])]
    hskip).trans (runMatchCommands_error widenSingle module [] hcommand)
  have hstream : commandStream (shortTail (8 * (bytes.length - 64) - context.positionBits)) =
      [.ok (.skip, [.unsigned (8 * (bytes.length - 64) - context.positionBits)]),
        .ok (.getTail, [.unsigned 0, .x 0])] := rfl
  rw [hstream, herror] at hrun
  exact hrun _ _ rfl

/-! ## The instruction as a whole -/

/-- What a reservation does: the words are there, and the context stands where it stood, whether or
not a collection has moved it. -/
structure Reserves (module : BinaryModule) (ensureSpace : ℕ → MatchM Unit) : Prop where
  room : ∀ {n : ℕ} {p q : MatchProcess}, ensureSpace n p = .ok () q → n ≤ q.free
  keeps : ∀ {n : ℕ} {p q : MatchProcess} {operand : Operand} {bytes : List UInt8} {pos : ℕ},
    (ensureSpace n p = .ok () q ∨ ∃ e, ensureSpace n p = .error e q) →
    StandsAt module p.toBinaryProcess operand bytes pos →
    StandsAt module q.toBinaryProcess operand bytes pos

/-- The context has moved on by the bits of all commands, or stands where it stood. -/
def Atomic (word : Word) (context : MatchContext) (commands : List Operand) :
    EStateM.Result ExecError MatchProcess Branch → Prop :=
  Ends (fun branch q =>
      match branch with
      | .next =>
        q.contexts word = some (context.forward
          (totalConsumed context.remainingBits (readable (commandStream commands)))) ∧
        context.positionBits +
            totalConsumed context.remainingBits (readable (commandStream commands)) ≤
          context.totalBits
      | .fail => q.contexts word = some context)
    fun _ q => q.contexts word = some context

/-- A context that has moved is put back. -/
theorem restore_bind {α : Type} {f : Unit → MatchM α} (h : Moved word context p) :
    ∃ q, q.contexts word = some context ∧
      (deref word >>= fun moved => setPosition word moved context.positionBits >>= f) p =
        f () q := by
  obtain ⟨bits, h⟩ := h
  refine ⟨_, ?_, deref_bind h⟩
  exact Function.update_self ..

theorem matchCommands_atomic {operand : Operand} (fail : Operand) (commands : List Operand)
    (hread : readTerm p.registers module.constantPool operand = .ok word)
    (h : p.contexts word = some context) (hpos : context.positionBits ≤ context.totalBits) :
    Atomic word context commands (matchCommands widenSingle module fail operand commands p) := by
  have hcontext : readContext module p.toBinaryProcess operand = .ok (word, context) := by
    rw [readContext, hread, except_ok_bind, h]
  have hrun := @runMatchCommands_ends p word context widenSingle module
    (commandStream commands) h hpos
  rw [matchCommands]
  change Atomic word context commands (EStateM.bind (readContextM module operand) _ p)
  rw [EStateM.bind, readContextM, hcontext]
  dsimp only [lift]
  cases hresult : runMatchCommands widenSingle module word (commandStream commands) p with
  | ok matched q =>
    rw [hresult] at hrun
    obtain ⟨hmoved, hdone⟩ := hrun
    cases matched with
    | true => exact hdone rfl
    | false =>
      obtain ⟨r, hr, hrestore⟩ := @restore_bind q word context Branch
        (fun _ => lift (operandLabel fail) >>= fun _ => pure Branch.fail) hmoved
      change Atomic word context commands ((deref word >>= fun moved =>
        setPosition word moved context.positionBits >>= fun _ =>
          lift (operandLabel fail) >>= fun _ => pure Branch.fail) q)
      rw [hrestore]
      cases hlabel : operandLabel fail with
      | ok label => exact hr
      | error e => exact hr
  | error e q =>
    rw [hresult] at hrun
    obtain ⟨r, hr, hrestore⟩ := @restore_bind q word context Branch (fun _ => throw e) hrun
    change Atomic word context commands ((deref word >>= fun moved =>
      setPosition word moved context.positionBits >>= fun _ => throw e) q)
    rw [hrestore]
    exact hr

/-- `bs_match` on a context of a process, whether it reserves or not. -/
theorem bsMatch_atomic {ensureSpace : ℕ → MatchM Unit} (hreserves : Reserves module ensureSpace)
    {operand : Operand} {bytes : List UInt8} {pos : ℕ} (fail : Operand) (operands : List Operand)
    (hstands : StandsAt module p.toBinaryProcess operand bytes pos)
    (hpos : pos ≤ 8 * bytes.length) :
    ∃ (q : MatchProcess) (word source : Word),
      readTerm q.registers module.constantPool operand = .ok word ∧
      q.contexts word = some ⟨pos, 8 * bytes.length, source⟩ ∧
      Atomic word ⟨pos, 8 * bytes.length, source⟩ (commandOperands operands)
        (bsMatch widenSingle ensureSpace module (fail :: operand :: operands) p) := by
  obtain ⟨word, source, hread, hcontext, hbinary⟩ := hstands
  have hstanding : readContext module p.toBinaryProcess operand =
      .ok (word, ⟨pos, 8 * bytes.length, source⟩) := by
    rw [readContext, hread, except_ok_bind, hcontext]
  change ∃ (q : MatchProcess) (word source : Word), _ ∧ _ ∧
    Atomic word _ _ (EStateM.bind (readContextM module operand) _ p)
  rw [EStateM.bind, readContextM, hstanding]
  dsimp only [lift]
  cases hneed : matchCommandsHeapNeed ⟨pos, 8 * bytes.length, source⟩
      (commandStream (commandOperands operands)) with
  | error e =>
    refine ⟨p, word, source, hread, hcontext, ?_⟩
    change Atomic word _ _ (EStateM.bind (lift (.error e)) _ p)
    exact hcontext
  | ok n =>
    change ∃ (q : MatchProcess) (word source : Word), _ ∧ _ ∧ Atomic word _ _
      ((if 0 < n then EStateM.bind (ensureSpace n) fun _ =>
          matchCommands widenSingle module fail operand (commandOperands operands)
        else matchCommands widenSingle module fail operand (commandOperands operands)) p)
    by_cases hpositive : 0 < n
    · rw [if_pos hpositive, EStateM.bind]
      cases hreserve : ensureSpace n p with
      | error e q =>
        obtain ⟨word', source', hread', hcontext', -⟩ :=
          hreserves.keeps (.inr ⟨e, hreserve⟩) ⟨word, source, hread, hcontext, hbinary⟩
        exact ⟨q, word', source', hread', hcontext', hcontext'⟩
      | ok u q =>
        obtain ⟨word', source', hread', hcontext', -⟩ :=
          hreserves.keeps (.inl hreserve) ⟨word, source, hread, hcontext, hbinary⟩
        exact ⟨q, word', source', hread', hcontext', matchCommands_atomic widenSingle module fail
          (commandOperands operands) hread' hcontext' hpos⟩
    · rw [if_neg hpositive]
      exact ⟨p, word, source, hread, hcontext, matchCommands_atomic widenSingle module fail
        (commandOperands operands) hread hcontext hpos⟩

/-- `bs_match` is atomic. The words it reserves bound what every list allocates exactly when no more
than 64 bytes remain, and for any context what a list allocates whose tails are covered. -/
theorem bs_match_atomic_iff {ensureSpace : ℕ → MatchM Unit}
    (hreserves : Reserves module ensureSpace) {operand : Operand} {bytes : List UInt8} {pos : ℕ}
    (hstands : StandsAt module p.toBinaryProcess operand bytes pos)
    (hpos : pos ≤ 8 * bytes.length) :
    (∀ fail operands, ∃ (q : MatchProcess) (word source : Word),
      readTerm q.registers module.constantPool operand = .ok word ∧
      q.contexts word = some ⟨pos, 8 * bytes.length, source⟩ ∧
      Atomic word ⟨pos, 8 * bytes.length, source⟩ (commandOperands operands)
        (bsMatch widenSingle ensureSpace module (fail :: operand :: operands) p)) ∧
    ∃ (word source : Word), readTerm p.registers module.constantPool operand = .ok word ∧
      p.contexts word = some ⟨pos, 8 * bytes.length, source⟩ ∧
      ((∀ commands, NeedBounds widenSingle module p word ⟨pos, 8 * bytes.length, source⟩ commands) ↔
        (8 * bytes.length - pos) / 8 ≤ Etf.refcBinaryThreshold) ∧
      ∀ commands, TailsCovered (8 * bytes.length - pos) (8 * bytes.length - pos)
          (readable (commandStream commands)) →
        NeedBounds widenSingle module p word ⟨pos, 8 * bytes.length, source⟩ commands := by
  refine ⟨fun fail operands => bsMatch_atomic widenSingle module hreserves fail operands hstands
    hpos, ?_⟩
  obtain ⟨word, source, hread, hcontext, binary, hbinary, hbytes⟩ := hstands
  have hcovered : ∀ commands, TailsCovered (8 * bytes.length - pos) (8 * bytes.length - pos)
      (readable (commandStream commands)) →
      NeedBounds widenSingle module p word ⟨pos, 8 * bytes.length, source⟩ commands :=
    fun commands htails => needBounds_of_tailsCovered widenSingle module hcontext hpos htails
  refine ⟨word, source, hread, hcontext, ⟨?_, ?_⟩, hcovered⟩
  · intro hbounds
    by_contra hlong
    have hsource : MatchContext.source ⟨pos, 8 * bytes.length, source⟩ p.memory = some bytes := by
      rw [MatchContext.source, hbinary]
      exact congrArg some hbytes
    exact not_needBounds_shortTail widenSingle module hcontext rfl hsource (not_le.mp hlong)
      (hbounds _)
  · exact fun hshort commands => hcovered commands (tailsCovered_of_le le_rfl hshort _)

end Run

/-! ## A tail of 64 bytes -/

/-- Every pointer leads to an off-heap binary of the bytes. -/
def heldMemory (bytes : List UInt8) : Memory where
  object _ := .binary (.refc bytes)
  boxed _ h := h
  other _ _ h := by cases h

/-- A context at the start of the binary in every register. -/
def heldProcess (bytes : List UInt8) : MatchProcess where
  registers := ⟨fun _ => 12, []⟩
  memory := heldMemory bytes
  contexts _ := some ⟨0, 8 * bytes.length, 20⟩
  free := 100
  place _ := 28

/-- A reservation that never collects. -/
def reserveFree (n : ℕ) : MatchM Unit := fun p =>
  if n ≤ p.free then .ok () p else .error (.heapFull n p.free) p

theorem reserveFree_reserves (module : BinaryModule) : Reserves module reserveFree where
  room {n p q} h := by
    unfold reserveFree at h
    split at h
    · next hle =>
      cases h
      exact hle
    · cases h
  keeps {n p q operand bytes pos} h hstands := by
    unfold reserveFree at h
    split at h
    · rcases h with h | ⟨e, h⟩
      · cases h
        exact hstands
      · cases h
    · rcases h with h | ⟨e, h⟩
      · cases h
      · cases h
        exact hstands

theorem heldProcess_standsAt (bytes : List UInt8) :
    StandsAt sampleModule (heldProcess bytes).toBinaryProcess (.x 0) bytes 0 :=
  ⟨12, 20, readTerm_x.mpr ⟨by norm_num, by decide, rfl⟩, rfl, .refc bytes, rfl, rfl⟩

/-- Eight bits skipped of eight bytes. -/
theorem bs_match_atomic_eight :
    ∃ (q : MatchProcess) (word source : Word),
      readTerm q.registers sampleModule.constantPool (.x 0) = .ok word ∧
      q.contexts word = some ⟨0, 64, source⟩ ∧
      Atomic word ⟨0, 64, source⟩ [.list [.unsigned 5, .unsigned 8]]
        (bsMatch (fun _ => doubleOfBits 0) reserveFree sampleModule
          [.label 1, .x 0, .list [.list [.unsigned 5, .unsigned 8]]]
          (heldProcess (List.replicate 8 0))) :=
  (bs_match_atomic_iff (fun _ => doubleOfBits 0) sampleModule (reserveFree_reserves sampleModule)
    (heldProcess_standsAt (List.replicate 8 0)) (Nat.zero_le _)).1 (.label 1)
    [.list [.list [.unsigned 5, .unsigned 8]]]

theorem not_needBounds_held (widenSingle : ℕ → Float64) {bytes : List UInt8}
    (h : 64 < bytes.length) :
    ¬ NeedBounds widenSingle sampleModule (heldProcess bytes) 12 ⟨0, 8 * bytes.length, 20⟩
      (shortTail (8 * (bytes.length - 64) - 0)) := by
  have hread : (heldMemory bytes).read 20 = .binary (.refc bytes) := rfl
  have hsource : MatchContext.source ⟨0, 8 * bytes.length, 20⟩ (heldMemory bytes) =
      some bytes := by
    rw [MatchContext.source, hread]
    rfl
  refine not_needBounds_shortTail widenSingle sampleModule rfl rfl hsource ?_
  change 64 < (8 * bytes.length - 0) / 8
  omega

/-- Of 72 bytes, 8 are skipped and 64 copied: three words are reserved and ten asked for. -/
theorem not_bs_match_bounded :
    ¬ ∀ (widenSingle : ℕ → Float64) (module : BinaryModule) (p : MatchProcess) (operand : Operand)
      (bytes : List UInt8) (pos : ℕ) (word source : Word) (commands : List Operand),
      StandsAt module p.toBinaryProcess operand bytes pos → pos ≤ 8 * bytes.length →
      readTerm p.registers module.constantPool operand = .ok word →
      p.contexts word = some ⟨pos, 8 * bytes.length, source⟩ →
      NeedBounds widenSingle module p word ⟨pos, 8 * bytes.length, source⟩ commands := by
  intro h
  have hlength : 64 < (List.replicate 72 (0 : UInt8)).length := by
    rw [List.length_replicate]
    norm_num
  exact not_needBounds_held (fun _ => doubleOfBits 0) hlength
    (h (fun _ => doubleOfBits 0) sampleModule (heldProcess (List.replicate 72 0)) (.x 0)
      (List.replicate 72 0) 0 12 20 _ (heldProcess_standsAt _) (Nat.zero_le _)
      (readTerm_x.mpr ⟨by norm_num, by decide, rfl⟩) rfl)

end Beamr.Interpreter
