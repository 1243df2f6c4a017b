import Beamr.Loader.OperandCodec

/-!
# Instructions

The decoded instruction set, the operand count of each opcode, the assembly of an
instruction from its operands and the way back. The writer recovers the opcode from
the variant; two opcodes share `makeFun` and are told apart by the operand count.
-/
namespace Beamr.Loader

open Decoder

inductive TypeTestOp where
  | isInteger | isFloat | isNumber | isAtom | isPid | isReference | isPort | isNil | isBinary
  | isList | isNonemptyList | isTuple | isFunction | isBoolean | isFunction2 | isBitstr | isMap
  deriving DecidableEq, Repr

inductive ComparisonOp where
  | lt | ge | eq | ne | eqExact | neExact
  deriving DecidableEq, Repr

inductive BifOp where
  | bif0 | bif1 | bif2 | gcBif1 | gcBif2 | gcBif3
  deriving DecidableEq, Repr

inductive BinaryOp where
  | bsGetInteger2 | bsGetFloat2 | bsGetBinary2 | bsSkipBits2 | bsTestTail2 | bsTestUnit
  | bsMatchString | bsInitWritable | bsGetUtf8 | bsSkipUtf8 | bsGetUtf16 | bsSkipUtf16
  | bsGetUtf32 | bsSkipUtf32 | bsGetTail | bsStartMatch3 | bsGetPosition | bsSetPosition
  | bsStartMatch4 | bsCreateBin | bsMatch
  deriving DecidableEq, Repr

inductive MapOp where
  | putMapAssoc | putMapExact | hasMapFields | getMapElements
  deriving DecidableEq, Repr

/-- A decoded instruction; fields in operand order. -/
inductive Instruction where
  | label (label : ℕ)
  | funcInfo (module function arity : Operand)
  | move (source destination : Operand)
  | call (arity label : Operand)
  | callOnly (arity label : Operand)
  | callExt (arity importIndex : Operand)
  | callExtOnly (arity importIndex : Operand)
  | fmove (source dest : Operand)
  | fconv (source dest : Operand)
  | fadd (fail left right dest : Operand)
  | fsub (fail left right dest : Operand)
  | fmul (fail left right dest : Operand)
  | fdiv (fail left right dest : Operand)
  | fnegate (fail source dest : Operand)
  | callLast (arity label deallocate : Operand)
  | callExtLast (arity importIndex deallocate : Operand)
  | return_
  | allocate (stackNeed live : Operand)
  | allocateHeap (stackNeed heapNeed live : Operand)
  | allocateZero (stackNeed live : Operand)
  | deallocate (words : Operand)
  | testHeap (heapNeed live : Operand)
  | putList (head tail destination : Operand)
  | putTuple2 (destination elements : Operand)
  | getTupleElement (source index destination : Operand)
  | getList (source head tail : Operand)
  | getHd (source destination : Operand)
  | getTl (source destination : Operand)
  | typeTest (op : TypeTestOp) (fail value : Operand)
  | comparison (op : ComparisonOp) (fail left right : Operand)
  | testArity (fail tuple arity : Operand)
  | isTaggedTuple (fail value arity tag : Operand)
  | selectVal (value fail list : Operand)
  | selectTupleArity (value fail list : Operand)
  | jump (target : Operand)
  | bif (op : BifOp) (operands : List Operand)
  | send
  | removeMessage
  | timeout
  | loopRec (fail destination : Operand)
  | loopRecEnd (fail : Operand)
  | wait (fail : Operand)
  | waitTimeout (fail timeout : Operand)
  | recvMarkerReserve (dest : Operand)
  | recvMarkerBind (marker reference : Operand)
  | recvMarkerClear (marker : Operand)
  | recvMarkerUse (marker : Operand)
  | catch_ (destination label : Operand)
  | catchEnd (source : Operand)
  | try_ (destination label : Operand)
  | tryEnd (source : Operand)
  | tryCase (source : Operand)
  | tryCaseEnd (source : Operand)
  | binaryOp (op : BinaryOp) (operands : List Operand)
  | mapOp (op : MapOp) (operands : List Operand)
  | makeFun (operands : List Operand)
  | callFun (arity : Operand)
  | callFun2 (function arity destination : Operand)
  | apply (arity : Operand)
  | applyLast (arity deallocate : Operand)
  | badmatch (value : Operand)
  | badrecord (value : Operand)
  | caseEnd (value : Operand)
  | ifEnd
  | raise (stacktrace reason : Operand)
  | rawRaise
  | line (index : Operand)
  | trim (words remaining : Operand)
  | onLoad
  | buildStacktrace
  | swap (left right : Operand)
  | initYregs (registers : Operand)
  | nifStart
  | updateRecord (operands : List Operand)
  | generic (opcode : ℕ) (name : String) (operands : List Operand)

/-! ## Decoding -/

def unsupportedOpcode (opcode : ℕ) : LoadError :=
  .decodeError s!"unsupported opcode {opcode}"

def opcodeArity (opcode : ℕ) : Except LoadError ℕ :=
  match opcode with
  | 1 => .ok 1
  | 2 => .ok 3
  | 4 => .ok 2
  | 5 => .ok 3
  | 6 => .ok 2
  | 7 => .ok 2
  | 8 => .ok 3
  | 9 => .ok 2
  | 10 => .ok 4
  | 11 => .ok 5
  | 12 => .ok 2
  | 13 => .ok 3
  | 14 => .ok 2
  | 16 => .ok 2
  | 18 => .ok 1
  | 19 | 20 | 21 | 22 | 73 | 133 | 149 | 160 | 161 | 179 => .ok 0
  | 23 => .ok 2
  | 24 => .ok 1
  | 25 => .ok 1
  | 26 => .ok 2
  | 39 | 40 | 41 | 42 | 43 | 44 => .ok 3
  | 45 | 46 | 47 | 48 | 49 | 50 | 51 | 52 | 53 => .ok 2
  | 55 | 56 | 57 => .ok 2
  | 58 => .ok 3
  | 59 => .ok 3
  | 60 => .ok 3
  | 61 => .ok 1
  | 62 => .ok 2
  | 63 => .ok 1
  | 64 => .ok 2
  | 65 => .ok 3
  | 66 => .ok 3
  | 67 => .ok 3
  | 69 => .ok 3
  | 72 => .ok 1
  | 74 => .ok 1
  | 75 => .ok 1
  | 77 => .ok 2
  | 78 => .ok 2
  | 96 => .ok 2
  | 97 => .ok 2
  | 98 | 99 | 100 | 101 => .ok 4
  | 102 => .ok 3
  | 103 => .ok 1
  | 104 => .ok 2
  | 105 => .ok 1
  | 106 => .ok 1
  | 107 => .ok 1
  | 108 => .ok 2
  | 112 => .ok 1
  | 113 => .ok 2
  | 114 => .ok 2
  | 115 => .ok 3
  | 117 => .ok 7
  | 118 => .ok 7
  | 119 => .ok 7
  | 120 => .ok 5
  | 121 => .ok 3
  | 124 => .ok 5
  | 125 => .ok 6
  | 129 => .ok 2
  | 131 => .ok 3
  | 132 => .ok 4
  | 136 => .ok 2
  | 138 => .ok 5
  | 139 => .ok 4
  | 140 => .ok 5
  | 141 => .ok 4
  | 142 => .ok 5
  | 143 => .ok 4
  | 152 => .ok 7
  | 153 => .ok 1
  | 154 => .ok 5
  | 155 => .ok 5
  | 156 => .ok 2
  | 157 => .ok 3
  | 158 => .ok 3
  | 159 => .ok 4
  | 162 => .ok 2
  | 163 => .ok 2
  | 164 => .ok 2
  | 165 => .ok 3
  | 166 => .ok 4
  | 167 => .ok 3
  | 168 => .ok 2
  | 169 => .ok 2
  | 170 => .ok 4
  | 171 => .ok 3
  | 172 => .ok 1
  | 173 => .ok 2
  | 174 | 175 | 176 => .ok 1
  | 177 => .ok 6
  | 178 => .ok 3
  | 180 => .ok 1
  | 181 => .ok 5
  | 182 => .ok 3
  | 183 => .ok 2
  | 184 => .ok 4
  | other => .error (unsupportedOpcode other)

/-- The reader was asked for the opcode's own operand count, so the other branch of these is not
taken. -/
def one {α : Type} (operands : List Operand) (f : Operand → α) : Except LoadError α :=
  match operands with
  | [a] => .ok (f a)
  | _ => .error (.decodeError "operand count")

def two {α : Type} (operands : List Operand) (f : Operand → Operand → α) : Except LoadError α :=
  match operands with
  | [a, b] => .ok (f a b)
  | _ => .error (.decodeError "operand count")

def three {α : Type} (operands : List Operand) (f : Operand → Operand → Operand → α) :
    Except LoadError α :=
  match operands with
  | [a, b, c] => .ok (f a b c)
  | _ => .error (.decodeError "operand count")

def four {α : Type} (operands : List Operand) (f : Operand → Operand → Operand → Operand → α) :
    Except LoadError α :=
  match operands with
  | [a, b, c, d] => .ok (f a b c d)
  | _ => .error (.decodeError "operand count")

def expectU32 (operand : Operand) (context : String) : Except LoadError ℕ :=
  match operand with
  | .integer value => unsignedU32 value context
  | .unsigned value => unsignedU32 value context
  | .label value => .ok value
  | _ => .error (.decodeError s!"{context} operand was not an integer label")

/-- The instruction of an opcode and its operands. -/
def assemble (opcode : ℕ) (operands : List Operand) : Except LoadError Instruction :=
  match opcode with
  | 1 => do
    let operand ← one operands id
    .ok (.label (← expectU32 operand "label"))
  | 2 => three operands .funcInfo
  | 4 => two operands .call
  | 5 => three operands .callLast
  | 6 => two operands .callOnly
  | 7 => two operands .callExt
  | 8 => three operands .callExtLast
  | 9 => .ok (.bif .bif0 operands)
  | 10 => .ok (.bif .bif1 operands)
  | 11 => .ok (.bif .bif2 operands)
  | 12 => two operands .allocate
  | 13 => three operands .allocateHeap
  | 14 => two operands .allocateZero
  | 16 => two operands .testHeap
  | 18 => one operands .deallocate
  | 19 => .ok .return_
  | 20 => .ok .send
  | 21 => .ok .removeMessage
  | 22 => .ok .timeout
  | 23 => two operands .loopRec
  | 24 => one operands .loopRecEnd
  | 25 => one operands .wait
  | 26 => two operands .waitTimeout
  | 39 => three operands (.comparison .lt)
  | 40 => three operands (.comparison .ge)
  | 41 => three operands (.comparison .eq)
  | 42 => three operands (.comparison .ne)
  | 43 => three operands (.comparison .eqExact)
  | 44 => three operands (.comparison .neExact)
  | 45 => two operands (.typeTest .isInteger)
  | 46 => two operands (.typeTest .isFloat)
  | 47 => two operands (.typeTest .isNumber)
  | 48 => two operands (.typeTest .isAtom)
  | 49 => two operands (.typeTest .isPid)
  | 50 => two operands (.typeTest .isReference)
  | 51 => two operands (.typeTest .isPort)
  | 52 => two operands (.typeTest .isNil)
  | 53 => two operands (.typeTest .isBinary)
  | 55 => two operands (.typeTest .isList)
  | 56 => two operands (.typeTest .isNonemptyList)
  | 57 => two operands (.typeTest .isTuple)
  | 58 => three operands .testArity
  | 59 => three operands .selectVal
  | 60 => three operands .selectTupleArity
  | 61 => one operands .jump
  | 62 => two operands .catch_
  | 63 => one operands .catchEnd
  | 64 => two operands .move
  | 65 => three operands .getList
  | 66 => three operands .getTupleElement
  | 67 => .ok (.generic opcode "set_tuple_element" operands)
  | 69 => three operands .putList
  | 72 => one operands .badmatch
  | 73 => .ok .ifEnd
  | 74 => one operands .caseEnd
  | 75 => one operands .callFun
  | 77 => two operands (.typeTest .isFunction)
  | 78 => two operands .callExtOnly
  | 96 => two operands .fmove
  | 97 => two operands .fconv
  | 98 => four operands .fadd
  | 99 => four operands .fsub
  | 100 => four operands .fmul
  | 101 => four operands .fdiv
  | 102 => three operands .fnegate
  | 103 => .ok (.makeFun operands)
  | 104 => two operands .try_
  | 105 => one operands .tryEnd
  | 106 => one operands .tryCase
  | 107 => one operands .tryCaseEnd
  | 108 => two operands .raise
  | 112 => one operands .apply
  | 113 => two operands .applyLast
  | 114 => two operands (.typeTest .isBoolean)
  | 115 => three operands fun fail function arity =>
      .typeTest .isFunction2 fail (.list [function, arity])
  | 117 => .ok (.binaryOp .bsGetInteger2 operands)
  | 118 => .ok (.binaryOp .bsGetFloat2 operands)
  | 119 => .ok (.binaryOp .bsGetBinary2 operands)
  | 120 => .ok (.binaryOp .bsSkipBits2 operands)
  | 121 => .ok (.binaryOp .bsTestTail2 operands)
  | 124 => .ok (.bif .gcBif1 operands)
  | 125 => .ok (.bif .gcBif2 operands)
  | 129 => two operands (.typeTest .isBitstr)
  | 131 => .ok (.binaryOp .bsTestUnit operands)
  | 132 => .ok (.binaryOp .bsMatchString operands)
  | 133 => .ok (.binaryOp .bsInitWritable operands)
  | 136 => two operands .trim
  | 138 => .ok (.binaryOp .bsGetUtf8 operands)
  | 139 => .ok (.binaryOp .bsSkipUtf8 operands)
  | 140 => .ok (.binaryOp .bsGetUtf16 operands)
  | 141 => .ok (.binaryOp .bsSkipUtf16 operands)
  | 142 => .ok (.binaryOp .bsGetUtf32 operands)
  | 143 => .ok (.binaryOp .bsSkipUtf32 operands)
  | 149 => .ok .onLoad
  | 152 => .ok (.bif .gcBif3 operands)
  | 153 => one operands .line
  | 154 => .ok (.mapOp .putMapAssoc operands)
  | 155 => .ok (.mapOp .putMapExact operands)
  | 156 => two operands (.typeTest .isMap)
  | 157 => .ok (.mapOp .hasMapFields operands)
  | 158 => .ok (.mapOp .getMapElements operands)
  | 159 => four operands .isTaggedTuple
  | 160 => .ok .buildStacktrace
  | 161 => .ok .rawRaise
  | 162 => two operands .getHd
  | 163 => two operands .getTl
  | 164 => two operands .putTuple2
  | 165 => .ok (.binaryOp .bsGetTail operands)
  | 166 => .ok (.binaryOp .bsStartMatch3 operands)
  | 167 => .ok (.binaryOp .bsGetPosition operands)
  | 168 => .ok (.binaryOp .bsSetPosition operands)
  | 169 => two operands .swap
  | 170 => .ok (.binaryOp .bsStartMatch4 operands)
  | 171 => .ok (.makeFun operands)
  | 172 => one operands .initYregs
  | 173 => two operands .recvMarkerBind
  | 174 => one operands .recvMarkerClear
  | 175 => one operands .recvMarkerReserve
  | 176 => one operands .recvMarkerUse
  | 177 => .ok (.binaryOp .bsCreateBin operands)
  | 178 => three operands .callFun2
  | 179 => .ok .nifStart
  | 180 => one operands .badrecord
  | 181 => .ok (.updateRecord operands)
  | 182 => .ok (.binaryOp .bsMatch operands)
  | 183 => .ok (.generic opcode "executable_line" operands)
  | 184 => .ok (.generic opcode "debug_line" operands)
  | other => .error (unsupportedOpcode other)

def decodeInstruction (atoms : List Atom) (literals : List Literal) (opcode : ℕ) :
    CompactM Instruction := do
  let arity ← ofExcept (opcodeArity opcode)
  let operands ← many (readOperand atoms literals) arity
  ofExcept (assemble opcode operands)

/-- The opcodes the header check of a decoded stream looks at. -/
def Instruction.headerOpcode : Instruction → Option ℕ
  | .label _ => some 1
  | .funcInfo _ _ _ => some 2
  | .call _ _ => some 4
  | .callLast _ _ _ => some 5
  | .callOnly _ _ => some 6
  | .callExt _ _ => some 7
  | .callExtLast _ _ _ => some 8
  | .callExtOnly _ _ => some 78
  | .fmove _ _ => some 96
  | .fconv _ _ => some 97
  | .fadd _ _ _ _ => some 98
  | .fsub _ _ _ _ => some 99
  | .fmul _ _ _ _ => some 100
  | .fdiv _ _ _ _ => some 101
  | .fnegate _ _ _ => some 102
  | .recvMarkerBind _ _ => some 173
  | .recvMarkerClear _ => some 174
  | .recvMarkerReserve _ => some 175
  | .recvMarkerUse _ => some 176
  | .isTaggedTuple _ _ _ _ => some 159
  | .generic opcode _ _ => some opcode
  | _ => none

/-! ## Encoding -/

def comparisonOpcode : ComparisonOp → ℕ
  | .lt => 39
  | .ge => 40
  | .eq => 41
  | .ne => 42
  | .eqExact => 43
  | .neExact => 44

def typeTestOpcode : TypeTestOp → ℕ
  | .isInteger => 45
  | .isFloat => 46
  | .isNumber => 47
  | .isAtom => 48
  | .isPid => 49
  | .isReference => 50
  | .isPort => 51
  | .isNil => 52
  | .isBinary => 53
  | .isList => 55
  | .isNonemptyList => 56
  | .isTuple => 57
  | .isFunction => 77
  | .isBoolean => 114
  | .isFunction2 => 115
  | .isBitstr => 129
  | .isMap => 156

def bifOpcode : BifOp → ℕ
  | .bif0 => 9
  | .bif1 => 10
  | .bif2 => 11
  | .gcBif1 => 124
  | .gcBif2 => 125
  | .gcBif3 => 152

def binaryOpcode : BinaryOp → ℕ
  | .bsGetInteger2 => 117
  | .bsGetFloat2 => 118
  | .bsGetBinary2 => 119
  | .bsSkipBits2 => 120
  | .bsTestTail2 => 121
  | .bsTestUnit => 131
  | .bsMatchString => 132
  | .bsInitWritable => 133
  | .bsGetUtf8 => 138
  | .bsSkipUtf8 => 139
  | .bsGetUtf16 => 140
  | .bsSkipUtf16 => 141
  | .bsGetUtf32 => 142
  | .bsSkipUtf32 => 143
  | .bsGetTail => 165
  | .bsStartMatch3 => 166
  | .bsGetPosition => 167
  | .bsSetPosition => 168
  | .bsStartMatch4 => 170
  | .bsCreateBin => 177
  | .bsMatch => 182

def mapOpcode : MapOp → ℕ
  | .putMapAssoc => 154
  | .putMapExact => 155
  | .hasMapFields => 157
  | .getMapElements => 158

/-- The opcode an instruction is written with. -/
def instructionOpcode : Instruction → Except EncodeError ℕ
  | .label _ => .ok 1
  | .funcInfo _ _ _ => .ok 2
  | .move _ _ => .ok 64
  | .call _ _ => .ok 4
  | .callOnly _ _ => .ok 6
  | .callExt _ _ => .ok 7
  | .callExtOnly _ _ => .ok 78
  | .fmove _ _ => .ok 96
  | .fconv _ _ => .ok 97
  | .fadd _ _ _ _ => .ok 98
  | .fsub _ _ _ _ => .ok 99
  | .fmul _ _ _ _ => .ok 100
  | .fdiv _ _ _ _ => .ok 101
  | .fnegate _ _ _ => .ok 102
  | .callLast _ _ _ => .ok 5
  | .callExtLast _ _ _ => .ok 8
  | .return_ => .ok 19
  | .allocate _ _ => .ok 12
  | .allocateHeap _ _ _ => .ok 13
  | .allocateZero _ _ => .ok 14
  | .deallocate _ => .ok 18
  | .testHeap _ _ => .ok 16
  | .putList _ _ _ => .ok 69
  | .putTuple2 _ _ => .ok 164
  | .getTupleElement _ _ _ => .ok 66
  | .getList _ _ _ => .ok 65
  | .getHd _ _ => .ok 162
  | .getTl _ _ => .ok 163
  | .testArity _ _ _ => .ok 58
  | .isTaggedTuple _ _ _ _ => .ok 159
  | .selectVal _ _ _ => .ok 59
  | .selectTupleArity _ _ _ => .ok 60
  | .jump _ => .ok 61
  | .send => .ok 20
  | .removeMessage => .ok 21
  | .timeout => .ok 22
  | .loopRec _ _ => .ok 23
  | .loopRecEnd _ => .ok 24
  | .wait _ => .ok 25
  | .waitTimeout _ _ => .ok 26
  | .recvMarkerReserve _ => .ok 175
  | .recvMarkerBind _ _ => .ok 173
  | .recvMarkerClear _ => .ok 174
  | .recvMarkerUse _ => .ok 176
  | .catch_ _ _ => .ok 62
  | .catchEnd _ => .ok 63
  | .try_ _ _ => .ok 104
  | .tryEnd _ => .ok 105
  | .tryCase _ => .ok 106
  | .tryCaseEnd _ => .ok 107
  | .callFun _ => .ok 75
  | .callFun2 _ _ _ => .ok 178
  | .apply _ => .ok 112
  | .applyLast _ _ => .ok 113
  | .badmatch _ => .ok 72
  | .badrecord _ => .ok 180
  | .caseEnd _ => .ok 74
  | .ifEnd => .ok 73
  | .raise _ _ => .ok 108
  | .rawRaise => .ok 161
  | .line _ => .ok 153
  | .trim _ _ => .ok 136
  | .onLoad => .ok 149
  | .buildStacktrace => .ok 160
  | .swap _ _ => .ok 169
  | .initYregs _ => .ok 172
  | .nifStart => .ok 179
  | .updateRecord _ => .ok 181
  | .comparison op _ _ _ => .ok (comparisonOpcode op)
  | .typeTest op _ _ => .ok (typeTestOpcode op)
  | .bif op _ => .ok (bifOpcode op)
  | .binaryOp op _ => .ok (binaryOpcode op)
  | .mapOp op _ => .ok (mapOpcode op)
  | .makeFun [_] => .ok 103
  | .makeFun [_, _, _] => .ok 171
  | .makeFun _ => .error .unsupportedInstruction
  | .generic opcode _ _ => .ok opcode

/-- The operands an instruction is written with. A label is written as an unsigned operand and
the synthetic pair of `is_function2` is taken apart again. -/
def instructionOperands : Instruction → Except EncodeError (List Operand)
  | .label label => .ok [.unsigned label]
  | .typeTest .isFunction2 fail (.list [function, arity]) => .ok [fail, function, arity]
  | .typeTest .isFunction2 _ _ => .error .unsupportedInstruction
  | .typeTest _ fail value => .ok [fail, value]
  | .comparison _ fail left right => .ok [fail, left, right]
  | .bif _ operands => .ok operands
  | .binaryOp _ operands => .ok operands
  | .mapOp _ operands => .ok operands
  | .generic _ _ operands => .ok operands
  | .funcInfo module function arity => .ok [module, function, arity]
  | .move source destination => .ok [source, destination]
  | .call arity label => .ok [arity, label]
  | .callOnly arity label => .ok [arity, label]
  | .callExt arity importIndex => .ok [arity, importIndex]
  | .callExtOnly arity importIndex => .ok [arity, importIndex]
  | .fmove source dest => .ok [source, dest]
  | .fconv source dest => .ok [source, dest]
  | .fadd fail left right dest => .ok [fail, left, right, dest]
  | .fsub fail left right dest => .ok [fail, left, right, dest]
  | .fmul fail left right dest => .ok [fail, left, right, dest]
  | .fdiv fail left right dest => .ok [fail, left, right, dest]
  | .fnegate fail source dest => .ok [fail, source, dest]
  | .callLast arity label deallocate => .ok [arity, label, deallocate]
  | .callExtLast arity importIndex deallocate => .ok [arity, importIndex, deallocate]
  | .return_ => .ok []
  | .allocate stackNeed live => .ok [stackNeed, live]
  | .allocateHeap stackNeed heapNeed live => .ok [stackNeed, heapNeed, live]
  | .allocateZero stackNeed live => .ok [stackNeed, live]
  | .deallocate words => .ok [words]
  | .testHeap heapNeed live => .ok [heapNeed, live]
  | .putList head tail destination => .ok [head, tail, destination]
  | .putTuple2 destination elements => .ok [destination, elements]
  | .getTupleElement source index destination => .ok [source, index, destination]
  | .getList source head tail => .ok [source, head, tail]
  | .getHd source destination => .ok [source, destination]
  | .getTl source destination => .ok [source, destination]
  | .testArity fail tuple arity => .ok [fail, tuple, arity]
  | .isTaggedTuple fail value arity tag => .ok [fail, value, arity, tag]
  | .selectVal value fail list => .ok [value, fail, list]
  | .selectTupleArity value fail list => .ok [value, fail, list]
  | .jump target => .ok [target]
  | .send => .ok []
  | .removeMessage => .ok []
  | .timeout => .ok []
  | .loopRec fail destination => .ok [fail, destination]
  | .loopRecEnd fail => .ok [fail]
  | .wait fail => .ok [fail]
  | .waitTimeout fail timeout => .ok [fail, timeout]
  | .recvMarkerReserve dest => .ok [dest]
  | .recvMarkerBind marker reference => .ok [marker, reference]
  | .recvMarkerClear marker => .ok [marker]
  | .recvMarkerUse marker => .ok [marker]
  | .catch_ destination label => .ok [destination, label]
  | .catchEnd source => .ok [source]
  | .try_ destination label => .ok [destination, label]
  | .tryEnd source => .ok [source]
  | .tryCase source => .ok [source]
  | .tryCaseEnd source => .ok [source]
  | .makeFun operands => .ok operands
  | .callFun arity => .ok [arity]
  | .callFun2 function arity destination => .ok [function, arity, destination]
  | .apply arity => .ok [arity]
  | .applyLast arity deallocate => .ok [arity, deallocate]
  | .badmatch value => .ok [value]
  | .badrecord value => .ok [value]
  | .caseEnd value => .ok [value]
  | .ifEnd => .ok []
  | .raise stacktrace reason => .ok [stacktrace, reason]
  | .rawRaise => .ok []
  | .line index => .ok [index]
  | .trim words remaining => .ok [words, remaining]
  | .onLoad => .ok []
  | .buildStacktrace => .ok []
  | .swap left right => .ok [left, right]
  | .initYregs registers => .ok [registers]
  | .nifStart => .ok []
  | .updateRecord operands => .ok operands

def encodeInstruction (e : AtomEncoder) (instruction : Instruction) :
    Except EncodeError (List UInt8) := do
  let opcode ← instructionOpcode instruction
  let operands ← instructionOperands instruction
  .ok (UInt8.ofNat opcode :: (← encodeOperands e operands))

/-! ## Instructions read back -/

theorem one_ok {α : Type} {operands : List Operand} {f : Operand → α} {i : α}
    (h : one operands f = .ok i) : ∃ a, operands = [a] ∧ i = f a := by
  unfold one at h
  split at h
  · exact ⟨_, rfl, (Except.ok.inj h).symm⟩
  · cases h

theorem two_ok {α : Type} {operands : List Operand} {f : Operand → Operand → α} {i : α}
    (h : two operands f = .ok i) : ∃ a b, operands = [a, b] ∧ i = f a b := by
  unfold two at h
  split at h
  · exact ⟨_, _, rfl, (Except.ok.inj h).symm⟩
  · cases h

theorem three_ok {α : Type} {operands : List Operand} {f : Operand → Operand → Operand → α} {i : α}
    (h : three operands f = .ok i) : ∃ a b c, operands = [a, b, c] ∧ i = f a b c := by
  unfold three at h
  split at h
  · exact ⟨_, _, _, rfl, (Except.ok.inj h).symm⟩
  · cases h

theorem four_ok {α : Type} {operands : List Operand}
    {f : Operand → Operand → Operand → Operand → α} {i : α}
    (h : four operands f = .ok i) : ∃ a b c d, operands = [a, b, c, d] ∧ i = f a b c d := by
  unfold four at h
  split at h
  · exact ⟨_, _, _, _, rfl, (Except.ok.inj h).symm⟩
  · cases h

/-- The writer's opcode and operands of an assembled instruction are the ones it was assembled
from; a label's operand is the exception. -/
theorem assemble_ok {opcode : ℕ} {operands : List Operand} {i : Instruction}
    (h : assemble opcode operands = .ok i) (harity : opcodeArity opcode = .ok operands.length) :
    instructionOpcode i = .ok opcode ∧ (instructionOperands i = .ok operands ∨
      ∃ o label, opcode = 1 ∧ operands = [o] ∧ expectU32 o "label" = .ok label ∧
        i = .label label) := by
  unfold assemble at h
  split at h
  case _ =>
    obtain ⟨o, ho, h₁⟩ := except_bind_ok_iff.mp h
    obtain ⟨label, hl, h₂⟩ := except_bind_ok_iff.mp h₁
    obtain ⟨a, rfl, rfl⟩ := one_ok ho
    obtain rfl := Except.ok.inj h₂
    exact ⟨rfl, .inr ⟨_, label, rfl, rfl, hl, rfl⟩⟩
  all_goals first
    | (obtain ⟨a, rfl, rfl⟩ := one_ok h; exact ⟨rfl, .inl rfl⟩)
    | (obtain ⟨a, b, rfl, rfl⟩ := two_ok h; exact ⟨rfl, .inl rfl⟩)
    | (obtain ⟨a, b, c, rfl, rfl⟩ := three_ok h; exact ⟨rfl, .inl rfl⟩)
    | (obtain ⟨a, b, c, d, rfl, rfl⟩ := four_ok h; exact ⟨rfl, .inl rfl⟩)
    | (obtain rfl := Except.ok.inj h; exact ⟨rfl, .inl rfl⟩)
    | (obtain rfl := Except.ok.inj h
       obtain rfl := List.length_eq_zero_iff.mp (Except.ok.inj harity).symm
       exact ⟨rfl, .inl rfl⟩)
    | (obtain rfl := Except.ok.inj h
       obtain ⟨a, rfl⟩ := List.length_eq_one_iff.mp (Except.ok.inj harity).symm
       exact ⟨rfl, .inl rfl⟩)
    | (obtain rfl := Except.ok.inj h
       obtain ⟨a, b, c, rfl⟩ := List.length_eq_three.mp (Except.ok.inj harity).symm
       exact ⟨rfl, .inl rfl⟩)
    | cases h

/-- Instructions the decoder returns for a module with these atoms and `n` literals. -/
def Instruction.Decoded (atoms : List Atom) (n : ℕ) (i : Instruction) : Prop :=
  ∃ opcode operands, opcode < 256 ∧ opcode ≠ 3 ∧ opcodeArity opcode = .ok operands.length ∧
    assemble opcode operands = .ok i ∧ ∀ o ∈ operands, o.Decoded atoms n

theorem Instruction.Decoded.mono {atoms : List Atom} {n m : ℕ} (hnm : n ≤ m) {i : Instruction}
    (h : i.Decoded atoms n) : i.Decoded atoms m := by
  obtain ⟨opcode, operands, hop, h3, har, has, hd⟩ := h
  exact ⟨opcode, operands, hop, h3, har, has, fun o ho => (hd o ho).mono hnm⟩

theorem expectU32_decoded {atoms : List Atom} {n : ℕ} {o : Operand} {context : String} {label : ℕ}
    (ho : o.Decoded atoms n) (h : expectU32 o context = .ok label) : label < 2 ^ 32 := by
  cases ho with
  | integer _ => exact unsignedU32_ok h
  | unsigned _ => exact unsignedU32_ok h
  | label hv =>
    obtain rfl := Except.ok.inj h
    exact hv
  | _ => cases h

/-- The operands a decoded instruction is written with assemble to it again. -/
theorem Instruction.Decoded.operands {atoms : List Atom} {n : ℕ} {i : Instruction}
    (h : i.Decoded atoms n) :
    ∃ opcode operands, opcode < 256 ∧ opcode ≠ 3 ∧ instructionOpcode i = .ok opcode ∧
      instructionOperands i = .ok operands ∧ opcodeArity opcode = .ok operands.length ∧
      assemble opcode operands = .ok i ∧ ∀ o ∈ operands, o.Decoded atoms n := by
  obtain ⟨opcode, operands, hop, h3, har, has, hd⟩ := h
  obtain ⟨hopc, hops | ⟨o, label, rfl, rfl, hl, rfl⟩⟩ := assemble_ok has har
  · exact ⟨opcode, operands, hop, h3, hopc, hops, har, has, hd⟩
  · have hlt := expectU32_decoded (hd o (by simp)) hl
    refine ⟨1, [.unsigned label], by norm_num, by norm_num, rfl, rfl, rfl, ?_, ?_⟩
    · have hu : unsignedU32 (label : ℤ) "label" = .ok label := unsignedU32_of_lt hlt _
      exact except_bind_ok_iff.mpr ⟨.unsigned label, rfl, except_bind_ok_iff.mpr ⟨label, hu, rfl⟩⟩
    · intro o' ho'
      obtain rfl := List.mem_singleton.mp ho'
      exact .unsigned (hlt.trans (by norm_num))

section Codec

variable {atoms : List Atom} {literals : List Literal} {e : AtomEncoder}

theorem reads_operandList (he : e.atoms = atoms) (hatoms : atoms.length < 2 ^ 63)
    (hlits : literals.length < 2 ^ 63) {operands : List Operand} {bytes : List UInt8}
    (s : CompactState) (hd : ∀ o ∈ operands, o.Decoded atoms literals.length)
    (h : encodeOperands e operands = .ok bytes) :
    Reads (many (readOperand atoms literals) operands.length) s bytes operands s :=
  reads_operands s h fun o ho _ _ hbs => reads_operand he hatoms hlits (hd o ho) s hbs

/-- An encoded instruction is its opcode byte followed by bytes that decode to it. -/
theorem reads_instruction (he : e.atoms = atoms) (hatoms : atoms.length < 2 ^ 63)
    (hlits : literals.length < 2 ^ 63) {i : Instruction} {bytes : List UInt8} (s : CompactState)
    (hd : i.Decoded atoms literals.length) (h : encodeInstruction e i = .ok bytes) :
    ∃ opcode rest, bytes = UInt8.ofNat opcode :: rest ∧ opcode < 256 ∧ opcode ≠ 3 ∧
      Reads (decodeInstruction atoms literals opcode) s rest i s := by
  obtain ⟨opcode, operands, hop, h3, hopc, hops, har, has, hdec⟩ := hd.operands
  obtain ⟨opcode', hopc', h⟩ := except_bind_ok_iff.mp h
  obtain rfl := Except.ok.inj (hopc.symm.trans hopc')
  obtain ⟨operands', hops', h⟩ := except_bind_ok_iff.mp h
  obtain rfl := Except.ok.inj (hops.symm.trans hops')
  obtain ⟨rest, hrest, h⟩ := except_bind_ok_iff.mp h
  obtain rfl := Except.ok.inj h
  refine ⟨opcode, rest, rfl, hop, h3, ?_⟩
  have hread := reads_operandList he hatoms hlits s hdec hrest
  exact (Reads.ofExcept s har).bind_nil (hread.bind_pure (Reads.ofExcept s has))

theorem headerOpcode_eq {i : Instruction} {k : ℕ} (h : i.headerOpcode = some k) :
    instructionOpcode i = .ok k := by
  cases i <;> simp only [Instruction.headerOpcode, Option.some.injEq, reduceCtorEq] at h <;>
    subst h <;> rfl

theorem decodeInstruction_sound {opcode : ℕ} (hop : opcode < 256) (h3 : opcode ≠ 3)
    {s s' : CompactState} {i : Instruction} {c c' : List UInt8}
    (h : decodeInstruction atoms literals opcode s c = .ok (i, s', c')) :
    s.Grows s' ∧ i.Decoded atoms (literals.length + s'.extraLiterals.length) := by
  simp only [decodeInstruction, bind_ok_iff, ofExcept_ok_iff] at h
  obtain ⟨arity, _, _, ⟨har, rfl, rfl⟩, operands, s₁, c₁, hops, has, rfl, rfl⟩ := h
  obtain ⟨hlen, hg, hall⟩ := many_operands_sound readOperand_sound hops
  exact ⟨hg, opcode, operands, hop, h3, by rw [hlen]; exact har, has, hall⟩

end Codec

end Beamr.Loader
