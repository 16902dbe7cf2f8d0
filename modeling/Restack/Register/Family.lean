import Restack.Kinds
import Restack.Stack.Opcode

set_option autoImplicit false

namespace Restack

/-- Opcodes of one family differ in operand width or type only. -/
inductive Family where
  | nop
  | move
  | moveWide
  | moveResult
  | return
  | const32
  | const64
  | constString
  | constClass
  | monitorEnter
  | monitorExit
  | checkCast
  | instanceOf
  | arrayLength
  | newInstance
  | newArray
  | filledNewArray
  | fillArrayData
  | throw
  | goto
  | switch
  | compare
  | branch
  | branchZero
  | arrayGet
  | arrayPut
  | instanceGet
  | instancePut
  | staticGet
  | staticPut
  | invokeVirtual
  | invokeSuper
  | invokeDirect
  | invokeStatic
  | invokeInterface
  | unary
  | binary
  | binaryLiteral
deriving DecidableEq, Repr, Inhabited

namespace Family

/-- The last opcode of each run of opcodes of one family, in ascending order. -/
def runs : List (UInt8 × Family) :=
  [(0x00, .nop), (0x03, .move), (0x06, .moveWide), (0x09, .move), (0x0d, .moveResult),
    (0x11, .return),
    (0x15, .const32), (0x19, .const64), (0x1b, .constString), (0x1c, .constClass),
    (0x1d, .monitorEnter),
    (0x1e, .monitorExit), (0x1f, .checkCast), (0x20, .instanceOf), (0x21, .arrayLength),
    (0x22, .newInstance), (0x23, .newArray), (0x25, .filledNewArray), (0x26, .fillArrayData),
    (0x27, .throw), (0x2a, .goto), (0x2c, .switch), (0x31, .compare), (0x37, .branch),
    (0x3d, .branchZero), (0x43, .nop), (0x4a, .arrayGet), (0x51, .arrayPut), (0x58, .instanceGet),
    (0x5f, .instancePut), (0x66, .staticGet), (0x6d, .staticPut), (0x6e, .invokeVirtual),
    (0x6f, .invokeSuper), (0x70, .invokeDirect), (0x71, .invokeStatic), (0x72, .invokeInterface),
    (0x73, .nop), (0x74, .invokeVirtual), (0x75, .invokeSuper), (0x76, .invokeDirect),
    (0x77, .invokeStatic), (0x78, .invokeInterface), (0x7a, .nop), (0x8f, .unary), (0xcf, .binary),
    (0xe2, .binaryLiteral)]

/-- Opcodes past the last run are unused and do nothing. -/
def ofOpcode (opcode : UInt8) : Family :=
  match runs.find? (fun run => decide (opcode ≤ run.1)) with
  | some run => run.2
  | none => .nop

def isInvoke : Family → Bool
  | .invokeVirtual | .invokeSuper | .invokeDirect | .invokeStatic | .invokeInterface => true
  | _ => false

def isControlFlow : Family → Bool
  | .goto | .branch | .branchZero | .switch => true
  | _ => false

def canThrow : Family → Bool
  | .invokeVirtual | .invokeSuper | .invokeDirect | .invokeStatic | .invokeInterface | .monitorEnter
  | .monitorExit | .checkCast | .arrayLength | .newArray | .newInstance | .filledNewArray
  | .fillArrayData | .throw | .arrayGet | .arrayPut | .instanceGet | .instancePut | .staticGet
  | .staticPut | .binary | .binaryLiteral => true
  | _ => false

/-- Families after which execution never goes on to the next instruction. -/
def endsFlow : Family → Bool
  | .return | .throw | .goto => true
  | _ => false

end Family

structure UnaryOp where
  op : UInt8
  source : Kinds
  result : Kinds
deriving DecidableEq, Repr

/-- An operation on two operands, whose result has the kind of the first. -/
structure BinaryOp where
  op : UInt8
  left : Kinds
  right : Kinds
deriving DecidableEq, Repr

/-- Opcodes 0x7b to 0x8f in order. Bitwise complement stands as the exclusive or it is done with. -/
def unaryOps : List UnaryOp :=
  let i := Kinds.ofInt
  let f := Kinds.ofFloat
  let l := Kinds.ofLong
  let d := Kinds.ofDouble
  [⟨Op.ineg, i, i⟩, ⟨Op.ixor, i, i⟩, ⟨Op.lneg, l, l⟩, ⟨Op.lxor, l, l⟩, ⟨Op.fneg, f, f⟩,
    ⟨Op.dneg, d, d⟩, ⟨Op.i2l, i, l⟩, ⟨Op.i2f, i, f⟩, ⟨Op.i2d, i, d⟩, ⟨Op.l2i, l, i⟩,
    ⟨Op.l2f, l, f⟩, ⟨Op.l2d, l, d⟩, ⟨Op.f2i, f, i⟩, ⟨Op.f2l, f, l⟩, ⟨Op.f2d, f, d⟩, ⟨Op.d2i, d, i⟩,
    ⟨Op.d2l, d, l⟩, ⟨Op.d2f, d, f⟩, ⟨Op.i2b, i, i⟩, ⟨Op.i2c, i, i⟩, ⟨Op.i2s, i, i⟩]

def UnaryOp.ofOpcode? (opcode : UInt8) : Option UnaryOp :=
  if opcode < 0x7b then none else unaryOps[(opcode - 0x7b).toNat]?

/-- Opcodes 0x90 to 0xaf in order; 0xb0 to 0xcf repeat them for two operands instead of three. -/
def binaryOps : List BinaryOp :=
  let i := Kinds.ofInt
  let f := Kinds.ofFloat
  let l := Kinds.ofLong
  let d := Kinds.ofDouble
  [⟨Op.iadd, i, i⟩, ⟨Op.isub, i, i⟩, ⟨Op.imul, i, i⟩, ⟨Op.idiv, i, i⟩, ⟨Op.irem, i, i⟩,
    ⟨Op.iand, i, i⟩, ⟨Op.ior, i, i⟩, ⟨Op.ixor, i, i⟩, ⟨Op.ishl, i, i⟩, ⟨Op.ishr, i, i⟩,
    ⟨Op.iushr, i, i⟩, ⟨Op.ladd, l, l⟩, ⟨Op.lsub, l, l⟩, ⟨Op.lmul, l, l⟩, ⟨Op.ldiv, l, l⟩,
    ⟨Op.lrem, l, l⟩, ⟨Op.land, l, l⟩, ⟨Op.lor, l, l⟩, ⟨Op.lxor, l, l⟩, ⟨Op.lshl, l, i⟩,
    ⟨Op.lshr, l, i⟩, ⟨Op.lushr, l, i⟩, ⟨Op.fadd, f, f⟩, ⟨Op.fsub, f, f⟩, ⟨Op.fmul, f, f⟩,
    ⟨Op.fdiv, f, f⟩, ⟨Op.frem, f, f⟩, ⟨Op.dadd, d, d⟩, ⟨Op.dsub, d, d⟩, ⟨Op.dmul, d, d⟩,
    ⟨Op.ddiv, d, d⟩, ⟨Op.drem, d, d⟩]

def BinaryOp.ofOpcode? (opcode : UInt8) : Option BinaryOp :=
  if opcode < 0x90 ∨ 0xcf < opcode then none else binaryOps[(opcode - 0x90).toNat % 32]?

/-- Int operations with a literal operand: opcodes 0xd0 to 0xd7 and again 0xd8 to 0xdf. Subtraction
takes the register from the literal. -/
def literalOps : List UInt8 :=
  [Op.iadd, Op.isub, Op.imul, Op.idiv, Op.irem, Op.iand, Op.ior, Op.ixor]

def literalOp? (opcode : UInt8) : Option UInt8 :=
  if opcode < 0xd0 then none
  else if opcode < 0xe0 then literalOps[(opcode - 0xd0).toNat % 8]?
  else [Op.ishl, Op.ishr, Op.iushr][(opcode - 0xe0).toNat]?

end Restack
