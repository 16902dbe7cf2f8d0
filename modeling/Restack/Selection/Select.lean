import Restack.Register.Inference
import Restack.Selection.Emit

set_option autoImplicit false

namespace Restack

namespace Register

def operand {α : Type} (read : Except Fault α) : Emit α := liftM read

/-- Copies a register under each of the given kinds it holds. -/
def copyAs (i : Instr) (candidates : List Kinds) : Emit Unit := do
  let source ← operand (i.reg 1)
  candidates.forM fun kinds => do
    if ((← Emit.frame).kindsOf source).meets kinds then
      Emit.load source kinds none
      Emit.store (← operand (i.reg 0)) kinds

/-- The comparison for an opcode from 0x2d to 0x31, and what it compares. -/
def compareOp (opcode : UInt8) : UInt8 × Kinds :=
  match opcode with
  | 0x2d => (Op.fcmpl, .ofFloat)
  | 0x2e => (Op.fcmpg, .ofFloat)
  | 0x2f => (Op.dcmpl, .ofDouble)
  | 0x30 => (Op.dcmpg, .ofDouble)
  | _ => (Op.lcmp, .ofLong)

/-- The jump that compares two registers: as ints if both can be ints, or else as references, which
can only be equal or not. `order` is the number of the condition. -/
def compareJump (order : UInt8) (asInts : Bool) (position : UInt32) :
    Except Fault (UInt8 × Kinds) :=
  if asInts then .ok (Op.ifIcmpeq + order, .ofInt)
  else if order = 0 then .ok (Op.ifAcmpeq, .ofRef)
  else if order = 1 then .ok (Op.ifAcmpne, .ofRef)
  else fail (.orderedReferences position)

def zeroJump (order : UInt8) (asInt : Bool) (position : UInt32) : Except Fault (UInt8 × Kinds) :=
  if asInt then .ok (Op.ifeq + order, .ofInt)
  else if order = 0 then .ok (Op.ifnull, .ofRef)
  else if order = 1 then .ok (Op.ifnonnull, .ofRef)
  else fail (.orderedReference position)

/-- What the register operands of an array access lead to: the array, its element kind and view. An
access to a null array throws. -/
def withArray (reg : Nat) (access : Kinds → ArrayView → Emit Unit) : Emit Unit := do
  let array := (← Emit.frame).arrayOf reg
  if array = .null then
    Emit.null
    Emit.op Op.athrow
  else
    let (kinds, element) ← operand array.element
    access kinds element

def selectFilledNewArray (catalog : Catalog) (i : Instr) (pickedUp : Bool) : Emit Unit := do
  let descriptor ← operand (i.index 0 >>= catalog.type)
  Emit.int (.ofNat i.registers.length)
  Emit.newArray descriptor
  let (kinds, element) ← operand (ArrayView.ofDescriptor descriptor).element
  let op := (element.descriptor?.bind arrayStore?).getD Op.aastore
  let registers := i.registers.toArray
  Emit.fillArray op registers.size pickedUp fun n => Emit.load (registers.getD n 0).toNat kinds none

/-- The value of a table element: bytes and shorts are stored unsigned. -/
def signExtend (element : String) (value : Int32) : Int32 :=
  match element with
  | "B" | "Z" => value.toInt8.toInt32
  | "S" => value.toInt16.toInt32
  | _ => value

/-- Fills an array from a table. An empty table still throws if the array is null. -/
def selectFillArrayData (i : Instr) : Emit Unit := do
  let reg ← operand (i.reg 0)
  let data ← operand i.arrayData
  let array := (← Emit.frame).arrayOf reg
  Emit.loadArray reg
  if array = .null then Emit.op Op.athrow
  else if data.length = 0 then
    Emit.op Op.arraylength
    Emit.op Op.pop
  else
    let (kinds, view) ← operand array.element
    let element := view.descriptor?.getD ""
    match arrayStore? element with
    | none => throw (.ofCause (.arrayDataTarget i.position array))
    | some op =>
      match data with
      | .narrow values =>
        let values := values.toArray
        Emit.fillArray op values.size false fun n =>
          Emit.number (signExtend element (values.getD n 0)).toInt64 kinds
      | .wide values =>
        let values := values.toArray
        Emit.fillArray op values.size false fun n => Emit.number (values.getD n 0) kinds

/-- Calls a method; a result that is not picked up is dropped. -/
def selectInvoke (catalog : Catalog) (i : Instr) (pickedUp : Bool) : Emit Unit := do
  let isStatic := i.family = .invokeStatic
  let called ← operand (i.index 0 >>= catalog.method)
  let slots := called.slots isStatic
  if i.registers.length ≠ slots.length then
    throw (.ofCause
      (.argumentCount called.owner called.name i.position i.registers.length slots.length))
  (i.registers.zip slots).forM fun (register, slot) => do
    let kinds := (slot.map Kinds.ofDescriptor).getD .none
    if kinds ≠ .none then Emit.load register.toNat kinds slot
  if i.family = .invokeInterface then
    let index ← Emit.inPool (PoolM.interfaceMethodRef called)
    Emit.add (.plain (Bytes.opWithIndex Op.invokeinterface index ++ [slots.length.toUInt8, 0]))
  else
    let op :=
      match i.family with
      | .invokeVirtual => Op.invokevirtual
      | .invokeStatic => Op.invokestatic
      | _ => Op.invokespecial
    Emit.indexed op (← Emit.inPool (PoolM.methodRef called))
  if called.result ≠ "V" && !pickedUp then
    Emit.op (if (Kinds.ofDescriptor called.result).isWide then Op.pop2 else Op.pop)

/-- Emits the stack instructions for `i`. `result` is the method's return type, and `pickedUp` says
whether the next instruction picks up the value that `i` leaves. -/
def select (catalog : Catalog) (result : String) (pickedUp : Bool) (i : Instr) : Emit Unit :=
  match i.family with
  | .nop => pure ()
  | .move => copyAs i [.ofInt, .ofRef, .ofFloat]
  | .moveWide => copyAs i [.ofLong, .ofDouble]
  | .moveResult =>
    match i.resultType with
    | some d => do
      Emit.store (← operand (i.reg 0)) (.ofDescriptor d)
    | none => throw (.ofCause (.noResultType i.position))
  | .return => do
    if result = "V" then Emit.ret none
    else
      let kinds := Kinds.ofDescriptor result
      Emit.load (← operand (i.reg 0)) kinds (some result)
      Emit.ret (some kinds)
  | .const32 => do
    let reg ← operand (i.reg 0)
    let value ← operand (i.arg 1)
    Emit.number value.toInt64 .ofInt
    Emit.store reg .ofInt
    Emit.number value.toInt64 .ofFloat
    Emit.store reg .ofFloat
    if value = 0 then
      Emit.null
      Emit.store reg .ofRef
  | .const64 => do
    let reg ← operand (i.reg 0)
    Emit.number i.wide .ofLong
    Emit.store reg .ofLong
    Emit.number i.wide .ofDouble
    Emit.store reg .ofDouble
  | .constString => do
    let text ← operand (i.index 1 >>= catalog.string)
    Emit.ldc (← Emit.inPool (PoolM.stringRef text))
    Emit.store (← operand (i.reg 0)) .ofRef
  | .constClass => do
    let name ← operand (i.index 1 >>= catalog.className)
    Emit.ldc (← Emit.inPool (PoolM.classRef name))
    Emit.store (← operand (i.reg 0)) .ofRef
  | .monitorEnter => do
    Emit.load (← operand (i.reg 0)) .ofRef none
    Emit.op Op.monitorenter
  | .monitorExit => do
    Emit.load (← operand (i.reg 0)) .ofRef none
    Emit.op Op.monitorexit
  | .checkCast => do
    let reg ← operand (i.reg 0)
    Emit.cast reg (← operand (i.index 1 >>= catalog.className))
  | .instanceOf => do
    Emit.load (← operand (i.reg 1)) .ofRef none
    Emit.classOp Op.instanceof (← operand (i.index 2 >>= catalog.className))
    Emit.store (← operand (i.reg 0)) .ofInt
  | .arrayLength => do
    Emit.loadArray (← operand (i.reg 1))
    Emit.op Op.arraylength
    Emit.store (← operand (i.reg 0)) .ofInt
  | .newInstance => do
    Emit.classOp Op.new (← operand (i.index 1 >>= catalog.className))
    Emit.store (← operand (i.reg 0)) .ofRef
  | .newArray => do
    Emit.load (← operand (i.reg 1)) .ofInt none
    Emit.newArray (← operand (i.index 2 >>= catalog.type))
    Emit.store (← operand (i.reg 0)) .ofRef
  | .filledNewArray => selectFilledNewArray catalog i pickedUp
  | .fillArrayData => selectFillArrayData i
  | .throw => do
    Emit.load (← operand (i.reg 0)) .ofRef (some throwable)
    Emit.op Op.athrow
  | .goto => do
    Emit.goto (← operand (i.target 0))
  | .switch => do
    Emit.load (← operand (i.reg 0)) .ofInt none
    Emit.switch i.next (← operand i.switchCases)
  | .compare => do
    let (op, kinds) := compareOp i.opcode
    Emit.load (← operand (i.reg 1)) kinds none
    Emit.load (← operand (i.reg 2)) kinds none
    Emit.op op
    Emit.store (← operand (i.reg 0)) .ofInt
  | .branch => do
    let a ← operand (i.reg 0)
    let b ← operand (i.reg 1)
    let frame ← Emit.frame
    let asInts := (frame.kindsOf a).int && (frame.kindsOf b).int
    let (op, kinds) ← operand (compareJump (i.opcode - 0x32) asInts i.position)
    Emit.load a kinds none
    Emit.load b kinds none
    Emit.branch op (← operand (i.target 2))
  | .branchZero => do
    let a ← operand (i.reg 0)
    let asInt := ((← Emit.frame).kindsOf a).int
    let (op, kinds) ← operand (zeroJump (i.opcode - 0x38) asInt i.position)
    Emit.load a kinds none
    Emit.branch op (← operand (i.target 1))
  | .arrayGet => do
    let array ← operand (i.reg 1)
    withArray array fun kinds element => do
      Emit.loadArray array
      Emit.load (← operand (i.reg 2)) .ofInt none
      Emit.op ((element.descriptor?.bind arrayLoad?).getD Op.aaload)
      Emit.store (← operand (i.reg 0)) kinds
  | .arrayPut => do
    let array ← operand (i.reg 1)
    withArray array fun kinds element => do
      Emit.loadArray array
      Emit.load (← operand (i.reg 2)) .ofInt none
      Emit.load (← operand (i.reg 0)) kinds element.descriptor?
      Emit.op ((element.descriptor?.bind arrayStore?).getD Op.aastore)
  | .instanceGet => do
    let field ← operand (i.index 2 >>= catalog.field)
    Emit.load (← operand (i.reg 1)) .ofRef (some field.owner)
    Emit.indexed Op.getfield (← Emit.inPool (PoolM.fieldRef field))
    Emit.store (← operand (i.reg 0)) (.ofDescriptor field.descriptor)
  | .instancePut => do
    let field ← operand (i.index 2 >>= catalog.field)
    Emit.load (← operand (i.reg 1)) .ofRef (some field.owner)
    Emit.load (← operand (i.reg 0)) (.ofDescriptor field.descriptor) (some field.descriptor)
    Emit.indexed Op.putfield (← Emit.inPool (PoolM.fieldRef field))
  | .staticGet => do
    let field ← operand (i.index 1 >>= catalog.field)
    Emit.indexed Op.getstatic (← Emit.inPool (PoolM.fieldRef field))
    Emit.store (← operand (i.reg 0)) (.ofDescriptor field.descriptor)
  | .staticPut => do
    let field ← operand (i.index 1 >>= catalog.field)
    Emit.load (← operand (i.reg 0)) (.ofDescriptor field.descriptor) (some field.descriptor)
    Emit.indexed Op.putstatic (← Emit.inPool (PoolM.fieldRef field))
  | .invokeVirtual | .invokeSuper | .invokeDirect | .invokeStatic | .invokeInterface =>
    selectInvoke catalog i pickedUp
  | .unary =>
    match UnaryOp.ofOpcode? i.opcode with
    | none => throw (.ofCause (.unaryOpcode i.opcode))
    | some op => do
      Emit.load (← operand (i.reg 1)) op.source none
      -- The complement is the exclusive or with all ones.
      if op.op = Op.ixor then Emit.op Op.iconstM1
      else if op.op = Op.lxor then
        Emit.op Op.iconstM1
        Emit.op Op.i2l
      Emit.op op.op
      Emit.store (← operand (i.reg 0)) op.result
  | .binary =>
    match BinaryOp.ofOpcode? i.opcode with
    | none => throw (.ofCause (.binaryOpcode i.opcode))
    | some op => do
      let (a, b) ← operand i.binarySources
      Emit.load a op.left none
      Emit.load b op.right none
      Emit.op op.op
      Emit.store (← operand (i.reg 0)) op.left
  | .binaryLiteral =>
    match literalOp? i.opcode with
    | none => throw (.ofCause (.literalOpcode i.opcode))
    | some op => do
      let source ← operand (i.reg 1)
      let literal ← operand (i.arg 2)
      if op = Op.isub then
        Emit.number literal.toInt64 .ofInt
        Emit.load source .ofInt none
      else
        Emit.load source .ofInt none
        Emit.number literal.toInt64 .ofInt
      Emit.op op
      Emit.store (← operand (i.reg 0)) .ofInt

end Register

end Restack
