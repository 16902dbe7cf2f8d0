import Restack.ElementType
import Restack.Frame
import Restack.Stack.CopyPlan

set_option autoImplicit false

namespace Restack

/-- What is being emitted. `frame` is the register state before the instruction. With `delay`
literals stay out of the pool. -/
structure Draft where
  frame : Frame
  delay : Bool
  pool : Pool
  insns : Array Insn

/-- An emission that may fail; what was emitted and added to the pool before stays. -/
abbrev Emit := ExceptT Fault (StateM Draft)

namespace Emit

def add (i : Insn) : Emit Unit := modify fun d => { d with insns := d.insns.push i }

def addAll (is : List Insn) : Emit Unit :=
  modify fun d => { d with insns := is.foldl Array.push d.insns }

def frame : Emit Frame := return (← get).frame

def inPool {α : Type} (request : PoolM α) : Emit α := ExceptT.mk fun ⟨frame, delay, pool, insns⟩ =>
  let (result, pool) := request.run pool
  (result, ⟨frame, delay, pool, insns⟩)

def op (op : UInt8) : Emit Unit := add (.op op)

def indexed (op : UInt8) (index : UInt16) : Emit Unit := add (.plain (Bytes.opWithIndex op index))

def classOp (op : UInt8) (name : String) : Emit Unit := do
  indexed op (← inPool (PoolM.classRef name))

def ldc (index : UInt16) : Emit Unit :=
  add (.constant (if index < 256 then [Op.ldc, index.toUInt8] else Bytes.opWithIndex Op.ldcW index))

def null : Emit Unit := add (.constant [Op.aconstNull])

/-- Pushes a number; as a reference it can only be null. -/
def number (value : Int64) (kinds : Kinds) : Emit Unit :=
  if kinds = .ofRef then null
  else do
    let l ← if (← get).delay then (Literal.computed kinds value : Except Fault Literal)
        else inPool (Literal.pooled kinds value)
    add (.literal l)

def int (value : Int32) : Emit Unit := number value.toInt64 .ofInt

/-- The class of all objects, to which nothing ever has to be cast. -/
def objectClass : String := "java/lang/Object"

/-- Pushes a register as one kind. A reference that may have lost its type is cast to `expected`,
the descriptor or class name its use asks for. -/
def load (reg : Nat) (kinds : Kinds) (expected : Option String) : Emit Unit := do
  let frame ← frame
  if frame.arrayOf reg = .null then number 0 kinds
  else
    add (.load ⟨reg, kinds⟩)
    if kinds = .ofRef && frame.isTainted reg then
      match expected.map classNameOf with
      | some name => if name ≠ objectClass then classOp Op.checkcast name
      | none => pure ()

def loadArray (reg : Nat) : Emit Unit := do
  let frame ← frame
  let array := frame.arrayOf reg
  if array = .null then null
  else
    add (.load ⟨reg, .ofRef⟩)
    if frame.isTainted reg then
      classOp Op.checkcast (array.descriptor?.getD ("[L" ++ objectClass ++ ";"))

def store (reg : Nat) (kinds : Kinds) : Emit Unit := add (.store ⟨reg, kinds⟩)

def ret : Option Kinds → Emit Unit
  | some kinds => op (Op.ireturn + kinds.variant)
  | none => op Op.vreturn

/-- Stores `count` elements with `op` into the array on top of the stack; `push i` pushes element
`i`. The array stays on the stack if `keep` is set. -/
def fillArray (storeOp : UInt8) (count : Nat) (keep : Bool) (push : Nat → Emit Unit) : Emit Unit :=
  do
  let plan := copyPlan count (if keep then 1 else 0)
  (plan.take count).zipIdx.forM fun (step, i) => do
    addAll step
    int (.ofNat i)
    push i
    op storeOp
  addAll (plan.drop count).flatten

def newArray (descriptor : String) : Emit Unit :=
  match newArrayCode? descriptor with
  | some code => add (.plain [Op.newarray, code])
  | none =>
    match descriptor.toList with
    | [] => throw (.ofCause .emptyArrayDescriptor)
    | '[' :: 'L' :: c :: d :: cs => classOp Op.anewarray (String.ofList (c :: d :: cs).dropLast)
    | _ :: cs => classOp Op.anewarray (String.ofList cs)

def cast (reg : Nat) (name : String) : Emit Unit := do
  load reg .ofRef none
  classOp Op.checkcast name
  store reg .ofRef

def goto (target : UInt32) : Emit Unit := add (.goto target)

def branch (op : UInt8) (target : UInt32) : Emit Unit := add (.branch op target)

/-- Jumps by the key on top of the stack. Cases that go to the default anyway are left out, and
without any other case the key is dropped. -/
def switch (default : UInt32) (cases : Cases) : Emit Unit :=
  let others := cases.without default
  if others.pairs.isEmpty then do
    op Op.pop
    goto default
  else add (.switch { default, cases := others })

end Emit

end Restack
