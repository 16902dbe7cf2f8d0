import Restack.Fault
import Restack.Stack.Opcode

set_option autoImplicit false

namespace Restack

/-- Which form a jump takes; `undecided` until jumps are sized. -/
inductive Jump.Size where
  | undecided
  | short
  | long
deriving DecidableEq, Repr, Inhabited

/-- A `goto`, or a conditional jump if it has an opcode, to the block of a source position. -/
structure Jump where
  op : Option UInt8
  target : UInt32
  size : Jump.Size := .undecided
  code : Option Bytes := none
deriving DecidableEq, Repr, Inhabited

namespace Jump

def shortLength : Nat := 3

def longLength (j : Jump) : Nat := if j.op.isSome then 8 else 5

def minLength (j : Jump) : Nat := if j.size = .long then j.longLength else shortLength

def maxLength (j : Jump) : Nat := if j.size = .short then shortLength else j.longLength

def inRange (offset : Int) : Bool := -32768 ≤ offset && offset < 32768

/-- Makes an undecided jump long if it does not reach its target otherwise. -/
def widen (j : Jump) (offset : Int) : Jump :=
  if j.size = .undecided ∧ !inRange offset then { j with size := .long } else j

def settle (j : Jump) : Jump :=
  if j.size = .undecided then { j with size := .short } else j

/-- The bytes for a distance counted from the jump itself. A jump that was not settled takes the
long form. -/
def encode (j : Jump) (offset : Int) : Except Fault Bytes :=
  let short := Bytes.ofUInt16 (Int16.ofInt offset).toUInt16
  match j.op, j.size with
  | none, .short => .ok (Op.goto :: short)
  | some op, .short => .ok (op :: short)
  | none, _ => .ok (Op.gotoW :: Bytes.ofUInt32 (Int32.ofInt offset).toUInt32)
  | some op, _ =>
    match Op.opposite? op with
    | some inverse =>
      .ok (Bytes.opWithIndex inverse 8 ++ Op.gotoW ::
        Bytes.ofUInt32 (Int32.ofInt (offset - 3)).toUInt32)
    | none => fail (.noInverse op)

def assemble (j : Jump) (offset : Int) : Except Fault Jump := do
  return { j with code := some (← j.encode offset) }

end Jump

end Restack
