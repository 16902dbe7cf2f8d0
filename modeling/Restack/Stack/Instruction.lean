import Restack.Literal
import Restack.Stack.Access
import Restack.Stack.Jump
import Restack.Stack.Switch

set_option autoImplicit false

namespace Restack

inductive Insn where
  /-- Marks a place and takes no space. A label with a position heads the block for that position.
  -/
  | label (position : Option UInt32)
  | access (a : Access)
  | literal (l : Literal)
  | constant (code : Bytes)
  /-- Anything else with fixed bytes. -/
  | plain (code : Bytes)
  | jump (j : Jump)
  | switch (s : Switch)
deriving DecidableEq, Repr, Inhabited

namespace Insn

def op (op : UInt8) : Insn := .plain [op]

def load (var : Local) : Insn := .access { var, isStore := false }

def store (var : Local) : Insn := .access { var, isStore := true }

def goto (target : UInt32) : Insn := .jump { op := none, target }

def branch (op : UInt8) (target : UInt32) : Insn := .jump { op := some op, target }

def loads? : Insn → Option Local
  | .access a => if a.isStore then none else some a.var
  | _ => none

def stores? : Insn → Option Local
  | .access a => if a.isStore then some a.var else none
  | _ => none

def isConstant : Insn → Bool
  | .literal _ | .constant _ => true
  | _ => false

def isPlain : Insn → Bool
  | .plain _ => true
  | _ => false

def isJump : Insn → Bool
  | .jump _ => true
  | _ => false

def fallsThrough : Insn → Bool
  | .jump j => j.op.isSome
  | .switch _ => false
  | .plain [op] => !Op.endsMethod op
  | _ => true

def targets : Insn → List UInt32
  | .jump j => [j.target]
  | .switch s => s.targets
  | _ => []

def code? : Insn → Option Bytes
  | .label _ => some []
  | .access a => a.code?
  | .literal l => some l.code
  | .constant code | .plain code => some code
  | .jump j => j.code
  | .switch s => s.code

/-- The length with every jump as short as still possible, at a given position. -/
def lengthAt (position : Nat) : Insn → Nat
  | .jump j => j.minLength
  | .switch s => Switch.padding position + s.unpaddedSize
  | i => (i.code?.map List.length).getD 0

def maxLength (i : Insn) : Nat :=
  match i.code? with
  | some code => code.length
  | none =>
    match i with
    | .access _ => 4
    | .jump j => j.maxLength
    | .switch s => s.maxLength
    | _ => 0

end Insn

end Restack
