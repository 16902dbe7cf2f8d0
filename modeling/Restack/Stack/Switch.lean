import Restack.Register.Instruction
import Std.Data.TreeMap

set_option autoImplicit false

namespace Restack

structure Switch where
  default : UInt32
  cases : Cases
  code : Option Bytes := none
deriving DecidableEq, Repr, Inhabited

namespace Switch

def make (default : UInt32) (cases : Cases) : Except Fault Switch :=
  if cases.pairs.isEmpty then fail .noCases else .ok { default, cases }

def low (s : Switch) : Int32 := (s.cases.pairs.head?.map (·.1)).getD 0

def high (s : Switch) : Int32 := (s.cases.pairs.getLast?.map (·.1)).getD 0

/-- Bytes of a table: its bounds and an offset for every key between them. -/
def tableSize (s : Switch) : Nat := 4 * (s.high.toInt - s.low.toInt + 2).toNat

def listSize (s : Switch) : Nat := 8 * s.cases.pairs.length

def isTable (s : Switch) : Bool := s.listSize > s.tableSize

/-- The length without padding: opcode, default and count besides the table or list. -/
def unpaddedSize (s : Switch) : Nat := 9 + if s.isTable then s.tableSize else s.listSize

def maxLength (s : Switch) : Nat := s.unpaddedSize + 3

/-- Operands start at a multiple of four. -/
def padding (position : Nat) : Nat := (4 - (position + 1) % 4) % 4

/-- Every position the switch may go to, ascending and without repetition. -/
def targets (s : Switch) : List UInt32 :=
  ((s.default :: s.cases.pairs.map (·.2)).foldl (fun ts t => ts.insert t ())
    (∅ : Std.TreeMap UInt32 Unit)).keys

/-- Where each key from the lowest to the highest goes; keys without a case go to the default. -/
def table (s : Switch) : List UInt32 :=
  (s.cases.pairs.foldl
    (fun (next, ts) (key, target) =>
      (key.toInt + 1, ((key.toInt - next).toNat.repeat (·.push s.default) ts).push target))
    (s.low.toInt, (#[] : Array UInt32))).2.toList

def encode (s : Switch) (position : Nat) (offset : UInt32 → Int) : Bytes :=
  let distance (target : UInt32) : Bytes := Bytes.ofUInt32 (Int32.ofInt (offset target)).toUInt32
  let operands :=
    if s.isTable then
      Bytes.ofUInt32 s.low.toUInt32 ++ Bytes.ofUInt32 s.high.toUInt32 ++ s.table.flatMap distance
    else
      Bytes.ofUInt32 s.cases.pairs.length.toUInt32 ++
        s.cases.pairs.flatMap fun (key, target) => Bytes.ofUInt32 key.toUInt32 ++ distance target
  (if s.isTable then Op.tableswitch else Op.lookupswitch) :: List.replicate (padding position) 0 ++
    distance s.default ++ operands

def assemble (s : Switch) (position : Nat) (offset : UInt32 → Int) : Switch :=
  { s with code := some (s.encode position offset) }

end Switch

end Restack
