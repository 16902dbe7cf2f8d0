import Restack.Fault

set_option autoImplicit false

namespace Restack

/-- Elements of up to four bytes are kept zero-extended; how their sign is read depends on the
array. -/
inductive ArrayData where
  | narrow (values : List Int32)
  | wide (values : List Int64)
deriving DecidableEq, Repr, Inhabited

namespace ArrayData

def length : ArrayData → Nat
  | .narrow vs => vs.length
  | .wide vs => vs.length

def littleEndian : Bytes → Nat
  | [] => 0
  | b :: bs => b.toNat + 256 * littleEndian bs

/-- Reads `count` numbers of `width` bytes each; `index` is where in the table the bytes start. An
eight-byte number is read in two halves, and the fault names the half that is cut off. -/
def readAll (width : Nat) (count : Nat) (index : Nat) (bytes : Bytes) (acc : Array Nat) :
    Except Fault (Array Nat) :=
  match count with
  | 0 => .ok acc
  | n + 1 =>
    let piece := bytes.take width
    if piece.length < width then
      if width = 8 then fail (.dataTooShort 4 (if piece.length < 4 then index else index + 4))
      else fail (.dataTooShort width index)
    else readAll width n (index + width) (bytes.drop width) (acc.push (littleEndian piece))

def parse (width : UInt16) (count : Nat) (bytes : Bytes) : Except Fault ArrayData :=
  if width = 1 ∨ width = 2 ∨ width = 4 then do
    let values ← readAll width.toNat count 0 bytes #[]
    return .narrow (values.toList.map fun n => (UInt32.ofNat n).toInt32)
  else if width = 8 then do
    let values ← readAll 8 count 0 bytes #[]
    return .wide (values.toList.map fun n => (UInt64.ofNat n).toInt64)
  else fail (.arrayDataWidth width)

end ArrayData

end Restack
