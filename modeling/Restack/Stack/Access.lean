import Restack.Bytes
import Restack.Local
import Restack.Stack.Opcode

set_option autoImplicit false

namespace Restack

/-- A load or store of a local. The slot is known once slots have been handed out. -/
structure Access where
  var : Local
  isStore : Bool
  slot : Option UInt16 := none
deriving DecidableEq, Repr, Inhabited

namespace Access

/-- The shortest code for a slot: one byte for the first four, two for a slot that fits in a byte,
and a wide form for the rest. -/
def encode (slot : UInt16) (kinds : Kinds) (isStore : Bool) : Bytes :=
  let shift := if isStore then Op.istore - Op.iload else 0
  if slot < 4 then [Op.iload0 + shift + slot.toUInt8 + kinds.variant * 4]
  else if slot < 256 then [Op.iload + shift + kinds.variant, slot.toUInt8]
  else Op.wide :: (Op.iload + shift + kinds.variant) :: Bytes.ofUInt16 slot

def code? (a : Access) : Option Bytes := a.slot.map fun s => encode s a.var.kinds a.isStore

end Access

end Restack
