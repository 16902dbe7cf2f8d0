import Restack.Proofs.Bytes
import Restack.Proofs.Register.Transfer
import Restack.Stack.Access

set_option autoImplicit false

namespace Restack

namespace Kinds

def variants : List Kinds := [ofInt, ofLong, ofFloat, ofDouble, ofRef]

/-- The kind whose loads and stores are used for a set of kinds. -/
def typed (k : Kinds) : Kinds := if k ∈ singles then k else ofInt

theorem typed_of_single {k : Kinds} (single : k ∈ singles) : k.typed = k := if_pos single

theorem isWide_typed {k : Kinds} (narrow : k.isWide = false) : k.typed.isWide = false := by
  unfold typed
  split
  · exact narrow
  · rfl

end Kinds

/-- What a load or store of a slot does. -/
structure SlotUse where
  kinds : Kinds
  isStore : Bool
  slot : UInt16
deriving DecidableEq, Repr

namespace Access

/-- The kind of value and the direction of an opcode that has the slot behind it. -/
def typed? (op : UInt8) : Option (Kinds × Bool) :=
  if Op.iload ≤ op ∧ op < Op.iload0 then Kinds.variants[(op - Op.iload).toNat]?.map (·, false)
  else if Op.istore ≤ op ∧
    op < Op.istore0 then Kinds.variants[(op - Op.istore).toNat]?.map (·, true)
  else none

/-- The same for an opcode that has the slot in itself: there are four for each kind. -/
def packed? (op : UInt8) : Option SlotUse :=
  if Op.iload0 ≤ op ∧ op < Op.iaload then
    Kinds.variants[(op - Op.iload0).toNat / 4]?.map (⟨·, false, ((op - Op.iload0) % 4).toUInt16⟩)
  else if Op.istore0 ≤ op ∧ op < Op.iastore then
    Kinds.variants[(op - Op.istore0).toNat / 4]?.map (⟨·, true, ((op - Op.istore0) % 4).toUInt16⟩)
  else none

def decode? : Bytes → Option SlotUse
  | [op] => packed? op
  | [op, slot] => (typed? op).map fun (kinds, isStore) => ⟨kinds, isStore, slot.toUInt16⟩
  | [first, op, high, low] =>
    if first = Op.wide then
      (typed? op).map fun (kinds, isStore) => ⟨kinds, isStore, (Bytes.number [high, low]).toUInt16⟩
    else none
  | _ => none

theorem typed?_opcode (k : Kinds) (isStore : Bool) :
    typed? (Op.iload + (if isStore then Op.istore - Op.iload else 0) + k.variant) =
      some (k.typed, isStore) := by
  revert k
  rintro ⟨int, float, ref, long, double⟩
  revert int float ref long double isStore
  decide

theorem packed?_opcode (k : Kinds) (isStore : Bool) {slot : UInt16} (small : slot < 4) :
    packed? (Op.iload0 + (if isStore then Op.istore - Op.iload else 0) + slot.toUInt8 +
      k.variant * 4) =
      some ⟨k.typed, isStore, slot⟩ := by
  obtain rfl | rfl | rfl | rfl : slot = 0 ∨ slot = 1 ∨ slot = 2 ∨ slot = 3 := by
    rw [UInt16.lt_iff_toNat_lt] at small
    change slot.toNat < 4 at small
    simp only [← UInt16.toNat_inj]
    change slot.toNat = 0 ∨ slot.toNat = 1 ∨ slot.toNat = 2 ∨ slot.toNat = 3
    omega
  all_goals
    revert k
    rintro ⟨int, float, ref, long, double⟩
    revert int float ref long double isStore
    decide

theorem decode?_encode (slot : UInt16) (k : Kinds) (isStore : Bool) :
    decode? (encode slot k isStore) = some ⟨k.typed, isStore, slot⟩ := by
  unfold encode
  dsimp only
  split
  next small => exact packed?_opcode k isStore small
  next =>
    split
    next byte =>
      have whole : slot.toUInt8.toUInt16 = slot := by
        rw [UInt16.lt_iff_toNat_lt] at byte
        change slot.toNat < 256 at byte
        rw [← UInt16.toNat_inj, UInt8.toNat_toUInt16, UInt16.toNat_toUInt8]
        omega
      rw [decode?, typed?_opcode, Option.map_some, whole]
    next =>
      have whole : (Bytes.number (Bytes.ofUInt16 slot)).toUInt16 = slot := by
        rw [Bytes.number_ofUInt16, Nat.toUInt16_eq, UInt16.ofNat_toNat]
      rw [Bytes.ofUInt16, decode?, if_pos rfl, typed?_opcode, Option.map_some]
      exact congrArg (fun n => some (SlotUse.mk k.typed isStore n)) whole

end Access

end Restack
