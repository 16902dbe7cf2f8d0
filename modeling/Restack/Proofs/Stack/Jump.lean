import Restack.Proofs.Bytes
import Restack.Stack.Jump

set_option autoImplicit false

namespace Restack.Jump

/-- The bytes at `position` are a jump to `destination` under the condition of an opcode, or under
none. Every offset counts from the opcode it belongs to. -/
inductive Lands (code : Bytes) (position destination : Nat) : Option UInt8 → Prop where
  | goto (offset : Int) (opcode : code[position]? = some Op.goto)
      (written : code.int16At (position + 1) = some offset)
      (lands : position + offset = destination) :
      Lands code position destination none
  | gotoWide (offset : Int) (opcode : code[position]? = some Op.gotoW)
      (written : code.int32At (position + 1) = some offset)
      (lands : position + offset = destination) :
      Lands code position destination none
  | branch (op : UInt8) (offset : Int) (opcode : code[position]? = some op)
      (written : code.int16At (position + 1) = some offset)
      (lands : position + offset = destination) :
      Lands code position destination (some op)
  /-- The opposite condition skips the eight bytes that end with the long jump. -/
  | branchWide (op inverse : UInt8) (skip offset : Int) (opposite : Op.opposite? op = some inverse)
      (opcode : code[position]? = some inverse) (skipped : code.int16At (position + 1) = some skip)
      (past : position + skip = (position + 8 : Nat)) (wide : code[position + 3]? = some Op.gotoW)
      (written : code.int32At (position + 4) = some offset)
      (lands : (position + 3 : Nat) + offset = destination) :
      Lands code position destination (some op)

theorem encode_length {j : Jump} {offset : Int} {bytes : Bytes}
    (written : j.encode offset = .ok bytes) (decided : j.size ≠ .undecided) :
    bytes.length = j.minLength := by
  obtain ⟨op, target, size, code⟩ := j
  cases size with
  | undecided => exact absurd rfl decided
  | short =>
    cases op <;> (cases written; rfl)
  | long =>
    cases op with
    | none => cases written; rfl
    | some op =>
      simp only [encode] at written
      split at written
      · cases written; rfl
      · cases written

theorem encode_lands {j : Jump} {code bytes : Bytes} {position destination : Nat}
    (written : j.encode ((destination : Int) - position) = .ok bytes)
    (decided : j.size ≠ .undecided)
    (reaches : j.size = .short → inRange ((destination : Int) - position) = true)
    (there : code.StandsAt position bytes) (inside : destination ≤ code.length)
    (bounded : code.length < 2 ^ 31) : Lands code position destination j.op := by
  have room := there.le_length
  obtain ⟨op, target, size, old⟩ := j
  cases size with
  | undecided => exact absurd rfl decided
  | short =>
    have near := reaches rfl
    simp only [inRange, Bool.and_eq_true, decide_eq_true_eq] at near
    cases op with
    | none =>
      cases written
      exact .goto _ there.head (Bytes.int16At_of_offset there.tail near.1 near.2) (by omega)
    | some op =>
      cases written
      exact .branch op _ there.head (Bytes.int16At_of_offset there.tail near.1 near.2) (by omega)
  | long =>
    cases op with
    | none =>
      cases written
      exact .gotoWide _ there.head (Bytes.int32At_of_offset there.tail (by omega) (by omega))
        (by omega)
    | some op =>
      simp only [encode] at written
      split at written
      next inverse opposite =>
        cases written
        have skip : code.StandsAt (position + 1) (Bytes.ofUInt16 8) := there.left.tail
        have jump : code.StandsAt (position + 3)
          (Op.gotoW :: Bytes.ofUInt32
            (Int32.ofInt ((destination : Int) - position - 3)).toUInt32) := there.right
        have length : position + 8 ≤ code.length := room
        exact .branchWide op inverse 8 _ opposite there.left.head (Bytes.int16At_of_standsAt skip)
          (by omega)
          jump.head (Bytes.int32At_of_offset jump.tail (by omega) (by omega)) (by omega)
      next => cases written

end Restack.Jump
