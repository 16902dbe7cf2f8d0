import Restack.Proofs.Frame
import Restack.Proofs.Register.Flow

set_option autoImplicit false

namespace Restack

variable {kind kinds : Kinds}

namespace Kinds

def singles : List Kinds := [ofInt, ofFloat, ofRef, ofLong, ofDouble]

/-- Whether a register of these kinds can be used as `kind`. -/
def Has (kinds kind : Kinds) : Prop := kinds.inter kind = kind

instance (kinds kind : Kinds) : Decidable (kinds.Has kind) := inferInstanceAs (Decidable (_ = _))

theorem not_has_none (single : kind ∈ singles) : ¬ none.Has kind := by
  revert kind
  decide

theorem eq_of_has (one : kinds ∈ singles) (single : kind ∈ singles) (has : kinds.Has kind) :
    kind = kinds := by
  have all : ∀ kinds ∈ singles, ∀ kind ∈ singles, kinds.Has kind → kind = kinds := by decide
  exact all kinds one kind single has

theorem meets_iff_has (kinds : Kinds) (single : kind ∈ singles) :
    kinds.meets kind = true ↔ kinds.Has kind := by
  obtain ⟨int, float, ref, long, double⟩ := kinds
  simp only [singles, List.mem_cons, List.not_mem_nil, or_false] at single
  rcases single with rfl | rfl | rfl | rfl | rfl <;>
    simp [meets, Has, inter, ofInt, ofFloat, ofRef, ofLong, ofDouble, none]

theorem has_of_inter {upper lower : Kinds} (absorbed : upper.inter lower = upper)
    (has : upper.Has kind) : lower.Has kind := by
  unfold Has at *
  rw [← has, ← Kinds.inter_assoc, Kinds.inter_comm lower upper, absorbed]

theorem ofDescriptor_cases (d : String) : ofDescriptor d ∈ singles ∨ ofDescriptor d = none := by
  unfold ofDescriptor
  split <;> simp [singles]

end Kinds

theorem Frame.Absorbs.has {upper lower : Frame} (absorbs : upper.Absorbs lower) {reg : Nat}
    (has : (upper.kindsOf reg).Has kind) :
    (lower.kindsOf reg).Has kind :=
  Kinds.has_of_inter ((absorbs_iff upper lower).1 absorbs reg).1 has

namespace Register

variable {catalog : Catalog} {i : Instr}

/-- The kinds that the target register of an instruction can be used as afterwards. -/
def views (catalog : Catalog) (i : Instr) (s : Frame) : List Kinds :=
  match i.family with
  | .constString | .constClass | .newInstance | .checkCast | .newArray => [.ofRef]
  | .instanceOf | .arrayLength | .compare | .binaryLiteral => [.ofInt]
  | .move => (i.reg 1).toOption.toList.flatMap fun source =>
    [Kinds.ofInt, .ofRef, .ofFloat].filter fun k => (s.kindsOf source).meets k
  | .moveWide => (i.reg 1).toOption.toList.flatMap fun source =>
    [Kinds.ofLong, .ofDouble].filter fun k => (s.kindsOf source).meets k
  | .moveResult => i.resultType.toList.map .ofDescriptor
  | .const32 => (i.arg 1).toOption.toList.flatMap fun value =>
    if value = 0 then [.ofInt, .ofFloat, .ofRef] else [.ofInt, .ofFloat]
  | .const64 => [.ofLong, .ofDouble]
  | .arrayGet =>
    ((i.reg 1).bind fun array => (s.arrayOf array).element).toOption.toList.map Prod.fst
  | .instanceGet =>
    (i.index 2 >>= catalog.field).toOption.toList.map fun f => .ofDescriptor f.descriptor
  | .staticGet =>
    (i.index 1 >>= catalog.field).toOption.toList.map fun f => .ofDescriptor f.descriptor
  | .unary => (UnaryOp.ofOpcode? i.opcode).toList.map UnaryOp.result
  | .binary => (BinaryOp.ofOpcode? i.opcode).toList.map BinaryOp.left
  | _ => []

/-- A move copies one register, and a wide move a pair. -/
structure Instr.Fits (i : Instr) (s : Frame) : Prop where
  narrow : i.family = .move → ∀ r, i.reg 1 = .ok r → (s.kindsOf r).long = false ∧
    (s.kindsOf r).double = false
  wide : i.family = .moveWide → ∀ r, i.reg 1 = .ok r →
    ((s.kindsOf r).int = false ∧ (s.kindsOf r).float = false ∧ (s.kindsOf r).ref = false) ∧
      s.kindsOf (r + 1) = .none

def Instr.ReadsNull (i : Instr) (s : Frame) : Prop :=
  i.family = .arrayGet ∧ ∃ r, i.reg 1 = .ok r ∧ s.arrayOf r = .null

theorem UnaryOp.result_single {opcode : UInt8} {op : UnaryOp}
    (found : UnaryOp.ofOpcode? opcode = some op) :
    op.result ∈ Kinds.singles := by
  have all : ∀ op ∈ unaryOps, op.result ∈ Kinds.singles := by decide
  unfold UnaryOp.ofOpcode? at found
  split at found
  · cases found
  · exact all op (List.mem_of_getElem? found)

theorem BinaryOp.left_single {opcode : UInt8} {op : BinaryOp}
    (found : BinaryOp.ofOpcode? opcode = some op) :
    op.left ∈ Kinds.singles := by
  have all : ∀ op ∈ binaryOps, op.left ∈ Kinds.singles := by decide
  unfold BinaryOp.ofOpcode? at found
  split at found
  · cases found
  · exact all op (List.mem_of_getElem? found)

end Register

end Restack
