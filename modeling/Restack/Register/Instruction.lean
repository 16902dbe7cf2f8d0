import Restack.Register.ArrayData
import Restack.Register.Family

set_option autoImplicit false

namespace Restack

/-- Case keys with the positions they lead to. Keys ascend, so none comes twice. -/
structure Cases where
  pairs : List (Int32 × UInt32)
  ascending : pairs.Pairwise fun a b => a.1 < b.1
deriving DecidableEq, Repr

instance : Inhabited Cases := ⟨⟨[], .nil⟩⟩

namespace Cases

/-- Of neighbours with equal keys only the last stays. -/
def keepLast : List (Int32 × UInt32) → List (Int32 × UInt32) → List (Int32 × UInt32)
  | acc, [] => acc.reverse
  | acc, [c] => (c :: acc).reverse
  | acc, c :: d :: rest =>
    if c.1 = d.1 then keepLast acc (d :: rest) else keepLast (c :: acc) (d :: rest)

/-- What is kept of a sorted list ascends strictly. `acc` holds what was kept so far, the largest
key first. -/
theorem keepLast_ascending (acc pairs : List (Int32 × UInt32))
    (kept : acc.Pairwise fun a b => b.1 < a.1) (sorted : pairs.Pairwise fun a b => a.1 ≤ b.1)
    (below : ∀ a ∈ acc, ∀ b ∈ pairs, a.1 < b.1) :
    (keepLast acc pairs).Pairwise fun a b => a.1 < b.1 := by
  fun_induction keepLast acc pairs with
  | case1 acc => exact List.pairwise_reverse.2 kept
  | case2 acc c =>
    apply List.pairwise_reverse.2
    exact List.pairwise_cons.2 ⟨fun a member => below a member c (by simp), kept⟩
  | case3 acc c d rest equal ih =>
    exact ih kept sorted.of_cons fun a member b inside =>
      below a member b (List.mem_cons_of_mem c inside)
  | case4 acc c d rest different ih =>
    obtain ⟨first, tail⟩ := List.pairwise_cons.1 sorted
    have next : c.1 < d.1 := Int32.lt_of_le_of_ne (first d (by simp)) different
    have smallest : ∀ b ∈ d :: rest, c.1 < b.1 := by
      intro b inside
      rcases List.mem_cons.1 inside with rfl | later
      · exact next
      · exact Int32.lt_of_lt_of_le next ((List.pairwise_cons.1 tail).1 b later)
    apply ih
    · exact List.pairwise_cons.2 ⟨fun a member => below a member c (by simp), kept⟩
    · exact tail
    · intro a member b inside
      rcases List.mem_cons.1 member with rfl | earlier
      · exact smallest b inside
      · exact below a earlier b (List.mem_cons_of_mem c inside)

/-- Sorts pairs by key; of pairs with equal keys the last one given counts. -/
def ofPairs (pairs : List (Int32 × UInt32)) : Cases where
  pairs := keepLast [] (pairs.mergeSort fun a b => a.1 ≤ b.1)
  ascending := by
    apply keepLast_ascending [] _ .nil
    · refine (List.pairwise_mergeSort ?_ ?_ pairs).imp of_decide_eq_true
      · exact fun a b c first second => by
          simp only [decide_eq_true_eq] at *
          exact Int32.le_trans first second
      · exact fun a b => by simpa using Int32.le_total a.1 b.1
    · simp

def without (cases : Cases) (target : UInt32) : Cases where
  pairs := cases.pairs.filter (·.2 ≠ target)
  ascending := cases.ascending.filter _

end Cases

namespace Register

inductive Payload where
  | switch (cases : Cases)
  | arrayData (data : ArrayData)
deriving DecidableEq, Repr, Inhabited

/-- Registers, ascending, known to hold an instance of a type on one way out of a conditional
branch. -/
structure CastHint where
  typeIndex : UInt32
  registers : List UInt16
deriving DecidableEq, Repr, Inhabited

/-- Execution that falls through goes on at `next`. Branch operands are absolute positions. Calls
and array literals keep a table index in `args` and their registers in `registers`. -/
structure Instr where
  opcode : UInt8
  family : Family
  position : UInt32
  next : UInt32
  args : List Int32 := []
  wide : Int64 := 0
  registers : List UInt16 := []
  payload : Option Payload := none
  /-- Descriptor of the value that the instruction before left to be picked up. -/
  resultType : Option String := none
  casts : Option CastHint := none
deriving DecidableEq, Repr, Inhabited

namespace Instr

def ofOpcode (opcode : UInt8) (position next : UInt32) (args : List Int32) : Instr :=
  { opcode, family := .ofOpcode opcode, position, next, args }

/-- Case offsets count from the instruction itself. -/
def withSwitch (i : Instr) (offsets : List (Int32 × Int32)) : Instr :=
  { i with
    payload := some (.switch (.ofPairs (offsets.map fun (k, d) => (k, i.position + d.toUInt32)))) }

def arg (i : Instr) (n : Nat) : Except Fault Int32 :=
  match i.args[n]? with
  | some v => .ok v
  | none => fail (.missingOperand n i.opcode i.position)

def reg (i : Instr) (n : Nat) : Except Fault Nat := do
  let v ← i.arg n
  if v < 0 then fail (.negativeRegister v i.position) else .ok v.toNatClampNeg

def index (i : Instr) (n : Nat) : Except Fault UInt32 := do
  return (← i.arg n).toUInt32

def target (i : Instr) (n : Nat) : Except Fault UInt32 := do
  return (← i.arg n).toUInt32

/-- The last two operands. A form with two operands uses its destination as first source. -/
def binarySources (i : Instr) : Except Fault (Nat × Nat) :=
  let n := i.args.length
  if n < 2 then fail (.binaryOperands i.position)
  else do
    let a ← i.reg (n - 2)
    let b ← i.reg (n - 1)
    return (a, b)

def switchCases (i : Instr) : Except Fault Cases :=
  match i.payload with
  | some (.switch cases) => .ok cases
  | _ => fail (.noSwitchPayload i.position)

def arrayData (i : Instr) : Except Fault ArrayData :=
  match i.payload with
  | some (.arrayData data) => .ok data
  | _ => fail (.noArrayPayload i.position)

def canThrow (i : Instr) : Bool :=
  match i.family with
  | .binary => (BinaryOp.ofOpcode? i.opcode).any fun b => Op.arithmeticThrows b.op
  | .binaryLiteral => (literalOp? i.opcode).any Op.arithmeticThrows
  | family => family.canThrow

end Instr

end Register

end Restack
