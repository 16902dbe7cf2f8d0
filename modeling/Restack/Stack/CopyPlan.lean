import Restack.Stack.Instruction

set_option autoImplicit false

namespace Restack

namespace CopyPlan

/-- What to do before the next use, with `held` copies on the stack and `wanted` uses to come. -/
def refill (held wanted : Nat) : List Insn × Nat :=
  let (first, held) := if held = 1 ∧ 2 ≤ wanted then ([Insn.op Op.dup], 2) else ([], held)
  if held = 2 ∧ 4 ≤ wanted then (first ++ [Insn.op Op.dup2], 4) else (first, held)

/-- Adds the steps for `uses` uses to those in `acc`, then one that drops what is left over. -/
def extend : Nat → Nat → Nat → Array (List Insn) → Array (List Insn)
  | 0, held, wanted, acc => acc.push (List.replicate (held - wanted) (Insn.op Op.pop))
  | uses + 1, held, wanted, acc =>
    let (step, held) := refill held wanted
    extend uses (held - 1) (wanted - 1) (acc.push step)

end CopyPlan

/-- One list of instructions to run before each of `uses` uses of the value on top of the stack, and
a last one that drops surplus copies. `spare` copies are left over for later. -/
def copyPlan (uses spare : Nat) : List (List Insn) :=
  (CopyPlan.extend uses 1 (uses + spare) #[]).toList

end Restack
