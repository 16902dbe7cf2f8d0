import Restack.Stack.CopyPlan

set_option autoImplicit false

namespace Restack

namespace CopyPlan

theorem op_of_mem_refill {held wanted : Nat} {x : Insn} (member : x ∈ (refill held wanted).1) :
    ∃ op, x = .op op := by
  have duplications : x = .op Op.dup ∨ x = .op Op.dup2 := by
    unfold refill at member
    by_cases one : held = 1 ∧ 2 ≤ wanted
    · by_cases many : 4 ≤ wanted <;> simp_all
    · by_cases many : held = 2 ∧ 4 ≤ wanted <;> simp_all
  rcases duplications with same | same
  · exact ⟨_, same⟩
  · exact ⟨_, same⟩

def steps : Nat → Nat → Nat → List (List Insn)
  | 0, held, wanted => [List.replicate (held - wanted) (Insn.op Op.pop)]
  | uses + 1, held, wanted =>
    (refill held wanted).1 :: steps uses ((refill held wanted).2 - 1) (wanted - 1)

theorem extend_eq (uses held wanted : Nat) (acc : Array (List Insn)) :
    (extend uses held wanted acc).toList = acc.toList ++ steps uses held wanted := by
  induction uses generalizing held wanted acc with
  | zero => simp [extend, steps]
  | succ uses ih => simp [extend, steps, ih]

theorem copyPlan_eq (uses spare : Nat) : copyPlan uses spare = steps uses 1 (uses + spare) := by
  rw [copyPlan, extend_eq, List.nil_append]

theorem length_steps (uses held wanted : Nat) : (steps uses held wanted).length = uses + 1 := by
  induction uses generalizing held wanted with
  | zero => rfl
  | succ uses ih => rw [steps, List.length_cons, ih]

theorem length_copyPlan (uses spare : Nat) : (copyPlan uses spare).length = uses + 1 := by
  rw [copyPlan_eq, length_steps]

theorem op_of_mem_steps {uses held wanted : Nat} :
    ∀ step ∈ steps uses held wanted, ∀ x ∈ step, ∃ op, x = Insn.op op := by
  induction uses generalizing held wanted with
  | zero =>
    intro step member x inside
    cases List.mem_singleton.1 member
    exact ⟨_, List.eq_of_mem_replicate inside⟩
  | succ uses ih => exact List.forall_mem_cons.2 ⟨fun x inside => op_of_mem_refill inside, ih⟩

end CopyPlan

theorem op_of_mem_copyPlan {uses spare : Nat} {step : List Insn} {x : Insn}
    (planned : step ∈ copyPlan uses spare) (member : x ∈ step) : ∃ op, x = .op op := by
  rw [CopyPlan.copyPlan_eq] at planned
  exact CopyPlan.op_of_mem_steps step planned x member

end Restack
