import Restack.Proofs.Selection.Select

set_option autoImplicit false

namespace Restack

namespace Emit

variable {α β : Type} {P : Insn → Prop} {m : Emit α} {f : α → Emit β} {frame : Frame}

/-- When `m` succeeds in a frame, only the last instruction it adds may jump, and that one is of the
kind `P`. -/
def Closes (P : Insn → Prop) (frame : Frame) (m : Emit α) : Prop :=
  Emits frame m fun _ new => ∃ front x, new = front ++ [x] ∧ (∀ y ∈ front, y.targets = []) ∧ P x

theorem closes_add {x : Insn} (good : P x) : Closes P frame (add x) :=
  emits_add fun _ => ⟨[], x, rfl, by simp, good⟩

theorem closes_operand {e : Except Fault α} (tail : ∀ a, e = .ok a → Closes P frame (f a)) :
    Closes P frame (liftM e >>= f) := emits_operand tail

theorem Does.closes (first : Does Insn.Tame frame m []) (second : ∀ a, Closes P frame (f a)) :
    Closes P frame (m >>= f) := by
  refine Emits.bind first second fun _ _ new _ _ tame closed => ?_
  obtain ⟨front, x, rfl, straight, good⟩ := closed
  refine ⟨new ++ front, x, by simp, List.forall_mem_append.2 ⟨fun y early => ?_, straight⟩, good⟩
  exact (tame.1 y early).2.1

end Emit

namespace Register

open Emit

variable {catalog : Catalog} {i : Instr} {frame : Frame}

/-- The last instruction of a block leads wherever the instruction leads that it was selected for,
by jumps or by falling through. -/
def Instr.Leaves (i : Instr) (x : Insn) : Prop :=
  ∀ q, i.Leads q → q ∈ x.targets ∨ i.family.endsFlow = false ∧ q = i.next ∧ x.fallsThrough = true

theorem leaves_jump {n : Nat} {target : UInt32} {op : Option UInt8}
    (operand_n : i.family.targetOperand = some n) (found : i.target n = .ok target)
    (falls : i.family.endsFlow = false → op.isSome = true) :
    i.Leaves (.jump { op, target }) := by
  intro q leads
  cases leads with
  | next goes_on => exact .inr ⟨goes_on, rfl, falls goes_on⟩
  | jump operand_m at_m =>
    cases operand_n.symm.trans operand_m
    cases found.symm.trans at_m
    exact .inl List.mem_cons_self
  | case family => simp [family, Family.targetOperand] at operand_n

theorem closes_switch {cases : Cases} (family : i.family = .switch)
    (found : i.switchCases = .ok cases) :
    Closes i.Leaves frame (Emit.switch i.next cases) := by
  -- A switch leads to its default, which is the next instruction, and to its cases.
  have leaves {x : Insn} (next : i.next ∈ x.targets)
      (others : ∀ key q, (key, q) ∈ cases.pairs → q ≠ i.next → q ∈ x.targets) :
      i.Leaves x := by
    intro q leads
    cases leads with
    | next => exact .inl next
    | jump operand_n => simp [family, Family.targetOperand] at operand_n
    | case _ at_cases inside =>
      cases found.symm.trans at_cases
      by_cases same : q = i.next
      · exact .inl (same ▸ next)
      · exact .inl (others _ q inside same)
  unfold Emit.switch
  dsimp only
  split
  next none =>
    refine Does.closes ((does_op (fun _ tame => tame) _).weaken (by simp)) fun _ => closes_add ?_
    refine leaves List.mem_cons_self fun key q inside other => ?_
    have kept : (key, q) ∈ (cases.without i.next).pairs :=
      List.mem_filter.2 ⟨inside, by simpa using other⟩
    simp [List.isEmpty_iff.1 none] at kept
  next =>
    refine closes_add (leaves ?_ fun key q inside other => ?_)
    · exact (Switch.mem_targets_iff _ _).2 (.inl rfl)
    · refine (Switch.mem_targets_iff _ _).2 (.inr (List.mem_map.2 ⟨(key, q), ?_, rfl⟩))
      exact List.mem_filter.2 ⟨inside, by simpa using other⟩

theorem closes_select (result : String) (pickedUp : Bool)
    (control : i.family.isControlFlow = true) :
    Closes i.Leaves frame (select catalog result pickedUp i) := by
  have loads (r : Nat) (kinds : Kinds) : Does Insn.Tame frame (Emit.load r kinds none) [] :=
    does_load (fun _ tame => tame) r kinds none
  cases family : i.family
  case goto =>
    simp only [select, family]
    refine closes_operand fun target found => closes_add ?_
    exact leaves_jump (by rw [family]; rfl) found (by rw [family]; decide)
  case branch =>
    simp only [select, family]
    refine closes_operand fun a _ => closes_operand fun b _ => emits_frame ?_
    refine closes_operand fun compared _ => ?_
    obtain ⟨op, kinds⟩ := compared
    refine (loads a kinds).closes fun _ => (loads b kinds).closes fun _ => ?_
    refine closes_operand fun target found => closes_add ?_
    exact leaves_jump (by rw [family]; rfl) found fun _ => rfl
  case branchZero =>
    simp only [select, family]
    refine closes_operand fun a _ => emits_frame <| closes_operand fun compared _ => ?_
    obtain ⟨op, kinds⟩ := compared
    refine (loads a kinds).closes fun _ => closes_operand fun target found => closes_add ?_
    exact leaves_jump (by rw [family]; rfl) found fun _ => rfl
  case switch =>
    simp only [select, family]
    refine closes_operand fun r _ => (loads r .ofInt).closes fun _ => closes_operand
      fun cases found => ?_
    exact closes_switch family found
  all_goals simp [family, Family.isControlFlow] at control

end Register

end Restack
