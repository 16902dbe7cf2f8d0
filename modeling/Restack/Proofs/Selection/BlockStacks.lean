import Restack.Proofs.Selection.BlockContents
import Restack.Proofs.Selection.SelectStacks

set_option autoImplicit false

namespace Restack.Register

/-- What stands behind the label of a block finds on the stack what the instruction picks up and
leaves what is picked up behind it, unless it never goes on. -/
structure Instr.Stocked (catalog : Catalog) (final : Pool) (pickedUp : Bool) (i : Instr)
    (rest : List Insn) : Prop where
  runs : ∀ t, (i.family.endsFlow = false → t = if pickedUp then i.leaves catalog else []) →
    Runs (Insn.Moves final 255) rest i.finds t
  throws : i.canThrow = true → ∃ x ∈ rest, x.isPlain = true
  closes : i.family.isControlFlow = true → ∃ front x, rest = front ++ [x] ∧
    (∀ y ∈ front, y.targets = []) ∧ i.Leaves x
  picks : i.family = .moveResult → ∃ r d, i.resultType = some d ∧
    rest = [.store ⟨r, .ofDescriptor d⟩]

section Blocks

variable {catalog : Catalog} {result : String} {delay pickedUp : Bool} {frame : Frame} {i : Instr}
  {pool later final : Pool}
  {block : List Insn}

theorem stocked_of_selectBlock (formed : catalog.WellFormed) (named : i.family = .ofOpcode i.opcode)
    (few : i.family.isInvoke = true → i.registers.length ≤ 255) (real : frame.Real)
    (done : (selectBlock catalog result delay pickedUp frame i).run pool = (.ok block, later))
    (grows : later.Grows final) :
    ∃ rest, block = .label (some i.position) :: rest ∧ i.Stocked catalog final pickedUp rest := by
  obtain ⟨last, ran, rfl, rfl⟩ := run_selectBlock_eq_ok done
  obtain ⟨_, _, rest, added, _⟩ :=
    takes_select (K := fun _ => True) formed named few real (fun _ => rfl) _ _ _ rfl ran
  have shape : last.insns.toList = .label (some i.position) :: rest := by simpa using added
  refine ⟨rest, shape, fun t lands => ?_, fun throws => ?_, fun control => ?_, fun picks => ?_⟩
  · obtain ⟨_, _, rest', added', runs⟩ :=
      takes_select (K := fun _ => True) formed named few real lands _ _ _ rfl ran
    rw [List.append_cancel_left (added.symm.trans added')]
    exact runs final grows trivial
  · obtain ⟨_, _, rest', added', _, found⟩ := select_throws result pickedUp throws _ _ _ rfl ran
    rw [List.append_cancel_left (added.symm.trans added')]
    exact found _ List.mem_cons_self
  · obtain ⟨_, _, _, added', front, x, rfl, straight, leaves⟩ :=
      closes_select result pickedUp control _ _ _ rfl ran
    have same := added.symm.trans added'
    exact ⟨front, x, List.append_cancel_left same, straight, leaves⟩
  · simp only [select, picks] at ran
    split at ran
    next d hinted =>
      obtain ⟨r, middle, read, stored⟩ := ExceptT.run_bind_eq_ok.1 ran
      obtain ⟨_, rfl⟩ := ExceptT.run_lift_eq_ok.1 read
      cases stored
      have same : [Insn.store ⟨r, .ofDescriptor d⟩] = rest := by simpa using shape
      exact ⟨r, d, hinted, same.symm⟩
    next => cases ran

end Blocks

end Restack.Register
