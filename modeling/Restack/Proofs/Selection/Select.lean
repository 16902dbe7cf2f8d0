import Restack.Proofs.Register.Transfer
import Restack.Proofs.Selection.Emission
import Restack.Selection.Select

set_option autoImplicit false

namespace Restack.Register

open Emit

structure Instr.Admits (i : Instr) (x : Insn) : Prop where
  unlabelled : ∀ p, x ≠ .label p
  bytes : ∀ code, x = .plain code → code ≠ []
  leads : ∀ t ∈ x.targets, i.family.isControlFlow = true ∧ i.Leads t
  undecided : ∀ j, x = .jump j → j.size = .undecided

theorem Instr.admits_of_tame (i : Instr) (x : Insn) (tame : x.Tame) : i.Admits x := by
  obtain ⟨no_label, no_target, some_bytes⟩ := tame
  refine ⟨no_label, some_bytes, fun t member => ?_, fun j same => ?_⟩
  · simp [no_target] at member
  · simp [same, Insn.targets] at no_target

def owed (catalog : Catalog) (i : Instr) (s : Frame) : List (Insn → Prop) :=
  (i.reg 0).toOption.toList.flatMap fun target => (views catalog i s).map fun k x =>
    x = .store ⟨target, k⟩

section Straight

variable {catalog : Catalog} {i : Instr} {s : Frame}

theorem does_owed {r : Nat} {kinds : Kinds} (target : i.reg 0 = .ok r)
    (single : views catalog i s = [kinds]) :
    Does i.Admits s (Emit.store r kinds) (owed catalog i s) := by
  have same : owed catalog i s = [(· = .store ⟨r, kinds⟩)] := by
    simp [owed, target, single, Except.toOption]
  rw [same]
  exact does_store i.admits_of_tame r kinds

theorem does_result {kinds : Kinds} (single : views catalog i s = [kinds]) :
    Does i.Admits s (operand (i.reg 0) >>= fun r => Emit.store r kinds) (owed catalog i s) :=
  does_operand fun _ target => does_owed target single

theorem does_bareOp (op : UInt8) : Does i.Admits s (Emit.op op) [] :=
  does_one (i.admits_of_tame _ (Insn.tame_op op))

theorem does_register {n : Nat} {kinds : Kinds} {expected : Option String} {rest : Emit Unit}
    {required : List (Insn → Prop)} (after : Does i.Admits s rest required) :
    Does i.Admits s
      (operand (i.reg n) >>= fun r => Emit.load r kinds expected >>= fun _ => rest) required :=
  does_operand fun _ _ => (does_load i.admits_of_tame _ _ _).andThen fun _ => after

theorem does_use {R : Insn → Prop} (n : Nat) (kinds : Kinds) (expected : Option String) (op : UInt8)
    (due : R (.op op)) :
    Does i.Admits s
      (operand (i.reg n) >>= fun r => Emit.load r kinds expected >>= fun _ => Emit.op op) [R] :=
  does_register (does_add (i.admits_of_tame _ (Insn.tame_op op)) due)

theorem owed_nil (none : views catalog i s = []) : owed catalog i s = [] := by
  simp [owed, none]

theorem does_copyAs {candidates : List Kinds}
    (views_eq : views catalog i s = (i.reg 1).toOption.toList.flatMap fun source =>
      candidates.filter fun k => (s.kindsOf source).meets k) :
    Does i.Admits s (copyAs i candidates) (owed catalog i s) := by
  refine does_operand fun source found => ?_
  refine (does_forM (fun k => if (s.kindsOf source).meets k then
    (i.reg 0).toOption.toList.map fun target x => x = .store ⟨target, k⟩ else []) fun k _ =>
      ?_).weaken ?_
  · refine does_frame ?_
    split
    · refine (does_load i.admits_of_tame _ _ _).andThen fun _ => ?_
      refine does_operand fun target at_target => ?_
      simp only [at_target, Except.toOption, Option.toList_some, List.map_cons, List.map_nil]
      exact does_store i.admits_of_tame target k
    · exact does_pure _
  · intro R member
    simp only [owed, views_eq, found, Except.toOption, Option.toList_some, List.flatMap_cons,
      List.flatMap_nil, List.append_nil, List.mem_flatMap, List.mem_map, List.mem_filter] at member
    obtain ⟨target, at_target, k, ⟨candidate, held⟩, rfl⟩ := member
    refine List.mem_flatMap.2 ⟨k, candidate, ?_⟩
    rw [if_pos held]
    exact List.mem_map.2 ⟨target, at_target, rfl⟩

theorem does_filledNewArray (pickedUp : Bool) :
    Does i.Admits s (selectFilledNewArray catalog i pickedUp) [Insn.Plain] := by
  refine does_operand fun descriptor _ => ?_
  refine (does_number i.admits_of_tame _ _).andThen fun _ => ?_
  refine (does_newArray i.admits_of_tame _).followed fun _ => ?_
  refine does_operand fun element _ => ?_
  exact (does_fillArray i.admits_of_tame _ _ _ _ fun n => does_load i.admits_of_tame _ _ _).weaken
    (by simp)

theorem does_fillArrayData : Does i.Admits s (selectFillArrayData i) [Insn.Plain] := by
  have tame := i.admits_of_tame
  refine does_operand fun reg _ => ?_
  refine does_operand fun data _ => ?_
  refine does_frame ?_
  refine (does_loadArray tame _).andThen fun _ => ?_
  split
  · exact does_op tame _
  · split
    · exact (does_bareOp _).andThen fun _ => does_op tame _
    next some_element =>
      refine does_operand fun ⟨kinds, view⟩ _ => ?_
      simp only
      split
      · exact does_throw _ _
      · split
        all_goals
          refine (does_fillArray tame _ _ _ _ fun n => does_number tame _ _).weaken ?_
          simpa [ArrayData.length] using some_element

theorem does_invoke (pickedUp : Bool) :
    Does i.Admits s (selectInvoke catalog i pickedUp) [Insn.Plain] := by
  refine does_operand fun called _ => ?_
  have dropped : Does i.Admits s (if called.result ≠ "V" && !pickedUp then
      Emit.op (if (Kinds.ofDescriptor called.result).isWide then Op.pop2 else Op.pop)
        else pure ()) [] := by
    split
    · exact does_bareOp _
    · exact does_pure _
  simp only
  split
  · exact emits_throw_bind _ _
  · refine Does.andThen ((does_forM (fun _ => []) fun pair _ => ?_).weaken (by simp)) fun _ => ?_
    · split
      · exact does_load i.admits_of_tame _ _ _
      · exact does_pure _
    · split
      · refine (does_inPool (PoolM.draws_interfaceMethodRef called)).andThen fun index => ?_
        refine Does.followed (does_add (i.admits_of_tame _ (Insn.tame_plain ?_)) rfl)
          fun _ => dropped
        simp [Bytes.opWithIndex]
      · refine (does_inPool (PoolM.draws_methodRef called)).andThen fun index => ?_
        exact (does_indexed i.admits_of_tame _ _).followed fun _ => dropped

theorem does_withArray {array : Nat} {access : Kinds → ArrayView → Emit Unit}
    {required : List (Insn → Prop)} (null : s.arrayOf array = .null → required = [Insn.Plain])
    (accesses : ∀ kinds element, (s.arrayOf array).element = .ok (kinds, element) →
      Does i.Admits s (access kinds element) required) :
    Does i.Admits s (withArray array access) required := by
  refine does_frame ?_
  simp only
  split
  · next is_null =>
    rw [null is_null]
    exact (does_null i.admits_of_tame).andThen fun _ => does_op i.admits_of_tame _
  · exact does_operand fun ⟨kinds, element⟩ found => accesses kinds element found

theorem admits_jump {op : Option UInt8} {target : UInt32} (control : i.family.isControlFlow = true)
    (leads : i.Leads target) : i.Admits (.jump { op, target }) := by
  refine ⟨fun p => by simp, fun code same => by simp at same, fun t member => ?_, fun j same => ?_⟩
  · cases List.mem_singleton.1 member
    exact ⟨control, leads⟩
  · cases same
    rfl

theorem does_jump {op : Option UInt8} {n : Nat} (operand_n : i.family.targetOperand = some n) :
    Does i.Admits s
      (operand (i.target n) >>= fun target => Emit.add (.jump { op, target })) [] := by
  refine does_operand fun target found => ?_
  have control : i.family.isControlFlow = true := by
    cases family : i.family <;> simp [family, Family.targetOperand] at operand_n <;> rfl
  exact does_one (admits_jump control (.jump operand_n found))

theorem does_switch {cases : Cases} (family : i.family = .switch)
    (found : i.switchCases = .ok cases) :
    Does i.Admits s (Emit.switch i.next cases) [] := by
  have control : i.family.isControlFlow = true := by rw [family]; rfl
  have next : i.Leads i.next := .next (by rw [family]; rfl)
  unfold Emit.switch
  simp only
  split
  · exact (does_bareOp _).andThen fun _ => does_one (admits_jump control next)
  · refine does_one ⟨fun p => by simp, fun code same => by simp at same, fun t member => ?_,
      fun j same => by simp at same⟩
    rcases (Switch.mem_targets_iff _ t).1 member with rfl | other
    · exact ⟨control, next⟩
    · obtain ⟨⟨key, q⟩, inside, rfl⟩ := List.mem_map.1 other
      exact ⟨control, .case family found (List.mem_filter.1 inside).1⟩

section Families

variable (result : String) (pickedUp : Bool)

theorem does_const32 (family : i.family = .const32) :
    Does i.Admits s (select catalog result pickedUp i) (owed catalog i s) := by
  have tame := i.admits_of_tame
  simp only [select, family]
  refine does_operand fun r target => ?_
  refine does_operand fun value found => ?_
  refine (does_number tame _ _).andThen fun _ => ?_
  by_cases zero : value = 0
  · have stores : owed catalog i s =
        [(· = .store ⟨r, .ofInt⟩)] ++
          ([(· = .store ⟨r, .ofFloat⟩)] ++ [(· = .store ⟨r, .ofRef⟩)]) := by
      simp [owed, views, family, target, found, zero, Except.toOption]
    rw [stores, if_pos zero]
    refine (does_store tame _ _).append fun _ => ?_
    refine (does_number tame _ _).andThen fun _ => ?_
    refine (does_store tame _ _).append fun _ => ?_
    exact (does_null tame).andThen fun _ => does_store tame _ _
  · have stores : owed catalog i s = [(· = .store ⟨r, .ofInt⟩)] ++
        ([(· = .store ⟨r, .ofFloat⟩)] ++ []) := by
      simp [owed, views, family, target, found, zero, Except.toOption]
    rw [stores, if_neg zero]
    refine (does_store tame _ _).append fun _ => ?_
    refine (does_number tame _ _).andThen fun _ => ?_
    exact (does_store tame _ _).append fun _ => does_pure _

theorem does_const64 (family : i.family = .const64) :
    Does i.Admits s (select catalog result pickedUp i) (owed catalog i s) := by
  have tame := i.admits_of_tame
  simp only [select, family]
  refine does_operand fun r target => ?_
  have stores : owed catalog i s = [(· = .store ⟨r, .ofLong⟩)] ++
      [(· = .store ⟨r, .ofDouble⟩)] := by
    simp [owed, views, family, target, Except.toOption]
  rw [stores]
  refine (does_number tame _ _).andThen fun _ => ?_
  refine (does_store tame _ _).append fun _ => ?_
  exact (does_number tame _ _).andThen fun _ => does_store tame _ _

theorem does_branch (family : i.family = .branch) :
    Does i.Admits s (select catalog result pickedUp i) [] := by
  have tame := i.admits_of_tame
  simp only [select, family]
  refine does_operand fun a _ => ?_
  refine does_operand fun b _ => ?_
  refine does_frame ?_
  refine does_operand fun ⟨jump, kinds⟩ _ => ?_
  refine (does_load tame _ _ _).andThen fun _ => ?_
  refine (does_load tame _ _ _).andThen fun _ => ?_
  exact does_jump (by rw [family]; rfl)

theorem does_branchZero (family : i.family = .branchZero) :
    Does i.Admits s (select catalog result pickedUp i) [] := by
  simp only [select, family]
  refine does_operand fun a _ => ?_
  refine does_frame ?_
  refine does_operand fun ⟨jump, kinds⟩ _ => ?_
  refine (does_load i.admits_of_tame _ _ _).andThen fun _ => ?_
  exact does_jump (by rw [family]; rfl)

theorem does_arrayGet (family : i.family = .arrayGet) :
    Does i.Admits s (select catalog result pickedUp i) (Insn.Plain :: owed catalog i s) := by
  have tame := i.admits_of_tame
  simp only [select, family]
  refine does_operand fun array found => ?_
  refine does_withArray (fun null => ?_) fun kinds element known => ?_
  · rw [owed_nil]
    simp [views, family, found, null, ArrayView.element, Except.bind, fail, Except.toOption]
  · refine (does_loadArray tame _).andThen fun _ => ?_
    refine does_register ?_
    refine (does_op tame _).append fun _ => does_result ?_
    simp [views, family, found, known, Except.bind, Except.toOption]

theorem does_arrayPut (family : i.family = .arrayPut) :
    Does i.Admits s (select catalog result pickedUp i) [Insn.Plain] := by
  have tame := i.admits_of_tame
  simp only [select, family]
  refine does_operand fun array found => ?_
  refine does_withArray (fun _ => rfl) fun kinds element known => ?_
  refine (does_loadArray tame _).andThen fun _ => ?_
  exact does_register (does_use _ _ _ _ rfl)

theorem does_unary (family : i.family = .unary) :
    Does i.Admits s (select catalog result pickedUp i) (owed catalog i s) := by
  simp only [select, family]
  cases operation : UnaryOp.ofOpcode? i.opcode with
  | none => exact does_throw _ _
  | some o =>
    have stored := does_result (by simp [views, family, operation] : views catalog i s = [o.result])
    refine does_register ?_
    split
    · exact (does_bareOp _).andThen fun _ => (does_bareOp _).andThen fun _ => stored
    · split
      · refine (does_bareOp _).andThen fun _ => (does_bareOp _).andThen fun _ => ?_
        exact (does_bareOp _).andThen fun _ => stored
      · exact (does_bareOp _).andThen fun _ => stored

theorem does_binary (family : i.family = .binary) :
    Does i.Admits s (select catalog result pickedUp i) (Insn.Plain :: owed catalog i s) := by
  have tame := i.admits_of_tame
  simp only [select, family]
  cases operation : BinaryOp.ofOpcode? i.opcode with
  | none => exact does_throw _ _
  | some o =>
    refine does_operand fun ⟨a, b⟩ _ => ?_
    refine (does_load tame _ _ _).andThen fun _ => ?_
    refine (does_load tame _ _ _).andThen fun _ => ?_
    refine (does_op tame _).append fun _ => does_result ?_
    simp [views, family, operation]

theorem does_binaryLiteral (family : i.family = .binaryLiteral) :
    Does i.Admits s (select catalog result pickedUp i) (Insn.Plain :: owed catalog i s) := by
  have tame := i.admits_of_tame
  simp only [select, family]
  cases operation : literalOp? i.opcode with
  | none => exact does_throw _ _
  | some o =>
    have stored := does_result (by simp [views, family] : views catalog i s = [.ofInt])
    refine does_operand fun source _ => ?_
    refine does_operand fun literal _ => ?_
    split
    · refine (does_number tame _ _).andThen fun _ => (does_load tame _ _ _).andThen fun _ => ?_
      exact (does_op tame _).append fun _ => stored
    · refine (does_load tame _ _ _).andThen fun _ => (does_number tame _ _).andThen fun _ => ?_
      exact (does_op tame _).append fun _ => stored

end Families

theorem select_throws (result : String) (pickedUp : Bool) (throws : i.canThrow = true) :
    Does i.Admits s (select catalog result pickedUp i) (Insn.Plain :: owed catalog i s) := by
  have tame := i.admits_of_tame
  have nothing : views catalog i s = [] → owed catalog i s = [] := owed_nil
  cases family : i.family with
  | monitorEnter | monitorExit | throw =>
    rw [nothing (by simp [views, family]), select, family]
    exact does_use _ _ _ _ rfl
  | checkCast =>
    rw [select, family]
    refine does_operand fun r target => ?_
    refine does_operand fun name _ => ?_
    refine (does_load tame _ _ _).andThen fun _ => ?_
    refine (does_classOp tame _ _).append fun _ => ?_
    exact does_owed target (by simp [views, family])
  | arrayLength =>
    rw [select, family]
    refine does_operand fun source _ => ?_
    refine (does_loadArray tame _).andThen fun _ => ?_
    exact (does_op tame _).append fun _ => does_result (by simp [views, family])
  | newInstance =>
    rw [select, family]
    refine does_operand fun name _ => ?_
    exact (does_classOp tame _ _).append fun _ => does_result (by simp [views, family])
  | newArray =>
    rw [select, family]
    refine does_register ?_
    refine does_operand fun descriptor _ => ?_
    exact (does_newArray tame _).append fun _ => does_result (by simp [views, family])
  | filledNewArray =>
    rw [nothing (by simp [views, family]), select, family]
    exact does_filledNewArray pickedUp
  | fillArrayData =>
    rw [nothing (by simp [views, family]), select, family]
    exact does_fillArrayData
  | arrayGet => exact does_arrayGet result pickedUp family
  | arrayPut =>
    rw [nothing (by simp [views, family])]
    exact does_arrayPut result pickedUp family
  | instanceGet =>
    rw [select, family]
    refine does_operand fun field found => ?_
    refine does_register ?_
    refine (does_inPool (PoolM.draws_fieldRef field)).andThen fun index => ?_
    refine (does_indexed tame _ _).append fun _ => does_result ?_
    simp [views, family, found, Except.toOption]
  | instancePut =>
    rw [nothing (by simp [views, family]), select, family]
    refine does_operand fun field _ => ?_
    refine does_register ?_
    refine does_register ?_
    exact (does_inPool (PoolM.draws_fieldRef field)).andThen fun index => does_indexed tame _ _
  | staticGet =>
    rw [select, family]
    refine does_operand fun field found => ?_
    refine (does_inPool (PoolM.draws_fieldRef field)).andThen fun index => ?_
    refine (does_indexed tame _ _).append fun _ => does_result ?_
    simp [views, family, found, Except.toOption]
  | staticPut =>
    rw [nothing (by simp [views, family]), select, family]
    refine does_operand fun field _ => ?_
    refine does_register ?_
    exact (does_inPool (PoolM.draws_fieldRef field)).andThen fun index => does_indexed tame _ _
  | invokeVirtual | invokeSuper | invokeDirect | invokeStatic | invokeInterface =>
    rw [nothing (by simp [views, family]), select, family]
    exact does_invoke pickedUp
  | binary => exact does_binary result pickedUp family
  | binaryLiteral => exact does_binaryLiteral result pickedUp family
  | _ => simp [Instr.canThrow, family, Family.canThrow] at throws

theorem select_does (result : String) (pickedUp : Bool) :
    Does i.Admits s (select catalog result pickedUp i) (owed catalog i s) := by
  have tame := i.admits_of_tame
  have nothing : views catalog i s = [] → owed catalog i s = [] := owed_nil
  by_cases throws : i.canThrow = true
  · exact (select_throws result pickedUp throws).weaken fun _ => List.mem_cons_of_mem _
  cases family : i.family with
  | nop =>
    rw [nothing (by simp [views, family]), select, family]
    exact does_pure _
  | move | moveWide =>
    rw [select, family]
    exact does_copyAs (by simp [views, family])
  | moveResult =>
    rw [select, family]
    cases resultType : i.resultType with
    | none => exact does_throw _ _
    | some d => exact does_result (by simp [views, family, resultType])
  | «return» =>
    rw [nothing (by simp [views, family]), select, family]
    simp only
    split
    · exact does_bareOp _
    · exact (does_use (R := fun _ => True) _ _ _ _ trivial).weaken (by simp)
  | const32 => exact does_const32 result pickedUp family
  | const64 => exact does_const64 result pickedUp family
  | constString =>
    rw [select, family]
    refine does_operand fun text _ => ?_
    refine (does_inPool (PoolM.draws_stringRef text)).andThen fun index => ?_
    exact (does_ldc tame _).andThen fun _ => does_result (by simp [views, family])
  | constClass =>
    rw [select, family]
    refine does_operand fun name _ => ?_
    refine (does_inPool (PoolM.draws_classRef name)).andThen fun index => ?_
    exact (does_ldc tame _).andThen fun _ => does_result (by simp [views, family])
  | instanceOf =>
    rw [select, family]
    refine does_register ?_
    refine does_operand fun name _ => ?_
    refine Does.andThen ((does_classOp tame _ _).weaken (by simp)) fun _ => ?_
    exact does_result (by simp [views, family])
  | goto =>
    rw [nothing (by simp [views, family]), select, family]
    exact does_jump (by rw [family]; rfl)
  | switch =>
    rw [nothing (by simp [views, family]), select, family]
    refine does_register ?_
    exact does_operand fun cases found => does_switch family found
  | compare =>
    rw [select, family]
    refine does_register ?_
    refine does_register ?_
    exact (does_bareOp _).andThen fun _ => does_result (by simp [views, family])
  | branch =>
    rw [nothing (by simp [views, family])]
    exact does_branch result pickedUp family
  | branchZero =>
    rw [nothing (by simp [views, family])]
    exact does_branchZero result pickedUp family
  | unary => exact does_unary result pickedUp family
  | binary => exact (does_binary result pickedUp family).weaken fun _ => List.mem_cons_of_mem _
  | binaryLiteral =>
    exact (does_binaryLiteral result pickedUp family).weaken fun _ => List.mem_cons_of_mem _
  | _ => simp [Instr.canThrow, family, Family.canThrow] at throws

theorem return_stops (kinds : Kinds) :
    (Insn.op (Op.ireturn + kinds.variant)).fallsThrough = false := by
  unfold Kinds.variant
  repeat' split
  all_goals decide

theorem select_stops (result : String) (pickedUp : Bool)
    (ends : i.family.endsFlow = true ∨ i.ReadsNull s) :
    Does i.Admits s (select catalog result pickedUp i) [(·.fallsThrough = false)] := by
  have admits (op : UInt8) : i.Admits (.op op) := i.admits_of_tame _ (Insn.tame_op op)
  rcases ends with ends | ⟨family, r, found, null⟩
  · cases family : i.family with
    | «return» =>
      simp only [select, family]
      split
      · exact does_add (admits _) rfl
      · exact does_use _ _ _ _ (return_stops _)
    | throw =>
      rw [select, family]
      exact does_use _ _ _ _ rfl
    | goto =>
      rw [select, family]
      refine does_operand fun t found => does_add (admits_jump (by rw [family]; rfl) ?_) rfl
      exact .jump (by rw [family]; rfl) found
    | _ => simp [family, Family.endsFlow] at ends
  · rw [select, family]
    refine does_operand fun array found' => ?_
    cases found.symm.trans found'
    refine does_frame ?_
    simp only [null, if_true]
    exact (does_null i.admits_of_tame).andThen fun _ => does_add (admits _) rfl

end Straight

end Restack.Register
