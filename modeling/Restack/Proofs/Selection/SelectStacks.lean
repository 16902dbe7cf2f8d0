import Restack.Proofs.Selection.StackEffect

set_option autoImplicit false

namespace Restack.Register

open Emit

variable {op : UInt8} {kinds : Kinds}

def slotOperands (slot : Option String) : Operands :=
  let kinds := (slot.map Kinds.ofDescriptor).getD .none
  if kinds = .none then [] else [kinds.width]

def argumentsOf (slots : List (Option String)) : Operands := slots.flatMap slotOperands

theorem argumentsOf_cons (slot : Option String) (slots : List (Option String)) :
    argumentsOf (slot :: slots) = slotOperands slot ++ argumentsOf slots := List.flatMap_cons

theorem argumentsOf_append (a b : List (Option String)) :
    argumentsOf (a ++ b) = argumentsOf a ++ argumentsOf b :=
  List.flatMap_append

def paramSlots (params : List String) : List (Option String) :=
  params.flatMap fun p => if p = "J" ∨ p = "D" then [some p, none] else [some p]

theorem paramSlots_cons (d : String) (params : List String) :
    paramSlots (d :: params) = (if d = "J" ∨ d = "D" then [some d, none] else [some d]) ++
      paramSlots params :=
  List.flatMap_cons

/-- What an instruction leaves to be picked up. -/
def Instr.leaves (catalog : Catalog) (i : Instr) : Operands :=
  if i.family = .filledNewArray then [1]
  else if i.family.isInvoke then
    match i.index 0 >>= catalog.method with
    | .ok called => if called.result = "V" then [] else [(Kinds.ofDescriptor called.result).width]
    | .error _ => []
  else []

theorem Instr.leaves_eq_nil {catalog : Catalog} {i : Instr} (no_array : i.family ≠ .filledNewArray)
    (no_call : i.family.isInvoke = false) : i.leaves catalog = [] := by
  rw [leaves, if_neg no_array, no_call]
  rfl

/-- What an instruction finds on the stack. -/
def Instr.finds (i : Instr) : Operands :=
  if i.family = .moveResult then i.resultType.toList.map fun d => (Kinds.ofDescriptor d).width
    else []

section Rules

variable {α : Type} {K : Pool → Prop} {frame : Frame} {s t : Operands} {e : Effect}

theorem takes_fixed
    (fits : Op.Does op e ∧ e.puts.slots ≤ Insn.headroom ∧ (e.takes ++ s).slots ≤ 255) :
    Takes K frame (Emit.op op) (e.takes ++ s) (e.puts ++ s) :=
  takes_op fits.1 fits.2.1 fits.2.2

theorem takes_forM_same {xs : List α} {f : α → Emit PUnit}
    (each : ∀ x ∈ xs, Takes K frame (f x) s s) :
    Takes K frame (xs.forM f) s s := by
  induction xs with
  | nil => exact takes_pure _ _
  | cons x xs ih =>
    exact (each x List.mem_cons_self).bind fun _ => ih fun y member =>
      each y (List.mem_cons_of_mem _ member)

theorem width_le (kinds : Kinds) : kinds.width ≤ 2 := by
  unfold Kinds.width
  split <;> decide

theorem slots_width_le (kinds : Kinds) {bound : Nat} (le : 2 ≤ bound) :
    Operands.slots [kinds.width] ≤ bound :=
  Nat.le_trans (width_le kinds) le

end Rules

section Straight

variable {K : Pool → Prop} {catalog : Catalog} {i : Instr} {frame : Frame} {s t : Operands}

theorem takes_last (r : Nat) (single : kinds.Single) :
    Takes K frame (Emit.store r kinds) [kinds.width] [] :=
  takes_store r single (slots_width_le kinds (by decide))

theorem takes_result (single : kinds.Single) :
    Takes K frame (operand (i.reg 0) >>= fun r => Emit.store r kinds) [kinds.width] [] :=
  takes_operand fun r _ => takes_last r single

theorem takes_first (r : Nat) (single : kinds.Single) (expected : Option String) :
    Takes K frame (Emit.load r kinds expected) [] [kinds.width] :=
  takes_load r single expected (slots_width_le kinds (by decide))

theorem takes_register {n : Nat} {expected : Option String} {rest : Emit Unit}
    (single : kinds.Single) (after : Takes K frame rest [kinds.width] t) :
    Takes K frame
      (operand (i.reg n) >>= fun r => Emit.load r kinds expected >>= fun _ => rest) [] t :=
  takes_operand fun r _ => (takes_first r single expected).bind fun _ => after

theorem takes_second (r : Nat) (single : kinds.Single) (expected : Option String) {w : Nat}
    (le : w ≤ 2) :
    Takes K frame (Emit.load r kinds expected) [w] [kinds.width, w] := by
  refine takes_load r single expected ?_
  have := width_le kinds
  rw [Operands.slots_cons, Operands.slots_nil]
  omega

theorem takes_copyAs {candidates : List Kinds} (singles : ∀ k ∈ candidates, k.Single) :
    Takes K frame (copyAs i candidates) [] [] := by
  refine takes_operand fun source _ => takes_forM_same fun kinds member => takes_frame ?_
  split
  · exact (takes_first source (singles kinds member) none).bind fun _ =>
      takes_result (singles kinds member)
  · exact takes_pure _ _

theorem elementVariant?_cases {d : String} (type : IsType d) :
    elementVariant? d = none ∧ (Kinds.ofDescriptor d).width = 1 ∨ ∃ v, elementVariant? d = some v ∧
      (v, (Kinds.ofDescriptor d).width) ∈
        [((0 : UInt8), 1), (1, 2), (2, 1), (3, 2), (5, 1), (6, 1), (7, 1)] := by
  unfold elementVariant?
  split
  iterate 8 exact .inr ⟨_, rfl, by decide⟩
  next no_int no_long no_float no_double _ _ _ _ =>
    obtain ⟨t, done⟩ := type
    refine .inl ⟨rfl, ?_⟩
    unfold Kinds.width
    rw [if_neg]
    intro wide
    rcases (TypeDesc.isWide_ofDescriptor_iff done).1 wide with rfl | rfl
    · exact no_long rfl
    · exact no_double rfl

variable {array element : ArrayView} {kinds : Kinds}

theorem accesses_element (real : array.Real) (found : array.element = .ok (kinds, element)) :
    kinds.Single ∧ Op.Does ((element.descriptor?.bind arrayLoad?).getD Op.aaload)
      ⟨[1, 1], [kinds.width]⟩ ∧
      Op.Does ((element.descriptor?.bind arrayStore?).getD Op.aastore)
        ⟨[kinds.width, 1, 1], []⟩ := by
  obtain ⟨element_real, ⟨rfl, rfl⟩ | ⟨d, rfl, rfl⟩⟩ := real.element found
  · exact ⟨by decide, by decide, by decide⟩
  · refine ⟨Kinds.single_ofDescriptor d, ?_⟩
    change Op.Does ((arrayLoad? d).getD Op.aaload) _ ∧ Op.Does ((arrayStore? d).getD Op.aastore) _
    unfold arrayLoad? arrayStore?
    rcases elementVariant?_cases (element_real d rfl) with ⟨none, width⟩ | ⟨v, some, listed⟩
    · rw [none, width]
      decide
    · have table : ∀ x ∈ [((0 : UInt8), 1), (1, 2), (2, 1), (3, 2), (5, 1), (6, 1), (7, 1)],
          Op.Does (Op.iaload + x.1) ⟨[1, 1], [x.2]⟩ ∧
          Op.Does (Op.iastore + x.1) ⟨[x.2, 1, 1], []⟩ := by decide
      have both := table _ listed
      rw [some, Option.map_some, Option.map_some, Option.getD_some, Option.getD_some]
      exact both

theorem takes_withArray {reg : Nat} {access : Kinds → ArrayView → Emit Unit} (t : Operands)
    (accesses : ∀ kinds element, (frame.arrayOf reg).element = .ok (kinds, element) →
      Takes K frame (access kinds element) [] t) : Takes K frame (withArray reg access) [] t := by
  refine takes_frame ?_
  dsimp only
  split
  · exact (takes_null (by decide)).bind fun _ =>
      takes_end (e := ⟨[1], []⟩) (by decide) (by decide) (by decide) (by decide) t
  · exact takes_operand fun ⟨kinds, element⟩ found => accesses kinds element found

theorem takes_filledNewArray (formed : catalog.WellFormed) (pickedUp : Bool) :
    Takes K frame (selectFilledNewArray catalog i pickedUp) [] (if pickedUp then [1] else []) := by
  refine takes_operand fun descriptor found => ?_
  obtain ⟨index, _, at_index⟩ := Except.bind_eq_ok.1 found
  refine (takes_number _ .ofInt (by decide)).bind fun _ => ?_
  refine (takes_newArray descriptor (by decide)).bind fun _ => ?_
  refine takes_operand fun ⟨kinds, element⟩ at_element => ?_
  obtain ⟨single, _, stores⟩ :=
    accesses_element (ArrayView.real_ofDescriptor (formed.type at_index)) at_element
  refine takes_fillArray (s := []) (width_le kinds) stores (by decide)
    (fun n s room => ?_) _ pickedUp
  refine takes_load _ single none ?_
  have := width_le kinds
  omega

theorem takes_fillArrayData (real : frame.Real) : Takes K frame (selectFillArrayData i) [] [] := by
  refine takes_operand fun reg _ => takes_operand fun data _ => takes_frame ?_
  refine (takes_loadArray reg (by decide)).bind fun _ => ?_
  split
  · exact takes_end (e := ⟨[1], []⟩) (by decide) (by decide) (by decide) (by decide) []
  · split
    · refine (takes_fixed (s := []) (e := ⟨[1], [1]⟩) (by decide)).bind fun _ => ?_
      exact takes_fixed (s := []) (e := ⟨[1], []⟩) (by decide)
    · refine takes_operand fun ⟨kinds, view⟩ at_element => ?_
      obtain ⟨_, _, stores⟩ := accesses_element (real reg) at_element
      dsimp only
      split
      · exact takes_throw _ _ _
      next op at_op =>
        -- The store that was found is the one for the element.
        have same : (view.descriptor?.bind arrayStore?).getD Op.aastore = op := by
          cases view with
          | array d =>
            change (arrayStore? d).getD Op.aastore = op
            rw [show arrayStore? d = some op from at_op]
            rfl
          | unknown | null => cases at_op
        rw [same] at stores
        have filled (count : Nat) (value : Nat → Int64) : Takes K frame
            (Emit.fillArray op count false fun n => Emit.number (value n) kinds) [1] [] := by
          refine takes_fillArray (s := []) (width_le kinds) stores (by decide)
            (fun n s room => ?_) count false
          exact takes_number _ kinds (by omega)
        split
        · exact filled _ _
        · exact filled _ _

end Straight

section Members

variable {K : Pool → Prop} {catalog : Catalog} {i : Instr} {frame : Frame} {s t : Operands}
  {p : Pool} {index : UInt16}
variable {f : FieldRef} {m : MethodRef}

theorem fieldType?_of_hasMember {type : TypeDesc}
    (known : p.HasMember .field index f.owner f.name f.descriptor)
    (done : TypeDesc.parse f.descriptor = .ok type) : p.fieldType? index = some type := by
  obtain ⟨o, nt, at_index, _, of_member⟩ := known
  simp [Pool.fieldType?, at_index, of_member.descriptor?_eq, done, Except.toOption]

theorem methodType?_of_hasMember {make : UInt16 → UInt16 → Entry} {type : MethodDesc}
    (method : make = .method ∨ make = .interfaceMethod)
    (known : p.HasMember make index m.owner m.name m.descriptor)
    (done : MethodDesc.parse m.descriptor = .ok type) : p.methodType? index = some type := by
  obtain ⟨o, nt, at_index, _, of_member⟩ := known
  rcases method with rfl | rfl <;>
    simp [Pool.methodType?, at_index, of_member.descriptor?_eq, done, Except.toOption]

variable (frame) in
theorem takes_field (value : IsValue f.descriptor) (takes puts : Operands → Operands)
    (range : Op.getstatic ≤ op ∧ op ≤ Op.invokeinterface) (length : Op.operandBytes op = 2)
    (effect : ∀ (p : Pool) index, p.memberEffect? op index =
      (p.fieldType? index).map fun type => ⟨takes type.operands, puts type.operands⟩)
    (small : (puts [(Kinds.ofDescriptor f.descriptor).width]).slots ≤ Insn.headroom)
    (bound : (takes [(Kinds.ofDescriptor f.descriptor).width] ++ s).slots ≤ 255) :
    Takes K frame (Emit.inPool (PoolM.fieldRef f) >>= Emit.indexed op)
      (takes [(Kinds.ofDescriptor f.descriptor).width] ++ s)
        (puts [(Kinds.ofDescriptor f.descriptor).width] ++ s) := by
  obtain ⟨type, done, not_void⟩ := value
  refine takes_inPool (Q := fun index p => p.HasMember .field index f.owner f.name f.descriptor)
    (PoolM.draws_fieldRef f) (fun p index later asked => PoolM.member_eq_ok .field asked)
    (fun index p later known grows => known.grow grows) fun index => takes_add fun p known => ?_
  rw [← TypeDesc.operands_of_parse done not_void] at small bound ⊢
  have acts :=
    (effect p index).trans (congrArg (Option.map _) (fieldType?_of_hasMember known.2 done))
  have moves := Insn.moves_member [] range acts length small bound
  rw [List.append_nil] at moves
  exact moves

section

variable (before : Operands) (value : IsValue f.descriptor)
  (range : Op.getstatic ≤ op ∧ op ≤ Op.invokeinterface)
variable (length : Op.operandBytes op = 2)
include before value range length

theorem takes_read
    (effect : ∀ (p : Pool) index, p.memberEffect? op index = (p.fieldType? index).map fun type =>
      ⟨before, type.operands⟩)
    (bound : before.slots ≤ 255) : Takes K frame (do
      Emit.indexed op (← Emit.inPool (PoolM.fieldRef f))
      Emit.store (← operand (i.reg 0)) (.ofDescriptor f.descriptor)) before [] := by
  rw [← List.append_nil before] at bound ⊢
  have read := takes_field (K := K) frame value (fun _ => before) id range length effect
    (slots_width_le _ (by decide)) bound
  exact read.andThen fun _ => takes_result (Kinds.single_ofDescriptor _)

theorem takes_write
    (effect : ∀ (p : Pool) index, p.memberEffect? op index = (p.fieldType? index).map fun type =>
      ⟨type.operands ++ before, []⟩)
    (bound : before.slots ≤ 253) :
    Takes K frame (do
      Emit.load (← operand (i.reg 0)) (.ofDescriptor f.descriptor) (some f.descriptor)
      Emit.indexed op (← Emit.inPool (PoolM.fieldRef f))) before [] := by
  have width := width_le (Kinds.ofDescriptor f.descriptor)
  have fits : Operands.slots ([(Kinds.ofDescriptor f.descriptor).width] ++ before ++ []) ≤ 255 := by
    simp only [List.append_nil, List.cons_append, List.nil_append, Operands.slots_cons]
    omega
  have written := takes_field (K := K) frame value (· ++ before) (fun _ => []) range length effect
    (Nat.zero_le _) fits
  rw [List.append_nil, List.append_nil] at written
  refine takes_operand fun r _ => ?_
  exact (takes_load r (Kinds.single_ofDescriptor _) _ (by omega)).bind fun _ => written

end

theorem takes_arguments (pairs : List (UInt16 × Option String))
    (bound : (argumentsOf (pairs.map (·.2))).slots + s.slots ≤ 255) :
    Takes K frame (pairs.forM fun (register, slot) => do
      let kinds := (slot.map Kinds.ofDescriptor).getD .none
      if kinds ≠ .none then Emit.load register.toNat kinds slot) s
        ((argumentsOf (pairs.map (·.2))).reverse ++ s) := by
  induction pairs generalizing s with
  | nil => exact takes_pure _ _
  | cons pair pairs ih =>
    rw [List.map_cons, argumentsOf_cons, Operands.slots_append] at bound
    have pushed : Takes K frame (do
        let kinds := (pair.2.map Kinds.ofDescriptor).getD .none
        if kinds ≠ .none then Emit.load pair.1.toNat kinds pair.2) s
          ((slotOperands pair.2).reverse ++ s) := by
      have single : ((pair.2.map Kinds.ofDescriptor).getD .none).Single := by
        cases pair.2 with
        | none => decide
        | some d => exact Kinds.single_ofDescriptor d
      unfold slotOperands at bound ⊢
      dsimp only at bound ⊢
      split
      next some_kind =>
        rw [if_neg some_kind] at bound
        simp only [Operands.slots_cons, Operands.slots_nil] at bound
        exact takes_load _ single _ (by omega)
      next no_kind =>
        rw [if_pos (not_not.1 no_kind)]
        exact takes_pure _ _
    rw [List.map_cons, argumentsOf_cons, List.reverse_append, List.append_assoc]
    refine pushed.bind fun _ => ih ?_
    rw [Operands.slots_append, Operands.slots_reverse]
    omega

theorem slotOperands_receiver (m : MethodRef) : slotOperands (some m.receiver) = [1] := by
  have ref : Kinds.ofDescriptor m.receiver = .ofRef := by
    unfold MethodRef.receiver
    split
    next array =>
      unfold Kinds.ofDescriptor
      cases chars : m.owner.toList with
      | nil => simp [chars] at array
      | cons c cs =>
        have first : c = '[' := by simpa [chars] using array
        subst first
        rfl
    next => simp [Kinds.ofDescriptor]
  simp only [slotOperands, Option.map_some, Option.getD_some, ref]
  rfl

theorem argumentsOf_params {params : List String} (values : ∀ d ∈ params, IsValue d) :
    ∃ types, List.Forall₂ (fun d t => TypeDesc.parse d = .ok t) params types ∧
      argumentsOf (paramSlots params) = types.flatMap TypeDesc.operands ∧
      (argumentsOf (paramSlots params)).slots = (paramSlots params).length := by
  induction params with
  | nil => exact ⟨[], .nil, rfl, rfl⟩
  | cons d params ih =>
    obtain ⟨t, done, not_void⟩ := values d List.mem_cons_self
    obtain ⟨types, parsed, same, length⟩ :=
      ih fun d' member => values d' (List.mem_cons_of_mem _ member)
    have value : slotOperands (some d) = [(Kinds.ofDescriptor d).width] := by
      unfold slotOperands
      exact if_neg (TypeDesc.ofDescriptor_ne_none done not_void)
    have own : argumentsOf (if d = "J" ∨ d = "D" then [some d, none] else [some d]) = t.operands ∧
        t.operands.slots = (if d = "J" ∨ d = "D" then [some d, none] else [some d]).length := by
      rw [TypeDesc.operands_of_parse done not_void, ← value]
      split
      next wide =>
        refine ⟨List.append_nil _, ?_⟩
        rw [value, Kinds.width, if_pos ((TypeDesc.isWide_ofDescriptor_iff done).2 wide)]
        rfl
      next narrow =>
        refine ⟨List.append_nil _, ?_⟩
        rw [value, Kinds.width, if_neg (mt (TypeDesc.isWide_ofDescriptor_iff done).1 narrow)]
        rfl
    refine ⟨t :: types, .cons done parsed, ?_, ?_⟩
    · rw [paramSlots_cons, argumentsOf_append, own.1, same, List.flatMap_cons]
    · rw [paramSlots_cons, argumentsOf_append, own.1, Operands.slots_append, own.2, length,
        List.length_append]

theorem arguments_slots (formed : m.WellFormed) (isStatic : Bool) :
    ∃ type, MethodDesc.parse m.descriptor = .ok type ∧ TypeDesc.parse m.result = .ok type.result ∧
      (argumentsOf (m.slots isStatic)).reverse = type.operands ++ (if isStatic then [] else [1]) ∧
      (argumentsOf (m.slots isStatic)).slots = (m.slots isStatic).length := by
  obtain ⟨types, parsed, same, length⟩ := argumentsOf_params formed.params
  obtain ⟨result, returns⟩ := formed.result
  refine ⟨⟨types, result⟩, m.parse_descriptor parsed returns, returns, ?_⟩
  have slots : m.slots isStatic = (if isStatic then [] else [some m.receiver]) ++
      paramSlots m.params := rfl
  rw [slots, argumentsOf_append, same, Operands.slots_append, ← same, length, List.length_append]
  cases isStatic with
  | true =>
    refine ⟨?_, rfl⟩
    rw [if_pos rfl, if_pos rfl, List.append_nil, same]
    rfl
  | false =>
    have receiver : argumentsOf [some m.receiver] = [1] := by
      rw [argumentsOf_cons, slotOperands_receiver]
      rfl
    simp only [Bool.false_eq_true, if_false, receiver, MethodDesc.operands,
      List.reverse_append, same]
    exact ⟨rfl, rfl⟩

def callOps : List (UInt8 × Bool) :=
  [(Op.invokestatic, true), (Op.invokevirtual, false), (Op.invokespecial, false),
    (Op.invokeinterface, false)]

theorem memberEffect?_call {isStatic : Bool} (calls : (op, isStatic) ∈ callOps) {type : MethodDesc}
    (known : p.methodType? index = some type) :
    p.memberEffect? op index =
      some ⟨type.operands ++ (if isStatic then [] else [1]), type.result.operands⟩ := by
  have effect : p.memberEffect? op index =
      (p.methodType? index).map fun m =>
        ⟨m.operands ++ (if isStatic then [] else [1]), m.result.operands⟩ := by
    simp only [callOps, List.mem_cons, List.not_mem_nil, or_false, Prod.mk.injEq] at calls
    rcases calls with ⟨rfl, rfl⟩ | ⟨rfl, rfl⟩ | ⟨rfl, rfl⟩ | ⟨rfl, rfl⟩
    · simp only [if_true, List.append_nil]
      rfl
    all_goals rfl
  rw [effect, known]
  rfl

variable (frame) in
theorem takes_call (formed : m.WellFormed) {isStatic : Bool} {make : UInt16 → UInt16 → Entry}
    {request : PoolM UInt16} (operands : Bytes) (draws : PoolM.Draws request)
    (asks : ∀ p index later, request.run p = (.ok index, later) →
      later.HasMember make index m.owner m.name m.descriptor)
    (method : make = .method ∨ make = .interfaceMethod) (calls : (op, isStatic) ∈ callOps)
    (length : Op.operandBytes op = 2 + operands.length)
    (bound : (argumentsOf (m.slots isStatic)).slots ≤ 255) :
    Takes K frame
      (Emit.inPool request >>= fun index =>
        Emit.add (.plain (Bytes.opWithIndex op index ++ operands)))
      (argumentsOf (m.slots isStatic)).reverse
      (if m.result = "V" then [] else [(Kinds.ofDescriptor m.result).width]) := by
  obtain ⟨type, done, returns, arguments, -⟩ := arguments_slots formed isStatic
  have result : type.result.operands = if m.result = "V" then []
      else [(Kinds.ofDescriptor m.result).width] := by
    split
    next void =>
      rw [(TypeDesc.eq_void_iff returns).2 void]
      rfl
    next value =>
      exact TypeDesc.operands_of_parse returns (mt (TypeDesc.eq_void_iff returns).1 value)
  have range : ∀ x ∈ callOps, Op.getstatic ≤ x.1 ∧ x.1 ≤ Op.invokeinterface := by decide +kernel
  refine takes_inPool
    (Q := fun index p => p.HasMember make index m.owner m.name m.descriptor) draws asks
    (fun index p later known grows => known.grow grows) fun index => takes_add fun p known => ?_
  have small : Operands.slots type.result.operands ≤ Insn.headroom := by
    rw [result]
    split
    · decide
    · exact Nat.le_trans (width_le _) (by decide)
  rw [← Operands.slots_reverse, arguments, ← List.append_nil (type.operands ++ _)] at bound
  have moves := Insn.moves_member operands (range _ calls)
    (memberEffect?_call calls (methodType?_of_hasMember method known.2 done)) length small bound
  rwa [List.append_nil, List.append_nil, ← arguments, result] at moves

theorem takes_drop (result : String) (pickedUp : Bool) :
    Takes K frame
      (if result ≠ "V" && !pickedUp then
        Emit.op (if (Kinds.ofDescriptor result).isWide then Op.pop2 else Op.pop) else pure ())
      (if result = "V" then [] else [(Kinds.ofDescriptor result).width])
      (if pickedUp then (if result = "V" then [] else [(Kinds.ofDescriptor result).width])
        else []) := by
  by_cases void : result = "V"
  · simp only [void, ne_eq, not_true_eq_false, decide_false, Bool.false_and, if_true, ite_self]
    exact takes_pure _ _
  · cases pickedUp with
    | true =>
      simp only [Bool.not_true, Bool.and_false]
      exact takes_pure _ _
    | false =>
      simp only [void, ne_eq, not_false_eq_true, decide_true, Bool.not_false, Bool.and_true,
        if_true, if_false, Bool.false_eq_true, Kinds.width]
      split
      · exact takes_fixed (s := []) (e := ⟨[2], []⟩) (by decide)
      · exact takes_fixed (s := []) (e := ⟨[1], []⟩) (by decide)

theorem takes_invoke (formed : catalog.WellFormed) (invokes : i.family.isInvoke = true)
    (few : i.registers.length ≤ 255) (pickedUp : Bool) :
    Takes K frame (selectInvoke catalog i pickedUp) []
      (if pickedUp then i.leaves catalog else []) := by
  refine takes_operand fun called found => ?_
  have leaves : i.leaves catalog = if called.result = "V" then []
      else [(Kinds.ofDescriptor called.result).width] := by
    unfold Instr.leaves
    rw [if_neg (fun filled => by rw [filled] at invokes; cases invokes), if_pos invokes, found]
  obtain ⟨index, _, at_index⟩ := Except.bind_eq_ok.1 found
  have well := formed.method at_index
  rw [leaves]
  dsimp only
  split
  · exact emits_throw_bind _ _
  next same_length =>
    rw [not_not] at same_length
    obtain ⟨-, -, -, -, slots⟩ := arguments_slots well (decide (i.family = .invokeStatic))
    have bound : (argumentsOf (called.slots (decide (i.family = .invokeStatic)))).slots ≤ 255 := by
      rw [slots, ← same_length]
      exact few
    have seconds := List.map_snd_zip (Nat.le_of_eq same_length.symm)
    rw [← seconds] at bound
    refine (takes_arguments (s := []) _ bound).bind fun _ => ?_
    rw [seconds] at bound ⊢
    rw [List.append_nil]
    have ofMethod {op : UInt8} (calls : (op, decide (i.family = .invokeStatic)) ∈ callOps)
        (length : Op.operandBytes op = 2) :=
      (takes_call (K := K) frame well [] (PoolM.draws_methodRef called)
        (fun p index later asked => PoolM.member_eq_ok .method asked)
          (.inl rfl) calls length bound).andThen
        fun _ => takes_drop called.result pickedUp
    split
    next interface =>
      refine (takes_call frame well [_, 0] (PoolM.draws_interfaceMethodRef called)
        (fun p index later asked => PoolM.member_eq_ok .interfaceMethod asked)
          (.inr rfl) ?_ rfl bound).andThen
        fun _ => takes_drop called.result pickedUp
      rw [interface]
      decide
    · refine ofMethod ?_ ?_
      all_goals split
      · next virtual => rw [virtual]; decide
      · next static => rw [static]; decide
      · next no_static => rw [decide_eq_false no_static]; decide
      all_goals decide

end Members

section Families

variable {K : Pool → Prop} {catalog : Catalog} {i : Instr} {frame : Frame} {result : String}
  {pickedUp : Bool}

theorem takes_return (family : i.family = .return) (t : Operands) :
    Takes K frame (select catalog result pickedUp i) [] t := by
  simp only [select, family]
  split
  · exact takes_end (e := ⟨[], []⟩) (by decide) (by decide) (by decide) (by decide) t
  · refine takes_register (Kinds.single_ofDescriptor result) ?_
    have table : ∀ k ∈ Kinds.none :: Kinds.singles,
        Op.endsMethod (Op.ireturn + k.variant) = true ∧
        Op.Does (Op.ireturn + k.variant) ⟨[k.width], []⟩ := by decide
    obtain ⟨ends, does⟩ := (Kinds.single_ofDescriptor result).cases table
    exact takes_end (e := ⟨[_], []⟩) ends does (Nat.zero_le _) (slots_width_le _ (by decide)) t

theorem takes_constants (family : i.family = .const32 ∨ i.family = .const64) :
    Takes K frame (select catalog result pickedUp i) [] [] := by
  have set (r : Nat) (value : Int64) {kinds : Kinds} (single : kinds.Single) {rest : Emit PUnit}
      (after : Takes K frame rest [] []) :
      Takes K frame (do Emit.number value kinds; Emit.store r kinds; rest) [] [] :=
    (takes_number value kinds (by decide)).bind fun _ => (takes_last r single).bind fun _ => after
  rcases family with family | family <;> simp only [select, family]
  · refine takes_operand fun r _ => takes_operand fun value _ => ?_
    refine set r _ (by decide) (set r _ (by decide) ?_)
    split
    · exact (takes_null (by decide)).bind fun _ => takes_last r .ofRef
    · exact takes_pure _ _
  · refine takes_operand fun r _ => set r _ (by decide) ?_
    exact (takes_number _ _ (by decide)).bind fun _ => takes_last r (by decide)

theorem takes_references
    (family : i.family = .constString ∨ i.family = .constClass ∨ i.family = .newInstance ∨
      i.family = .checkCast) :
    Takes K frame (select catalog result pickedUp i) [] [] := by
  have constant {K : Pool → Prop} (index : UInt16) :
      Takes K frame (do Emit.ldc index; Emit.store (← operand (i.reg 0)) .ofRef) [] [] :=
    (takes_ldc index (by decide)).bind fun _ => takes_result .ofRef
  rcases family with family | family | family | family <;> simp only [select, family]
  · exact takes_operand fun text _ => takes_inPool_of (PoolM.draws_stringRef text) fun index _ K =>
      constant index
  · exact takes_operand fun name _ => takes_inPool_of (PoolM.draws_classRef name) fun index _ K =>
      constant index
  · refine takes_operand fun name _ => ?_
    exact (takes_classOp (s := []) (a := []) (b := [1]) (fun _ => .of_run? fun _ => rfl) name
      (by decide)).bind
      fun _ => takes_result .ofRef
  · refine takes_operand fun r _ => takes_operand fun name _ => ?_
    refine (takes_first r .ofRef none).bind fun _ => ?_
    exact (takes_checkcast name (s := []) (by decide)).bind fun _ => takes_last r .ofRef

theorem takes_monitor (family : i.family = .monitorEnter ∨ i.family = .monitorExit) :
    Takes K frame (select catalog result pickedUp i) [] [] := by
  rcases family with family | family <;> simp only [select, family]
  all_goals exact takes_register .ofRef (takes_fixed (s := []) (e := ⟨[1], []⟩) (by decide))

theorem takes_throwing (family : i.family = .throw) (t : Operands) :
    Takes K frame (select catalog result pickedUp i) [] t := by
  simp only [select, family]
  exact takes_register .ofRef
    (takes_end (e := ⟨[1], []⟩) (by decide) (by decide) (by decide) (by decide) t)

theorem takes_reckoned
    (family : i.family = .instanceOf ∨ i.family = .arrayLength ∨ i.family = .newArray) :
    Takes K frame (select catalog result pickedUp i) [] [] := by
  rcases family with family | family | family <;> simp only [select, family]
  · refine takes_register .ofRef (takes_operand fun name _ => ?_)
    exact (takes_classOp (s := []) (a := [1]) (b := [1]) (fun _ => .of_run? fun _ => rfl) name
      (by decide)).bind
      fun _ => takes_result .ofInt
  · refine takes_operand fun r _ => (takes_loadArray r (by decide)).bind fun _ => ?_
    exact (takes_fixed (s := []) (e := ⟨[1], [1]⟩) (by decide)).bind fun _ => takes_result .ofInt
  · refine takes_register .ofInt (takes_operand fun d _ => ?_)
    exact (takes_newArray d (s := []) (by decide)).bind fun _ => takes_result .ofRef

theorem takes_jump (family : i.family = .goto ∨ i.family = .switch) (t : Operands) :
    Takes K frame (select catalog result pickedUp i) [] t := by
  rcases family with family | family <;> simp only [select, family]
  · exact takes_operand fun target _ => takes_goto target t
  · exact takes_register .ofInt (takes_operand fun cases _ => takes_switch _ cases (by decide) t)

theorem effects_compareJump {opcode : UInt8} {asInts : Bool} {position : UInt32}
    (family : Family.ofOpcode opcode = .branch)
    (found : compareJump (opcode - 0x32) asInts position = .ok (op, kinds)) :
    kinds.Single ∧ ⟨[kinds.width, kinds.width], []⟩ ∈ Op.effects op ∧
    ¬ (Op.getstatic ≤ op ∧ op ≤ Op.invokeinterface) := by
  have table := Op.forall_byte (P := fun opcode => Family.ofOpcode opcode = .branch →
    ⟨[1, 1], []⟩ ∈ Op.effects (Op.ifIcmpeq + (opcode - 0x32)) ∧
      ¬ (Op.getstatic ≤ Op.ifIcmpeq + (opcode - 0x32) ∧
        Op.ifIcmpeq + (opcode - 0x32) ≤ Op.invokeinterface))
    (by decide +kernel) opcode family
  unfold compareJump at found
  split_ifs at found <;> cases found
  · exact ⟨by decide, table⟩
  all_goals decide

theorem effects_zeroJump {opcode : UInt8} {asInt : Bool} {position : UInt32}
    (family : Family.ofOpcode opcode = .branchZero)
    (found : zeroJump (opcode - 0x38) asInt position = .ok (op, kinds)) :
    kinds.Single ∧ ⟨[kinds.width], []⟩ ∈ Op.effects op ∧
    ¬ (Op.getstatic ≤ op ∧ op ≤ Op.invokeinterface) := by
  have table := Op.forall_byte (P := fun opcode => Family.ofOpcode opcode = .branchZero →
    ⟨[1], []⟩ ∈ Op.effects (Op.ifeq + (opcode - 0x38)) ∧
      ¬ (Op.getstatic ≤ Op.ifeq + (opcode - 0x38) ∧ Op.ifeq + (opcode - 0x38) ≤ Op.invokeinterface))
    (by decide +kernel) opcode family
  unfold zeroJump at found
  split_ifs at found <;> cases found
  · exact ⟨by decide, table⟩
  all_goals decide

theorem takes_branches (named : i.family = .ofOpcode i.opcode)
    (family : i.family = .branch ∨ i.family = .branchZero) :
    Takes K frame (select catalog result pickedUp i) [] [] := by
  have fits (kinds : Kinds) : kinds.width + (kinds.width + 0) ≤ 255 := by
    have := width_le kinds
    omega
  rcases family with family | family <;> simp only [select, family]
  · refine takes_operand fun a _ => takes_operand fun b _ => takes_frame ?_
    refine takes_operand fun compared found => ?_
    obtain ⟨op, kinds⟩ := compared
    obtain ⟨single, listed, no_member⟩ := effects_compareJump (named ▸ family) found
    refine (takes_first a single none).bind fun _ =>
      (takes_second b single none (width_le kinds)).bind fun _ => ?_
    exact takes_operand fun target _ => takes_branch listed rfl no_member (fits kinds) target
  · refine takes_operand fun a _ => takes_frame <| takes_operand fun compared found => ?_
    obtain ⟨op, kinds⟩ := compared
    obtain ⟨single, listed, no_member⟩ := effects_zeroJump (named ▸ family) found
    refine (takes_first a single none).bind fun _ => takes_operand fun target _ => ?_
    exact takes_branch listed rfl no_member (Nat.le_trans (Nat.le_add_left _ _) (fits kinds)) target

theorem takes_arrays (real : frame.Real) (family : i.family = .arrayGet ∨ i.family = .arrayPut) :
    Takes K frame (select catalog result pickedUp i) [] [] := by
  rcases family with family | family <;> simp only [select, family]
  all_goals
    refine takes_operand fun array _ => takes_withArray [] fun kinds element found => ?_
    obtain ⟨single, loads, stores⟩ := accesses_element (real array) found
    refine (takes_loadArray array (by decide)).bind fun _ => ?_
    refine takes_operand fun r _ => (takes_second r .ofInt none (by decide)).bind fun _ => ?_
  · refine (takes_op (s := []) (e := ⟨[1, 1], [kinds.width]⟩) loads
      (slots_width_le _ (by decide)) ?_).bind
      fun _ => takes_result single
    exact show Operands.slots [1, 1] ≤ 255 by decide
  · have width := width_le kinds
    refine takes_operand fun v _ => (takes_load v single _ ?_).bind fun _ => ?_
    · change kinds.width + 2 ≤ 255
      omega
    · refine takes_op (s := []) (e := ⟨[kinds.width, 1, 1], []⟩) stores (Nat.zero_le _) ?_
      change kinds.width + 2 ≤ 255
      omega

theorem takes_fields (formed : catalog.WellFormed)
    (family : i.family = .instanceGet ∨ i.family = .instancePut ∨ i.family = .staticGet ∨
      i.family = .staticPut) :
    Takes K frame (select catalog result pickedUp i) [] [] := by
  have valued {n : Nat} {f : FieldRef} (found : i.index n >>= catalog.field = .ok f) :
      IsValue f.descriptor := by
    obtain ⟨index, _, at_index⟩ := Except.bind_eq_ok.1 found
    exact formed.field at_index
  rcases family with family | family | family | family <;> simp only [select, family] <;>
    refine takes_operand fun f found => ?_
  · refine takes_register .ofRef ?_
    exact takes_read [1] (valued found) (by decide) (by decide) (fun _ _ => rfl) (by decide)
  · refine takes_register .ofRef ?_
    exact takes_write [1] (valued found) (by decide) (by decide) (fun _ _ => rfl) (by decide)
  · exact takes_read [] (valued found) (by decide) (by decide) (fun _ _ => rfl) (by decide)
  · refine takes_write [] (valued found) (by decide) (by decide) (fun p index => ?_) (by decide)
    simp only [List.append_nil]
    rfl

theorem takes_combine {a b c : Kinds} (single : c.Single)
    (does : Op.Does op ⟨[b.width, a.width], [c.width]⟩) :
    Takes K frame (do Emit.op op; Emit.store (← operand (i.reg 0)) c) [b.width, a.width] [] := by
  have := width_le a
  have := width_le b
  refine (takes_op (s := []) does (slots_width_le _ (by decide)) ?_).bind fun _ =>
    takes_result single
  change b.width + (a.width + 0) ≤ 255
  omega

theorem takes_arithmetic (family : i.family = .compare ∨ i.family = .binary) :
    Takes K frame (select catalog result pickedUp i) [] [] := by
  rcases family with family | family
  · have compares := Op.forall_byte (P := fun opcode => (compareOp opcode).2.Single ∧
      Op.Does (compareOp opcode).1
        ⟨[(compareOp opcode).2.width, (compareOp opcode).2.width], [Kinds.ofInt.width]⟩)
      (by decide +kernel) i.opcode
    simp only [select, family]
    generalize compareOp i.opcode = compared at compares ⊢
    obtain ⟨single, does⟩ := compares
    refine takes_register single (takes_operand fun b _ => ?_)
    exact (takes_second b single none (width_le _)).bind fun _ => takes_combine (by decide) does
  · have table : ∀ b ∈ binaryOps, (b.left.Single ∧ b.right.Single) ∧
      Op.Does b.op ⟨[b.right.width, b.left.width], [b.left.width]⟩ := by decide +kernel
    simp only [select, family]
    split
    · exact takes_throw _ _ _
    next op found =>
      have member : op ∈ binaryOps := by
        unfold BinaryOp.ofOpcode? at found
        split at found
        · cases found
        · exact List.mem_of_getElem? found
      obtain ⟨singles, does⟩ := table op member
      refine takes_operand fun ⟨a, b⟩ _ => (takes_first a singles.1 none).bind fun _ => ?_
      exact (takes_second b singles.2 none (width_le _)).bind fun _ => takes_combine singles.1 does

theorem takes_literals (family : i.family = .binaryLiteral) :
    Takes K frame (select catalog result pickedUp i) [] [] := by
  have table : ∀ op ∈ literalOps ++ [Op.ishl, Op.ishr, Op.iushr], Op.Does op ⟨[1, 1], [1]⟩ := by
    decide +kernel
  simp only [select, family]
  split
  · exact takes_throw _ _ _
  next op found =>
    have member : op ∈ literalOps ++ [Op.ishl, Op.ishr, Op.iushr] := by
      unfold literalOp? at found
      split at found
      · cases found
      · split at found
        · exact List.mem_append_left _ (List.mem_of_getElem? found)
        · exact List.mem_append_right _ (List.mem_of_getElem? found)
    have after : Takes K frame (do Emit.op op; Emit.store (← operand (i.reg 0)) .ofInt) [1, 1] [] :=
      (takes_op (s := []) (table op member) (by decide) (by decide)).bind fun _ =>
        takes_result .ofInt
    refine takes_operand fun r _ => takes_operand fun value _ => ?_
    split
    · refine (takes_number _ .ofInt (by decide)).bind fun _ => ?_
      exact (takes_second r .ofInt none (by decide)).bind fun _ => after
    · refine (takes_first r .ofInt none).bind fun _ => ?_
      exact (takes_number _ .ofInt (by decide)).bind fun _ => after

theorem takes_unary (family : i.family = .unary) :
    Takes K frame (select catalog result pickedUp i) [] [] := by
  have table : ∀ u ∈ unaryOps, (u.source.Single ∧ u.result.Single) ∧
      (if u.op = Op.ixor then u.source.width = 1 ∧ u.result.width = 1
        else if u.op = Op.lxor then u.source.width = 2 ∧ u.result.width = 2
        else Op.Does u.op ⟨[u.source.width], [u.result.width]⟩) := by decide +kernel
  simp only [select, family]
  split
  · exact takes_throw _ _ _
  next op found =>
    have member : op ∈ unaryOps := by
      unfold UnaryOp.ofOpcode? at found
      split at found
      · cases found
      · exact List.mem_of_getElem? found
    obtain ⟨⟨source, target⟩, does⟩ := table op member
    refine takes_register source ?_
    split
    next int =>
      rw [if_pos int] at does
      have stored : Takes K frame (operand (i.reg 0) >>= fun r => Emit.store r op.result) [1] [] :=
        does.2 ▸ takes_result target
      rw [does.1, int]
      refine (takes_fixed (s := [1]) (e := ⟨[], [1]⟩) (by decide)).bind fun _ => ?_
      exact (takes_fixed (s := []) (e := ⟨[1, 1], [1]⟩) (by decide)).bind fun _ => stored
    next not_int =>
      rw [if_neg not_int] at does
      split
      next long =>
        rw [if_pos long] at does
        have stored :
            Takes K frame (operand (i.reg 0) >>= fun r => Emit.store r op.result) [2] [] :=
          does.2 ▸ takes_result target
        rw [does.1, long]
        refine (takes_fixed (s := [2]) (e := ⟨[], [1]⟩) (by decide)).bind fun _ => ?_
        refine (takes_fixed (s := [2]) (e := ⟨[1], [2]⟩) (by decide)).bind fun _ => ?_
        exact (takes_fixed (s := []) (e := ⟨[2, 2], [2]⟩) (by decide)).bind fun _ => stored
      next not_long =>
        rw [if_neg not_long] at does
        have fits : Operands.slots [op.result.width] ≤ Insn.headroom := slots_width_le _ (by decide)
        exact (takes_op (s := []) does fits (slots_width_le _ (by decide))).bind fun _ =>
          takes_result target

/-- The instructions selected for `i` find on the stack what `i` picks up and leave what the next
one picks up. Behind an instruction that never goes on, anything may be said of the stack. -/
theorem takes_select (formed : catalog.WellFormed) (named : i.family = .ofOpcode i.opcode)
    (few : i.family.isInvoke = true → i.registers.length ≤ 255) (real : frame.Real) {t : Operands}
    (lands : i.family.endsFlow = false → t = if pickedUp then i.leaves catalog else []) :
    Takes K frame (select catalog result pickedUp i) i.finds t := by
  have finds_nothing (no_result : i.family ≠ .moveResult) : i.finds = [] := by
    rw [Instr.finds, if_neg no_result]
  have quiet (no_result : i.family ≠ .moveResult) (no_array : i.family ≠ .filledNewArray)
      (no_call : i.family.isInvoke = false) (goes_on : i.family.endsFlow = false)
      (takes : Takes K frame (select catalog result pickedUp i) [] []) :
      Takes K frame (select catalog result pickedUp i) i.finds t := by
    rwa [finds_nothing no_result, lands goes_on, Instr.leaves_eq_nil no_array no_call, ite_self]
  cases family : i.family
  case moveResult =>
    rw [lands (by rw [family]; rfl), Instr.finds, if_pos family,
      Instr.leaves_eq_nil (by simp [family]) (by rw [family]; rfl), ite_self]
    simp only [select, family]
    split
    next d hinted =>
      rw [hinted]
      exact takes_result (Kinds.single_ofDescriptor d)
    · exact takes_throw _ _ _
  case filledNewArray =>
    rw [lands (by rw [family]; rfl), finds_nothing (by simp [family]), Instr.leaves, if_pos family]
    simp only [select, family]
    exact takes_filledNewArray formed pickedUp
  case invokeVirtual | invokeSuper | invokeDirect | invokeStatic | invokeInterface =>
    have invokes : i.family.isInvoke = true := by
      rw [family]
      rfl
    rw [lands (by rw [family]; rfl), finds_nothing (by simp [family])]
    simp only [select, family]
    exact takes_invoke formed invokes (few invokes) pickedUp
  case «return» =>
    rw [finds_nothing (by simp [family])]
    exact takes_return family t
  case throw =>
    rw [finds_nothing (by simp [family])]
    exact takes_throwing family t
  case goto =>
    rw [finds_nothing (by simp [family])]
    exact takes_jump (.inl family) t
  all_goals
    refine quiet (by simp [family]) (by simp [family]) (by rw [family]; rfl)
      (by rw [family]; rfl) ?_
  case nop =>
    simp only [select, family]
    exact takes_pure _ _
  case move | moveWide =>
    simp only [select, family]
    exact takes_copyAs (by decide)
  case const32 => exact takes_constants (.inl family)
  case const64 => exact takes_constants (.inr family)
  case constString => exact takes_references (.inl family)
  case constClass => exact takes_references (.inr (.inl family))
  case newInstance => exact takes_references (.inr (.inr (.inl family)))
  case checkCast => exact takes_references (.inr (.inr (.inr family)))
  case monitorEnter => exact takes_monitor (.inl family)
  case monitorExit => exact takes_monitor (.inr family)
  case instanceOf => exact takes_reckoned (.inl family)
  case arrayLength => exact takes_reckoned (.inr (.inl family))
  case newArray => exact takes_reckoned (.inr (.inr family))
  case fillArrayData =>
    simp only [select, family]
    exact takes_fillArrayData real
  case switch => exact takes_jump (.inr family) []
  case compare => exact takes_arithmetic (.inl family)
  case binary => exact takes_arithmetic (.inr family)
  case branch => exact takes_branches named (.inl family)
  case branchZero => exact takes_branches named (.inr family)
  case arrayGet => exact takes_arrays real (.inl family)
  case arrayPut => exact takes_arrays real (.inr family)
  case instanceGet => exact takes_fields formed (.inl family)
  case instancePut => exact takes_fields formed (.inr (.inl family))
  case staticGet => exact takes_fields formed (.inr (.inr (.inl family)))
  case staticPut => exact takes_fields formed (.inr (.inr (.inr family)))
  case unary => exact takes_unary family
  case binaryLiteral => exact takes_literals family

end Families

end Restack.Register
