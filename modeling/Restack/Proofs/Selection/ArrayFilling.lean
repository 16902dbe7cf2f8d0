import Restack.Proofs.Register.ArrayTables
import Restack.Proofs.Stack.CopyStacks

set_option autoImplicit false

namespace Restack

inductive Operand where
  | number (n : Number)
  | reference (address : Nat)
deriving DecidableEq

def Operand.isWide : Operand → Bool
  | .number n => n.isWide
  | .reference _ => false

structure ElementStore where
  array : Nat
  index : Int32
  value : Operand

/-- The operand stack, the top first, and what was stored in arrays so far. -/
structure Filling where
  stack : List Operand
  stores : List ElementStore

def Op.storesElement (op : UInt8) : Bool := Op.iastore ≤ op && op ≤ Op.iastore + 7

/-- What code finds beside the stack. Instructions that have nothing to do with arrays, copies or
numbers are left open. -/
structure Surroundings where
  rounding : Rounding
  locals : Local → Operand
  length : Nat → Int32
  other : Insn → List Operand → Option (List Operand)

namespace Surroundings

/-- The stack after an instruction that is a single opcode. -/
def operate (E : Surroundings) (op : UInt8) (stack : List Operand) : Option (List Operand) :=
  if op = Op.dup then stack.head?.bind fun v => if v.isWide then none else some (v :: stack)
  else if op = Op.dup2 then if (stack.take 2).any Operand.isWide || stack.length < 2 then none
    else some (stack.take 2 ++ stack)
  else if op = Op.pop then stack.head?.bind fun v => if v.isWide then none else some stack.tail
  else if op = Op.arraylength then
    match stack with
    | .reference a :: stack => some (.number (.int (E.length a)) :: stack)
    | _ => none
  else E.other (.op op) stack

def step (E : Surroundings) (p : Pool) (s : Filling) : Insn → Option Filling
  | .literal l =>
    (E.rounding.run? p 0 l.code []).map fun pushed =>
      { s with stack := pushed.map .number ++ s.stack }
  | .access a => if a.isStore then none else some { s with stack := E.locals a.var :: s.stack }
  | .plain code =>
    if code.head? = some Op.checkcast then some s
    else if code.length = 1 ∧ Op.storesElement (code.headD 0) then
      match s.stack with
      | v :: .number (.int i) :: .reference a :: stack => some ⟨stack, s.stores ++ [⟨a, i, v⟩]⟩
      | _ => none
    else if code.length = 1 then (E.operate (code.headD 0) s.stack).map fun stack =>
      { s with stack }
    else (E.other (.plain code) s.stack).map fun stack => { s with stack }
  | x => (E.other x s.stack).map fun stack => { s with stack }

/-- Instructions go from `s` to `t`, and the stack is never other than `holds` says. -/
inductive Passes (E : Surroundings) (p : Pool) (holds : List Operand → Prop) :
    List Insn → Filling → Filling → Prop where
  | nil {s : Filling} : holds s.stack → Passes E p holds [] s s
  | cons {x : Insn} {xs : List Insn} {s t u : Filling} : holds s.stack → E.step p s x = some t →
      Passes E p holds xs t u → Passes E p holds (x :: xs) s u

variable {E : Surroundings} {p : Pool} {holds : List Operand → Prop} {s t u : Filling}
  {xs ys : List Insn} {x : Insn}

namespace Passes

theorem append (first : E.Passes p holds xs s t) (second : E.Passes p holds ys t u) :
    E.Passes p holds (xs ++ ys) s u := by
  induction first with
  | nil => exact second
  | cons here stepped _ ih => exact .cons here stepped (ih second)

theorem mono {wider : List Operand → Prop} (passes : E.Passes p holds xs s t)
    (more : ∀ stack, holds stack → wider stack) :
    E.Passes p wider xs s t := by
  induction passes with
  | nil here => exact .nil (more _ here)
  | cons here stepped _ ih => exact .cons (more _ here) stepped ih

theorem single (here : holds s.stack) (stepped : E.step p s x = some t) (there : holds t.stack) :
    E.Passes p holds [x] s t :=
  .cons here stepped (.nil there)

end Passes

/-- The instructions push one value, and touch neither what is below it nor an array. -/
def Pushes (E : Surroundings) (p : Pool) (xs : List Insn) (v : Operand) : Prop :=
  ∀ s : Filling, E.Passes p
    (fun stack => ∃ inner, stack = inner ++ s.stack) xs s { s with stack := v :: s.stack }

end Surroundings

def references (a n : Nat) (base : List Operand) : List Operand :=
  List.replicate n (.reference a) ++ base

/-- At most four copies of a reference stand on top of `base`. If there is anything above them, it
starts with an index. -/
def Holding (a : Nat) (base stack : List Operand) : Prop :=
  ∃ n ≤ 4, stack = references a n base ∨
    ∃ inner i, stack = inner ++ .number (.int i) :: references a n base

theorem holding_references {a n : Nat} (few : n ≤ 4) (base : List Operand) :
    Holding a base (references a n base) :=
  ⟨n, few, .inl rfl⟩

namespace Surroundings

variable {E : Surroundings} {p : Pool} {a n m : Nat} {base : List Operand} {log : List ElementStore}

theorem step_operate {op : UInt8} {stack stack' : List Operand}
    (done : E.operate op stack = some stack') (no_store : Op.storesElement op = false)
    (no_cast : op ≠ Op.checkcast) :
    E.step p ⟨stack, log⟩ (.op op) = some ⟨stack', log⟩ := by
  simp [step, Insn.op, no_store, no_cast, done]

theorem passes_recopies {ops : List Insn} (recopies : CopyPlan.Recopies ops n m) (few : m ≤ 4) :
    E.Passes p (Holding a base) ops ⟨references a n base, log⟩ ⟨references a m base, log⟩ := by
  induction recopies with
  | nil n => exact .nil (holding_references few base)
  | @dup n m rest recopies ih =>
    have within := recopies.le
    refine .cons (holding_references (by omega) base) (step_operate ?_ (by decide) (by decide))
      (ih few)
    rfl
  | @dup2 n m rest recopies ih =>
    have within := recopies.le
    refine .cons (holding_references (by omega) base) (step_operate ?_ (by decide) (by decide))
      (ih few)
    simp [operate, references, List.replicate_succ, Operand.isWide, show Op.dup2 ≠ Op.dup by decide]

theorem passes_pops (few : n + m ≤ 4) : E.Passes p (Holding a base) (List.replicate n (.op Op.pop))
    ⟨references a (n + m) base, log⟩ ⟨references a m base, log⟩ := by
  induction n with
  | zero =>
    rw [Nat.zero_add]
    exact .nil (holding_references (by omega) base)
  | succ n ih =>
    refine .cons (holding_references few base) (step_operate ?_ (by decide) (by decide))
      (ih (by omega))
    rw [Nat.add_right_comm]
    rfl

theorem step_literal {l : Literal} {v : Number} (yields : Yields E.rounding p l.code [] [v])
    (s : Filling) :
    E.step p s (.literal l) = some { s with stack := .number v :: s.stack } := by
  have pushed : E.rounding.run? p 0 l.code [] = some [v] := yields []
  simp [step, pushed]

theorem step_store {op : UInt8} (stores : Op.storesElement op = true) (v : Operand) (i : Int32)
    (stack : List Operand) :
    E.step p ⟨v :: .number (.int i) :: .reference a :: stack, log⟩ (.op op) =
      some ⟨stack, log ++ [⟨a, i, v⟩]⟩ := by
  have no_cast : op ≠ Op.checkcast := by
    rintro rfl
    cases stores
  simp [step, Insn.op, stores, no_cast]

end Surroundings

namespace Literal

variable {kinds : Kinds} {value : Int64} {l : Literal} {p q final : Pool}

theorem yields_computed (numeric : kinds ∈ [.ofInt, .ofFloat, .ofLong, .ofDouble])
    (made : computed kinds value = .ok l) (R : Rounding) (p : Pool) :
    Yields R p l.code [] [number kinds value] := by
  obtain ⟨code, coded, yields⟩ := yields_compute numeric (normalize kinds value)
  rw [computed, coded] at made
  cases made
  rw [← number_normalize numeric]
  exact yields R p

theorem yields_pooled (numeric : kinds ∈ [.ofInt, .ofFloat, .ofLong, .ofDouble])
    (made : (pooled kinds value).run p = (.ok l, q)) (grows : q.Grows final) (R : Rounding) :
    Yields R final l.code [] [number kinds value] := by
  rw [← number_normalize numeric]
  simp only [pooled, ExceptT.run_mk] at made
  split at made
  next code short =>
    cases made
    exact yields_short? numeric short
  next =>
    split at made
    next code _ found =>
      cases made
      obtain ⟨index, rfl, there⟩ := entry?_of_fromPool? found
      exact yields_loadCode numeric (grows.entries _ _ there)
    next => cases made

end Literal

namespace Emit

open Surroundings

variable {E : Surroundings} {frame : Frame} {a : Nat} {base : List Operand} {s t : List Operand}

theorem emits_number {kinds : Kinds} (numeric : kinds ∈ [.ofInt, .ofFloat, .ofLong, .ofDouble])
    (value : Int64) :
    Emits frame (number value kinds) (Lasting fun final new => ∃ l, new = [.literal l] ∧
      ∀ R : Rounding, Yields R final l.code [] [Literal.number kinds value]) := by
  have other : kinds ≠ .ofRef := by
    rintro rfl
    revert numeric
    decide
  unfold number
  rw [if_neg other]
  refine emits_get fun d => ?_
  split
  · refine emits_operand fun l made => emits_add fun _ final _ => ⟨l, rfl, fun R => ?_⟩
    exact Literal.yields_computed numeric made R final
  · refine emits_inPool (PoolM.draws_pooled kinds value) fun l before after made => ?_
    refine emits_add fun later grown final grows => ⟨l, rfl, fun R => ?_⟩
    exact Literal.yields_pooled numeric made (grown.grows.trans _ _ _ grows) R

theorem pushes_number {kinds : Kinds} (numeric : kinds ∈ [.ofInt, .ofFloat, .ofLong, .ofDouble])
    (value : Int64) :
    Emits frame (number value kinds)
      (Lasting fun final new => E.Pushes final new (.number (Literal.number kinds value))) := by
  refine (emits_number numeric value).mono fun p new lasting final grows s => ?_
  obtain ⟨l, rfl, yields⟩ := lasting final grows
  exact .single ⟨[], rfl⟩ (step_literal (yields E.rounding) s) ⟨[_], rfl⟩

/-- What is emitted leads from one stack to another and stores some elements. All the while few
copies of an array are held. -/
def Fills {α : Type} (E : Surroundings) (frame : Frame) (a : Nat) (base : List Operand) (m : Emit α)
    (s t : List Operand) (stored : List ElementStore) : Prop :=
  Emits frame m (Lasting fun final new => ∀ log, E.Passes final (Holding a base) new ⟨s, log⟩
    ⟨t, log ++ stored⟩)

theorem Fills.bind {α β : Type} {m : Emit α} {f : α → Emit β} {u : List Operand}
    {stored others : List ElementStore} (first : Fills E frame a base m s t stored)
    (second : ∀ x, Fills E frame a base (f x) t u others) :
    Fills E frame a base (m >>= f) s u (stored ++ others) :=
  Emits.seq first second fun _ _ _ passes passes' log => by
    rw [← List.append_assoc]
    exact (passes log).append (passes' _)

theorem fills_pure (here : Holding a base s) : Fills E frame a base (pure () : Emit Unit) s s [] :=
  emits_pure () fun _ _ _ log => by
    rw [List.append_nil]
    exact .nil here

theorem fills_addAll {xs : List Insn}
    (passes : ∀ p log, E.Passes p (Holding a base) xs ⟨s, log⟩ ⟨t, log⟩) :
    Fills E frame a base (addAll xs) s t [] :=
  emits_addAll fun _ final _ log => by
    rw [List.append_nil]
    exact passes final log

theorem fills_op {op : UInt8} (here : Holding a base s) (done : E.operate op s = some t)
    (there : Holding a base t) (no_store : Op.storesElement op = false)
    (no_cast : op ≠ Op.checkcast) :
    Fills E frame a base (Emit.op op) s t [] :=
  emits_add fun _ _ _ log => by
    rw [List.append_nil]
    exact .single here (step_operate done no_store no_cast) there

section Elements

variable {storeOp : UInt8} (stores : Op.storesElement storeOp = true)

include stores

theorem fills_element {push : Emit Unit} {v : Operand}
    (pushes : Emits frame push (Lasting fun final new => E.Pushes final new v)) {step : List Insn}
    {held more : Nat} (copied : CopyPlan.Recopies step held (more + 1)) (few : more ≤ 3) (i : Nat) :
    Fills E frame a base (do addAll step; int (.ofNat i); push; Emit.op storeOp)
      (references a held base)
      (references a more base) [⟨a, .ofNat i, v⟩] := by
  have copies : Holding a base (references a (more + 1) base) := holding_references (by omega) base
  have above (inner : List Operand) :
      Holding a base (inner ++ .number (.int (.ofNat i)) :: references a (more + 1) base) :=
    ⟨more + 1, by omega, .inr ⟨inner, .ofNat i, rfl⟩⟩
  have indexed : Fills E frame a base (int (.ofNat i)) (references a (more + 1) base)
      (.number (.int (.ofNat i)) :: references a (more + 1) base) [] := by
    refine (emits_number (by decide) _).mono fun p new lasting final grows log => ?_
    obtain ⟨l, rfl, yields⟩ := lasting final grows
    have read : Literal.number .ofInt (Int32.ofNat i).toInt64 = .int (.ofNat i) :=
      congrArg Number.int (Int32.ofNat i).toInt32_toInt64
    rw [List.append_nil]
    exact .single copies (step_literal (read ▸ yields E.rounding) _) (above [])
  have valued :
      Fills E frame a base push (.number (.int (.ofNat i)) :: references a (more + 1) base)
      (v :: .number (.int (.ofNat i)) :: references a (more + 1) base) [] := by
    refine pushes.mono fun p new lasting final grows log => ?_
    rw [List.append_nil]
    refine (lasting final grows ⟨_, log⟩).mono ?_
    rintro _ ⟨inner, rfl⟩
    exact above inner
  have stored : Fills E frame a base (Emit.op storeOp)
      (v :: .number (.int (.ofNat i)) :: references a (more + 1) base)
      (references a more base) [⟨a, .ofNat i, v⟩] :=
    emits_add fun _ _ _ _ => .single (above [v]) (step_store stores v _ _)
      (holding_references (by omega) base)
  exact (fills_addAll fun _ _ => passes_recopies copied (by omega)).bind fun _ => indexed.bind
    fun _ => valued.bind fun _ =>
    stored

theorem fills_elements {push : Nat → Emit Unit} {v : Nat → Operand} {steps : List (List Insn)}
    {held wanted count : Nat} (serves : CopyPlan.Serves wanted held steps)
    (length : steps.length = count + 1) (n : Nat)
    (pushes : ∀ i < n + count, Emits frame (push i)
      (Lasting fun final new => E.Pushes final new (v i))) :
    Fills E frame a base (do
      ((steps.take count).zipIdx n).forM fun (step, i) => do
        addAll step
        int (.ofNat i)
        push i
        Emit.op storeOp
      addAll (steps.drop count).flatten) (references a held base)
        (references a (wanted - count) base)
      ((List.range' n count).map fun i => ⟨a, .ofNat i, v i⟩) := by
  induction serves generalizing count n with
  | @last held wanted enough few =>
    cases count with
    | succ count => simp at length
    | zero =>
      refine (fills_pure (holding_references (by omega) base)).bind fun _ => fills_addAll
        fun p log => ?_
      have dropped : E.Passes p (Holding a base) (List.replicate (held - wanted) (.op Op.pop))
          ⟨references a (held - wanted + wanted) base, log⟩ ⟨references a wanted base, log⟩ :=
            passes_pops (by omega)
      rw [Nat.sub_add_cancel enough] at dropped
      simpa using dropped
  | @use held more wanted step rest copied few le _ ih =>
    cases count with
    | zero =>
      have none : rest = [] := by simpa using length
      subst none
      contradiction
    | succ count =>
      have fewer : rest.length = count + 1 := by simpa using length
      have others := ih fewer (n + 1) (by rwa [Nat.add_right_comm])
      rw [Nat.add_sub_add_right]
      rw [List.take_succ_cons, List.zipIdx_cons, List.drop_succ_cons, List.forM, bind_assoc]
      exact (fills_element stores (pushes n (by omega)) copied few n).bind fun _ => others

theorem fills_fillArray (count : Nat) (keep : Bool) {push : Nat → Emit Unit} {v : Nat → Operand}
    (pushes : ∀ i < count, Emits frame (push i)
      (Lasting fun final new => E.Pushes final new (v i))) :
    Fills E frame a base (fillArray storeOp count keep push) (.reference a :: base)
      (if keep then .reference a :: base else base)
        ((List.range count).map fun i => ⟨a, .ofNat i, v i⟩) := by
  have one : (if keep then 1 else 0) ≤ 1 := by split <;> omega
  have fills : Fills E frame a base _ _ _ _ :=
    fills_elements stores (CopyPlan.serves_copyPlan count one)
    (CopyPlan.length_copyPlan _ _) 0 (by rwa [Nat.zero_add])
  rw [Nat.add_sub_cancel_left, ← List.range_eq_range'] at fills
  cases keep with
  | true => exact fills
  | false => exact fills

end Elements

theorem fills_loadArray {reg : Nat} (array : frame.arrayOf reg ≠ .null)
    (there : E.locals ⟨reg, .ofRef⟩ = .reference a) :
    Fills E frame a base (loadArray reg) base (.reference a :: base) [] := by
  have none_held : Holding a base base := holding_references (Nat.zero_le 4) base
  have one_held : Holding a base (.reference a :: base) :=
    holding_references (by decide : 1 ≤ 4) base
  have loaded : Fills E frame a base (add (.load ⟨reg, .ofRef⟩)) base
      (.reference a :: base) [] := by
    refine emits_add fun _ final _ log => .single none_held ?_ one_held
    simp [step, Insn.load, there]
  have cast (name : String) :
      Fills E frame a base (classOp Op.checkcast name) (.reference a :: base)
        (.reference a :: base) [] := by
    refine emits_inPool (PoolM.draws_classRef name) fun index _ _ _ => emits_add
      fun _ _ final _ log => ?_
    refine .single one_held ?_ one_held
    simp [step, Bytes.opWithIndex]
  refine emits_frame ?_
  simp only [array, if_false]
  refine loaded.bind fun _ => ?_
  split
  · exact cast _
  · exact fills_pure one_held

end Emit

namespace Register

open ArrayData Emit

variable {E : Surroundings} {frame : Frame} {a : Nat} {base : List Operand} {i : Instr} {reg : Nat}

theorem element_of_array (type : Primitive) :
    (ArrayView.array ("[" ++ type.descriptor)).element =
      .ok (type.kinds, .array type.descriptor) := by
  cases type <;> rfl

theorem arrayStore?_descriptor (type : Primitive) :
    ∃ op, arrayStore? type.descriptor = some op ∧ Op.storesElement op = true := by
  cases type <;> exact ⟨_, rfl, by decide⟩

theorem numeric_kinds (type : Primitive) : type.kinds ∈ [.ofInt, .ofFloat, .ofLong, .ofDouble] := by
  cases type <;> decide

theorem length_ofElements (type : Primitive) (values : List Element) :
    (ofElements type values).length = values.length := by
  unfold ofElements
  split <;> exact List.length_map _

theorem fills_values {op : UInt8} (stores : Op.storesElement op = true) {values : List Element}
    {push : Nat → Emit Unit} {count : Nat} (all : count = values.length)
    (pushes : ∀ n (less : n < values.length), Emits frame (push n)
      (Lasting fun final new => E.Pushes final new (.number values[n].number))) :
    Fills E frame a base (fillArray op count false push) (.reference a :: base) base
      (values.zipIdx.map fun pair => ⟨a, .ofNat pair.2, .number pair.1.number⟩) := by
  subst all
  have fills : Fills E frame a base _ _ _ _ := fills_fillArray stores values.length false
    (v := fun n => .number ((values[n]?.map Element.number).getD (.int 0))) fun n less => by
      simpa [List.getElem?_eq_getElem less] using pushes n less
  have same : (List.range values.length).map
      (fun n => (⟨a, .ofNat n, .number ((values[n]?.map Element.number).getD (.int 0))⟩ :
      ElementStore)) = values.zipIdx.map fun pair => ⟨a, .ofNat pair.2, .number pair.1.number⟩ := by
    refine List.ext_getElem (by simp) fun n before after => ?_
    have less : n < values.length := by simpa using before
    simp [List.getElem?_eq_getElem less]
  rwa [same] at fills

theorem fills_fillArrayData {type : Primitive} {values : List Element}
    (typed : ∀ v ∈ values, v.type = type) (target : i.reg 0 = .ok reg)
    (data : i.arrayData = .ok (ofElements type values))
    (array : frame.arrayOf reg = .array ("[" ++ type.descriptor))
    (there : E.locals ⟨reg, .ofRef⟩ = .reference a) :
    Fills E frame a base (selectFillArrayData i) base base
      (values.zipIdx.map fun pair => ⟨a, .ofNat pair.2, .number pair.1.number⟩) := by
  obtain ⟨op, storable, stores⟩ := arrayStore?_descriptor type
  refine emits_operand fun reg' read => ?_
  cases target.symm.trans read
  refine emits_operand fun data' read' => ?_
  cases data.symm.trans read'
  refine emits_frame ?_
  simp only [array]
  refine (fills_loadArray (by simp [array]) there).bind fun _ => ?_
  rw [if_neg (by simp), length_ofElements]
  split
  next empty =>
    -- Nothing is stored, but a null array is noticed.
    cases List.length_eq_zero_iff.1 empty
    have one_held : Holding a base (.reference a :: base) :=
      holding_references (by decide : 1 ≤ 4) base
    have measured : Holding a base (.number (.int (E.length a)) :: base) :=
      ⟨0, Nat.zero_le 4, .inr ⟨[], E.length a, rfl⟩⟩
    have none_held : Holding a base base := holding_references (Nat.zero_le 4) base
    refine (fills_op one_held (t := .number (.int (E.length a)) :: base) rfl measured (by decide)
      (by decide)).bind fun _ => ?_
    exact fills_op measured rfl none_held (by decide) (by decide)
  next =>
    refine emits_operand fun found read => ?_
    cases (element_of_array type).symm.trans read
    simp only [ArrayView.descriptor?, Option.getD_some, storable]
    unfold ofElements
    by_cases wide : type.width = 8
    · simp only [wide, if_true]
      refine fills_values stores (by simp) fun n less => ?_
      have typed := typed _ (List.getElem_mem less)
      have pushed := number_wide values[n] (typed ▸ wide)
      rw [typed] at pushed
      rw [← pushed]
      simpa [less] using pushes_number (numeric_kinds type) _
    · simp only [wide, if_false]
      refine fills_values stores (by simp) fun n less => ?_
      have typed := typed _ (List.getElem_mem less)
      have pushed := number_narrow values[n] (typed ▸ wide)
      rw [typed] at pushed
      rw [← pushed]
      simpa [less] using pushes_number (numeric_kinds type) _

/-- Whatever pushes its elements, an array is filled in order and with few copies at a time. The
elements of a table are the numbers that were encoded in it. -/
theorem fillArray_stores_in_order (E : Surroundings) (frame : Frame) (a : Nat)
    (base : List Operand) :
    (∀ (storeOp : UInt8) (count : Nat) (keep : Bool) (push : Nat → Emit Unit) (v : Nat → Operand),
      Op.storesElement storeOp = true →
      (∀ n < count, Emits frame (push n) (Lasting fun final new => E.Pushes final new (v n))) →
      Fills E frame a base (fillArray storeOp count keep push) (.reference a :: base)
        (if keep then .reference a :: base else base)
          ((List.range count).map fun n => ⟨a, .ofNat n, v n⟩)) ∧
    ∀ (type : Primitive) (values : List Element), (∀ v ∈ values, v.type = type) →
      ∃ data, parse type.width values.length (table type values) = .ok data ∧
        ∀ (i : Instr) (reg : Nat), i.reg 0 = .ok reg → i.arrayData = .ok data →
          frame.arrayOf reg = .array ("[" ++ type.descriptor) →
          E.locals ⟨reg, .ofRef⟩ = .reference a →
          Fills E frame a base (selectFillArrayData i) base base
            (values.zipIdx.map fun pair => ⟨a, .ofNat pair.2, .number pair.1.number⟩) :=
  ⟨fun _ count keep _ _ stores pushes => fills_fillArray stores count keep pushes,
    fun type values typed =>
    ⟨_, parse_table type values typed, fun _ _ target data array there =>
      fills_fillArrayData typed target data array there⟩⟩

def sampleFill : Instr :=
  { Instr.ofOpcode 0x26 0 3 [0] with payload := some (.arrayData (.narrow [1, 255])) }

theorem sampleFill_stores_in_order : ∃ later,
    (selectFillArrayData sampleFill).run
      ⟨Frame.empty.assignDescriptor 0 "[B", true, .empty .split, #[]⟩ = (.ok (), later) ∧
    Surroundings.Passes ⟨.rational, fun _ => .reference 7, fun _ => 2, fun _ _ => none⟩ later.pool
      (Holding 7 [])
      later.insns.toList ⟨[], []⟩
        ⟨[], [⟨7, 0, .number (.int 1)⟩, ⟨7, 1, .number (.int (-1))⟩]⟩ := by
  obtain ⟨data, parsed, fills⟩ :=
    (fillArray_stores_in_order ⟨.rational, fun _ => .reference 7, fun _ => 2, fun _ _ => none⟩
    (Frame.empty.assignDescriptor 0 "[B") 7 []).2 .byte [.byte 1, .byte (-1)] (by decide)
  have ran :
      ((selectFillArrayData sampleFill).run
        ⟨Frame.empty.assignDescriptor 0 "[B", true, .empty .split, #[]⟩).1 =
      .ok () := by cbv
  have same : sampleFill.arrayData = .ok data := by
    rw [← parsed]
    rfl
  have array : (Frame.empty.assignDescriptor 0 "[B").arrayOf 0 =
      .array ("[" ++ Primitive.byte.descriptor) := by cbv
  obtain ⟨-, -, new, added, lasting⟩ :=
    fills sampleFill 0 rfl same array rfl _ _ _ rfl (Prod.ext ran rfl)
  refine ⟨_, Prod.ext ran rfl, ?_⟩
  rw [added]
  exact lasting _ (.refl _) []

end Register

end Restack
