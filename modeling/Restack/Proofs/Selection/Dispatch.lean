import Restack.Proofs.Stack.Jump
import Restack.Proofs.Stack.Switch
import Restack.Selection.Emit

set_option autoImplicit false

namespace Restack

variable {place : Nat} {key : Int32}

namespace Bytes

/-- Where the operands of a switch start: at the first multiple of four behind its opcode. -/
def operandsOf (position : Nat) : Nat := 4 * (position / 4 + 1)

/-- The offset that a table has for a key: its entry between the bounds, and the default outside of
them. -/
def tableOffset? (code : Bytes) (operands : Nat) (key : Int) : Option Int := do
  let default ← code.int32At operands
  let low ← code.int32At (operands + 4)
  let high ← code.int32At (operands + 8)
  if high < low then none
  else if key < low ∨ high < key then some default
  else code.int32At (operands + 12 + 4 * (key - low).toNat)

def pairsAt? (code : Bytes) (place : Nat) : Nat → Option (List (Int × Int))
  | 0 => some []
  | count + 1 => do
    let key ← code.int32At place
    let offset ← code.int32At (place + 4)
    let rest ← pairsAt? code (place + 8) count
    return (key, offset) :: rest

/-- The offset that a list has for a key. The number of keys has a sign and may not be negative, and
the keys have to ascend. -/
def listOffset? (code : Bytes) (operands : Nat) (key : Int) : Option Int := do
  let default ← code.int32At operands
  let count ← code.int32At (operands + 4)
  if count < 0 then none
  else
    let pairs ← pairsAt? code (operands + 8) count.toNat
    if pairs.Pairwise (fun a b => a.1 < b.1) then some ((pairs.lookup key).getD default) else none

/-- Where the instruction at a position takes control and what it leaves of the stack, for those
that select a way by a key or take the only one. -/
def transfer? (code : Bytes) (position : Nat) (stack : List Int32) : Option (Int × List Int32) := do
  let op ← code[position]?
  if op = Op.goto then return (position + (← code.int16At (position + 1)), stack)
  else if op = Op.gotoW then return (position + (← code.int32At (position + 1)), stack)
  else
    match stack with
    | [] => none
    | key :: rest =>
      if op = Op.pop then return (position + 1, rest)
      else if op = Op.tableswitch then
        return (position + (← code.tableOffset? (operandsOf position) key.toInt), rest)
      else if op = Op.lookupswitch then
        return (position + (← code.listOffset? (operandsOf position) key.toInt), rest)
      else none

/-- Control gets from a position with a stack to a destination with another, one instruction after
the other. -/
inductive Arrives (code : Bytes) : Nat → List Int32 → Int → List Int32 → Prop where
  | last {position : Nat} {stack rest : List Int32} {destination : Int} :
      code.transfer? position stack = some (destination, rest) →
        Arrives code position stack destination rest
  | next {position later : Nat} {stack middle rest : List Int32} {destination : Int} :
      code.transfer? position stack = some ((later : Int), middle) →
        Arrives code later middle destination rest →
      Arrives code position stack destination rest

section Transfer

variable {code : Bytes} {position : Nat} {offset : Int}

theorem transfer?_goto (opcode : code[position]? = some Op.goto)
    (written : code.int16At (position + 1) = some offset) (stack : List Int32) :
    code.transfer? position stack = some (position + offset, stack) := by
  simp only [transfer?, opcode, written]
  rfl

theorem transfer?_gotoW (opcode : code[position]? = some Op.gotoW)
    (written : code.int32At (position + 1) = some offset) (stack : List Int32) :
    code.transfer? position stack = some (position + offset, stack) := by
  simp only [transfer?, opcode, written]
  rfl

theorem transfer?_pop (opcode : code[position]? = some Op.pop) (key : Int32) (stack : List Int32) :
    code.transfer? position (key :: stack) = some (((position + 1 : Nat) : Int), stack) := by
  simp only [transfer?, opcode]
  rfl

theorem transfer?_tableswitch (opcode : code[position]? = some Op.tableswitch)
    (found : code.tableOffset? (operandsOf position) key.toInt = some offset) (stack : List Int32) :
    code.transfer? position (key :: stack) = some (position + offset, stack) := by
  simp only [transfer?, opcode, found]
  rfl

theorem not_arrives_lookupswitch (opcode : code[position]? = some Op.lookupswitch)
    (refused : code.listOffset? (operandsOf position) key.toInt = none) {stack rest : List Int32}
    {destination : Int} : ¬ code.Arrives position (key :: stack) destination rest := by
  have stuck : code.transfer? position (key :: stack) = none := by
    simp only [transfer?, opcode, refused]
    rfl
  intro arrives
  cases arrives with
  | last done => cases stuck.symm.trans done
  | next done _ => cases stuck.symm.trans done

theorem transfer?_lookupswitch (opcode : code[position]? = some Op.lookupswitch)
    (found : code.listOffset? (operandsOf position) key.toInt = some offset) (stack : List Int32) :
    code.transfer? position (key :: stack) = some (position + offset, stack) := by
  simp only [transfer?, opcode, found]
  rfl

end Transfer

end Bytes

theorem Cases.lookup_without (cases : Cases) (default : UInt32) (key : Int32) :
    ((cases.without default).pairs.lookup key).getD default =
      (cases.pairs.lookup key).getD default := by
  obtain ⟨pairs, ascending⟩ := cases
  simp only [without]
  induction pairs with
  | nil => rfl
  | cons pair rest ih =>
    obtain ⟨first, target⟩ := pair
    obtain ⟨smallest, tail⟩ := List.pairwise_cons.1 ascending
    have ih := ih tail
    by_cases kept : target = default
    · rw [List.filter_cons_of_neg (by simpa using kept), ih]
      by_cases same : key = first
      · -- No later case has the key of a case that was left out.
        have absent : ∀ pair ∈ rest, (key != pair.1) = true := fun pair member => by
          rw [bne_iff_ne, same]
          exact Int32.ne_of_lt (smallest pair member)
        rw [List.lookup_eq_none_iff.2 absent, same, List.lookup_cons_self]
        exact kept.symm
      · rw [List.lookup_cons, beq_eq_false_iff_ne.2 same]
    · rw [List.filter_cons_of_pos (by simpa using kept), List.lookup_cons, List.lookup_cons]
      cases key == first with
      | true => rfl
      | false => exact ih

namespace Switch

def tableForm (s : Switch) (position : Nat) (offset : UInt32 → Int) : Bytes :=
  Op.tableswitch :: (List.replicate (padding position) 0 ++ (offsetBytes offset s.default ++
    (Bytes.ofUInt32 s.low.toUInt32 ++
      (Bytes.ofUInt32 s.high.toUInt32 ++ s.table.flatMap (offsetBytes offset)))))

def listForm (s : Switch) (position : Nat) (offset : UInt32 → Int) : Bytes :=
  Op.lookupswitch :: (List.replicate (padding position) 0 ++ (offsetBytes offset s.default ++
    (Bytes.ofUInt32 s.cases.pairs.length.toUInt32 ++ s.cases.pairs.flatMap (caseBytes offset))))

theorem operandsOf_eq (position : Nat) :
    Bytes.operandsOf position = position + 1 + padding position := by
  unfold Bytes.operandsOf padding
  omega

theorem le_high_of_mem (s : Switch) (pair : Int32 × UInt32) (member : pair ∈ s.cases.pairs) :
    pair.1.toInt ≤ s.high.toInt := by
  obtain ⟨last, is_last⟩ :=
    Option.isSome_iff_exists.1 (List.getLast?_isSome.2 (List.ne_nil_of_mem member))
  obtain ⟨before, split⟩ := List.getLast?_eq_some_iff.1 is_last
  have ascending := s.cases.ascending
  rw [high_eq_of_last is_last]
  rw [split] at member ascending
  rcases List.mem_append.1 member with earlier | same
  · exact Int.le_of_lt
      (Int32.lt_iff_toInt_lt.1 ((List.pairwise_append.1 ascending).2.2 pair earlier last (by simp)))
  · exact Int.le_of_eq (congrArg (·.1.toInt) (List.mem_singleton.1 same))

theorem low_le_high (s : Switch) (some_case : s.cases.pairs ≠ []) : s.low.toInt ≤ s.high.toInt := by
  obtain ⟨pair, member⟩ := List.exists_mem_of_ne_nil _ some_case
  exact Int.le_trans (s.low_le_of_mem pair member) (s.le_high_of_mem pair member)

theorem targetOf_of_outside (s : Switch)
    (outside : key.toInt < s.low.toInt ∨ s.high.toInt < key.toInt) :
    s.targetOf key = s.default := by
  have absent : ∀ pair ∈ s.cases.pairs, (key != pair.1) = true := by
    intro pair member
    have above := s.low_le_of_mem pair member
    have below := s.le_high_of_mem pair member
    rw [bne_iff_ne]
    rintro rfl
    omega
  rw [targetOf, List.lookup_eq_none_iff.2 absent]
  rfl

section Forms

variable (s : Switch) (position : Nat) (offset : UInt32 → Int)

theorem tableForm_length (some_case : s.cases.pairs ≠ []) :
    (s.tableForm position offset).length = padding position + (9 + s.tableSize) := by
  have entries := s.table_length some_case
  simp only [tableForm, List.length_cons, List.length_append, List.length_replicate,
    Bytes.ofUInt32_length,
    offsetBytes_length, Bytes.flatMap_length _ 4 (offsetBytes_length offset), tableSize]
  omega

theorem listForm_length :
    (s.listForm position offset).length = padding position + (9 + s.listSize) := by
  simp only [listForm, List.length_cons, List.length_append, List.length_replicate,
    Bytes.ofUInt32_length,
    offsetBytes_length, Bytes.flatMap_length _ 8 (caseBytes_length offset), listSize]
  omega

theorem encode_eq_shorter (some_case : s.cases.pairs ≠ []) :
    s.encode position offset =
      if (s.tableForm position offset).length < (s.listForm position offset).length then
        s.tableForm position offset
      else s.listForm position offset := by
  have shorter : (s.tableForm position offset).length < (s.listForm position offset).length ↔
      s.isTable = true := by
    rw [tableForm_length s position offset some_case, listForm_length, isTable, decide_eq_true_eq]
    omega
  simp only [shorter]
  cases form : s.isTable with
  | true => exact encode_table s position offset form
  | false => exact encode_list s position offset form

end Forms

section Reading

variable {s : Switch} {code : Bytes} {position : Nat} {offset : UInt32 → Int32}

theorem int32At_of_offsetBytes {target : UInt32}
    (there : code.StandsAt place (offsetBytes (fun t => (offset t).toInt) target)) :
    code.int32At place = some (offset target).toInt := by
  rw [Bytes.int32At_of_standsAt there, Int32.toInt32_toUInt32, Int32.ofInt_toInt]

theorem tableOffset?_of_standsAt (some_case : s.cases.pairs ≠ [])
    (there : code.StandsAt position (s.tableForm position fun t => (offset t).toInt))
    (key : Int32) :
    code.tableOffset? (Bytes.operandsOf position) key.toInt =
      some (offset (s.targetOf key)).toInt := by
  have operands := there.tail.right
  rw [List.length_replicate, ← operandsOf_eq] at operands
  have low : code.int32At (Bytes.operandsOf position + 4) = some s.low.toInt :=
    Bytes.int32At_of_standsAt operands.right.left
  have high : code.int32At (Bytes.operandsOf position + 8) = some s.high.toInt :=
    Bytes.int32At_of_standsAt operands.right.right.left
  have entries := operands.right.right.right
  simp only [Bytes.tableOffset?, int32At_of_offsetBytes operands.left, low, high,
    Option.bind_eq_bind, Option.bind_some, if_neg (Int.not_lt.2 (s.low_le_high some_case))]
  by_cases outside : key.toInt < s.low.toInt ∨ s.high.toInt < key.toInt
  · rw [if_pos outside, s.targetOf_of_outside outside]
  · rw [if_neg outside]
    rw [not_or, Int.not_lt, Int.not_lt, ← Int32.le_iff_toInt_le, ← Int32.le_iff_toInt_le] at outside
    exact int32At_of_offsetBytes
      (entries.piece _ (offsetBytes_length _) (s.table_getElem? some_case key outside.1 outside.2))

def readCase (offset : UInt32 → Int32) (pair : Int32 × UInt32) : Int × Int :=
  (pair.1.toInt, (offset pair.2).toInt)

theorem pairsAt?_of_standsAt {pairs : List (Int32 × UInt32)}
    (there : code.StandsAt place (pairs.flatMap (caseBytes fun t => (offset t).toInt))) :
    code.pairsAt? place pairs.length = some (pairs.map (readCase offset)) := by
  induction pairs generalizing place with
  | nil => rfl
  | cons pair rest ih =>
    rw [List.flatMap_cons] at there
    have key : code.int32At place = some pair.1.toInt := Bytes.int32At_of_standsAt there.left.left
    have distance : code.int32At (place + 4) = some (offset pair.2).toInt :=
      int32At_of_offsetBytes there.left.right
    have later : code.pairsAt? (place + 8) rest.length = some (rest.map (readCase offset)) :=
      ih there.right
    simp only [List.length_cons, Bytes.pairsAt?, key, distance, later, Option.bind_eq_bind,
      Option.bind_some]
    rfl

theorem lookup_map_readCase (pairs : List (Int32 × UInt32)) (key : Int32) :
    (pairs.map (readCase offset)).lookup key.toInt = (pairs.lookup key).map fun t =>
      (offset t).toInt := by
  induction pairs with
  | nil => rfl
  | cons pair rest ih =>
    obtain ⟨first, target⟩ := pair
    have same_key : (key.toInt == first.toInt) = (key == first) := by
      rw [Bool.eq_iff_iff, beq_iff_eq, beq_iff_eq, Int32.toInt_inj]
    simp only [List.map_cons, readCase, List.lookup_cons, same_key, ih]
    cases key == first <;> rfl

theorem pairwise_map_readCase (cases : Cases) :
    (cases.pairs.map (readCase offset)).Pairwise fun a b => a.1 < b.1 :=
  List.pairwise_map.2 (cases.ascending.imp fun less => Int32.lt_iff_toInt_lt.1 less)

theorem toInt_count {n : Nat} (few : n < 2 ^ 31) : n.toUInt32.toInt32.toInt = n := by
  rw [Nat.toUInt32_eq, UInt32.toInt32_ofNat', Int32.toInt_ofNat_of_lt (by omega)]

theorem pairs_of_listForm
    (there : code.StandsAt position (s.listForm position fun t => (offset t).toInt)) :
    code.pairsAt? (Bytes.operandsOf position + 8) s.cases.pairs.length =
      some (s.cases.pairs.map (readCase offset)) := by
  have operands := there.tail.right
  rw [List.length_replicate, ← operandsOf_eq] at operands
  exact pairsAt?_of_standsAt operands.right.right

section List

variable (there : code.StandsAt position (s.listForm position fun t => (offset t).toInt))
  (key : Int32)
include there

theorem count_of_listForm : code.int32At (Bytes.operandsOf position + 4) =
    some s.cases.pairs.length.toUInt32.toInt32.toInt := by
  have operands := there.tail.right
  rw [List.length_replicate, ← operandsOf_eq] at operands
  exact Bytes.int32At_of_standsAt operands.right.left

theorem listOffset?_of_standsAt (few : s.cases.pairs.length < 2 ^ 31) :
    code.listOffset? (Bytes.operandsOf position) key.toInt =
      some (offset (s.targetOf key)).toInt := by
  have pairs := pairs_of_listForm there
  have count := count_of_listForm there
  rw [toInt_count few] at count
  have operands := there.tail.right
  rw [List.length_replicate, ← operandsOf_eq] at operands
  simp only [Bytes.listOffset?, int32At_of_offsetBytes operands.left, count, Option.bind_eq_bind,
    Option.bind_some,
    if_neg (Int.not_lt.2 (Int.natCast_nonneg _)), Int.toNat_natCast, pairs,
    if_pos (pairwise_map_readCase s.cases), lookup_map_readCase, targetOf]
  cases s.cases.pairs.lookup key <;> rfl

theorem listOffset?_of_crowded (crowded : s.cases.pairs.length = 2 ^ 31) :
    code.listOffset? (Bytes.operandsOf position) key.toInt = none := by
  have count := count_of_listForm there
  have operands := there.tail.right
  rw [List.length_replicate, ← operandsOf_eq] at operands
  have negative : (s.cases.pairs.length.toUInt32.toInt32.toInt) < 0 := by
    rw [crowded]
    decide
  simp only [Bytes.listOffset?, int32At_of_offsetBytes operands.left, count, Option.bind_eq_bind,
    Option.bind_some, if_pos negative]

end List

theorem length_le_of_list (list : s.isTable = false) : s.cases.pairs.length ≤ 2 ^ 31 := by
  have lowest := s.low.le_toInt
  have highest := s.high.toInt_lt
  have shorter := of_decide_eq_false list
  simp only [listSize, tableSize] at shorter
  omega

theorem arrives_iff_of_standsAt (some_case : s.cases.pairs ≠ [])
    (there : code.StandsAt position (s.encode position fun t => (offset t).toInt)) (key : Int32)
    (stack : List Int32) :
    code.Arrives position (key :: stack) (position + (offset (s.targetOf key)).toInt) stack ↔
      (s.isTable = true ∨ s.cases.pairs.length < 2 ^ 31) := by
  cases form : s.isTable with
  | true =>
    rw [encode_table s position _ form] at there
    have found := tableOffset?_of_standsAt some_case there key
    exact iff_of_true (.last (Bytes.transfer?_tableswitch there.head found stack)) (.inl rfl)
  | false =>
    rw [encode_list s position _ form] at there
    have most := length_le_of_list form
    by_cases few : s.cases.pairs.length < 2 ^ 31
    · have found := listOffset?_of_standsAt there key few
      exact iff_of_true (.last (Bytes.transfer?_lookupswitch there.head found stack)) (.inr few)
    · have refused := listOffset?_of_crowded there key (by omega)
      exact iff_of_false (Bytes.not_arrives_lookupswitch there.head refused) (by simpa using few)

theorem few_of_length_lt
    (there : code.StandsAt position (s.encode position fun t => (offset t).toInt))
    (short : code.length < 2 ^ 32) : s.isTable = true ∨ s.cases.pairs.length < 2 ^ 31 := by
  cases form : s.isTable with
  | true => exact .inl rfl
  | false =>
    have written := encode_list s position (fun t => (offset t).toInt) form
    have length := s.listForm_length position fun t => (offset t).toInt
    have inside := there.le_length
    rw [show s.encode position _ = s.listForm position _ from written, length, listSize] at inside
    exact .inr (by omega)

end Reading

end Switch

theorem Jump.transfer?_of_standsAt {code bytes : Bytes} {position : Nat} {target : UInt32}
    {size : Jump.Size} {offset : Int32} (reaches : size = .short → Jump.inRange offset.toInt = true)
    (written : ({ op := none, target, size } : Jump).encode offset.toInt = .ok bytes)
    (there : code.StandsAt position bytes) (stack : List Int32) :
    code.transfer? position stack = some (position + offset.toInt, stack) := by
  cases size with
  | short =>
    have near := reaches rfl
    simp only [inRange, Bool.and_eq_true, decide_eq_true_eq] at near
    cases written
    exact Bytes.transfer?_goto there.head (Bytes.int16At_of_offset there.tail near.1 near.2) stack
  | undecided | long =>
    cases written
    exact Bytes.transfer?_gotoW there.head
      (Bytes.int32At_of_offset there.tail offset.le_toInt offset.toInt_lt) stack

theorem Emit.switch_eq (default : UInt32) (cases : Cases) (draft : Draft) :
    (Emit.switch default cases).run draft = (.ok (),
      { draft with
        insns := draft.insns ++
          if (cases.without default).pairs = [] then #[.op Op.pop, .goto default]
          else #[.switch { default, cases := cases.without default }] }) := by
  unfold Emit.switch
  by_cases none : (cases.without default).pairs = []
  · simp only [none, List.isEmpty_nil, if_true]
    rfl
  · simp only [List.isEmpty_iff, if_neg none]
    rfl

/-- As many bytes as were set aside, with the operands aligned; of the two forms the table exactly
if that is shorter. In a list the keys ascend. -/
structure Switch.Written (s : Switch) (position : Nat) (offset : UInt32 → Int32) : Prop where
  length : (s.encode position fun t => (offset t).toInt).length =
    1 + padding position + (s.unpaddedSize - 1)
  aligned : (position + 1 + padding position) % 4 = 0
  shorter : s.encode position (fun t => (offset t).toInt) =
    if (s.tableForm position fun t => (offset t).toInt).length <
      (s.listForm position fun t => (offset t).toInt).length then
      s.tableForm position fun t => (offset t).toInt
    else s.listForm position fun t => (offset t).toInt
  ascending (code : Bytes) : code.StandsAt position
    (s.listForm position fun t => (offset t).toInt) →
    ∃ pairs, code.pairsAt? (position + 1 + padding position + 8) s.cases.pairs.length = some pairs ∧
      pairs.Pairwise fun a b => a.1 < b.1

theorem Switch.written (s : Switch) (some_case : s.cases.pairs ≠ []) (position : Nat)
    (offset : UInt32 → Int32) :
    s.Written position offset where
  length := by
    have some_bytes : 0 < s.unpaddedSize := by unfold unpaddedSize; omega
    rw [encode_length]
    omega
  aligned := padding_aligns position
  shorter := encode_eq_shorter s position _ some_case
  ascending _ there :=
    ⟨_, operandsOf_eq position ▸ pairs_of_listForm there, pairwise_map_readCase s.cases⟩

/-- The code for a switch takes every key to the target of its case, or to the default. Cases that
go to the default are not written, and if no other is left, the key is dropped before a jump. No
list in code whose length fits in four bytes has `2 ^ 31` keys, which would be read as negative and
take no key anywhere. -/
theorem switch_dispatches (default : UInt32) (cases : Cases) (draft : Draft)
    (offset : UInt32 → Int32) :
    (Emit.switch default cases).run draft = (.ok (),
      { draft with
        insns := draft.insns ++
          if (cases.without default).pairs = [] then #[.op Op.pop, .goto default]
          else #[.switch { default, cases := cases.without default }] }) ∧
    ((cases.without default).pairs = [] → ∀ (size : Jump.Size) (jump : Bytes),
      (size = .short → Jump.inRange (offset default).toInt = true) →
      ({ op := none, target := default, size } : Jump).encode (offset default).toInt = .ok jump →
      ∀ (code : Bytes) (position : Nat), code.StandsAt position (Op.pop :: jump) →
      ∀ (key : Int32) (stack : List Int32),
        code.Arrives position (key :: stack)
          ((position + 1 : Nat) + (offset ((cases.pairs.lookup key).getD default)).toInt) stack) ∧
    ((cases.without default).pairs ≠ [] → ∀ position : Nat,
      Switch.Written { default, cases := cases.without default } position offset ∧
      ∀ code : Bytes, code.StandsAt position
          (Switch.encode { default, cases := cases.without default } position fun t =>
            (offset t).toInt) →
        ∀ (key : Int32) (stack : List Int32),
          (code.length < 2 ^ 32 → code.Arrives position (key :: stack)
            (position + (offset ((cases.pairs.lookup key).getD default)).toInt) stack) ∧
          (code.Arrives position (key :: stack)
              (position + (offset ((cases.pairs.lookup key).getD default)).toInt) stack ↔
            (Switch.isTable { default, cases := cases.without default } = true ∨
              (cases.without default).pairs.length < 2 ^ 31))) := by
  refine ⟨Emit.switch_eq default cases draft, ?_, ?_⟩
  · intro none_left size jump reaches written code position there key stack
    have target : (cases.pairs.lookup key).getD default = default := by
      rw [← cases.lookup_without, none_left]
      rfl
    rw [target]
    exact .next (Bytes.transfer?_pop there.head key stack)
      (.last (Jump.transfer?_of_standsAt reaches written there.tail stack))
  · intro some_left position
    refine ⟨Switch.written _ some_left position offset, fun code there key stack => ?_⟩
    rw [← cases.lookup_without]
    have arrives := Switch.arrives_iff_of_standsAt some_left there key stack
    exact ⟨fun short => arrives.2 (Switch.few_of_length_lt there short), arrives⟩

/-- Cases far apart, with one between them that goes to the default 7. -/
def gappedCases : Cases := ⟨[(-2147483648, 9), (0, 7), (2147483647, 30)], by decide⟩

theorem gappedCases_dispatches :
    (gappedCases.without 7).pairs ≠ [] ∧
    Bytes.Arrives [Op.lookupswitch, 0, 0, 0, 0, 0, 0, 7, 0, 0, 0, 2, 0x80, 0, 0, 0, 0, 0, 0, 9,
      0x7f, 0xff, 0xff, 0xff, 0, 0, 0, 30]
      0 [2147483647, 5] 30 [5] ∧
    Bytes.Arrives [Op.pop, Op.goto, 0, 7] 0 [3] 8 [] := by
  have some_left : (gappedCases.without 7).pairs ≠ [] := by decide
  refine ⟨some_left, ?_, ?_⟩
  · have dispatches :=
      switch_dispatches 7 gappedCases ⟨.empty, false, .empty .simple, #[]⟩ UInt32.toInt32
    exact ((dispatches.2.2 some_left 0).2 _ ⟨[], [], by decide, rfl⟩ 2147483647 [5]).1 (by decide)
  · have dispatches :=
      switch_dispatches 7 ⟨[(3, 7)], by decide⟩ ⟨.empty, false, .empty .simple, #[]⟩ UInt32.toInt32
    exact dispatches.2.1 (by decide) .short [Op.goto, 0, 7] (fun _ => by decide) rfl _ 0
      ⟨[], [], rfl, rfl⟩ 3 []

end Restack
