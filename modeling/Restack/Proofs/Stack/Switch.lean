import Restack.Proofs.Bytes
import Restack.Stack.Switch

set_option autoImplicit false

namespace Restack.Switch

def targetOf (s : Switch) (key : Int32) : UInt32 := (s.cases.pairs.lookup key).getD s.default

theorem mem_targets_iff (s : Switch) (target : UInt32) :
    target ∈ s.targets ↔ target = s.default ∨ target ∈ s.cases.pairs.map (·.2) := by
  have walk : ∀ (all : List UInt32) (found : Std.TreeMap UInt32 Unit),
      target ∈ all.foldl (fun ts t => ts.insert t ()) found ↔ target ∈ all ∨ target ∈ found := by
    intro all
    induction all with
    | nil => simp
    | cons t rest ih =>
      intro found
      rw [List.foldl_cons, ih, Std.TreeMap.mem_insert, List.mem_cons,
        Std.LawfulEqCmp.compare_eq_iff_eq]
      constructor
      · rintro (later | same | earlier)
        · exact Or.inl (Or.inr later)
        · exact Or.inl (Or.inl same.symm)
        · exact Or.inr earlier
      · rintro ((same | later) | earlier)
        · exact Or.inr (Or.inl same.symm)
        · exact Or.inl later
        · exact Or.inr (Or.inr earlier)
  rw [targets, Std.TreeMap.mem_keys, walk]
  simp [eq_comm]

def fillGaps (default : UInt32) (next : Int) : List (Int32 × UInt32) → List UInt32
  | [] => []
  | (key, target) :: rest =>
    List.replicate (key.toInt - next).toNat default ++ target ::
      fillGaps default (key.toInt + 1) rest

theorem repeat_push_toList (default : UInt32) (n : Nat) (ts : Array UInt32) :
    (n.repeat (·.push default) ts).toList = ts.toList ++ List.replicate n default := by
  induction n with
  | zero => simp [Nat.repeat]
  | succ n ih => rw [Nat.repeat, Array.toList_push, ih, List.append_assoc, List.replicate_succ']

theorem table_eq (s : Switch) : s.table = fillGaps s.default s.low.toInt s.cases.pairs := by
  have walk : ∀ (pairs : List (Int32 × UInt32)) (next : Int) (ts : Array UInt32),
      (pairs.foldl (fun acc pair =>
        (pair.1.toInt + 1, ((pair.1.toInt - acc.1).toNat.repeat (·.push s.default) acc.2).push
          pair.2)) (next, ts)).2.toList =
      ts.toList ++ fillGaps s.default next pairs := by
    intro pairs
    induction pairs with
    | nil => simp [fillGaps]
    | cons pair rest ih =>
      intro next ts
      obtain ⟨key, target⟩ := pair
      rw [List.foldl_cons, ih, Array.toList_push, repeat_push_toList, fillGaps]
      simp
  exact (walk s.cases.pairs s.low.toInt #[]).trans (List.nil_append _)

section

variable (default : UInt32) (next : Int) (pairs : List (Int32 × UInt32))
variable (ascending : pairs.Pairwise fun a b => a.1 < b.1)
  (least : ∀ pair ∈ pairs, next ≤ pair.1.toInt)
include default next pairs ascending least

theorem fillGaps_length (last : Int32 × UInt32) (is_last : pairs.getLast? = some last) :
    ((fillGaps default next pairs).length : Int) = last.1.toInt - next + 1 := by
  induction pairs generalizing next with
  | nil => cases is_last
  | cons pair rest ih =>
    obtain ⟨key, target⟩ := pair
    have from_next : next ≤ key.toInt := least (key, target) (by simp)
    obtain ⟨smallest, tail⟩ := List.pairwise_cons.1 ascending
    simp only [fillGaps, List.length_append, List.length_replicate, List.length_cons]
    cases rest with
    | nil =>
      have only : (key, target) = last := by simpa using is_last
      simp only [fillGaps, List.length_nil, ← only]
      omega
    | cons second others =>
      have later : ∀ pair ∈ second :: others, key.toInt + 1 ≤ pair.1.toInt := fun pair member => by
        have less := Int32.lt_iff_toInt_lt.1 (smallest pair member)
        exact less
      have rest_length := ih (key.toInt + 1) tail later (by simpa using is_last)
      omega

theorem fillGaps_getElem? (key : Int32) (i : Nat) (place : key.toInt = next + i)
    (inside : i < (fillGaps default next pairs).length) :
    (fillGaps default next pairs)[i]? = some ((pairs.lookup key).getD default) := by
  induction pairs generalizing next i with
  | nil => simp [fillGaps] at inside
  | cons pair rest ih =>
    obtain ⟨first, target⟩ := pair
    have from_next : next ≤ first.toInt := least (first, target) (by simp)
    obtain ⟨smallest, tail⟩ := List.pairwise_cons.1 ascending
    simp only [fillGaps] at inside ⊢
    rcases Nat.lt_trichotomy i (first.toInt - next).toNat with before | here | after
    · -- A key in the gap before the first case has no case.
      have absent : ∀ pair ∈ (first, target) :: rest, (key != pair.1) = true := by
        intro pair member
        have above : first.toInt ≤ pair.1.toInt := by
          rcases List.mem_cons.1 member with rfl | later
          · exact Int.le_refl _
          · exact Int.le_of_lt (Int32.lt_iff_toInt_lt.1 (smallest pair later))
        rw [bne_iff_ne]
        intro same
        rw [same] at place
        omega
      rw [List.getElem?_append_left (by simpa using before), List.getElem?_replicate_of_lt before,
        List.lookup_eq_none_iff.2 absent]
      rfl
    · have same : key = first := Int32.toInt_inj.1 (by omega)
      rw [List.getElem?_append_right (by simp [here]), here, List.length_replicate, Nat.sub_self,
        List.getElem?_cons_zero, same, List.lookup_cons_self]
      rfl
    · have later : ∀ pair ∈ rest, first.toInt + 1 ≤ pair.1.toInt :=
        fun pair member => Int32.lt_iff_toInt_lt.1 (smallest pair member)
      have different : (key == first) = false := by
        rw [beq_eq_false_iff_ne]
        intro same
        rw [same] at place
        omega
      have step : i - (first.toInt - next).toNat = (i - (first.toInt - next).toNat - 1) + 1 := by
        omega
      simp only [List.length_append, List.length_replicate, List.length_cons] at inside
      rw [List.getElem?_append_right (by simpa using Nat.le_of_lt after),
        List.length_replicate, step,
        List.getElem?_cons_succ, ih (first.toInt + 1) tail later _ (by omega) (by omega),
        List.lookup_cons, different]

end

theorem low_eq_of_head {s : Switch} {first : Int32 × UInt32}
    (is_first : s.cases.pairs.head? = some first) :
    s.low = first.1 := by
  simp [low, is_first]

theorem high_eq_of_last {s : Switch} {last : Int32 × UInt32}
    (is_last : s.cases.pairs.getLast? = some last) :
    s.high = last.1 := by
  simp [high, is_last]

theorem low_le_of_mem (s : Switch) (pair : Int32 × UInt32) (member : pair ∈ s.cases.pairs) :
    s.low.toInt ≤ pair.1.toInt := by
  have ascending := s.cases.ascending
  cases pairs : s.cases.pairs with
  | nil => simp [pairs] at member
  | cons first rest =>
    have is_first : s.cases.pairs.head? = some first := by simp [pairs]
    rw [low_eq_of_head is_first]
    rw [pairs] at member ascending
    rcases List.mem_cons.1 member with rfl | later
    · exact Int.le_refl _
    · exact Int.le_of_lt (Int32.lt_iff_toInt_lt.1 ((List.pairwise_cons.1 ascending).1 pair later))

theorem table_length (s : Switch) (some_case : s.cases.pairs ≠ []) :
    (s.table.length : Int) = s.high.toInt - s.low.toInt + 1 := by
  obtain ⟨last, is_last⟩ := Option.isSome_iff_exists.1 (List.getLast?_isSome.2 some_case)
  rw [table_eq, fillGaps_length _ _ _ s.cases.ascending s.low_le_of_mem last is_last,
    high_eq_of_last is_last]

theorem table_getElem? (s : Switch) (some_case : s.cases.pairs ≠ []) (key : Int32)
    (lower : s.low ≤ key) (upper : key ≤ s.high) :
    s.table[(key.toInt - s.low.toInt).toNat]? = some (s.targetOf key) := by
  have length := s.table_length some_case
  have from_low := Int32.le_iff_toInt_le.1 lower
  have to_high := Int32.le_iff_toInt_le.1 upper
  rw [table_eq] at length ⊢
  exact fillGaps_getElem? _ _ _ s.cases.ascending s.low_le_of_mem key _ (by omega) (by omega)

theorem isTable_some_case (s : Switch) (table : s.isTable = true) : s.cases.pairs ≠ [] := by
  intro empty
  simp [isTable, listSize, empty] at table

def offsetBytes (offset : UInt32 → Int) (target : UInt32) : Bytes :=
  Bytes.ofUInt32 (Int32.ofInt (offset target)).toUInt32

def caseBytes (offset : UInt32 → Int) (pair : Int32 × UInt32) : Bytes :=
  Bytes.ofUInt32 pair.1.toUInt32 ++ offsetBytes offset pair.2

@[simp] theorem offsetBytes_length (offset : UInt32 → Int) (target : UInt32) :
    (offsetBytes offset target).length = 4 := rfl

@[simp] theorem caseBytes_length (offset : UInt32 → Int) (pair : Int32 × UInt32) :
    (caseBytes offset pair).length = 8 := rfl

section

variable (s : Switch) (position : Nat) (offset : UInt32 → Int)

theorem encode_table (table : s.isTable = true) :
    s.encode position offset = Op.tableswitch :: (List.replicate (padding position) 0 ++
      (offsetBytes offset s.default ++ (Bytes.ofUInt32 s.low.toUInt32 ++
        (Bytes.ofUInt32 s.high.toUInt32 ++ s.table.flatMap (offsetBytes offset))))) := by
  simp only [encode, table, ↓reduceIte, List.append_assoc, List.cons_append]
  rfl

theorem encode_list (list : s.isTable = false) :
    s.encode position offset = Op.lookupswitch :: (List.replicate (padding position) 0 ++
      (offsetBytes offset s.default ++ (Bytes.ofUInt32 s.cases.pairs.length.toUInt32 ++
        s.cases.pairs.flatMap (caseBytes offset)))) := by
  simp only [encode, list, Bool.false_eq_true, ↓reduceIte, List.append_assoc, List.cons_append]
  rfl

theorem encode_length : (s.encode position offset).length = padding position + s.unpaddedSize := by
  cases form : s.isTable with
  | true =>
    have entries := s.table_length (s.isTable_some_case form)
    rw [encode_table s position offset form]
    simp only [List.length_cons, List.length_append, List.length_replicate, Bytes.ofUInt32_length,
      offsetBytes_length, Bytes.flatMap_length _ 4 (offsetBytes_length offset), unpaddedSize, form,
      ↓reduceIte, tableSize]
    omega
  | false =>
    rw [encode_list s position offset form]
    simp only [List.length_cons, List.length_append, List.length_replicate, Bytes.ofUInt32_length,
      offsetBytes_length, Bytes.flatMap_length _ 8 (caseBytes_length offset), unpaddedSize, form,
      Bool.false_eq_true, ↓reduceIte, listSize]
    omega

end

/-- The four bytes at `place` are the offset from `position` to where `target` is placed. -/
def Leads (code : Bytes) (position place : Nat) (placed : UInt32 → Nat → Prop) (target : UInt32) :
    Prop :=
  ∃ destination offset, placed target destination ∧ code.int32At place = some offset ∧
    (position : Int) + offset = (destination : Nat)

/-- The bytes at `position` are the switch, with every offset leading to where its target is placed.
Operands start after the padding. -/
structure Dispatches (s : Switch) (code : Bytes) (position : Nat) (placed : UInt32 → Nat → Prop) :
    Prop where
  opcode : code[position]? = some (if s.isTable then Op.tableswitch else Op.lookupswitch)
  aligned : (position + 1 + padding position) % 4 = 0
  default : Leads code position (position + 1 + padding position) placed s.default
  table : s.isTable = true →
    code.int32At (position + 1 + padding position + 4) = some s.low.toInt ∧
    code.int32At (position + 1 + padding position + 8) = some s.high.toInt ∧
    ∀ key, s.low ≤ key → key ≤ s.high →
      Leads code position
        (position + 1 + padding position + 12 + 4 * (key.toInt - s.low.toInt).toNat) placed
        (s.targetOf key)
  list : s.isTable = false →
    ∀ i key target, s.cases.pairs[i]? = some (key, target) →
      code.int32At (position + 1 + padding position + 8 + 8 * i) = some key.toInt ∧
      Leads code position (position + 1 + padding position + 12 + 8 * i) placed target

theorem padding_aligns (position : Nat) : (position + 1 + padding position) % 4 = 0 := by
  unfold padding
  omega

theorem leads_of_standsAt {code : Bytes} {position place : Nat} {placeOf : UInt32 → Nat}
    {placed : UInt32 → Nat → Prop} {target : UInt32}
    (there : code.StandsAt place (offsetBytes (fun t => (placeOf t : Int) - position) target))
    (found : placed target (placeOf target)) (inside : placeOf target ≤ code.length)
    (before : position ≤ code.length) (bounded : code.length < 2 ^ 31) :
    Leads code position place placed target :=
  ⟨placeOf target, (placeOf target : Int) - position, found,
    Bytes.int32At_of_offset there (by omega) (by omega), by omega⟩

theorem encode_dispatches (s : Switch) {code : Bytes} {position : Nat} {placeOf : UInt32 → Nat}
    {placed : UInt32 → Nat → Prop}
    (there : code.StandsAt position (s.encode position fun t => (placeOf t : Int) - position))
    (found : ∀ t, t = s.default ∨ t ∈ s.cases.pairs.map (·.2) → placed t (placeOf t) ∧
      placeOf t ≤ code.length)
    (bounded : code.length < 2 ^ 31) : Dispatches s code position placed := by
  have before : position ≤ code.length := Nat.le_of_add_right_le there.le_length
  have leads : ∀ {place target}, target = s.default ∨ target ∈ s.cases.pairs.map (·.2) →
      code.StandsAt place (offsetBytes (fun t => (placeOf t : Int) - position) target) →
      Leads code position place placed target := fun known written =>
    leads_of_standsAt written (found _ known).1 (found _ known).2 before bounded
  cases form : s.isTable with
  | true =>
    rw [encode_table s position _ form] at there
    have operands := there.tail.right
    simp only [List.length_replicate] at operands
    have low := operands.right
    have high := low.right
    have entries := high.right
    refine ⟨by simp [form, there.head], padding_aligns position, leads (Or.inl rfl) operands.left,
      fun _ => ⟨Bytes.int32At_of_standsAt low.left, Bytes.int32At_of_standsAt high.left, ?_⟩,
      fun list => ?_⟩
    · intro key lower upper
      have entry := s.table_getElem? (s.isTable_some_case form) key lower upper
      have known : s.targetOf key = s.default ∨ s.targetOf key ∈ s.cases.pairs.map (·.2) := by
        unfold targetOf
        cases case : s.cases.pairs.lookup key with
        | none => exact Or.inl rfl
        | some target =>
          obtain ⟨first, rest, split, _⟩ := List.lookup_eq_some_iff.1 case
          exact Or.inr (List.mem_map.2 ⟨(key, target), by simp [split], rfl⟩)
      exact leads known (entries.piece _ (offsetBytes_length _) entry)
    · rw [form] at list
      cases list
  | false =>
    rw [encode_list s position _ form] at there
    have operands := there.tail.right
    simp only [List.length_replicate] at operands
    have entries := operands.right.right
    refine ⟨by simp [form, there.head], padding_aligns position, leads (Or.inl rfl) operands.left,
      fun table => ?_, fun _ => ?_⟩
    · rw [form] at table
      cases table
    · intro i key target case
      have entry := entries.piece _ (caseBytes_length _) case
      have known : target ∈ s.cases.pairs.map (·.2) :=
        List.mem_map.2 ⟨(key, target), List.mem_of_getElem? case, rfl⟩
      refine ⟨Bytes.int32At_of_standsAt entry.left, leads (Or.inr known) ?_⟩
      have offset := entry.right
      rwa [show position + 1 + padding position + 12 + 8 * i =
        position + 1 + padding position + 4 + 4 + 8 * i + 4 by omega]

end Restack.Switch
