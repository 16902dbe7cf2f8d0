import Mathlib.Data.List.Nodup
import Restack.Literal.Table
import Restack.Proofs.FloatFormat

set_option autoImplicit false

namespace Restack

namespace Short

section Candidates

variable {κ α : Type} [BEq κ] [LawfulBEq κ] {candidates rest : List (κ × Bytes)} {x y : κ}
  {code : Bytes}

theorem mem_of_lookup (found : candidates.lookup y = some code) : (y, code) ∈ candidates := by
  obtain ⟨before, after, rfl, -⟩ := List.lookup_eq_some_iff.1 found
  exact List.mem_append_right _ List.mem_cons_self

theorem lookup_filter (keep : κ → Bool) (kept : keep y = true) (candidates : List (κ × Bytes)) :
    (candidates.filter fun candidate => keep candidate.1).lookup y = candidates.lookup y := by
  induction candidates with
  | nil => rfl
  | cons candidate rest ih =>
    rw [List.filter_cons, List.lookup_cons]
    split
    next => rw [List.lookup_cons, ih]
    next dropped =>
      have other : (y == candidate.1) = false := by
        rw [beq_eq_false_iff_ne]
        rintro rfl
        exact dropped kept
      rw [other, ih]

theorem lookup_cons_ite [DecidableEq κ] (x : κ) (code : Bytes) (rest : List (κ × Bytes)) (y : κ) :
    ((x, code) :: rest).lookup y = if y = x then some code else rest.lookup y := by
  rw [List.lookup_cons]
  split
  next same => rw [if_pos (eq_of_beq same)]
  next other => rw [if_neg (ne_of_beq_false other)]

omit [LawfulBEq κ] in
theorem lookup_map (l : List α) (key : α → κ) (make : α → Bytes) (y : κ) :
    (l.map fun a => (key a, make a)).lookup y = (l.find? fun a => y == key a).map make := by
  induction l with
  | nil => rfl
  | cons a rest ih =>
    rw [List.map_cons, List.lookup_cons, List.find?_cons, ih]
    cases y == key a <;> rfl

theorem lookup_map_congr {κ' : Type} [BEq κ'] [LawfulBEq κ'] {l : List α} {key : α → κ}
    {key' : α → κ'} {y : κ} {y' : κ'} (make : α → Bytes) (same : ∀ a ∈ l, y = key a ↔ y' = key' a) :
    (l.map fun a => (key a, make a)).lookup y = (l.map fun a => (key' a, make a)).lookup y' := by
  induction l with
  | nil => rfl
  | cons a rest ih =>
    have head : (y == key a) = (y' == key' a) := by
      rw [Bool.eq_iff_iff, beq_iff_eq, beq_iff_eq]
      exact same a List.mem_cons_self
    rw [List.map_cons, List.map_cons, List.lookup_cons, List.lookup_cons, head,
      ih fun b member => same b (List.mem_cons_of_mem _ member)]

theorem lookup_map_self [DecidableEq κ] (l : List κ) (make : κ → Bytes) (y : κ) :
    (l.map fun x => (x, make x)).lookup y = if y ∈ l then some (make y) else none := by
  induction l with
  | nil => rfl
  | cons x rest ih =>
    rw [List.map_cons, lookup_cons_ite, ih]
    by_cases same : y = x <;> simp [same]

variable [Hashable κ] {t u : Std.HashMap κ Bytes} {n : Nat}

theorem getElem?_add (longer : ∀ old, t[x]? = some old → old.length ≤ code.length) (y : κ) :
    (add t x code)[y]? = t[y]?.or (if x == y then some code else none) := by
  unfold add
  split
  next old known =>
    rw [if_neg (Nat.not_lt.2 (longer old known))]
    split
    next same =>
      rw [← eq_of_beq same, known]
      rfl
    next => simp
  next absent =>
    rw [Std.HashMap.getElem?_insert]
    split
    next same =>
      rw [← eq_of_beq same, absent]
      rfl
    next => simp

/-- No candidate is shorter than a code that is there before it. -/
structure InOrder (t : Std.HashMap κ Bytes) (candidates : List (κ × Bytes)) : Prop where
  known : ∀ candidate ∈ candidates, ∀ old, t[candidate.1]? = some old →
    old.length ≤ candidate.2.length
  pairwise : candidates.Pairwise fun a b => a.1 = b.1 → a.2.length ≤ b.2.length

theorem InOrder.getElem?_head {candidate : κ × Bytes} (inOrder : InOrder t (candidate :: rest))
    (y : κ) :
    (add t candidate.1 candidate.2)[y]? =
      t[y]?.or (if candidate.1 == y then some candidate.2 else none) :=
  getElem?_add (inOrder.known _ List.mem_cons_self) y

theorem InOrder.tail {candidate : κ × Bytes} (inOrder : InOrder t (candidate :: rest)) :
    InOrder (add t candidate.1 candidate.2) rest := by
  refine ⟨fun later member old found => ?_, inOrder.pairwise.of_cons⟩
  rw [inOrder.getElem?_head] at found
  rcases Option.or_eq_some_iff.1 found with known | ⟨-, added⟩
  · exact inOrder.known _ (List.mem_cons_of_mem _ member) old known
  · split at added
    next same =>
      cases added
      exact List.rel_of_pairwise_cons inOrder.pairwise member (eq_of_beq same)
    next => cases added

omit [LawfulBEq κ] in
theorem addAll_nil (t : Std.HashMap κ Bytes) : addAll t [] = t := rfl

omit [LawfulBEq κ] in
theorem addAll_cons (t : Std.HashMap κ Bytes) (candidate : κ × Bytes) (rest : List (κ × Bytes)) :
    addAll t (candidate :: rest) = addAll (add t candidate.1 candidate.2) rest := rfl

omit [LawfulBEq κ] in
theorem addAll_append (t : Std.HashMap κ Bytes) (candidates rest : List (κ × Bytes)) :
    addAll t (candidates ++ rest) = addAll (addAll t candidates) rest := List.foldl_append

/-- The first candidate for a number is the one that is kept. -/
theorem getElem?_addAll (inOrder : InOrder t candidates) (y : κ) :
    (addAll t candidates)[y]? = t[y]?.or (candidates.lookup y) := by
  induction candidates generalizing t with
  | nil => simp [addAll]
  | cons candidate rest ih =>
    rw [addAll_cons, ih inOrder.tail, inOrder.getElem?_head, Option.or_assoc,
      List.lookup_cons, BEq.comm]
    cases y == candidate.1 <;> rfl

/-- The table has these codes, and none of them is longer than so many bytes. -/
structure Holds (n : Nat) (t : Std.HashMap κ Bytes) (code? : κ → Option Bytes) : Prop where
  codes : ∀ x : κ, t[x]? = code? x
  short : ∀ x code, code? x = some code → code.length ≤ n

namespace Holds

variable {code? : κ → Option Bytes}

theorem addAll (holds : Holds n t code?) (candidates : List (κ × Bytes))
    (same : ∀ candidate ∈ candidates, candidate.2.length = n) :
    Holds n (addAll t candidates) fun x => (code? x).or (candidates.lookup x) := by
  have inOrder : InOrder t candidates := by
    refine ⟨fun candidate member old known => ?_, ?_⟩
    · rw [holds.codes] at known
      exact same _ member ▸ holds.short _ _ known
    · refine List.pairwise_of_forall_mem_list fun a first b second _ => Nat.le_of_eq ?_
      rw [same a first, same b second]
  refine ⟨fun x => by rw [getElem?_addAll inOrder, holds.codes], fun x code found => ?_⟩
  rcases Option.or_eq_some_iff.1 found with known | ⟨-, added⟩
  · exact holds.short x code known
  · exact Nat.le_of_eq (same _ (mem_of_lookup added))

theorem addEach (holds : Holds n t code?) (l : List α)
    (make : Std.HashMap κ Bytes → α → List (κ × Bytes)) (fixed : α → List (κ × Bytes))
    (same : ∀ a ∈ l, ∀ candidate ∈ fixed a, candidate.2.length = n)
    (made : ∀ a ∈ l, ∀ u : Std.HashMap κ Bytes,
      (∀ (x : κ) code, code? x = some code → u[x]? = some code) → make u a = fixed a) :
    Holds n (addEach t l make) fun x => (code? x).or ((l.flatMap fixed).lookup x) := by
  induction l generalizing t code? with
  | nil => exact ⟨fun x => (holds.codes x).trans (Option.or_none).symm, by simpa using holds.short⟩
  | cons a l ih =>
    have first := made a List.mem_cons_self t fun x code known => (holds.codes x).trans known
    have added := holds.addAll _ (same a List.mem_cons_self)
    have rest := ih added (fun b member => same b (List.mem_cons_of_mem _ member))
      fun b member u kept =>
      made b (List.mem_cons_of_mem _ member) u fun x code known => kept x code (by rw [known]; rfl)
    change Holds n (Short.addEach (Short.addAll t (make t a)) l make) _
    rw [first]
    simpa only [List.flatMap_cons, List.lookup_append, Option.or_assoc] using rest

end Holds

end Candidates

theorem keysOfLength_eq {t : Std.HashMap Int32 Bytes} {m n : Nat} {code? : Int32 → Option Bytes}
    {l : List Int32} (holds : Holds m t code?) (sorted : l.Pairwise (· < ·))
    (members : ∀ x, x ∈ l ↔ ∃ code, code? x = some code ∧ code.length = n) :
    keysOfLength t n = l := by
  have distinct : ((t.toList.filter fun entry => entry.2.length = n).map (·.1)).Nodup := by
    rw [List.Nodup, List.pairwise_map]
    exact (t.distinct_keys_toList.imp fun different => by simpa using different).filter _
  have ascending : (keysOfLength t n).Pairwise (· ≤ ·) := by
    refine (List.pairwise_mergeSort ?_ ?_ _).imp of_decide_eq_true
    · simpa using fun a b c => Int32.le_trans
    · simpa using Int32.le_total
  refine List.Perm.eq_of_pairwise (fun a b _ _ => Int32.le_antisymm) ascending
    (sorted.imp Int32.le_of_lt) ?_
  refine (List.mergeSort_perm _ _).trans
    ((List.perm_ext_iff_of_nodup distinct (sorted.imp Int32.ne_of_lt)).2 fun x => ?_)
  rw [members]
  simp only [List.mem_map, List.mem_filter, decide_eq_true_eq, Prod.exists, exists_and_right,
    exists_eq_right, Std.HashMap.mem_toList_iff_getElem?_eq_some, holds.codes]

section Span

variable {first x : Int32} (last : Int32) {count : Nat}
  (ends : last.toInt + 1 = first.toInt + count)
include ends

theorem toInt_add_ofNat {k : Nat} (inside : k < count) :
    (first + .ofNat k).toInt = first.toInt + k := by
  have lower := first.le_toInt
  have upper := last.toInt_lt
  rw [Int32.toInt_add, Int32.toInt_ofNat', show ((2 : Nat) ^ 32) = Int32.size from rfl,
    Int.add_bmod_bmod]
  exact Int.bmod_eq_of_le (by simp only [Int32.size]; omega) (by simp only [Int32.size]; omega)

theorem mem_span : x ∈ span first count ↔ first ≤ x ∧ x ≤ last := by
  rw [Int32.le_iff_toInt_le, Int32.le_iff_toInt_le]
  simp only [span, List.mem_map, List.mem_range]
  constructor
  · rintro ⟨k, inside, rfl⟩
    rw [toInt_add_ofNat last ends inside]
    omega
  · rintro ⟨lower, upper⟩
    have inside : (x.toInt - first.toInt).toNat < count := by omega
    refine ⟨_, inside, Int32.toInt_inj.1 ?_⟩
    rw [toInt_add_ofNat last ends inside]
    omega

theorem pairwise_span : (span first count).Pairwise (· < ·) := by
  rw [span, List.pairwise_map]
  refine List.pairwise_lt_range.imp_of_mem fun {j k} earlier later less => ?_
  rw [List.mem_range] at earlier later
  rw [Int32.lt_iff_toInt_lt, toInt_add_ofNat last ends earlier, toInt_add_ofNat last ends later]
  omega

theorem lookup_span (make : Int32 → Bytes) :
    ((span first count).map fun x => (x, make x)).lookup x = if first ≤ x ∧
    x ≤ last then some (make x) else none := by
  rw [lookup_map_self]
  simp only [mem_span last ends]

end Span

def ones : List Int32 := span (-1) 7

def twos : List Int32 := span (-128) 127 ++ span 6 122 ++ [65535]

def one? (x : Int32) : Option Bytes :=
  if -1 ≤ x ∧ x ≤ 5 then some [Op.iconst0 + x.toInt8.toUInt8] else none

theorem one?_of_mem {x : Int32} (member : x ∈ ones) :
    one? x = some [Op.iconst0 + x.toInt8.toUInt8] :=
  if_pos ((mem_span 5 (by decide)).1 member)

theorem holds_oneByte : Holds 1 oneByte one? := by
  have empty : Holds 1 (∅ : Std.HashMap Int32 Bytes) fun _ => none := ⟨by simp, by simp⟩
  have added :=
    empty.addAll ((span (-1) 7).map fun x => (x, [Op.iconst0 + x.toInt8.toUInt8])) (by simp)
  simp only [lookup_span 5 (show (5 : Int32).toInt + 1 = (-1 : Int32).toInt + 7 by decide),
    Option.none_or] at added
  exact added

theorem keysOfLength_oneByte : keysOfLength oneByte 1 = ones := by
  refine keysOfLength_eq holds_oneByte (pairwise_span 5 (by decide)) fun x => ?_
  rw [ones, mem_span 5 (by decide), one?]
  constructor
  · intro small
    exact ⟨_, if_pos small, rfl⟩
  · rintro ⟨code, found, -⟩
    split at found
    next small => exact small
    next => cases found

def oneChars : List (Int32 × Bytes) :=
  ones.flatMap fun x => [(low16 x, [Op.iconst0 + x.toInt8.toUInt8, Op.i2c])]

theorem tiny?_eq (x : Int32) :
    tiny? x =
      ((one? x).or (if -128 ≤ x ∧ x ≤ 127 then some [Op.bipush, x.toInt8.toUInt8] else none)).or
      (oneChars.lookup x) := by
  unfold tiny? one?
  split
  next => rfl
  next =>
    split
    next => rfl
    next large =>
      have rest : oneChars.filter (fun candidate => ¬ (-128 ≤ candidate.1 ∧ candidate.1 ≤ 127)) =
        [(65535, [Op.iconstM1, Op.i2c])] := by decide
      rw [← lookup_filter (fun y : Int32 => ¬ (-128 ≤ y ∧ y ≤ 127)) (decide_eq_true large) oneChars,
        rest, lookup_cons_ite]
      rfl

theorem holds_twoBytes : Holds 2 (twoBytes ones oneByte) tiny? := by
  have start : Holds 2 oneByte one? := ⟨holds_oneByte.codes, fun x code found =>
    Nat.le_succ_of_le (holds_oneByte.short x code found)⟩
  have bytes :=
    start.addAll ((span (-128) 256).map fun x => (x, [Op.bipush, x.toInt8.toUInt8])) (by simp)
  have chars := bytes.addEach ones (fun t x => [(low16 x, t.getD x [] ++ [Op.i2c])])
    (fun x => [(low16 x, [Op.iconst0 + x.toInt8.toUInt8, Op.i2c])]) (by simp)
      fun x member u kept => by
      rw [Std.HashMap.getD_eq_getD_getElem?, kept x _ (by rw [one?_of_mem member]; rfl)]
      rfl
  simp only [lookup_span 127 (show (127 : Int32).toInt + 1 = (-128 : Int32).toInt + 256 by decide)]
    at chars
  rw [show tiny? = _ from funext tiny?_eq]
  exact chars

theorem tiny?_toInt (x : Int32) : tiny? x =
    if -1 ≤ x.toInt ∧ x.toInt ≤ 5 then some [Op.iconst0 + x.toInt8.toUInt8]
    else if -128 ≤ x.toInt ∧ x.toInt ≤ 127 then some [Op.bipush, x.toInt8.toUInt8]
    else if x.toInt = 65535 then some [Op.iconstM1, Op.i2c]
    else none := by
  simp only [tiny?, Int32.le_iff_toInt_le, ← Int32.toInt_inj]
  rfl

theorem mem_twos {x : Int32} : x ∈ twos ↔ ∃ code, tiny? x = some code ∧ code.length = 2 := by
  rw [twos, List.mem_append, List.mem_append, mem_span (-2) (by decide), mem_span 127 (by decide),
    List.mem_singleton]
  simp only [Int32.le_iff_toInt_le, ← Int32.toInt_inj]
  change ((-128 ≤ x.toInt ∧ x.toInt ≤ -2) ∨ (6 ≤ x.toInt ∧ x.toInt ≤ 127)) ∨ x.toInt = 65535 ↔ _
  rw [tiny?_toInt]
  split_ifs <;> simp <;> omega

def tinyCode (x : Int32) : Bytes := (tiny? x).getD []

theorem tiny?_of_mem_ones {x : Int32} (member : x ∈ ones) :
    tiny? x = some (tinyCode x) ∧ (tinyCode x).length = 1 := by
  have found : tiny? x = some [Op.iconst0 + x.toInt8.toUInt8] :=
    if_pos ((mem_span 5 (by decide)).1 member)
  rw [tinyCode, found]
  exact ⟨rfl, rfl⟩

theorem tiny?_of_mem_twos {x : Int32} (member : x ∈ twos) :
    tiny? x = some (tinyCode x) ∧ (tinyCode x).length = 2 := by
  obtain ⟨code, found, two⟩ := mem_twos.1 member
  rw [tinyCode, found]
  exact ⟨rfl, two⟩

def twoChars : List (Int32 × Bytes) :=
  twos.flatMap fun x => [(low16 x, tinyCode x ++ [Op.i2c]), (-x, tinyCode x ++ [Op.ineg])]

def shifts : List (Int32 × Bytes) :=
  (ones.flatMap fun x => ones.map fun y => (x, y)).flatMap fun operands =>
    shifted (tinyCode operands.1 ++ tinyCode operands.2) operands.1 operands.2

def beyond (x : Int32) : Bool := ¬ (-32768 ≤ x ∧ x ≤ 32767)

theorem twoChars_beyond : twoChars.filter (fun candidate => beyond candidate.1) =
    ((span 65408 127).map fun x => (x, [Op.bipush, x.toInt8.toUInt8, Op.i2c])) ++
      [(65535, [Op.iconstM1, Op.i2c, Op.i2c]), (-65535, [Op.iconstM1, Op.i2c, Op.ineg])] := by
  decide +kernel

theorem shifts_beyond : shifts.filter (fun candidate => beyond candidate.1) =
    ((-2147483648 : Int32), [Op.iconstM1, Op.iconstM1, Op.ishl]) ::
      (([1, 2, 3, 4, 5] : List UInt8).map fun k =>
        (((-1 : UInt32) >>> k.toUInt32).toInt32, [Op.iconstM1, Op.iconst0 + k, Op.iushr])) ++
      ([1, 3, 5] : List UInt8).map fun x =>
        ((-2147483648 : Int32), [Op.iconst0 + x, Op.iconstM1, Op.ishl]) := by
  decide +kernel

theorem leadingZeros?_eq (x : Int32) :
    leadingZeros? x = ([1, 2, 3, 4, 5] : List UInt8).find? fun k =>
      x == ((-1 : UInt32) >>> k.toUInt32).toInt32 := by
  have same : (fun k : UInt8 => decide (x.toUInt32 = (-1 : UInt32) >>> k.toUInt32)) =
      fun k => x == ((-1 : UInt32) >>> k.toUInt32).toInt32 := by
    funext k
    exact decide_eq_decide.2 ⟨fun ones => by rw [← ones, Int32.toInt32_toUInt32], fun ones => by
      rw [ones, UInt32.toUInt32_toInt32]⟩
  rw [leadingZeros?, same]

theorem int?_eq (x : Int32) : int? x =
    (((tiny? x).or
      (if -32768 ≤ x ∧ x ≤ 32767 then some (Op.sipush :: Bytes.ofUInt16 x.toInt16.toUInt16)
        else none)).or
      (twoChars.lookup x)).or (shifts.lookup x) := by
  unfold int?
  split
  next code tiny =>
    rw [tiny]
    rfl
  next tiny =>
    rw [tiny]
    split
    next => rfl
    next large =>
      have far : beyond x = true := decide_eq_true large
      have char : x ≠ 65535 := by
        rintro rfl
        cases tiny
      rw [← lookup_filter beyond far twoChars, twoChars_beyond, List.lookup_append,
        lookup_span 65534 (by decide), lookup_cons_ite, if_neg char, lookup_cons_ite]
      rw [← lookup_filter beyond far shifts, shifts_beyond, List.lookup_append, lookup_cons_ite,
        lookup_map, lookup_map, ← leadingZeros?_eq]
      split
      next => rfl
      next =>
        split
        next => rfl
        next =>
          split
          next => rfl
          next least =>
            rw [List.find?_eq_none.2 fun _ _ => by simpa using least]
            exact Option.or_none.symm

theorem holds_threeBytes : Holds 3 (threeBytes ones twos (twoBytes ones oneByte)) int? := by
  have start : Holds 3 (twoBytes ones oneByte) tiny? := ⟨holds_twoBytes.codes, fun x code found =>
    Nat.le_succ_of_le (holds_twoBytes.short x code found)⟩
  have words := start.addAll
    ((span (-32768) 65536).map fun x => (x, Op.sipush :: Bytes.ofUInt16 x.toInt16.toUInt16))
      (by simp [Bytes.ofUInt16])
  have chars :=
    words.addEach twos
      (fun t x => [(low16 x, t.getD x [] ++ [Op.i2c]), (-x, t.getD x [] ++ [Op.ineg])])
    (fun x => [(low16 x, tinyCode x ++ [Op.i2c]), (-x, tinyCode x ++ [Op.ineg])])
    (fun x member => by simp [(tiny?_of_mem_twos member).2]) fun x member u kept => by
      rw [Std.HashMap.getD_eq_getD_getElem?, kept x _ (by rw [(tiny?_of_mem_twos member).1]; rfl),
        Option.getD_some]
  have last := chars.addEach (ones.flatMap fun x => ones.map fun y => (x, y))
    (fun t operands => shifted (t.getD operands.1 [] ++ t.getD operands.2 []) operands.1 operands.2)
    (fun operands => shifted (tinyCode operands.1 ++ tinyCode operands.2) operands.1 operands.2)
    (fun operands member => by
      simp only [List.mem_flatMap, List.mem_map] at member
      obtain ⟨x, first, y, second, rfl⟩ := member
      simp [shifted, (tiny?_of_mem_ones first).2, (tiny?_of_mem_ones second).2])
        fun operands member u kept => by
      simp only [List.mem_flatMap, List.mem_map] at member
      obtain ⟨x, first, y, second, rfl⟩ := member
      rw [Std.HashMap.getD_eq_getD_getElem?, Std.HashMap.getD_eq_getD_getElem?,
        kept x _ (by rw [(tiny?_of_mem_ones first).1]; rfl),
        kept y _ (by rw [(tiny?_of_mem_ones second).1]; rfl)]
      rfl
  simp only [lookup_span 32767
    (show (32767 : Int32).toInt + 1 = (-32768 : Int32).toInt + 65536 by decide)] at last
  rw [show int? = _ from funext int?_eq]
  exact last

theorem keysOfLength_twoBytes : keysOfLength (twoBytes ones oneByte) 2 = twos := by
  refine keysOfLength_eq holds_twoBytes ?_ fun x => mem_twos
  refine List.pairwise_append.2
    ⟨List.pairwise_append.2 ⟨pairwise_span (-2) (by decide), pairwise_span 127 (by decide), ?_⟩,
    List.pairwise_singleton _ _, ?_⟩
  · intro x first y second
    rw [mem_span (-2) (by decide)] at first
    rw [mem_span 127 (by decide)] at second
    exact Int32.lt_of_le_of_lt first.2 (Int32.lt_of_lt_of_le (by decide) second.1)
  · intro x member y last
    rw [List.mem_singleton.1 last]
    rw [List.mem_append, mem_span (-2) (by decide), mem_span 127 (by decide)] at member
    rcases member with ⟨-, upper⟩ | ⟨-, upper⟩ <;> exact Int32.lt_of_le_of_lt upper (by decide)

def small : List Int32 := ones ++ twos

theorem mem_small {x : Int32} : x ∈ small ↔ -128 ≤ x.toInt ∧ x.toInt ≤ 127 ∨ x.toInt = 65535 := by
  rw [small, ones, twos, List.mem_append, List.mem_append, List.mem_append, mem_span 5 (by decide),
    mem_span (-2) (by decide), mem_span 127 (by decide), List.mem_singleton]
  simp only [Int32.le_iff_toInt_le, ← Int32.toInt_inj]
  change (-1 ≤ x.toInt ∧ x.toInt ≤ 5) ∨
    ((-128 ≤ x.toInt ∧ x.toInt ≤ -2) ∨ (6 ≤ x.toInt ∧ x.toInt ≤ 127)) ∨
    x.toInt = 65535 ↔ _
  omega

theorem tiny?_eq_ite (x : Int32) : tiny? x = if x ∈ small then some (tinyCode x) else none := by
  split
  next member =>
    rcases List.mem_append.1 member with one | two
    · exact (tiny?_of_mem_ones one).1
    · exact (tiny?_of_mem_twos two).1
  next large =>
    cases found : tiny? x with
    | none => rfl
    | some code =>
      rw [tiny?_toInt] at found
      rw [mem_small] at large
      split_ifs at found <;> omega

theorem converted?_eq_lookup (x : Int) (conversion : UInt8) :
    converted? x conversion =
      (small.map fun y => (y.toInt, tinyCode y ++ [conversion])).lookup x := by
  unfold converted?
  split
  next range =>
    have value : (Int32.ofInt x).toInt = x := Int32.toInt_ofInt_of_le (by omega) (by omega)
    have same : ∀ y ∈ small, x = y.toInt ↔ Int32.ofInt x = y :=
      fun y _ => by rw [← Int32.toInt_inj, value]
    rw [lookup_map_congr _ same, lookup_map_self, tiny?_eq_ite]
    split <;> rfl
  next large =>
    rw [lookup_map, List.find?_eq_none.2]
    · rfl
    · intro y member
      rw [beq_iff_eq]
      rw [mem_small] at member
      omega

theorem pairwise_small {κ : Type} (key : Int32 → κ) (conversion : UInt8) :
    (small.map fun x => (key x, tinyCode x ++ [conversion])).Pairwise
      fun a b => a.1 = b.1 → a.2.length ≤ b.2.length := by
  rw [List.pairwise_map, small, List.pairwise_append]
  simp only [List.length_append]
  refine ⟨List.pairwise_of_forall_mem_list ?_, List.pairwise_of_forall_mem_list ?_, ?_⟩
  · intro x first y second _
    rw [(tiny?_of_mem_ones first).2, (tiny?_of_mem_ones second).2]
  · intro x first y second _
    rw [(tiny?_of_mem_twos first).2, (tiny?_of_mem_twos second).2]
  · intro x first y second _
    rw [(tiny?_of_mem_ones first).2, (tiny?_of_mem_twos second).2]
    exact Nat.add_le_add_right (by decide) _

theorem length_of_mem_map_small {κ : Type} {key : Int32 → κ} {conversion : UInt8}
    {candidate : κ × Bytes}
    (member : candidate ∈ small.map fun x => (key x, tinyCode x ++ [conversion])) :
    1 ≤ candidate.2.length ∧ candidate.2.length ≤ 3 := by
  obtain ⟨x, listed, rfl⟩ := List.mem_map.1 member
  rw [List.length_append, List.length_singleton]
  rcases List.mem_append.1 listed with one | two
  · rw [(tiny?_of_mem_ones one).2]
    decide
  · rw [(tiny?_of_mem_twos two).2]
    decide

def specials (f : FloatFormat) (ops : FloatOps) : List (Nat × Bytes) :=
  [(f.signBit, [ops.zero, ops.neg]), (f.nan, [ops.zero, ops.zero, ops.div]),
    (f.infinity, [ops.one, ops.zero, ops.div]),
    (f.signBit + f.infinity, [ops.one, ops.neg, ops.zero, ops.div])]

def realCandidates (f : FloatFormat) (ops : FloatOps) : List (Nat × Bytes) :=
  (f.ofInteger 0, [ops.zero]) :: (f.ofInteger 1, [ops.one]) ::
    (small.map fun x => (f.ofInteger x.toInt, tinyCode x ++ [ops.ofInt])) ++ specials f ops

theorem real?_eq (f : FloatFormat) (ops : FloatOps) {bits : Nat} (nonzero : bits ≠ 0) :
    real? f ops bits = ((specials f ops).lookup bits).or
      (if f.integer? bits = some 1 then some [ops.one] else (f.integer? bits).bind
        (converted? · ops.ofInt)) := by
  unfold real? specials
  rw [lookup_cons_ite, lookup_cons_ite, lookup_cons_ite, lookup_cons_ite, if_neg nonzero]
  generalize integers : (if f.integer? bits = some 1 then some [ops.one] else _) = rest
  split_ifs
  on_goal 5 =>
    subst integers
    split
    next found => rw [if_pos found]; rfl
    next x other found =>
      rw [found, if_neg fun same => other (Option.some.inj same)]
      rfl
    next found => rw [found]; rfl
  all_goals rfl

/-- The patterns of small integers stand for these, and for nothing else. -/
structure Apart (f : FloatFormat) : Prop where
  integer : ∀ x ∈ small, x ≠ 0 → f.integer? (f.ofInteger x.toInt) = some x.toInt
  special : ∀ bits ∈ [f.signBit, f.nan, f.infinity, f.signBit + f.infinity], ∀ x ∈ small, bits ≠
    f.ofInteger x.toInt

theorem apart_of_all {f : FloatFormat}
    (integers : small.all fun x => x == 0 || f.integer? (f.ofInteger x.toInt) == some x.toInt)
    (specials : small.all fun x =>
      !([f.signBit, f.nan, f.infinity, f.signBit + f.infinity].contains (f.ofInteger x.toInt))) :
    Apart f := by
  rw [List.all_eq_true] at integers specials
  constructor
  · intro x member nonzero
    simpa [nonzero] using integers x member
  · intro bits special x member same
    simpa [← same, special] using specials x member

-- Checked on the list: there is no going through all ints.
theorem apart_single : Apart .single := apart_of_all (by decide +kernel) (by decide +kernel)

theorem apart_double : Apart .double := apart_of_all (by decide +kernel) (by decide +kernel)

namespace Apart

variable {f : FloatFormat} (apart : Apart f) {bits : Nat} (ops : FloatOps)
include apart

theorem eq_ofInteger_iff (bound : bits < 2 * f.signBit) (nonzero : bits ≠ 0) {x : Int32}
    (member : x ∈ small) :
    bits = f.ofInteger x.toInt ↔ f.integer? bits = some x.toInt := by
  constructor
  · rintro rfl
    refine apart.integer x member ?_
    rintro rfl
    exact nonzero rfl
  · exact fun found => (FloatFormat.ofInteger_of_integer? bound found).symm

theorem lookup_map_small (bound : bits < 2 * f.signBit) (nonzero : bits ≠ 0) (conversion : UInt8) :
    (small.map fun x => (f.ofInteger x.toInt, tinyCode x ++ [conversion])).lookup bits =
      (f.integer? bits).bind (converted? · conversion) := by
  cases found : f.integer? bits with
  | none =>
    rw [lookup_map, List.find?_eq_none.2]
    · rfl
    · intro x member
      rw [beq_iff_eq, apart.eq_ofInteger_iff bound nonzero member, found]
      exact fun impossible => by cases impossible
  | some y =>
    have same : ∀ x ∈ small, bits = f.ofInteger x.toInt ↔ y = x.toInt := fun x member => by
      rw [apart.eq_ofInteger_iff bound nonzero member, found, Option.some_inj]
    rw [lookup_map_congr _ same, ← converted?_eq_lookup, Option.bind_some]

theorem ne_of_mem_specials {code : Bytes} (member : (bits, code) ∈ specials f ops) {x : Int32}
    (listed : x ∈ small) :
    bits ≠ f.ofInteger x.toInt := by
  refine apart.special bits ?_ x listed
  exact List.mem_map_of_mem (f := Prod.fst) member

theorem inOrder : InOrder ∅ (realCandidates f ops) := by
  have one_byte {candidate : Nat × Bytes}
      (member : candidate ∈ small.map fun x => (f.ofInteger x.toInt, tinyCode x ++ [ops.ofInt])) :
      1 ≤ candidate.2.length := (length_of_mem_map_small member).1
  have special {candidate : Nat × Bytes} (member : candidate ∈ specials f ops) :
      1 ≤ candidate.2.length := by
    revert candidate
    simp [specials]
  refine ⟨by simp,
    List.pairwise_append.2 ⟨List.pairwise_cons.2 ⟨fun candidate member _ => ?_, List.pairwise_cons.2
    ⟨fun candidate member _ => one_byte member, pairwise_small _ _⟩⟩, by simp [specials], ?_⟩⟩
  · rcases List.mem_cons.1 member with rfl | member
    · exact Nat.le_refl _
    · exact one_byte member
  · intro candidate first later last same
    rcases List.mem_cons.1 first with rfl | first
    · exact special last
    · rcases List.mem_cons.1 first with rfl | first
      · exact special last
      · obtain ⟨x, listed, rfl⟩ := List.mem_map.1 first
        exact absurd same.symm (apart.ne_of_mem_specials ops last listed)

theorem lookup_of_special {code : Bytes} (found : (specials f ops).lookup bits = some code) :
    (if bits = f.ofInteger 1 then some [ops.one]
      else (small.map fun x => (f.ofInteger x.toInt, tinyCode x ++ [ops.ofInt])).lookup bits) =
        none := by
  have member := mem_of_lookup found
  have one : bits ≠ f.ofInteger 1 := apart.ne_of_mem_specials (x := 1) ops member (by decide)
  rw [if_neg one, lookup_map,
    List.find?_eq_none.2 fun x listed => by simpa using apart.ne_of_mem_specials ops member listed]
  rfl

theorem lookup_integer (bound : bits < 2 * f.signBit) (nonzero : bits ≠ 0) :
    (if bits = f.ofInteger 1 then some [ops.one]
      else (small.map fun x => (f.ofInteger x.toInt, tinyCode x ++ [ops.ofInt])).lookup bits) =
    if f.integer? bits = some 1 then some [ops.one] else (f.integer? bits).bind
      (converted? · ops.ofInt) := by
  have one : bits = f.ofInteger 1 ↔ f.integer? bits = some 1 :=
    apart.eq_ofInteger_iff (x := 1) bound nonzero (by decide)
  simp only [one, apart.lookup_map_small bound nonzero]

/-- No pattern is both that of a small integer and a special one, so it does not matter which are
added first. -/
theorem lookup_realCandidates (bound : bits < 2 * f.signBit) :
    (realCandidates f ops).lookup bits = real? f ops bits := by
  by_cases zero : bits = 0
  · rw [zero]
    rfl
  · have nonzero : bits ≠ f.ofInteger 0 := zero
    rw [realCandidates, List.lookup_append, lookup_cons_ite, lookup_cons_ite, if_neg nonzero,
      real?_eq f ops zero]
    cases special : (specials f ops).lookup bits with
    | some code => rw [apart.lookup_of_special ops special, Option.none_or, Option.some_or]
    | none => rw [apart.lookup_integer ops bound zero, Option.or_none, Option.none_or]

end Apart

section Conversions

variable {ints : Std.HashMap Int32 Bytes} (holds : Holds 3 ints int?)
include holds

theorem map_small {κ : Type} (key : Int32 → κ) (conversion : UInt8) :
    (small.map fun x => (key x, ints.getD x [] ++ [conversion])) =
      small.map fun x => (key x, tinyCode x ++ [conversion]) := by
  refine List.map_congr_left fun x member => ?_
  have found := tiny?_eq_ite x
  rw [if_pos member] at found
  rw [Std.HashMap.getD_eq_getD_getElem?, holds.codes, int?, found]
  rfl

theorem getElem?_longTable (x : Int64) : (longTable ints small)[x]? = long? x := by
  have inOrder : InOrder (∅ : Std.HashMap Int64 Bytes)
      ((0, [Op.lconst0]) :: (1, [Op.lconst1]) :: small.map fun x =>
        (x.toInt64, tinyCode x ++ [Op.i2l])) := by
    refine ⟨by simp, List.pairwise_cons.2 ⟨fun candidate member _ => ?_, List.pairwise_cons.2
      ⟨fun candidate member _ => (length_of_mem_map_small member).1, pairwise_small _ _⟩⟩⟩
    rcases List.mem_cons.1 member with rfl | member
    · exact Nat.le_refl _
    · exact (length_of_mem_map_small member).1
  have same : ∀ y ∈ small, x = y.toInt64 ↔ x.toInt = y.toInt := fun y _ => by
    rw [← Int64.toInt_inj, Int32.toInt_toInt64]
  rw [longTable, map_small holds, ← addAll_cons _ (1, _), ← addAll_cons _ (0, _),
    getElem?_addAll inOrder,
    lookup_cons_ite, lookup_cons_ite, lookup_map_congr _ same, ← converted?_eq_lookup,
    Std.HashMap.getElem?_empty, Option.none_or, long?]

theorem realTable_eq (f : FloatFormat) (ops : FloatOps) :
    realTable f ops ints small = addAll ∅ (realCandidates f ops) := by
  simp only [realTable, map_small holds, realCandidates, specials, addAll_append,
    addAll_cons, addAll_nil]

theorem getElem?_realTable {f : FloatFormat} (apart : Apart f) (ops : FloatOps) {bits : Nat}
    (bound : bits < 2 * f.signBit) :
    (realTable f ops ints small)[bits]? = real? f ops bits := by
  rw [realTable_eq holds, getElem?_addAll (apart.inOrder ops), Std.HashMap.getElem?_empty,
    Option.none_or, apart.lookup_realCandidates ops bound]

end Conversions

theorem exists_tables_eq : ∃ ints, Holds 3 ints int? ∧
    tables =
      { ints, longs := longTable ints small, floats := realTable .single singleOps ints small,
        doubles := realTable .double doubleOps ints small } := by
  refine ⟨_, holds_threeBytes, ?_⟩
  simp only [tables, keysOfLength_oneByte, keysOfLength_twoBytes, small]

theorem getElem?_ints (x : Int32) : tables.ints[x]? = int? x := by
  obtain ⟨ints, holds, built⟩ := exists_tables_eq
  rw [built, holds.codes]

theorem getElem?_longs (x : Int64) : tables.longs[x]? = long? x := by
  obtain ⟨ints, holds, built⟩ := exists_tables_eq
  rw [built, getElem?_longTable holds]

theorem getElem?_floats (bits : UInt32) : tables.floats[bits.toNat]? = float? bits := by
  obtain ⟨ints, holds, built⟩ := exists_tables_eq
  rw [built, getElem?_realTable holds apart_single singleOps bits.toNat_lt, float?]

theorem getElem?_doubles (bits : UInt64) : tables.doubles[bits.toNat]? = double? bits := by
  obtain ⟨ints, holds, built⟩ := exists_tables_eq
  rw [built, getElem?_realTable holds apart_double doubleOps bits.toNat_lt, double?]

end Short

end Restack
