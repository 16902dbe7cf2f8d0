import Mathlib.Data.List.Perm.Basic
import Mathlib.Logic.Function.Basic
import Restack.Proofs.Register.Linking

set_option autoImplicit false

namespace Restack

/-- Families whose instructions write the register that their first operand names, or the pair that
starts there. -/
def Family.writesFirst : Family → Bool
  | .move | .moveWide | .moveResult | .const32 | .const64 | .constString | .constClass
  | .instanceOf | .arrayLength | .newInstance | .newArray | .compare | .arrayGet | .instanceGet
  | .staticGet | .unary | .binary | .binaryLiteral => true
  | _ => false

namespace Register

section RegisterSet

theorem eraseReps_loop_ascending (a : UInt16) (as acc : List UInt16)
    (sorted : (a :: as).Pairwise (· ≤ ·)) (kept : acc.Pairwise fun x y => y < x)
    (below : ∀ b ∈ acc, b < a) :
    (List.eraseRepsBy.loop (· == ·) a as acc).Pairwise (· < ·) ∧
      ∀ r, r ∈ List.eraseRepsBy.loop (· == ·) a as acc ↔ r ∈ acc ∨ r ∈ a :: as := by
  induction as generalizing a acc with
  | nil =>
    refine ⟨List.pairwise_reverse.2 (List.pairwise_cons.2 ⟨below, kept⟩), fun r => ?_⟩
    simp [List.eraseRepsBy.loop, or_comm]
  | cons b as ih =>
    obtain ⟨first, rest⟩ := List.pairwise_cons.1 sorted
    unfold List.eraseRepsBy.loop
    split
    next same =>
      obtain rfl := eq_of_beq same
      obtain ⟨ascending, members⟩ := ih a acc rest kept below
      exact ⟨ascending, fun r => by rw [members]; simp⟩
    next different =>
      have less : a < b := UInt16.lt_of_le_of_ne (first b (by simp)) (by simpa using different)
      have below_b : ∀ c ∈ a :: acc, c < b := by
        intro c inside
        rcases List.mem_cons.1 inside with rfl | earlier
        · exact less
        · exact UInt16.lt_trans (below c earlier) less
      obtain ⟨ascending, members⟩ :=
        ih b (a :: acc) rest (List.pairwise_cons.2 ⟨below, kept⟩) below_b
      exact ⟨ascending, fun r => by rw [members]; simp only [List.mem_cons]; tauto⟩

theorem registerSet_ascending (registers : List UInt16) :
    (registerSet registers).Pairwise (· < ·) ∧ ∀ r, r ∈ registerSet registers ↔ r ∈ registers := by
  have sorted : (registers.mergeSort fun a b => a ≤ b).Pairwise (· ≤ ·) := by
    refine (List.pairwise_mergeSort ?_ ?_ registers).imp of_decide_eq_true
    · exact fun a b c first second => by
        simp only [decide_eq_true_eq] at *
        exact UInt16.le_trans first second
    · exact fun a b => by simpa using UInt16.le_total a b
  have members (r : UInt16) : (r ∈ registers.mergeSort fun a b => a ≤ b) ↔ r ∈ registers :=
    List.mem_mergeSort
  unfold registerSet List.eraseReps
  cases list : registers.mergeSort (fun a b => a ≤ b) with
  | nil => exact ⟨.nil, fun r => by rw [← members, list]; rfl⟩
  | cons a as =>
    rw [list] at sorted
    obtain ⟨ascending, same⟩ := eraseReps_loop_ascending a as [] sorted .nil (by simp)
    refine ⟨ascending, fun r => ?_⟩
    rw [← members, list]
    exact (same r).trans (by simp)

theorem eq_of_ascending {l l' : List UInt16} (first : l.Pairwise (· < ·))
    (second : l'.Pairwise (· < ·)) (same : ∀ r, r ∈ l ↔ r ∈ l') : l = l' := by
  have nodup {l : List UInt16} (ascending : l.Pairwise (· < ·)) : l.Nodup :=
    ascending.imp UInt16.ne_of_lt
  refine List.Perm.eq_of_pairwise ?_ first second
    ((List.perm_ext_iff_of_nodup (nodup first) (nodup second)).2 same)
  exact fun a b _ _ less more => absurd more (UInt16.lt_asymm less)

end RegisterSet

def Instr.Copies (e : Instr) (source target : Nat) : Prop :=
  e.family = .move ∧ e.reg 0 = .ok target ∧ e.reg 1 = .ok source

/-- The hint of `branch` behind `test`, which leaves in `dest` whether the reference in `tested` is
of the type. -/
structure Narrows (earlier : Option Instr) (test branch : Instr) (dest tested : Nat)
    (c : CastHint) : Prop where
  on_zero : branch.opcode = 0x38 ∨ branch.opcode = 0x39
  family : test.family = .instanceOf
  at_dest : test.reg 0 = .ok dest
  at_tested : test.reg 1 = .ok tested
  type : test.index 2 = .ok c.typeIndex
  nonempty : c.registers ≠ []
  ascending : c.registers.Pairwise (· < ·)
  mem_iff : ∀ r, r ∈ c.registers ↔ r ≠ dest.toUInt16 ∧
    (r = tested.toUInt16 ∨ ∃ e source, earlier = some e ∧ e.Copies source tested ∧
      r = source.toUInt16)

section Hint

variable {earlier : Option Instr} {test branch : Instr} {dest tested : Nat} {c c' : CastHint}

theorem Narrows.unique (first : Narrows earlier test branch dest tested c)
    (second : Narrows earlier test branch dest tested c') : c = c' := by
  have registers := eq_of_ascending first.ascending second.ascending fun r =>
    (first.mem_iff r).trans (second.mem_iff r).symm
  have type := first.type.symm.trans second.type
  cases c
  cases c'
  cases type
  cases registers
  rfl

theorem mem_of_copiedTo {copied : List UInt16} (done : copiedTo tested earlier = .ok copied)
    (r : UInt16) :
    r ∈ copied ↔ ∃ e source, earlier = some e ∧ e.Copies source tested ∧ r = source.toUInt16 := by
  unfold copiedTo at done
  cases earlier with
  | none =>
    cases done
    simp
  | some e =>
    dsimp only at done
    split at done
    next family =>
      obtain ⟨target, at_target, rest⟩ := Except.bind_eq_ok.1 done
      split at rest
      next same =>
        subst same
        obtain ⟨source, at_source, last⟩ := Except.bind_eq_ok.1 rest
        cases last
        simp [Instr.Copies, family, at_target, at_source, eq_comm]
      next other =>
        cases rest
        simp [Instr.Copies, at_target, other]
    next family =>
      cases done
      simp [Instr.Copies, family]

theorem castHint_eq_some_iff {found : Option CastHint}
    (done : castHint earlier test branch = .ok found) :
    found = some c ↔ ∃ dest tested, Narrows earlier test branch dest tested c := by
  unfold castHint at done
  split at done
  next here =>
    obtain ⟨on_zero, family⟩ := here
    obtain ⟨type, at_type, rest⟩ := Except.bind_eq_ok.1 done
    obtain ⟨tested, at_tested, rest⟩ := Except.bind_eq_ok.1 rest
    obtain ⟨copied, of_copied, rest⟩ := Except.bind_eq_ok.1 rest
    obtain ⟨dest, at_dest, last⟩ := Except.bind_eq_ok.1 rest
    obtain ⟨ascending, members⟩ :=
      registerSet_ascending ((tested.toUInt16 :: copied).filter (· ≠ dest.toUInt16))
    have mem_iff (r : UInt16) :
        r ∈ registerSet ((tested.toUInt16 :: copied).filter (· ≠ dest.toUInt16)) ↔
        r ≠ dest.toUInt16 ∧ (r = tested.toUInt16 ∨
          ∃ e source, earlier = some e ∧ e.Copies source tested ∧ r = source.toUInt16) := by
      rw [members, ← mem_of_copiedTo of_copied]
      simp [and_comm]
    have result := Except.ok.inj last
    split at result
    next empty =>
      subst result
      refine ⟨nofun, fun ⟨dest', tested', narrows⟩ => ?_⟩
      cases at_dest.symm.trans narrows.at_dest
      cases at_tested.symm.trans narrows.at_tested
      obtain ⟨r, inside⟩ := List.exists_mem_of_ne_nil _ narrows.nonempty
      have member := (mem_iff r).2 ((narrows.mem_iff r).1 inside)
      rw [List.isEmpty_iff.1 empty] at member
      cases member
    next some_left =>
      subst result
      have narrows : Narrows earlier test branch dest tested
          ⟨type, registerSet ((tested.toUInt16 :: copied).filter (· ≠ dest.toUInt16))⟩ :=
        ⟨on_zero, family, at_dest, at_tested, at_type, by simpa using some_left, ascending, mem_iff⟩
      refine ⟨fun same => ⟨dest, tested, ?_⟩, fun ⟨dest', tested', other⟩ => ?_⟩
      · cases same
        exact narrows
      · cases at_dest.symm.trans other.at_dest
        cases at_tested.symm.trans other.at_tested
        rw [narrows.unique other]
  next nowhere =>
    cases done
    refine ⟨nofun, fun ⟨dest, tested, narrows⟩ => ?_⟩
    exact absurd ⟨narrows.on_zero, narrows.family⟩ nowhere

end Hint

theorem castHint_of_alike {earlier earlier' : Option Instr} {i i' j j' : Instr}
    (before : Option.Rel Instr.Alike earlier earlier') (first : i.Alike i') (second : j.Alike j') :
    castHint earlier' i' j' = castHint earlier i j := by
  have copied (tested : Nat) : copiedTo tested earlier' = copiedTo tested earlier := by
    cases before with
    | none => rfl
    | some alike =>
      rw [alike]
      rfl
  unfold castHint
  simp only [copied]
  rw [first, second]
  rfl

structure Code.CastHinted (code : Code) : Prop where
  first : ∀ i, code.instrs[0]? = some i → i.casts = none
  next : ∀ (n : Nat) i j, code.instrs[n]? = some i → code.instrs[n + 1]? = some j →
    castHint (precedingAt none code.instrs n) i j = .ok j.casts

theorem Code.castHinted_link {catalog : Catalog} {code linked : Code}
    (blank : ∀ i ∈ code.instrs, i.casts = none) (done : code.link catalog = (linked, none)) :
    linked.CastHinted := by
  obtain ⟨typed, typing, casting, -, typed_from, cast_from⟩ := link_eq_ok done
  obtain ⟨_, first, each⟩ := attachAll_eq_ok casting
  have blank_typed {n : Nat} {j : Instr} (at_n : typed[n]? = some j) : j.casts = none := by
    obtain ⟨i, at_i, _, same⟩ := typed_from n j at_n
    rw [same, blank i (List.mem_of_getElem? at_i)]
  constructor
  · intro k at_first
    exact blank_typed (first ▸ at_first)
  · intro n k k' at_n at_next
    obtain ⟨j, at_j, alike, _⟩ := cast_from n k at_n
    obtain ⟨j', at_j', alike', _⟩ := cast_from (n + 1) k' at_next
    have before : Option.Rel Instr.Alike (precedingAt none typed n)
        (precedingAt none linked.instrs n) := by
      cases n with
      | zero => exact .none
      | succ m =>
        have inside := (List.getElem?_eq_some_iff.1 at_n).1
        have at_m := List.getElem?_eq_getElem (l := linked.instrs) (i := m) (by omega)
        obtain ⟨h, at_h, alike, _⟩ := cast_from m _ at_m
        simp only [precedingAt, at_m, at_h]
        exact .some alike
    obtain ⟨found, of_hint, there⟩ := each n j j' at_j at_j'
    rw [castHint_of_alike before alike alike', of_hint]
    cases there.symm.trans at_next
    cases found with
    | none => rw [Option.elim_none, blank_typed at_j']
    | some h => rfl

theorem Code.CastHinted.casts_iff {code : Code} (hinted : code.CastHinted) {n : Nat} {b : Instr}
    (at_n : code.instrs[n]? = some b) (c : CastHint) : b.casts = some c ↔
      ∃ m test dest tested, n = m + 1 ∧ code.instrs[m]? = some test ∧
        Narrows (precedingAt none code.instrs m) test b dest tested c := by
  cases n with
  | zero =>
    rw [hinted.first b at_n]
    simp
  | succ m =>
    have inside := (List.getElem?_eq_some_iff.1 at_n).1
    have at_m := List.getElem?_eq_getElem (l := code.instrs) (i := m) (by omega)
    rw [castHint_eq_some_iff (hinted.next m _ b at_m at_n)]
    constructor
    · rintro ⟨dest, tested, narrows⟩
      exact ⟨m, _, dest, tested, rfl, at_m, narrows⟩
    · rintro ⟨m', test, dest, tested, same, at_test, narrows⟩
      cases same
      cases at_m.symm.trans at_test
      exact ⟨dest, tested, narrows⟩

/-- What the registers hold at a moment of a run. -/
structure Contents (V : Type) where
  value : Nat → V
  /-- The type and the reference of the `instance-of` that wrote the register last; `none` if
  something else did. -/
  outcome : Nat → Option (UInt32 × V)

namespace Contents

variable {V : Type}

def write (s : Contents V) (r : Nat) (v : V) (outcome : Option (UInt32 × V)) : Contents V :=
  ⟨Function.update s.value r v, Function.update s.outcome r outcome⟩

section Write

variable (s : Contents V) (r : Nat) (v : V) (outcome : Option (UInt32 × V))

@[simp] theorem value_write_self : (s.write r v outcome).value r = v := Function.update_self ..

@[simp] theorem outcome_write_self : (s.write r v outcome).outcome r = outcome :=
  Function.update_self ..

variable {q : Nat} (other : q ≠ r)

include other

theorem value_write_of_ne : (s.write r v outcome).value q = s.value q :=
  Function.update_of_ne other ..

theorem outcome_write_of_ne : (s.write r v outcome).outcome q = s.outcome q :=
  Function.update_of_ne other ..

end Write

/-- The branch looks at the outcome of a test for the hinted type, and the hinted registers still
hold the reference that was tested then. -/
def Settles (s : Contents V) (branch : Instr) (c : CastHint) : Prop :=
  ∃ r x, branch.reg 0 = .ok r ∧ s.outcome r = some (c.typeIndex, x) ∧
    ∀ q ∈ c.registers, s.value q.toNat = x

end Contents

def Instr.MayWrite (i : Instr) (r : Nat) : Prop :=
  i.family.writesFirst = true ∧ ∃ d, i.reg 0 = .ok d ∧ (r = d ∨ r = d + 1)

section Runs

variable {V : Type}

/-- What the registers may hold when an instruction is done. The values that instructions compute
are left open. -/
inductive Instr.Writes (i : Instr) (s : Contents V) : Contents V → Prop where
  | move {source target : Nat} :
      i.Copies source target → Writes i s (s.write target (s.value source) none)
  | test {dest tested : Nat} {type : UInt32} {v : V} :
      i.family = .instanceOf → i.reg 0 = .ok dest → i.reg 1 = .ok tested →
      i.index 2 = .ok type → Writes i s (s.write dest v (some (type, s.value tested)))
  | other {s' : Contents V} : i.family ≠ .move → i.family ≠ .instanceOf →
      (∀ r, s'.value r = s.value r ∧ s'.outcome r = s.outcome r ∨ i.MayWrite r ∧
        s'.outcome r = none) → Writes i s s'

/-- A path leads from the start of the code, where the registers hold `values`, to a position. -/
inductive Code.Arrives (code : Code) (values : Nat → V) : UInt32 → Contents V → Prop where
  | entry : Arrives code values 0 ⟨values, fun _ => none⟩
  | flow {i : Instr} {q : UInt32} {s s' : Contents V} :
      i ∈ code.instrs → Arrives code values i.position s → i.Leads q →
      i.Writes s s' → Arrives code values q s'
  | caught {i : Instr} {h : Handler} {s : Contents V} :
      i ∈ code.instrs → Arrives code values i.position s →
      h ∈ code.handlers.getD i.position [] → Arrives code values h.target s

def Code.ArrivesFrom (code : Code) (values : Nat → V) (i : Instr) (s' : Contents V) : Prop :=
  ∃ s, code.Arrives values i.position s ∧ i.Writes s s'

structure Code.OnlyFrom (code : Code) (i j : Instr) : Prop where
  inside : j.position ≠ 0
  flow : ∀ k ∈ code.instrs, code.Reachable k.position → k.Leads j.position → k = i
  caught : ∀ k ∈ code.instrs, code.Reachable k.position → ∀ h ∈ code.handlers.getD k.position [],
    h.target ≠ j.position

variable {code : Code} {values : Nat → V} {s : Contents V}

theorem Code.Arrives.reachable {p : UInt32} (arrives : code.Arrives values p s)
    (there : code.HasPosition p) :
    code.Reachable p := by
  induction arrives with
  | entry => exact .entry there
  | flow member _ leads _ ih => exact .flow member (ih ⟨_, member, rfl⟩) leads there
  | caught member _ guarded ih => exact .caught member (ih ⟨_, member, rfl⟩) guarded there

theorem Code.OnlyFrom.arrivesFrom {i j : Instr} (only : code.OnlyFrom i j)
    (arrives : code.Arrives values j.position s) :
    code.ArrivesFrom values i s := by
  obtain ⟨p, same⟩ : ∃ p, j.position = p := ⟨_, rfl⟩
  rw [same] at arrives
  cases arrives with
  | entry => exact absurd same only.inside
  | flow member before leads writes =>
    cases only.flow _ member (before.reachable ⟨_, member, rfl⟩) (same ▸ leads)
    exact ⟨_, before, writes⟩
  | caught member before guarded =>
    exact absurd same.symm (only.caught _ member (before.reachable ⟨_, member, rfl⟩) _ guarded)

theorem Instr.Copies.writes {e : Instr} {source target : Nat} (copies : e.Copies source target)
    {s' : Contents V} (writes : e.Writes s s') : s' = s.write target (s.value source) none := by
  cases writes with
  | move copies' =>
    cases copies.2.1.symm.trans copies'.2.1
    cases copies.2.2.symm.trans copies'.2.2
    rfl
  | test family _ _ _ =>
    rw [copies.1] at family
    cases family
  | other no_move _ _ => exact absurd copies.1 no_move

end Runs

section Narrowed

variable {V : Type} {earlier : Option Instr} {test branch : Instr} {dest tested : Nat}
  {c : CastHint} {s s' : Contents V}

theorem Narrows.writes (narrows : Narrows earlier test branch dest tested c)
    (writes : test.Writes s s') :
    ∃ v, s' = s.write dest v (some (c.typeIndex, s.value tested)) := by
  cases writes with
  | move copies =>
    have family := narrows.family.symm.trans copies.1
    cases family
  | test _ at_dest at_tested at_type =>
    cases narrows.at_dest.symm.trans at_dest
    cases narrows.at_tested.symm.trans at_tested
    cases narrows.type.symm.trans at_type
    exact ⟨_, rfl⟩
  | other _ no_test _ => exact absurd narrows.family no_test

theorem Narrows.value_kept (narrows : Narrows earlier test branch dest tested c)
    (writes : test.Writes s s') {q : UInt16} (hinted : q ∈ c.registers) :
    s'.value q.toNat = s.value q.toNat := by
  obtain ⟨v, rfl⟩ := narrows.writes writes
  have kept : q.toNat ≠ dest := by
    rintro rfl
    exact ((narrows.mem_iff q).1 hinted).1 (by simp)
  exact s.value_write_of_ne _ _ _ kept

theorem Narrows.settles_iff (narrows : Narrows earlier test branch dest tested c)
    (writes : test.Writes s s') :
    s'.Settles branch c ↔ branch.reg 0 = .ok dest ∧
    (∀ q ∈ c.registers, s.value q.toNat = s.value tested) ∨
      branch.reg 0 ≠ .ok dest ∧ s.Settles branch c := by
  have kept (x : V) : (∀ q ∈ c.registers, s'.value q.toNat = x) ↔
      ∀ q ∈ c.registers, s.value q.toNat = x :=
    forall₂_congr fun q hinted => by rw [narrows.value_kept writes hinted]
  obtain ⟨v, rfl⟩ := narrows.writes writes
  simp only [Contents.Settles, kept]
  constructor
  · rintro ⟨r, x, looks, outcome, same⟩
    by_cases own : r = dest
    · subst own
      cases (s.outcome_write_self r v _).symm.trans outcome
      exact .inl ⟨looks, same⟩
    · refine .inr ⟨by simpa [looks] using own, r, x, looks, ?_, same⟩
      rwa [s.outcome_write_of_ne _ _ _ own] at outcome
  · rintro (⟨looks, same⟩ | ⟨other, r, x, looks, outcome, same⟩)
    · exact ⟨dest, _, looks, s.outcome_write_self .., same⟩
    · have apart : r ≠ dest := by
        rintro rfl
        exact other looks
      exact ⟨r, x, looks, (s.outcome_write_of_ne _ _ _ apart).trans outcome, same⟩

def FitsHint (earlier : Option Instr) (tested : Nat) : Prop :=
  tested < 2 ^ 16 ∧ ∀ e source, earlier = some e → e.Copies source tested → source < 2 ^ 16

theorem toNat_toUInt16 {r : Nat} (small : r < 2 ^ 16) : r.toUInt16.toNat = r := by
  simpa using Nat.mod_eq_of_lt small

theorem Narrows.holds_tested {code : Code} {values : Nat → V}
    (narrows : Narrows earlier test branch dest tested c) (fits : FitsHint earlier tested)
    (copied : ∀ e source, earlier = some e → e.Copies source tested →
      source.toUInt16 ∈ c.registers → code.ArrivesFrom values e s)
    {q : UInt16} (hinted : q ∈ c.registers) : s.value q.toNat = s.value tested := by
  obtain ⟨-, rfl | ⟨e, source, before, copies, rfl⟩⟩ := (narrows.mem_iff q).1 hinted
  · rw [toNat_toUInt16 fits.1]
  · rw [toNat_toUInt16 (fits.2 e source before copies)]
    obtain ⟨s₀, _, writes⟩ := copied e source before copies hinted
    rw [copies.writes writes, Contents.value_write_self]
    by_cases same : source = tested
    · rw [same, Contents.value_write_self]
    · rw [Contents.value_write_of_ne _ _ _ _ same]

end Narrowed

/-- After linking, the hinted branches are those behind an `instance-of`, whatever register they
look at. The test settles a hint exactly if the branch looks at its outcome and the hinted registers
hold what was tested, or if it was settled before by another register. So it is settled on every
path if the branch looks at the outcome and nothing else leads to the branch, nor to the test when a
copied register is hinted. -/
theorem castHints_settled {catalog : Catalog} {code linked : Code}
    (blank : ∀ i ∈ code.instrs, i.casts = none) (done : code.link catalog = (linked, none)) :
    (∀ (n : Nat) b c, linked.instrs[n]? = some b → (b.casts = some c ↔
      ∃ m test dest tested, n = m + 1 ∧ linked.instrs[m]? = some test ∧
        Narrows (precedingAt none linked.instrs m) test b dest tested c)) ∧
    ∀ (n : Nat) test b c, linked.instrs[n]? = some test → linked.instrs[n + 1]? = some b →
    b.casts = some c →
      ∃ dest tested, Narrows (precedingAt none linked.instrs n) test b dest tested c ∧
      ∀ (V : Type) (values : Nat → V),
        (∀ s s' : Contents V, test.Writes s s' → (s'.Settles b c ↔
          b.reg 0 = .ok dest ∧ (∀ q ∈ c.registers, s.value q.toNat = s.value tested) ∨
            b.reg 0 ≠ .ok dest ∧ s.Settles b c)) ∧
        (b.reg 0 = .ok dest → FitsHint (precedingAt none linked.instrs n) tested →
          linked.OnlyFrom test b →
          (∀ e source, precedingAt none linked.instrs n = some e → e.Copies source tested →
            source.toUInt16 ∈ c.registers → linked.OnlyFrom e test) →
          ∀ s, linked.Arrives values b.position s → s.Settles b c) := by
  have casts_iff {n : Nat} {b : Instr} (at_n : linked.instrs[n]? = some b) :=
    (Code.castHinted_link blank done).casts_iff at_n
  refine ⟨fun n b c at_n => casts_iff at_n c, fun n test b c at_test at_b hinted => ?_⟩
  obtain ⟨m, test', dest, tested, same, at_m, narrows⟩ := (casts_iff at_b c).1 hinted
  cases same
  cases at_test.symm.trans at_m
  refine ⟨dest, tested, narrows, fun V values =>
    ⟨fun s s' writes => narrows.settles_iff writes, ?_⟩⟩
  intro looks fits only copied s arrives
  obtain ⟨s₀, at_s₀, writes⟩ := only.arrivesFrom arrives
  have through e source before copies inside : linked.ArrivesFrom values e s₀ :=
    (copied e source before copies inside).arrivesFrom at_s₀
  exact (narrows.settles_iff writes).2
    (.inl ⟨looks, fun q hinted => narrows.holds_tested fits through hinted⟩)

def copiedTest : Code where
  registers := 3
  guards := []
  instrs :=
    [.ofOpcode 0x07 0 1 [1, 2], .ofOpcode 0x20 1 3 [0, 1, 0], .ofOpcode 0x38 3 5 [0, 6],
      .ofOpcode 0x0e 5 6 [],
    .ofOpcode 0x0e 6 7 []]

def strayBranch : Code where
  registers := 3
  guards := []
  instrs :=
    [.ofOpcode 0x12 0 1 [0, 1], .ofOpcode 0x20 1 3 [1, 2, 0], .ofOpcode 0x38 3 5 [0, 6],
      .ofOpcode 0x0e 5 6 [],
    .ofOpcode 0x0e 6 7 []]

def Code.withHint (code : Code) (n : Nat) (c : CastHint) : Code :=
  { code with instrs := code.instrs.modify n fun i => { i with casts := some c } }

theorem copiedTest_leads {k : Instr} (member : k ∈ (copiedTest.withHint 2 ⟨0, [1, 2]⟩).instrs)
    {q : UInt32} (leads : k.Leads q) :
    k = .ofOpcode 0x07 0 1 [1, 2] ∧ q = 1 ∨ k = .ofOpcode 0x20 1 3 [0, 1, 0] ∧ q = 3 ∨
    q = 5 ∨ q = 6 := by
  simp only [copiedTest, Code.withHint, List.modify_succ_cons, List.modify_zero_cons, List.mem_cons,
    List.not_mem_nil, or_false] at member
  rcases member with rfl | rfl | rfl | rfl | rfl
  · exact .inl ⟨rfl, (leads_of_straight rfl leads).2⟩
  · exact .inr (.inl ⟨rfl, (leads_of_straight rfl leads).2⟩)
  · cases leads with
    | next _ => exact .inr (.inr (.inl rfl))
    | jump operand target =>
      cases operand
      cases target
      exact .inr (.inr (.inr rfl))
    | case family _ _ => cases family
  · cases (leads_of_straight rfl leads).1
  · cases (leads_of_straight rfl leads).1

theorem copiedTest_unguarded (p : UInt32) :
    (copiedTest.withHint 2 ⟨0, [1, 2]⟩).handlers.getD p [] = [] := by
  have none_there : (copiedTest.withHint 2 ⟨0, [1, 2]⟩).handlers = ∅ := by cbv
  rw [none_there]
  simp

theorem copiedTest_settled :
    (copiedTest.link {} = (copiedTest.withHint 2 ⟨0, [1, 2]⟩, none) ∧
      ∀ (values : Nat → Nat) s, (copiedTest.withHint 2 ⟨0, [1, 2]⟩).Arrives values 3 s →
        s.Settles (.ofOpcode 0x38 3 5 [0, 6]) ⟨0, [1, 2]⟩) ∧
    strayBranch.link {} = (strayBranch.withHint 2 ⟨0, [2]⟩, none) ∧
      ∃ s : Contents Nat, (strayBranch.withHint 2 ⟨0, [2]⟩).Arrives id 3 s ∧
        ¬ s.Settles (.ofOpcode 0x38 3 5 [0, 6]) ⟨0, [2]⟩ := by
  have linked : copiedTest.link {} = (copiedTest.withHint 2 ⟨0, [1, 2]⟩, none) := by cbv
  have stray : strayBranch.link {} = (strayBranch.withHint 2 ⟨0, [2]⟩, none) := by cbv
  refine ⟨⟨linked, fun values s arrives => ?_⟩, stray, ?_⟩
  · obtain ⟨dest, tested, narrows, settled⟩ :=
      (castHints_settled (by decide) linked).2 1 _ _ _ rfl rfl rfl
    cases narrows.at_dest
    cases narrows.at_tested
    have only {i j : Instr} (inside : j.position ≠ 0)
        (flow : ∀ k ∈ (copiedTest.withHint 2 ⟨0, [1, 2]⟩).instrs, k.Leads j.position → k = i) :
        (copiedTest.withHint 2 ⟨0, [1, 2]⟩).OnlyFrom i j := by
      refine ⟨inside, fun k member _ => flow k member, fun k _ _ h caught => ?_⟩
      simp [copiedTest_unguarded] at caught
    have only_test := only (i := .ofOpcode 0x20 1 3 [0, 1, 0])
      (j := { Instr.ofOpcode 0x38 3 5 [0, 6] with casts := some ⟨0, [1, 2]⟩ }) (by decide)
      fun k member leads => by simpa [Instr.ofOpcode] using copiedTest_leads member leads
    have only_copy :=
      only (i := .ofOpcode 0x07 0 1 [1, 2]) (j := .ofOpcode 0x20 1 3 [0, 1, 0]) (by decide)
      fun k member leads => by simpa [Instr.ofOpcode] using copiedTest_leads member leads
    have fits : FitsHint (some (.ofOpcode 0x07 0 1 [1, 2])) 1 := by
      refine ⟨by decide, fun e source same copies => ?_⟩
      cases same
      cases copies.2.2
      decide
    refine (settled Nat values).2 rfl fits only_test (fun e source same _ _ => ?_) s arrives
    cases same
    exact only_copy
  · obtain ⟨dest, tested, narrows, settled⟩ :=
      (castHints_settled (by decide) stray).2 1 _ _ _ rfl rfl rfl
    cases narrows.at_dest
    have constant : (Instr.ofOpcode 0x12 0 1 [0, 1]).Writes ⟨id, fun _ => none⟩
        ⟨Function.update id 0 1, fun _ => none⟩ := by
      refine .other (by decide) (by decide) fun r => ?_
      by_cases written : r = 0
      · exact .inr ⟨⟨rfl, 0, rfl, .inl written⟩, rfl⟩
      · exact .inl ⟨Function.update_of_ne written .., rfl⟩
    have test : (Instr.ofOpcode 0x20 1 3 [1, 2, 0]).Writes
        ⟨Function.update id 0 1, fun _ => none⟩ _ :=
      .test (v := 0) rfl rfl rfl rfl
    have start : (strayBranch.withHint 2 ⟨0, [2]⟩).Arrives id 0 ⟨id, fun _ => none⟩ := .entry
    have path := (start.flow (.head _) (.next rfl) constant).flow (.tail _ (.head _))
      (.next rfl) test
    refine ⟨_, path, fun settles => ?_⟩
    -- The branch does not look at the outcome, and before the test no register holds one.
    rcases ((settled Nat id).1 _ _ test).1 settles with ⟨looks, _⟩ | ⟨_, _, _, _, outcome, _⟩
    · cases looks
    · cases outcome

end Register

end Restack
