import Mathlib.Algebra.Order.BigOperators.Group.Finset
import Mathlib.Order.Lattice
import Restack.Proofs.Frame

set_option autoImplicit false

namespace Restack

namespace Kinds

/-- How many kinds a value can no longer be used as. -/
def lost (k : Kinds) : Nat :=
  (!k.int).toNat + (!k.float).toNat + (!k.ref).toNat + (!k.long).toNat + (!k.double).toNat

theorem lost_le (k : Kinds) : k.lost ≤ 5 := by
  have bit (b : Bool) : b.toNat ≤ 1 := Bool.toNat_le b
  have := bit (!k.int)
  have := bit (!k.float)
  have := bit (!k.ref)
  have := bit (!k.long)
  have := bit (!k.double)
  unfold lost
  omega

theorem lost_of_inter {a b : Kinds} (fewer : a.inter b = b) :
    a.lost ≤ b.lost ∧ (a.lost = b.lost → a = b) := by
  obtain ⟨_, _, _, _, _⟩ := a
  obtain ⟨_, _, _, _, _⟩ := b
  simp only [inter, Kinds.mk.injEq] at fewer
  obtain ⟨int, float, ref, long, double⟩ := fewer
  have bit {x y : Bool} (less : (x && y) = y) : (!x).toNat ≤ (!y).toNat ∧
      ((!x).toNat = (!y).toNat → x = y) := by
    revert less
    cases x <;> cases y <;> decide
  have := bit int
  have := bit float
  have := bit ref
  have := bit long
  have := bit double
  simp only [lost, Kinds.mk.injEq]
  refine ⟨by omega, fun same => ?_⟩
  refine ⟨?_, ?_, ?_, ?_, ?_⟩ <;> grind

end Kinds

namespace ArrayView

/-- How far a view is from knowing that a register holds null. -/
def height : ArrayView → Nat
  | .null => 0
  | .array _ => 1
  | .unknown => 2

theorem height_le (a : ArrayView) : a.height ≤ 2 := by
  cases a <;> simp [height]

theorem height_of_merge {a b : ArrayView} (above : a.merge b = b) :
    a.height ≤ b.height ∧ (a.height = b.height → a = b) := by
  cases a <;> cases b <;> simp_all [merge, height]

theorem narrow_mono {a b : ArrayView} (above : a.merge b = b) (c : ArrayView) :
    (a.narrow c).merge (b.narrow c) = b.narrow c := by
  cases a <;> cases b <;> cases c <;> grind [merge, narrow]

end ArrayView

/-- What is known about one register. -/
@[ext] structure Fact where
  kinds : Kinds
  array : ArrayView
  taint : Bool
deriving DecidableEq

namespace Fact

def blank : Fact := ⟨.none, .unknown, false⟩

def join (a b : Fact) : Fact := ⟨a.kinds.inter b.kinds, a.array.merge b.array, a.taint || b.taint⟩

instance : Max Fact := ⟨join⟩

theorem sup_eq (a b : Fact) :
    a ⊔ b = ⟨a.kinds.inter b.kinds, a.array.merge b.array, a.taint || b.taint⟩ := rfl

/-- Facts are ordered by what joining them does: the larger one says less. -/
instance : SemilatticeSup Fact :=
  SemilatticeSup.mk'
    (fun a b => by
      simp only [sup_eq, Kinds.inter_comm a.kinds, ArrayView.merge_comm a.array,
        Bool.or_comm a.taint])
    (fun a b c => by simp only [sup_eq, Kinds.inter_assoc, ArrayView.merge_assoc, Bool.or_assoc])
    (fun a => by simp only [sup_eq, Kinds.inter_self, ArrayView.merge_self, Bool.or_self])

theorem le_iff {a b : Fact} : a ≤ b ↔
    a.kinds.inter b.kinds = b.kinds ∧ a.array.merge b.array = b.array ∧
    (a.taint || b.taint) = b.taint := by
  rw [← sup_eq_right, sup_eq, Fact.ext_iff]

/-- How often what is known about the register has changed at least. -/
def rank (f : Fact) : Nat := f.kinds.lost + f.array.height + f.taint.toNat

theorem rank_le (f : Fact) : f.rank ≤ 8 := by
  have := f.kinds.lost_le
  have := f.array.height_le
  have := Bool.toNat_le f.taint
  unfold rank
  omega

theorem rank_mono {a b : Fact} (less : a ≤ b) : a.rank ≤ b.rank ∧ (a.rank = b.rank → a = b) := by
  obtain ⟨kinds, array, taint⟩ := le_iff.1 less
  obtain ⟨kinds_le, kinds_eq⟩ := Kinds.lost_of_inter kinds
  obtain ⟨array_le, array_eq⟩ := ArrayView.height_of_merge array
  have taints : a.taint.toNat ≤ b.taint.toNat ∧
      (a.taint.toNat = b.taint.toNat → a.taint = b.taint) := by
    revert taint
    cases a.taint <;> cases b.taint <;> decide
  unfold rank
  refine ⟨by omega, fun same => ?_⟩
  exact Fact.ext (kinds_eq (by omega)) (array_eq (by omega)) (taints.2 (by omega))

theorem rank_lt {a b : Fact} (less : a < b) : a.rank < b.rank := by
  obtain ⟨below, same⟩ := rank_mono less.le
  exact lt_of_le_of_ne below fun equal => less.ne (same equal)

end Fact

namespace Frame

variable {a b : Frame}

def facts (s : Frame) (reg : Nat) : Fact := ⟨s.kindsOf reg, s.arrayOf reg, s.isTainted reg⟩

theorem same_iff_facts (a b : Frame) : a.same b ↔ a.facts = b.facts := by
  rw [same_iff, funext_iff]
  exact forall_congr' fun reg => (Fact.ext_iff (x := a.facts reg) (y := b.facts reg)).symm

theorem facts_join (a b : Frame) : (a.join b).facts = a.facts ⊔ b.facts := by
  funext reg
  rw [Pi.sup_apply, Fact.sup_eq]
  simp [facts]

theorem absorbs_iff_facts (y x : Frame) : y.Absorbs x ↔ x.facts ≤ y.facts := by
  have unchanged : y.Absorbs x ↔ (y.join x).same y := by simp [Absorbs, merge?]
  rw [unchanged, same_iff_facts, facts_join, sup_eq_left]

theorem Absorbs.join {y : Frame} (left : y.Absorbs a) (right : y.Absorbs b) :
    y.Absorbs (a.join b) := by
  rw [absorbs_iff_facts] at *
  rw [facts_join]
  exact sup_le left right

theorem Absorbs.antisymm (above : a.Absorbs b) (below : b.Absorbs a) : a.same b = true := by
  rw [absorbs_iff_facts] at *
  exact (same_iff_facts a b).2 (le_antisymm below above)

@[simp] theorem facts_assign (s : Frame) (r : Nat) (kinds : Kinds) (array : ArrayView)
    (taint : Bool) :
    (s.assign r kinds array taint).facts = Function.update s.facts r ⟨kinds, array, taint⟩ := by
  funext reg
  by_cases same : r = reg
  · subst same
    simp [facts, kindsOf, arrayOf, isTainted, assign]
  · rw [Function.update_of_ne (Ne.symm same)]
    simp [facts, kindsOf, arrayOf, isTainted, assign, same]

/-- Nothing is known about registers from `limit` on. -/
def Within (limit : Nat) (s : Frame) : Prop := ∀ reg, limit ≤ reg → s.facts reg = .blank

theorem Within.join {limit : Nat} (left : a.Within limit) (right : b.Within limit) :
    (a.join b).Within limit := by
  intro reg high
  rw [facts_join, Pi.sup_apply, left reg high, right reg high, sup_idem]

theorem within_ofParameters {parameters : List (Option String)} {registers limit : Nat}
    (room : registers + parameters.length ≤ limit) :
    (ofParameters parameters registers).Within limit := by
  have start : empty.Within limit := fun reg _ => by
    simp [facts, kindsOf, arrayOf, isTainted, empty, Fact.blank]
  refine List.foldlRecOn (motive := Within limit) _ _ start fun s within parameter inside => ?_
  obtain ⟨_ | d, n⟩ := parameter
  · exact within
  · intro reg high
    have low := (List.mem_zipIdx inside).2.1
    have apart : registers - parameters.length + n ≠ reg := by omega
    rw [← within reg high]
    simp [facts, kindsOf, arrayOf, isTainted, placeParameter, apart]

/-- How often the state has changed at least, over the registers below `limit`. -/
def rank (limit : Nat) (s : Frame) : Nat := ∑ reg ∈ Finset.range limit, (s.facts reg).rank

theorem rank_le (limit : Nat) (s : Frame) : s.rank limit ≤ 8 * limit := by
  have each := Finset.sum_le_sum fun reg (_ : reg ∈ Finset.range limit) => (s.facts reg).rank_le
  rwa [Finset.sum_const, Finset.card_range, Nat.nsmul_eq_mul, Nat.mul_comm] at each

theorem rank_lt {limit : Nat} (left : a.Within limit) (right : b.Within limit)
    (less : a.facts < b.facts) :
    a.rank limit < b.rank limit := by
  obtain ⟨below, reg, strict⟩ := Pi.lt_def.1 less
  refine Finset.sum_lt_sum (fun r _ => (Fact.rank_mono (below r)).1) ⟨reg, ?_, Fact.rank_lt strict⟩
  rw [Finset.mem_range]
  by_contra high
  rw [Nat.not_lt] at high
  rw [left reg high, right reg high] at strict
  exact lt_irrefl _ strict

theorem lt_of_merge? {joined : Frame} (changed : a.merge? b = some joined) :
    a.facts < joined.facts := by
  have same := eq_join_of_merge? changed
  subst same
  refine lt_of_le_of_ne ?_ fun equal => ?_
  · rw [facts_join]
    exact le_sup_left
  · have unchanged : (a.join b).same a := (same_iff_facts _ _).2 equal.symm
    simp [merge?, unchanged] at changed

end Frame

end Restack
