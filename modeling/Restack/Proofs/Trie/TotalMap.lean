import Mathlib.Logic.Function.Basic
import Restack.Proofs.Trie

set_option autoImplicit false

namespace Restack.Trie

inductive Step (α : Type) where
  | new (place : Nat)
  | clone (source target : Nat)
  | set (place key : Nat) (value : α)
  | merge (left right target : Nat)
deriving DecidableEq, Repr

variable {α : Type} [DecidableEq α]

/-- The tries after a step. All of them have one fill value and are merged by one function. -/
def Step.apply (fill : α) (f : α → α → α) (tries : Nat → Trie α) : Step α → Nat → Trie α
  | .new place => Function.update tries place (empty fill)
  | .clone source target => Function.update tries target (tries source)
  | .set place key value => Function.update tries place ((tries place).set key value)
  | .merge left right target => Function.update tries target ((tries left).merge f (tries right))

def run (fill : α) (f : α → α → α) (steps : List (Step α)) : Nat → Trie α :=
  steps.foldl (Step.apply fill f) fun _ => empty fill

/-- The same step on functions. -/
def Step.meaning (fill : α) (f : α → α → α) (maps : Nat → Nat → α) : Step α → Nat → Nat → α
  | .new place => Function.update maps place fun _ => fill
  | .clone source target => Function.update maps target (maps source)
  | .set place key value => Function.update maps place (Function.update (maps place) key value)
  | .merge left right target => Function.update maps target fun k => f (maps left k) (maps right k)

def meaning (fill : α) (f : α → α → α) (steps : List (Step α)) : Nat → Nat → α :=
  steps.foldl (Step.meaning fill f) fun _ _ => fill

/-- Tries with one fill value that read as the given functions. -/
structure Reads (fill : α) (tries : Nat → Trie α) (maps : Nat → Nat → α) : Prop where
  fills : ∀ place, (tries place).fill = fill
  reads : ∀ place, (tries place).get = maps place

namespace Reads

variable {fill : α} {tries : Nat → Trie α} {maps : Nat → Nat → α}

omit [DecidableEq α] in
theorem update (related : Reads fill tries maps) (place : Nat) {t : Trie α} {m : Nat → α}
    (filled : t.fill = fill) (read : t.get = m) :
    Reads fill (Function.update tries place t) (Function.update maps place m) := by
  constructor
  · intro other
    by_cases same : other = place
    · rw [same, Function.update_self]
      exact filled
    · rw [Function.update_of_ne same]
      exact related.fills other
  · intro other
    by_cases same : other = place
    · rw [same, Function.update_self, Function.update_self]
      exact read
    · rw [Function.update_of_ne same, Function.update_of_ne same]
      exact related.reads other

theorem apply {f : α → α → α} (idem : ∀ x, f x x = x) (comm : ∀ x y, f x y = f y x)
    (related : Reads fill tries maps) (step : Step α) :
    Reads fill (step.apply fill f tries) (step.meaning fill f maps) := by
  cases step with
  | new place =>
    apply related.update place rfl
    funext k
    exact get_empty fill k
  | clone source target => exact related.update target (related.fills source) (related.reads source)
  | set place key value =>
    apply related.update place
    · rw [set_fill]
      exact related.fills place
    · funext k
      rw [get_set, related.reads place, Function.update_apply]
      simp only [eq_comm]
  | merge left right target =>
    apply related.update target
    · rw [merge_fill]
      exact related.fills left
    · funext k
      have fills : (tries left).fill = (tries right).fill :=
        (related.fills left).trans (related.fills right).symm
      rw [get_merge comm idem fills, related.reads left, related.reads right]

end Reads

theorem run_reads {fill : α} {f : α → α → α} (idem : ∀ x, f x x = x) (comm : ∀ x y, f x y = f y x)
    (steps : List (Step α)) : Reads fill (run fill f steps) (meaning fill f steps) := by
  have from_any : ∀ tries maps, Reads fill tries maps →
      Reads fill (steps.foldl (Step.apply fill f) tries)
        (steps.foldl (Step.meaning fill f) maps) := by
    induction steps with
    | nil => exact fun _ _ related => related
    | cons step steps ih => exact fun tries maps related => ih _ _ (related.apply idem comm step)
  apply from_any
  exact ⟨fun _ => rfl, fun _ => funext (get_empty fill)⟩

/-- Tries that arise from any steps are total maps: they read as the functions that the same steps
make, and are the same exactly if all keys agree. A subtree that both sides share merges to itself,
so stopping there makes no difference. -/
theorem run_totalMap (fill : α) (f : α → α → α) (idem : ∀ x, f x x = x)
    (comm : ∀ x y, f x y = f y x) (steps : List (Step α)) (left right : Nat) :
    let a := run fill f steps left
    let b := run fill f steps right
    (∀ k, a.get k = meaning fill f steps left k) ∧
    (∀ k v, (a.set k v).get k = v ∧ ∀ j ≠ k, (a.set k v).get j = a.get j) ∧
    (∀ k, (a.merge f b).get k = f (a.get k) (b.get k)) ∧
    (a.same b = true ↔ ∀ k, a.get k = b.get k) ∧
    (∀ n : Node α, n.Full → n.merge f fill n = n ∧ n.same fill n = true) := by
  intro a b
  have related : Reads fill (run fill f steps) (meaning fill f steps) := run_reads idem comm steps
  have fills : a.fill = b.fill := (related.fills left).trans (related.fills right).symm
  refine ⟨fun k => congrFun (related.reads left) k, ?_, ?_, same_iff fills, ?_⟩
  · intro k v
    refine ⟨by rw [get_set, if_pos rfl], ?_⟩
    intro j other
    rw [get_set, if_neg (Ne.symm other)]
  · exact get_merge comm idem fills
  · intro n full
    exact ⟨n.merge_self idem fill full, (Node.same_iff fill full full).2 fun _ => rfl⟩

def sampleSteps : List (Step Bool) :=
  [.set 0 3 true, .clone 0 1, .set 1 700 true, .merge 0 1 2, .set 0 70000 true,
    .set 0 70000 false, .new 3]

theorem sampleSteps_totalMap :
    let a := run false or sampleSteps 0
    let b := run false or sampleSteps 2
    (∀ k, a.get k = meaning false or sampleSteps 0 k) ∧
    (∀ k v, (a.set k v).get k = v ∧ ∀ j ≠ k, (a.set k v).get j = a.get j) ∧
    (∀ k, (a.merge or b).get k = or (a.get k) (b.get k)) ∧
    (a.same b = true ↔ ∀ k, a.get k = b.get k) ∧
    (∀ n : Node Bool, n.Full → n.merge or false n = n ∧ n.same false n = true) :=
  run_totalMap false or (by decide) (by decide) sampleSteps 0 2

end Restack.Trie
