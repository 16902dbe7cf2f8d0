import Restack.Proofs.Stack.Balance

set_option autoImplicit false

namespace Restack.CopyPlan

variable {cap : Nat} {s : Operands} {held wanted : Nat}

def copies (n : Nat) (s : Operands) : Operands := List.replicate n 1 ++ s

theorem slots_copies (n : Nat) (s : Operands) : (copies n s).slots = n + s.slots := by
  rw [copies, Operands.slots_append]
  simp [Operands.slots]

theorem moves_dup (p : Pool) (held : Nat) (room : s.slots + 4 ≤ cap) (few : held ≤ 3) :
    (Insn.op Op.dup).Moves p cap (copies (held + 1) s) (copies (held + 2) s) := by
  have turns : Turns 2 [Op.dup] [1] [1, 1] := .of_run? fun _ => rfl
  refine Insn.Moves.of_turns (s := copies held s) turns (by decide) ?_
  change (copies (held + 1) s).slots ≤ cap
  rw [slots_copies]
  omega

theorem moves_dup2 (p : Pool) (held : Nat) (room : s.slots + 4 ≤ cap) (few : held ≤ 2) :
    (Insn.op Op.dup2).Moves p cap (copies (held + 2) s) (copies (held + 4) s) := by
  have turns : Turns 4 [Op.dup2] [1, 1] [1, 1, 1, 1] := .of_run? fun _ => rfl
  refine Insn.Moves.of_turns (s := copies held s) turns (by decide) ?_
  change (copies (held + 2) s).slots ≤ cap
  rw [slots_copies]
  omega

theorem runs_pops (p : Pool) (n held : Nat) (room : (copies (n + held) s).slots ≤ cap) :
    Runs (Insn.Moves p cap) (List.replicate n (.op Op.pop)) (copies (n + held) s)
      (copies held s) := by
  induction n with
  | zero =>
    rw [Nat.zero_add]
    exact .nil _
  | succ n ih =>
    rw [slots_copies] at room ih
    have first : (Insn.op Op.pop).Moves p cap (copies (n + 1 + held) s) (copies (n + held) s) := by
      rw [Nat.add_right_comm]
      have turns : Turns 0 [Op.pop] [1] [] := .of_run? fun _ => rfl
      refine Insn.Moves.of_turns (s := copies (n + held) s) turns (by decide) ?_
      change (copies (n + held + 1) s).slots ≤ cap
      rw [slots_copies]
      omega
    exact .cons first (ih (by omega))

/-- Instructions that make `m` copies of a value on top of the stack from `n`. -/
inductive Recopies : List Insn → Nat → Nat → Prop where
  | nil (n : Nat) : Recopies [] n n
  | dup {n m : Nat} {rest : List Insn} :
      Recopies rest (n + 2) m → Recopies (.op Op.dup :: rest) (n + 1) m
  | dup2 {n m : Nat} {rest : List Insn} :
      Recopies rest (n + 4) m → Recopies (.op Op.dup2 :: rest) (n + 2) m

theorem Recopies.le {ops : List Insn} {n m : Nat} (recopies : Recopies ops n m) : n ≤ m := by
  induction recopies with
  | nil n => exact Nat.le_refl n
  | dup _ ih => omega
  | dup2 _ ih => omega

theorem Recopies.runs {ops : List Insn} {n m : Nat} (recopies : Recopies ops n m)
    (room : s.slots + 4 ≤ cap) (few : m ≤ 4) (p : Pool) :
    Runs (Insn.Moves p cap) ops (copies n s) (copies m s) := by
  induction recopies with
  | nil n => exact .nil _
  | @dup n m rest recopies ih =>
    have within := recopies.le
    exact .cons (moves_dup p n room (by omega)) (ih few)
  | @dup2 n m rest recopies ih =>
    have within := recopies.le
    exact .cons (moves_dup2 p n room (by omega)) (ih few)

theorem recopies_refill (some_held : 1 ≤ held) (few : held ≤ 3) (le : held ≤ wanted) :
    ∃ more, (refill held wanted).2 = more + 1 ∧ more ≤ 3 ∧ more + 1 ≤ wanted ∧
    (2 ≤ wanted → 1 ≤ more) ∧
      Recopies (refill held wanted).1 held (more + 1) := by
  unfold refill
  by_cases one : held = 1 ∧ 2 ≤ wanted
  · obtain ⟨rfl, two⟩ := one
    by_cases many : 4 ≤ wanted
    · refine ⟨3, by simp [two, many], by omega, by omega, by omega, ?_⟩
      simp only [two, many, and_self, if_true]
      exact .dup (.dup2 (.nil 4))
    · refine ⟨1, by simp [two, many], by omega, by omega, by omega, ?_⟩
      simp only [two, many, and_self, and_false, if_true, if_false]
      exact .dup (.nil 2)
  · by_cases many : held = 2 ∧ 4 ≤ wanted
    · obtain ⟨rfl, four⟩ := many
      refine ⟨3, by simp [four], by omega, by omega, by omega, ?_⟩
      simp only [four]
      exact .dup2 (.nil 4)
    · refine ⟨held - 1, ?_, by omega, by omega, by omega, ?_⟩
      · simp only [one, many, if_false]
        omega
      · simp only [one, many, if_false]
        rw [Nat.sub_add_cancel some_held]
        exact .nil held

/-- A plan with `held` copies on the stack and `wanted` to come: each step leaves one copy for its
use and `more` others. -/
inductive Serves : Nat → Nat → List (List Insn) → Prop where
  | last {held wanted : Nat} :
      wanted ≤ held → held ≤ 3 → Serves wanted held [List.replicate (held - wanted) (.op Op.pop)]
  | use {held more wanted : Nat} {step : List Insn} {rest : List (List Insn)} :
      Recopies step held (more + 1) → more ≤ 3 → more ≤ wanted → Serves wanted more rest →
      Serves (wanted + 1) held (step :: rest)

theorem serves_steps (uses : Nat) {spare : Nat} (few : held ≤ 3) (le : held ≤ uses + spare + 1)
    (enough : 1 ≤ uses + spare → 1 ≤ held ∧ held ≤ uses + spare) (one : spare ≤ 1) :
    Serves (uses + spare) held (steps uses held (uses + spare)) := by
  induction uses generalizing held with
  | zero =>
    rw [Nat.zero_add] at enough ⊢
    exact .last (by omega) few
  | succ uses ih =>
    obtain ⟨some_held, le⟩ := enough (by omega)
    obtain ⟨more, after, few, within, next, refilled⟩ := recopies_refill some_held few le
    rw [steps, after, Nat.add_sub_cancel, Nat.add_right_comm uses 1 spare, Nat.add_sub_cancel]
    rw [Nat.add_right_comm uses 1 spare] at refilled within next
    exact .use refilled few (by omega) (ih few (by omega) (fun _ => ⟨next (by omega), by omega⟩))

theorem serves_copyPlan (uses : Nat) {spare : Nat} (one : spare ≤ 1) :
    Serves (uses + spare) 1 (copyPlan uses spare) := by
  rw [copyPlan_eq]
  exact serves_steps uses (by omega) (by omega) (fun _ => ⟨by omega, by omega⟩) one

theorem Serves.exists_held {first : Nat} {steps : List (List Insn)}
    (serves : Serves wanted first steps) :
    ∃ held : Nat → Nat, held 0 = first ∧ ∀ (j : Nat) (step : List Insn), j + 1 < steps.length →
    steps[j]? = some step →
      held (j + 1) ≤ 3 ∧ held (j + 1) + (j + 1) ≤ wanted ∧
      Recopies step (held j) (held (j + 1) + 1) := by
  induction serves with
  | @last first wanted => exact ⟨fun _ => first, rfl, fun j step less => by simp at less⟩
  | @use first more wanted step rest recopies few le _ ih =>
    obtain ⟨held, start, each⟩ := ih
    subst start
    refine ⟨fun j => j.casesOn first held, rfl, fun j step' less found => ?_⟩
    cases j with
    | zero =>
      cases found
      exact ⟨few, Nat.succ_le_succ le, recopies⟩
    | succ j =>
      obtain ⟨few', le', recopies'⟩ := each j step' (by simpa using less) found
      exact ⟨few', Nat.succ_le_succ le', recopies'⟩

/-- The copies that a plan for `n` uses holds after each use, from the one that is loaded to none.
-/
structure Provides (plan : List (List Insn)) (n : Nat) (held : Nat → Nat) : Prop where
  one : held 0 = 1
  few : ∀ j, j ≤ n → held j ≤ 3
  last : n ≠ 0 → held n = 0
  each : ∀ j, j < n → ∃ step, plan[j]? = some step ∧ Recopies step (held j) (held (j + 1) + 1)

theorem exists_provides (uses : Nat) : ∃ held, Provides (copyPlan uses 0) uses held := by
  obtain ⟨held, one, steps⟩ := (serves_copyPlan uses (Nat.zero_le 1)).exists_held
  have length := length_copyPlan uses 0
  have each (j : Nat) (less : j < uses) : ∃ step, (copyPlan uses 0)[j]? = some step ∧
      held (j + 1) ≤ 3 ∧
      held (j + 1) + (j + 1) ≤ uses + 0 ∧ Recopies step (held j) (held (j + 1) + 1) :=
    have found := List.getElem?_eq_getElem (show j < (copyPlan uses 0).length by omega)
    ⟨_, found, steps j _ (by omega) found⟩
  refine ⟨held, one, fun j upto => ?_, fun some_use => ?_, fun j less => ?_⟩
  · cases j with
    | zero => omega
    | succ j => exact (each j upto).choose_spec.2.1
  · obtain ⟨n, rfl⟩ := Nat.exists_eq_add_one_of_ne_zero some_use
    obtain ⟨_, _, _, le, _⟩ := each n (Nat.lt_succ_self n)
    omega
  · obtain ⟨step, found, _, _, recopies⟩ := each j less
    exact ⟨step, found, recopies⟩

end Restack.CopyPlan
