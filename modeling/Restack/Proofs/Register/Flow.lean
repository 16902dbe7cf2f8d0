import Restack.Proofs.Success
import Restack.Register.Inference

set_option autoImplicit false

namespace Restack

def Family.targetOperand : Family → Option Nat
  | .goto => some 0
  | .branch => some 2
  | .branchZero => some 1
  | _ => none

theorem Family.isControlFlow_cases {family : Family} (control : family.isControlFlow = true) :
    (∃ n, family.targetOperand = some n) ∨ family = .switch := by
  cases family <;> simp_all [Family.isControlFlow, Family.targetOperand]

namespace Register

variable {q : UInt32}

namespace Instr

/-- Where execution goes on when the instruction completes. -/
inductive Leads (i : Instr) : UInt32 → Prop where
  | next : i.family.endsFlow = false → Leads i i.next
  | jump {n : Nat} {q : UInt32} : i.family.targetOperand = some n → i.target n = .ok q → Leads i q
  | case {cases : Cases} {key : Int32} {q : UInt32} :
      i.family = .switch → i.switchCases = .ok cases →
      (key, q) ∈ cases.pairs → Leads i q

/-- A branch to `q` with the state `t`, when `s` holds before the instruction. -/
inductive Branches (catalog : Catalog) (i : Instr) (s : Frame) : UInt32 → Frame → Prop where
  | jump {n : Nat} {q : UInt32} {t passed : Frame} :
      i.family.targetOperand = some n → i.target n = .ok q →
      branchStates catalog i s = .ok (t, passed) → Branches catalog i s q t
  | case {cases : Cases} {key : Int32} {q : UInt32} :
      i.family = .switch → i.switchCases = .ok cases →
      (key, q) ∈ cases.pairs → Branches catalog i s q s

/-- The state after the instruction when no branch is taken. -/
inductive Falls (catalog : Catalog) (i : Instr) (s : Frame) : Frame → Prop where
  | written {t : Frame} : transfer catalog i s = .ok (some t) → Falls catalog i s t
  | kept : transfer catalog i s = .ok none → i.family.isControlFlow = false → Falls catalog i s s
  | passed {taken t : Frame} :
      i.family.isControlFlow = true → branchStates catalog i s = .ok (taken, t) →
      Falls catalog i s t

/-- The state with which execution goes on at a position, when `s` holds before the instruction. -/
inductive Passes (catalog : Catalog) (i : Instr) (s : Frame) : UInt32 → Frame → Prop where
  | next {t : Frame} : i.family.endsFlow = false → Falls catalog i s t → Passes catalog i s i.next t
  | branch {q : UInt32} {t : Frame} : Branches catalog i s q t → Passes catalog i s q t

theorem Passes.leads {catalog : Catalog} {i : Instr} {s t : Frame}
    (passes : Passes catalog i s q t) : i.Leads q := by
  cases passes with
  | next goes_on _ => exact .next goes_on
  | branch branches =>
    cases branches with
    | jump operand target _ => exact .jump operand target
    | case family found member => exact .case family found member

end Instr

section Edges

variable {catalog : Catalog} {handlers : List Handler} {i : Instr} {s : Frame}
  {edges : List (UInt32 × Frame)}

theorem transfer_controlFlow (control : i.family.isControlFlow = true) :
    transfer catalog i s = .ok none := by
  unfold transfer
  cases family : i.family <;> simp_all [Family.isControlFlow]

theorem branches_jump {n : Nat} (operand : i.family.targetOperand = some n) :
    branches catalog i s = (do
      let (taken, passed) ← branchStates catalog i s
      return ([(← i.target n, taken)], passed)) := by
  unfold branches
  cases family : i.family <;> simp_all [Family.targetOperand]

theorem branches_eq_ok {jumps : List (UInt32 × Frame)} {after : Frame}
    (control : i.family.isControlFlow = true) (done : branches catalog i s = .ok (jumps, after)) :
    (∃ taken, branchStates catalog i s = .ok (taken, after)) ∧
      (∀ q t, (q, t) ∈ jumps ↔ i.Branches catalog s q t) ∧
      ∀ q, i.Leads q → i.family.endsFlow = false ∧ q = i.next ∨ ∃ t, i.Branches catalog s q t := by
  rcases Family.isControlFlow_cases control with ⟨n, operand⟩ | family
  · rw [branches_jump operand] at done
    obtain ⟨⟨taken, passed⟩, states, rest⟩ := Except.bind_eq_ok.1 done
    obtain ⟨q, target, last⟩ := Except.bind_eq_ok.1 rest
    cases last
    have no_switch : i.family ≠ .switch := by
      intro family
      simp [family, Family.targetOperand] at operand
    refine ⟨⟨taken, states⟩, fun q' t => ⟨fun member => ?_, fun branches => ?_⟩, fun q' leads => ?_⟩
    · cases List.mem_singleton.1 member
      exact .jump operand target states
    · cases branches with
      | jump operand' target' states' =>
        cases operand.symm.trans operand'
        cases target.symm.trans target'
        cases states.symm.trans states'
        exact List.mem_singleton_self _
      | case family _ _ => exact absurd family no_switch
    · cases leads with
      | next goes_on => exact .inl ⟨goes_on, rfl⟩
      | jump operand' target' => exact .inr ⟨taken, .jump operand' target' states⟩
      | case family _ _ => exact absurd family no_switch
  · obtain ⟨⟨taken, passed⟩, states, rest⟩ := Except.bind_eq_ok.1 done
    simp only [family] at rest
    obtain ⟨cases, found, last⟩ := Except.bind_eq_ok.1 rest
    cases last
    have no_operand : ∀ n, i.family.targetOperand ≠ some n := by
      intro n
      simp [family, Family.targetOperand]
    refine ⟨⟨taken, states⟩, fun q t => ⟨fun member => ?_, fun branches => ?_⟩, fun q leads => ?_⟩
    · obtain ⟨⟨key, q'⟩, inside, same⟩ := List.mem_map.1 member
      cases same
      exact .case family found inside
    · cases branches with
      | jump operand _ _ => exact absurd operand (no_operand _)
      | case _ found' inside =>
        cases found.symm.trans found'
        exact List.mem_map.2 ⟨_, inside, rfl⟩
    · cases leads with
      | next goes_on => exact .inl ⟨goes_on, rfl⟩
      | jump operand _ => exact absurd operand (no_operand _)
      | case _ found' inside => exact .inr ⟨s, .case family found' inside⟩

theorem not_branches (straight : i.family.isControlFlow = false) {t : Frame} :
    ¬ i.Branches catalog s q t := by
  intro branches
  cases branches with
  | jump operand _ _ =>
    cases family : i.family <;> simp_all [Family.isControlFlow, Family.targetOperand]
  | case family _ _ => simp [family, Family.isControlFlow] at straight

theorem leads_of_straight (straight : i.family.isControlFlow = false) (leads : i.Leads q) :
    i.family.endsFlow = false ∧ q = i.next := by
  cases leads with
  | next goes_on => exact ⟨goes_on, rfl⟩
  | jump operand _ =>
    cases family : i.family <;> simp_all [Family.isControlFlow, Family.targetOperand]
  | case family _ _ => simp [family, Family.isControlFlow] at straight

section

variable (done : flows catalog handlers i s = .ok edges)
include done

theorem flows_parts :
    ∃ jumps after, edges = jumps ++ (if i.family.endsFlow then [] else [(i.next, after)]) ++
        handlers.map (fun h => (h.target, s)) ∧
      (∀ t, i.Falls catalog s t ↔ t = after) ∧ (∀ q t, (q, t) ∈ jumps ↔ i.Branches catalog s q t) ∧
      ∀ q, i.Leads q → i.family.endsFlow = false ∧ q = i.next ∨ ∃ t, i.Branches catalog s q t := by
  obtain ⟨written, transferred, rest⟩ := Except.bind_eq_ok.1 done
  cases written with
  | some after =>
    cases rest
    have straight : i.family.isControlFlow = false := by
      by_contra control
      cases (transfer_controlFlow (by simpa using control)).symm.trans transferred
    refine ⟨[], after, rfl, fun t => ⟨fun falls => ?_, fun same => ?_⟩, fun q t => ?_,
      fun q leads => ?_⟩
    · cases falls with
      | written transferred' => simpa using transferred'.symm.trans transferred
      | kept transferred' _ => cases transferred'.symm.trans transferred
      | passed control _ => simp [straight] at control
    · exact same ▸ .written transferred
    · simp [not_branches straight]
    · exact .inl (leads_of_straight straight leads)
  | none =>
    simp only at rest
    by_cases control : i.family.isControlFlow = true
    · rw [if_pos control] at rest
      obtain ⟨⟨jumps, after⟩, branched, last⟩ := Except.bind_eq_ok.1 rest
      cases last
      obtain ⟨⟨taken, states⟩, exact_branches, covered⟩ := branches_eq_ok control branched
      refine ⟨jumps, after, rfl, fun t => ⟨fun falls => ?_, fun same => ?_⟩,
        exact_branches, covered⟩
      · cases falls with
        | written transferred' => cases transferred'.symm.trans transferred
        | kept _ straight => simp [straight] at control
        | passed _ states' =>
          cases states.symm.trans states'
          rfl
      · exact same ▸ .passed control states
    · rw [if_neg control] at rest
      cases rest
      have straight : i.family.isControlFlow = false := by simpa using control
      refine ⟨[], s, rfl, fun t => ⟨fun falls => ?_, fun same => ?_⟩, fun q t => ?_,
        fun q leads => ?_⟩
      · cases falls with
        | written transferred' => cases transferred'.symm.trans transferred
        | kept _ _ => rfl
        | passed control' _ => exact absurd control' control
      · subst same
        exact .kept transferred straight
      · simp [not_branches straight]
      · exact .inl (leads_of_straight straight leads)

theorem mem_flows_iff (q : UInt32) (t : Frame) :
    (q, t) ∈ edges ↔ i.Passes catalog s q t ∨ t = s ∧ ∃ h ∈ handlers, h.target = q := by
  obtain ⟨jumps, after, rfl, falls, branches, _⟩ := flows_parts done
  constructor
  · intro member
    rcases List.mem_append.1 member with normal | caught
    · rcases List.mem_append.1 normal with jumped | passed
      · exact .inl (.branch ((branches q t).1 jumped))
      · by_cases ends : i.family.endsFlow = true
        · simp [ends] at passed
        · simp only [ends] at passed
          cases List.mem_singleton.1 passed
          exact .inl (.next (by simpa using ends) ((falls _).2 rfl))
    · obtain ⟨h, inside, same⟩ := List.mem_map.1 caught
      cases same
      exact .inr ⟨rfl, h, inside, rfl⟩
  · rintro (passes | ⟨rfl, h, inside, rfl⟩)
    · refine List.mem_append_left _ ?_
      cases passes with
      | next goes_on fell =>
        cases (falls _).1 fell
        simp [goes_on]
      | branch branched => exact List.mem_append_left _ ((branches q t).2 branched)
    · exact List.mem_append_right _ (List.mem_map.2 ⟨h, inside, rfl⟩)

theorem exists_falls : ∃ t, i.Falls catalog s t := by
  obtain ⟨_, after, _, falls, _⟩ := flows_parts done
  exact ⟨after, (falls after).2 rfl⟩

theorem exists_passes (leads : i.Leads q) : ∃ t, i.Passes catalog s q t := by
  obtain ⟨jumps, after, _, falls, _, covered⟩ := flows_parts done
  rcases covered q leads with ⟨goes_on, rfl⟩ | ⟨t, branches⟩
  · exact ⟨after, .next goes_on ((falls _).2 rfl)⟩
  · exact ⟨t, .branch branches⟩

end

end Edges

namespace Code

def HasPosition (code : Code) (p : UInt32) : Prop := ∃ i ∈ code.instrs, i.position = p

inductive Reachable (code : Code) : UInt32 → Prop where
  | entry : code.HasPosition 0 → Reachable code 0
  | flow {i : Instr} {q : UInt32} : i ∈ code.instrs → Reachable code i.position → i.Leads q →
      code.HasPosition q → Reachable code q
  | caught {i : Instr} {h : Handler} : i ∈ code.instrs → Reachable code i.position →
      h ∈ code.handlers.getD i.position [] → code.HasPosition h.target → Reachable code h.target

theorem Reachable.hasPosition {code : Code} {p : UInt32} (reachable : code.Reachable p) :
    code.HasPosition p := by
  cases reachable with
  | entry there => exact there
  | flow _ _ _ there => exact there
  | caught _ _ _ there => exact there

/-- Positions ascend, and an instruction that can go on does so at the instruction behind it. -/
structure Contiguous (code : Code) : Prop where
  ascending : code.instrs.Pairwise fun i j => i.position < j.position
  next : ∀ n i, code.instrs[n]? = some i → i.family.endsFlow = false →
    ∃ j, code.instrs[n + 1]? = some j ∧ j.position = i.next

namespace Contiguous

variable {code : Code} {i : Instr}

theorem nodup (contiguous : code.Contiguous) : (code.instrs.map Instr.position).Nodup :=
  List.pairwise_map.2 (contiguous.ascending.imp fun before same => by simp [same] at before)

theorem next_position (contiguous : code.Contiguous) (member : i ∈ code.instrs)
    (goes_on : i.family.endsFlow = false) :
    code.HasPosition i.next ∧ i.position < i.next ∧
      ∀ q, code.HasPosition q → i.position < q → i.next ≤ q := by
  obtain ⟨n, here⟩ := List.getElem?_of_mem member
  obtain ⟨j, there, same⟩ := contiguous.next n i here goes_on
  obtain ⟨n_lt, rfl⟩ := List.getElem?_eq_some_iff.1 here
  obtain ⟨next_lt, rfl⟩ := List.getElem?_eq_some_iff.1 there
  have sorted := List.pairwise_iff_getElem.1 contiguous.ascending
  rw [← same]
  refine ⟨⟨_, List.getElem_mem next_lt, rfl⟩, sorted n (n + 1) n_lt next_lt (by omega), ?_⟩
  rintro q ⟨k, at_q, rfl⟩ later
  obtain ⟨m, m_lt, rfl⟩ := List.getElem_of_mem at_q
  -- An instruction behind `n` stands at `n + 1` or behind that.
  rcases Nat.lt_trichotomy m (n + 1) with front | rfl | back
  · rcases Nat.lt_or_eq_of_le (Nat.le_of_lt_succ front) with less | rfl
    · exact absurd (sorted m n m_lt n_lt less) (by simpa using UInt32.le_of_lt later)
    · exact absurd later (by simp)
  · exact UInt32.le_refl _
  · exact UInt32.le_of_lt (sorted (n + 1) m next_lt m_lt back)

end Contiguous

end Code

end Register

end Restack
