import Restack.Proofs.Execution.CopyGroups
import Restack.Proofs.Execution.Machine

set_option autoImplicit false

namespace Restack.PropagateCopies

variable {b : Body} {s : PropagateCopies.State} {l m : Line} {v w : Local} {front back : List Line}
  {tag : Nat}

/-- What is known when the lines of `front` have been visited. -/
def upto (b : Body) (front : List Line) : PropagateCopies.State :=
  front.foldl (visit b) ⟨.empty, ∅, none, ∅, b.fresh⟩

def part (b : Body) (l : Line) : List Line := (upto b b.lines).replacement.getD l.tag [l]

theorem upto_snoc (b : Body) (front : List Line) (l : Line) :
    upto b (front ++ [l]) = visit b (upto b front) l := by
  simp [upto]

theorem before_upto (b : Body) (front : List Line) : (upto b front).before = front.getLast? :=
  (scan b).before_foldl rfl front

theorem isGoes_verdict (b : Body) (s : PropagateCopies.State) (l : Line) :
    ((scan b).verdict s l).isGoes = (!b.isTarget l && s.before.any (isVain s.known · l)) := by
  cases target : b.isTarget l with
  | true => simp [scan, target, Verdict.isGoes]
  | false =>
    cases loads : l.insn.loads? with
    | none =>
      cases vain : s.before.any
        (isVain s.known · l) <;> simp [scan, target, loads, vain, Verdict.isGoes]
    | some v =>
      have not_vain : s.before.any (isVain s.known · l) = false := by
        cases s.before <;> simp [isVain, Insn.stores?_of_loads? loads]
      by_cases same : s.known.root v =
        v <;> simp [scan, target, loads, same, not_vain, Verdict.isGoes]

section Parts

variable (distinct : (b.lines.map Line.tag).Nodup)

include distinct

theorem part_eq (split : b.lines = front ++ l :: back) : part b l =
    if back.head?.any fun m => !b.isTarget m && isVain (upto b (front ++ [l])).known l m then []
    else (((scan b).verdict (upto b front) l).part? (upto b front).fresh).getD [l] := by
  have lookup := (scan b).lookup_lines (s := ⟨.empty, ∅, none, ∅, b.fresh⟩) distinct rfl rfl split
  have goes (m : Line) :
      ((scan b).verdict
        ((front ++ [l]).foldl (scan b).visit ⟨.empty, ∅, none, ∅, b.fresh⟩) m).isGoes =
      (!b.isTarget m && isVain (upto b (front ++ [l])).known l m) := by
    rw [isGoes_verdict,
      show ((front ++ [l]).foldl (scan b).visit _).before = _ from before_upto b (front ++ [l]),
      List.getLast?_concat]
    rfl
  simp only [goes] at lookup
  rw [part, Std.HashMap.getD_eq_getD_getElem?,
    show (upto b b.lines).replacement[l.tag]? = _ from lookup]
  split <;> rfl

theorem part_of_not_loads (split : b.lines = front ++ l :: back) (no_load : l.insn.loads? = none) :
    part b l = if !b.isTarget l && front.getLast?.any (isVain (upto b front).known · l) then []
      else [l] := by
  have not_vain (c : Copies) (m : Line) : isVain c l m = false := by simp [isVain, no_load]
  rw [part_eq distinct split, ← before_upto b front]
  cases target : b.isTarget l with
  | true => simp [not_vain, scan, target, Verdict.part?]
  | false =>
    cases vain : (upto b front).before.any (isVain (upto b front).known · l) <;>
      simp [not_vain, scan, target, no_load, vain, Verdict.part?]

theorem part_of_loads (split : b.lines = front ++ l :: back) (straight : b.isTarget l = false)
    (loads : l.insn.loads? = some v) :
    if back.head?.any (fun m => !b.isTarget m && isVain (upto b front).known l m) then part b l = []
    else ∃ x, part b l = [x] ∧ x.insn.loads? = some ((upto b front).known.root v) ∧
    (x.tag = l.tag ∨ b.fresh ≤ x.tag) := by
  have known : (upto b (front ++ [l])).known = (upto b front).known := by
    rw [upto_snoc, visit_load straight loads, load]
    dsimp only
    split <;> rfl
  rw [part_eq distinct split, known]
  split
  next => rfl
  next =>
    by_cases root : (upto b front).known.root v = v
    · exact ⟨l, by simp [scan, straight, loads, root, Verdict.part?], by rw [root, loads], .inl rfl⟩
    · exact ⟨⟨(upto b front).fresh, .load ((upto b front).known.root v)⟩,
        by simp [scan, straight, loads, root, Verdict.part?], rfl,
        .inr ((scan b).fresh_foldl (s := ⟨.empty, ∅, none, ∅, b.fresh⟩) front)⟩

end Parts

/-- What is known when control is at a line. A target is entered first. -/
def knownAt (b : Body) (front : List Line) (l : Line) : Copies :=
  if b.isTarget l then (enter b (upto b front) l).known else (upto b front).known

theorem known_snoc (no_store : l.insn.stores? = none) :
    (upto b (front ++ [l])).known = knownAt b front l := by
  rw [upto_snoc, knownAt]
  cases target : b.isTarget l with
  | true =>
    rw [visit_target target]
    rfl
  | false =>
    cases loads : l.insn.loads? with
    | some v =>
      rw [visit_load target loads, load]
      dsimp only
      split <;> rfl
    | none =>
      rw [visit_other target loads no_store]
      exact (leave_keeps b _ l).1

theorem known_snoc_store (straight : b.isTarget l = false) (stores : l.insn.stores? = some w) :
    (upto b (front ++ [l])).known =
      match front.getLast?.bind (·.insn.loads?) with
      | some v => ((upto b front).known.copy w v).2
      | none => (upto b front).known.clobber w := by
  rw [upto_snoc, visit_store straight stores, ← before_upto b front]
  obtain ⟨known, arriving, before, replacement, fresh⟩ := upto b front
  unfold store
  cases before with
  | none => rfl
  | some p => cases loads : p.insn.loads? <;> simp [loads]

theorem agrees_fallen {V : Type} {locals : Local → V} (falls : l.insn.fallsThrough = true)
    (agrees : (upto b (front ++ [l])).known.Agrees locals) (m : Line) :
    (knownAt b (front ++ [l]) m).Agrees locals := by
  unfold knownAt
  split
  · have not_alone : ((upto b (front ++ [l])).before.map fun p => !p.insn.fallsThrough).getD false =
        false := by
      rw [before_upto, List.getLast?_concat]
      simp [falls]
    simp only [enter, not_alone, Bool.false_and, Bool.false_eq_true, if_false]
    exact Copies.agrees_empty locals
  · exact agrees

theorem arriving_upto (b : Body) (front : List Line) (tag : Nat) (c : Copies)
    (found : (upto b front).arriving[tag]? = some c) :
    ∃ before j after, front = before ++ j :: after ∧ b.enters j tag = true ∧
    c = (upto b before).known := by
  induction front using List.reverseRecOn with
  | nil => simp [upto] at found
  | append_singleton front l ih =>
    have further (earlier : (upto b front).arriving[tag]? = some c) :
        ∃ before j after, front ++ [l] = before ++ j :: after ∧ b.enters j tag = true ∧
          c = (upto b before).known := by
      obtain ⟨before, j, after, split, rest⟩ := ih earlier
      exact ⟨before, j, after ++ [l], by simp [split], rest⟩
    rw [upto_snoc] at found
    cases target : b.isTarget l with
    | true =>
      rw [visit_target target] at found
      exact further found
    | false =>
      cases loads : l.insn.loads? with
      | some v =>
        rw [visit_load target loads, load] at found
        refine further ?_
        dsimp only at found
        split at found <;> exact found
      | none =>
        cases stores : l.insn.stores? with
        | some w =>
          rw [visit_store target stores] at found
          exact further ((store_keeps (upto b front) l w).1 ▸ found)
        | none =>
          rw [visit_other target loads stores] at found
          have handed : (leave b (upto b front) l).known = (upto b front).known ∧
              ((leave b (upto b front) l).arriving[tag]? = some c →
                (upto b front).arriving[tag]? = some c ∨ b.enters l tag = true ∧
                c = (upto b front).known) := by
            refine List.foldlRecOn
              (motive := fun t : PropagateCopies.State => t.known = (upto b front).known ∧
              (t.arriving[tag]? = some c →
                (upto b front).arriving[tag]? = some c ∨ b.enters l tag = true ∧
                c = (upto b front).known))
              _ _ ⟨rfl, .inl⟩ fun t same goal inside => ?_
            split
            next head at_goal =>
              split
              · refine ⟨same.1, fun found => ?_⟩
                rcases insert_cases found with ⟨rfl, now⟩ | ⟨_, found⟩
                · exact .inr
                    ⟨List.any_eq_true.2 ⟨goal, inside, by simp [at_goal]⟩, now.trans same.1⟩
                · exact same.2 found
              · exact same
            next => exact same
          rcases handed.2 found with earlier | ⟨enters, rfl⟩
          · exact further earlier
          · exact ⟨front, l, [], rfl, enters, rfl⟩

theorem knownAt_cases (front : List Line) (target : b.isTarget m = true) :
    knownAt b front m = .empty ∨ b.entryCount m.tag = 1 ∧
    ∃ before j after, front = before ++ j :: after ∧ b.enters j m.tag = true ∧
    knownAt b front m = (upto b before).known := by
  rw [knownAt, if_pos target, enter]
  dsimp only
  split
  next alone =>
    cases found : (upto b front).arriving[m.tag]? with
    | none => exact .inl (by rw [Std.HashMap.getD_eq_getD_getElem?, found, Option.getD_none])
    | some c =>
      obtain ⟨before, j, after, split, enters, rfl⟩ := arriving_upto b front m.tag c found
      refine .inr
        ⟨?_, before, j, after, split,
          enters, by rw [Std.HashMap.getD_eq_getD_getElem?, found, Option.getD_some]⟩
      simpa using (Bool.and_eq_true_iff.1 alone).2
  next => exact .inl rfl

end Restack.PropagateCopies
