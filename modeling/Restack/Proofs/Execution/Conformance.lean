import Restack.Proofs.Execution.Lifetimes
import Restack.Proofs.Pass.StackRoom

set_option autoImplicit false

namespace Restack

variable {V H : Type} {width : V → Nat} {p : Pool} {limit : Nat} {b : Body} {l : Line}
  {front back : List Line}

/-- What is left has the widths `t`, a jump goes to one of the targets, and an exception takes one
slot. -/
def Reaction.Fits (width : V → Nat) (x : Insn) (t : Operands) : Reaction V H → Prop
  | .goes stack _ => stack.map width = t
  | .jumps index stack _ => index < x.targets.length ∧ stack.map width = t
  | .raises exception _ => width exception = 1

/-- The machine does to its values what the lines of a body do to widths. -/
structure Machine.Conforms (M : Machine V H) (width : V → Nat) (p : Pool) (limit : Nat) (b : Body) :
    Prop where
  value : ∀ l ∈ b.lines, l.insn.isConstant = true → l.insn.pushes? = some (width (M.value l.insn))
  react : ∀ l ∈ b.lines, l.insn.acts = true → ∀ (stack : List V) (heap : H) (t : Operands),
    l.insn.run? p limit (stack.map width) = some t →
      ∃ reaction, M.reaction l.insn stack heap = some reaction ∧ reaction.Fits width l.insn t

def Machine.ofWidths (p : Pool) (limit : Nat) : Machine Nat Unit where
  value x := x.pushes?.getD 0
  react x stack heap := (x.run? p (limit + Operands.slots stack) stack).map fun t => .goes t heap
  catches _ _ _ := true

theorem Machine.ofWidths_conforms (p : Pool) (limit : Nat) (b : Body) :
    (ofWidths p limit).Conforms id p limit b := by
  refine ⟨fun l _ constant => ?_, fun l _ acts stack heap t ran => ?_⟩
  · cases insn : l.insn <;> simp_all [Insn.isConstant, ofWidths, Insn.pushes?]
  · rw [List.map_id] at ran
    have reacts : (ofWidths p limit).react l.insn stack heap = some (.goes t heap) :=
      congrArg (Option.map _) (Insn.run?_mono ran (Nat.le_add_right _ _))
    by_cases goto : ∃ target offset wide, l.insn = .jump ⟨none, target, offset, wide⟩
    · obtain ⟨target, offset, wide, insn⟩ := goto
      rw [insn] at ran ⊢
      have same : stack = t := by
        obtain ⟨e, member, rest, rfl, rfl⟩ := Pool.step?_eq_some.1 ran
        obtain rfl : e = ⟨[], []⟩ := List.mem_singleton.1 member
        rfl
      exact ⟨_, rfl, Nat.zero_lt_one, by rw [List.map_id, same]⟩
    · refine ⟨.goes t heap, ?_, List.map_id t⟩
      rw [← reacts]
      unfold reaction
      split
      next insn => exact absurd ⟨_, _, _, insn⟩ goto
      next => rfl

namespace Body

/-- Locals hold values of their widths, and the stack is that of a path to the lines that are left.
-/
structure OnPath (p : Pool) (width : V → Nat) (b : Body) (c : Config V H) : Prop where
  typed : ∀ v : Local, width (c.locals v) = v.width
  path : c.rest = [] ∨
    ∃ front, b.lines = front ++ c.rest ∧ b.Reaches p front.length (c.stack.map width)

theorem path_linesFrom {tag : Nat} {s : Operands}
    (arrives : ∀ k l, b.lines[k]? = some l → l.tag = tag → b.Reaches p k s) :
    b.linesFrom tag = [] ∨ ∃ front, b.lines = front ++ b.linesFrom tag ∧
    b.Reaches p front.length s := by
  rcases b.linesFrom_eq_nil_or tag with nowhere | ⟨front, l, back, split, same, found⟩
  · exact .inl nowhere
  · exact .inr ⟨front, by rw [found, split], arrives _ l (by simp [split]) same⟩

theorem guards_of_covers (addressed : b.Addressed) (split : b.lines = front ++ l :: back)
    (acts : l.insn.acts = true) {r : Row} (member : r ∈ b.rows) (covered : b.covers r l = true) :
    b.Guards r front.length := by
  rw [covers_of_split addressed.distinct split, Bool.and_eq_true, List.any_eq_true,
    List.any_eq_true] at covered
  obtain ⟨⟨first, among, opens⟩, last, behind, closes⟩ := covered
  obtain ⟨start, at_start⟩ := List.getElem?_of_mem among
  obtain ⟨early, _⟩ := List.getElem?_eq_some_iff.1 at_start
  rcases List.mem_cons.1 behind with rfl | behind
  · obtain ⟨q, label⟩ :=
      (addressed.rows r member).2.1.2 last (by simp [split]) (of_decide_eq_true closes)
    simp [label, Insn.acts] at acts
  · obtain ⟨stop, at_stop⟩ := List.getElem?_of_mem behind
    refine ⟨start, front.length + (stop + 1), first, last, ?_, of_decide_eq_true opens, ?_,
      of_decide_eq_true closes, by omega, by omega⟩
    · rw [split, List.getElem?_append_left early, at_start]
    · rw [split, List.getElem?_append_right (by omega), Nat.add_sub_cancel_left,
        List.getElem?_cons_succ, at_stop]

variable {M : Machine V H} {c d : Config V H}

section Runs

variable (conforms : M.Conforms width p limit b) (contained : b.Contained p limit)
  (sound : ∀ l ∈ b.lines, l.insn.Sound) (addressed : b.Addressed)
include conforms contained sound addressed

theorem OnPath.step (onPath : b.OnPath p width c) (stepped : M.step b c = some d) :
    b.OnPath p width d := by
  obtain ⟨rest, stack, heap, locals⟩ := c
  obtain ⟨typed, rfl | ⟨front, split, reaches⟩⟩ := onPath
  · cases stepped
  · cases rest with
    | nil => cases stepped
    | cons l back =>
      have inside : l ∈ b.lines := by simp [split]
      have here : b.lines[front.length]? = some l := by simp [split]
      obtain ⟨t, ran⟩ := Option.isSome_iff_exists.1 (contained _ _ l reaches here).2
      have next (falls : l.insn.fallsThrough = true) {s : Operands} (same : s = t) :
          back = [] ∨ ∃ front', b.lines = front' ++ back ∧ b.Reaches p front'.length s :=
        .inr ⟨front ++ [l], by simp [split], by simpa [same] using reaches.falls here ran falls⟩
      rcases l.insn.cases_of with ⟨q, label⟩ | ⟨v, loads⟩ | ⟨v, stores⟩ | constant | acts
      · rw [Machine.step_label rfl label] at stepped
        cases stepped
        rw [label] at ran
        exact ⟨typed, next (by rw [label]; rfl) (Option.some.inj ran)⟩
      · rw [Machine.step_load rfl loads] at stepped
        cases stepped
        have pushes := Insn.pushes?_of_loads? loads
        have pushed := Insn.run?_unique ((Insn.steps_push_iff (sound l inside) pushes).2 rfl) ran
        refine ⟨typed, next (Insn.of_pushes? pushes).2.2.1 ?_⟩
        rw [← pushed, List.map_cons, typed]
      · have taken := Insn.run?_store (sound l inside) stores ran
        cases stack with
        | nil => cases taken
        | cons x stack =>
          obtain ⟨wide, left⟩ := List.cons_eq_cons.1 taken
          rw [Machine.step_store rfl stores rfl] at stepped
          cases stepped
          refine ⟨fun w => ?_, next (Insn.of_stores? stores).2.2.1 left⟩
          dsimp only
          by_cases same : w = v
          · rw [same, Function.update_self, wide]
          · rw [Function.update_of_ne same, typed]
      · rw [Machine.step_constant rfl constant] at stepped
        cases stepped
        have pushes := conforms.value l inside constant
        have pushed := Insn.run?_unique ((Insn.steps_push_iff (sound l inside) pushes).2 rfl) ran
        exact ⟨typed, next (Insn.of_pushes? pushes).2.2.1 pushed⟩
      · rw [Machine.step_acting rfl acts] at stepped
        obtain ⟨reaction, reacts, fits⟩ := conforms.react l inside acts stack heap t ran
        dsimp only at stepped
        rw [reacts, Option.bind_some] at stepped
        cases reaction with
        | goes stack' heap' =>
          cases stepped
          refine ⟨typed, ?_⟩
          dsimp only
          split
          next falls => exact next falls fits
          next => exact .inl rfl
        | jumps index stack' heap' =>
          obtain ⟨target, listed, onward⟩ := Option.bind_eq_some_iff.1 stepped
          obtain ⟨tag, head, landed⟩ := Option.bind_eq_some_iff.1 onward
          cases landed
          refine ⟨typed, path_linesFrom fun k l' there same => ?_⟩
          rw [fits.2]
          exact reaches.jumps here ran (List.mem_of_getElem? listed) there (by rw [head, same])
        | raises exception heap' =>
          simp only [Machine.proceed] at stepped
          split at stepped
          next r found =>
            cases stepped
            have covered := List.find?_some found
            rw [Bool.and_eq_true] at covered
            have member := List.mem_of_find?_eq_some found
            refine ⟨typed, path_linesFrom fun k l' there same => ?_⟩
            rw [List.map_singleton, show width exception = 1 from fits]
            exact reaches.throws member
              (guards_of_covers addressed split acts member covered.1) there same
          next =>
            cases stepped
            exact ⟨typed, .inl rfl⟩

variable {heap : H} {locals : Local → V} (typed : ∀ v : Local, width (locals v) = v.width)
  {passed : List (Config V H)} (run : M.Run b (b.start heap locals) passed c)
include typed run

theorem onPath_of_run : b.OnPath p width c :=
  run.keeps (fun _ _ onPath stepped => onPath.step conforms contained sound addressed stepped)
    ⟨typed, .inr ⟨[], rfl, .entry⟩⟩

theorem filled_of_run {v : Local} (rest : c.rest = l :: back) (stores : l.insn.stores? = some v) :
    c.stack ≠ [] := by
  obtain ⟨-, ended | ⟨front, split, reaches⟩⟩ :=
    onPath_of_run conforms contained sound addressed typed run
  · cases rest.symm.trans ended
  · rw [rest] at split
    obtain ⟨t, ran⟩ := Option.isSome_iff_exists.1 (contained _ _ l reaches (by simp [split])).2
    intro empty
    rw [empty] at ran
    cases Insn.run?_store (sound l (by simp [split])) stores ran

theorem ended_of_stuck (placed : ∀ l ∈ b.lines, ∀ q ∈ l.insn.targets, (b.heads[q]?).isSome)
    (stops : M.step b c = none) : c.rest = [] := by
  obtain ⟨-, ended | ⟨front, split, reaches⟩⟩ :=
    onPath_of_run conforms contained sound addressed typed run
  · exact ended
  · obtain ⟨rest, stack, heap, locals⟩ := c
    cases rest with
    | nil => rfl
    | cons l back =>
      have inside : l ∈ b.lines := by simp [split]
      rcases Machine.stuck_cases stops with acts | ⟨v, stores, empty⟩
      · obtain ⟨t, ran⟩ := Option.isSome_iff_exists.1 (contained _ _ l reaches (by simp [split])).2
        obtain ⟨reaction, reacts, fits⟩ := conforms.react l inside acts stack heap t ran
        rw [Machine.step_acting rfl acts] at stops
        dsimp only at stops
        rw [reacts, Option.bind_some] at stops
        cases reaction with
        | goes => cases stops
        | jumps index =>
          obtain ⟨target, listed⟩ : ∃ target, l.insn.targets[index]? = some target :=
            ⟨_, List.getElem?_eq_getElem fits.1⟩
          obtain ⟨tag, head⟩ :=
            Option.isSome_iff_exists.1 (placed l inside _ (List.mem_of_getElem? listed))
          simp [Machine.proceed, listed, head] at stops
        | raises =>
          simp only [Machine.proceed] at stops
          split at stops <;> cases stops
      · exact absurd empty (filled_of_run conforms contained sound addressed typed run rfl stores)

end Runs

end Body

end Restack
