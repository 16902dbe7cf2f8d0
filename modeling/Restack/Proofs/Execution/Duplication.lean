import Restack.Proofs.Execution.Parts
import Restack.Proofs.Pass.Duplication

set_option autoImplicit false

namespace Restack

variable {V H : Type}

/-- A reaction with more values below what is left on the stack. -/
def Reaction.onto (below : List V) : Reaction V H → Reaction V H
  | .goes stack heap => .goes (stack ++ below) heap
  | .jumps index stack heap => .jumps index (stack ++ below) heap
  | .raises exception heap => .raises exception heap

/-- The machine can copy values that take one slot, and plain instructions neither read nor change
the stack below their own operands. -/
structure Machine.Copying (M : Machine V H) (narrow : V → Prop) : Prop where
  dup : ∀ x stack heap, narrow x → M.react (.op Op.dup) (x :: stack) heap =
    some (.goes (x :: x :: stack) heap)
  dup2 : ∀ x y stack heap, narrow x → narrow y →
    M.react (.op Op.dup2) (x :: y :: stack) heap = some (.goes (x :: y :: x :: y :: stack) heap)
  below : ∀ code stack heap reaction below, M.react (.plain code) stack heap = some reaction →
    M.react (.plain code) (stack ++ below) heap = some (reaction.onto below)

/-- What a run does next and where, if it is at a line of a body with tags below `fresh` that is not
a load. -/
def Config.deed? (fresh : Nat) (c : Config V H) : Option (Line × List V × H × (Local → V)) :=
  match c.rest with
  | l :: _ =>
    if l.tag < fresh ∧ l.insn.loads? = none then some (l, c.stack, c.heap, c.locals) else none
  | [] => none

namespace Body

/-- The second run is at the same line with the same heap and locals, and has at most three spare
copies of a narrow local below its stack, none where control may come from or go elsewhere. -/
def Spares (b : Body) (x y : Line × List V × H × (Local → V)) : Prop :=
  y.1 = x.1 ∧ y.2.2 = x.2.2 ∧ ∃ count v, y.2.1 = x.2.1 ++ List.replicate count (x.2.2.2 v) ∧
    count ≤ 3 ∧
    (count ≠ 0 → v.isWide = false ∧ b.isTarget x.1 = false ∧ x.1.insn.targets = [])

end Body

namespace Duplicate

variable {M : Machine V H} {handOver : HandOver} {b : Body} {l m : Line} {v w : Local}
  {front back rest : List Line} {count : Nat}
variable {stack : List V} {heap : H} {locals : Local → V} {narrow : V → Prop} {d : Config V H}
  {fresh : Nat}

theorem reworked (handOver : HandOver) (addressed : b.Addressed) :
    b.Reworked (b.duplicate handOver) (part handOver b) := by
  have edit := edit_replaced handOver (Body.tagged_of_distinct addressed.distinct addressed.bound)
  refine ⟨rfl, rfl, rfl, fun l inside fixed => ?_, fun l inside m member => ?_⟩
  · rw [part, Std.HashMap.getD_eq_getD_getElem?]
    cases found : (replaced handOver b).1[l.tag]? with
    | none => rfl
    | some lines =>
      obtain ⟨l', inside', same, movable⟩ := edit.keyed l.tag lines found
      cases eq_of_tag_eq addressed.distinct inside' inside same
      rw [fixed] at movable
      cases movable
  · rcases edit.origin_getD inside member with ⟨kept, constant | same⟩ | ⟨fresh, _⟩
    · exact .inr (.inr ⟨kept, constant⟩)
    · exact .inl same
    · exact .inr (.inl fresh)

theorem deed?_eq_none_of_fresh {c : Config V H} (here : c.rest = l :: back) (new : fresh ≤ l.tag) :
    c.deed? fresh = none := by
  simp [Config.deed?, here, Nat.not_lt.2 new]

theorem deed?_eq_none_of_loads {c : Config V H} (here : c.rest = l :: back)
    (loads : l.insn.loads? = some v) :
    c.deed? fresh = none := by
  simp [Config.deed?, here, loads]

theorem step_op {later : Body} {op : UInt8} {stack' : List V} (insn : l.insn = .op op)
    (falls : Op.endsMethod op = false)
    (reacts : M.react (.op op) stack heap = some (.goes stack' heap)) :
    M.step later ⟨l :: rest, stack, heap, locals⟩ = some ⟨rest, stack', heap, locals⟩ := by
  have goes_on : l.insn.fallsThrough = true := by rw [insn, Insn.op, Insn.fallsThrough, falls]; rfl
  have reaction : M.reaction l.insn stack heap = some (.goes stack' heap) := by
    rw [insn, ← reacts]; rfl
  rw [Machine.step_acting rfl (by rw [insn]; rfl), reaction, Option.bind_some, Machine.proceed,
    if_pos goes_on]

theorem run_recopies (copying : M.Copying narrow) {later : Body} {x : V} (is_narrow : narrow x)
    {new : List Line} {n k : Nat} (recopies : CopyPlan.Recopies (new.map Line.insn) n k)
    (tags : ∀ m ∈ new, fresh ≤ m.tag) :
    ∃ passed, M.Run later ⟨new ++ rest, List.replicate n x, heap, locals⟩ passed
      ⟨rest, List.replicate k x, heap, locals⟩ ∧
      ∀ e ∈ passed, e.deed? fresh = none := by
  induction new generalizing n with
  | nil =>
    cases recopies
    exact ⟨[], .nil _, by simp⟩
  | cons l new ih =>
    obtain ⟨tag, tags⟩ := List.forall_mem_cons.1 tags
    rw [List.map_cons] at recopies
    generalize same : l.insn = insn at recopies
    cases recopies with
    | @dup n _ _ recopies =>
      obtain ⟨passed, run, silent⟩ := ih recopies tags
      have stepped : M.step later ⟨l :: (new ++ rest), List.replicate (n + 1) x, heap, locals⟩ =
          some ⟨new ++ rest, List.replicate (n + 2) x, heap, locals⟩ :=
        step_op same (by decide) (copying.dup x (List.replicate n x) heap is_narrow)
      exact ⟨_, .cons stepped run, List.forall_mem_cons.2 ⟨deed?_eq_none_of_fresh rfl tag, silent⟩⟩
    | @dup2 n _ _ recopies =>
      obtain ⟨passed, run, silent⟩ := ih recopies tags
      have stepped : M.step later ⟨l :: (new ++ rest), List.replicate (n + 2) x, heap, locals⟩ =
          some ⟨new ++ rest, List.replicate (n + 4) x, heap, locals⟩ :=
        step_op same (by decide) (copying.dup2 x x (List.replicate n x) heap is_narrow is_narrow)
      exact ⟨_, .cons stepped run, List.forall_mem_cons.2 ⟨deed?_eq_none_of_fresh rfl tag, silent⟩⟩

/-- Runs agree but for copies that are held below the stack. A load right behind the head of a block
finds the stack empty. -/
inductive Tracks (handOver : HandOver) (b : Body) : Config V H → Config V H → Prop where
  | along (front : List Line) {rest : List Line} {count : Nat} {v : Local} {stack stack' : List V}
      {heap : H} {locals : Local → V} :
      b.lines = front ++ rest → Holds handOver b front.length count v →
      stack' = stack ++ List.replicate count (locals v) →
      (∀ before p q l back w, front = before ++ [p] → p.insn = .label (some q) → rest = l :: back →
        l.insn.loads? = some w →
        stack = []) →
      Tracks handOver b ⟨rest, stack, heap, locals⟩
        ⟨rest.flatMap (part handOver b), stack', heap, locals⟩
  | ended {stack stack' : List V} {heap heap' : H} {locals locals' : Local → V} :
      Tracks handOver b ⟨[], stack, heap, locals⟩ ⟨[], stack', heap', locals'⟩

theorem tracks_landed (split : b.lines = front ++ l :: back) {q : Option UInt32}
    (label : l.insn = .label q) (target : b.isTarget l = true) :
    Tracks handOver b ⟨l :: back, stack, heap, locals⟩
      ⟨(l :: back).flatMap (part handOver b), stack, heap, locals⟩ := by
  have barrier : isBarrier b l = true := by
    rw [isBarrier, target]
    rfl
  have here : b.lines[front.length]? = some l := by simp [split]
  refine .along front split (holds_barrier here barrier default) (by simp) ?_
  rintro before p q' m after w _ _ next loads
  cases next
  simp [label, Insn.loads?] at loads

theorem tracks_next (split : b.lines = front ++ l :: back)
    (holds : Holds handOver b (front.length + 1) count v)
    (no_head : ∀ q, l.insn ≠ .label (some q)) :
    Tracks handOver b ⟨back, stack, heap, locals⟩
      ⟨back.flatMap (part handOver b), stack ++ List.replicate count (locals v), heap, locals⟩ := by
  refine .along (front ++ [l]) (by simp [split]) (by simpa using holds) rfl ?_
  intro before p q m after w fronts label
  obtain ⟨_, last⟩ := List.append_inj' fronts rfl
  cases last
  exact absurd label (no_head q)

section Simulation

variable (copying : M.Copying narrow) (addressed : b.Addressed) (entered : b.Entered)
  (gotos : b.GotosEnd)

include copying addressed in
theorem matches_use (split : b.lines = front ++ l :: back)
    (holds : Holds handOver b front.length count w) {uses : Stretch}
    (member : uses ∈ chosen handOver b) {u : Use} (inside : u ∈ uses)
    (here : u.index = front.length)
    (headed : ∀ before p q x after w, front = before ++ [p] → p.insn = .label (some q) →
      l :: back = x :: after → x.insn.loads? = some w → stack = [])
    (typed : ∀ v : Local, v.isWide = false → narrow (locals v))
    (stepped : M.step b ⟨l :: back, stack, heap, locals⟩ = some d) :
    Machine.Matches M (b.duplicate handOver) (Config.deed? b.fresh) (Config.deed? b.fresh) b.Spares
      (Tracks handOver b)
      ⟨l :: back, stack, heap, locals⟩
      ⟨(l :: back).flatMap (part handOver b), stack ++ List.replicate count (locals w), heap,
        locals⟩ d := by
  obtain ⟨j, at_place⟩ := List.getElem?_of_mem inside
  rw [← here] at holds
  obtain ⟨v, more, step, clear, planned, next, cases⟩ := holds.use member at_place
  obtain ⟨line, loads, k, p, q, index, before, label⟩ := clear.loads u inside
  rw [here] at line index
  have same : l = u.line := by
    rw [split, List.getElem?_append_right (Nat.le_refl _), Nat.sub_self,
      List.getElem?_cons_zero] at line
    exact Option.some.inj line
  obtain ⟨new, planned', fresh, parts⟩ :=
    part_use addressed.distinct addressed.bound member at_place
  cases Option.some.inj (planned.symm.trans planned')
  rw [← same] at loads parts
  rw [here] at next
  -- The use stands right behind the head of a block.
  have empty : stack = [] := by
    have fronts : front = front.take k ++ [p] := by
      have less : k < front.length := by omega
      have found : front[k] = p := by
        rw [split, List.getElem?_append_left less, List.getElem?_eq_getElem less] at before
        exact Option.some.inj before
      rw [← found, List.take_append_getElem, List.take_of_length_le (by omega)]
    exact headed (front.take k) p q l back v fronts label rfl loads
  subst empty
  rw [Machine.step_load rfl loads] at stepped
  cases stepped
  have no_head : ∀ q, l.insn ≠ .label (some q) := by
    intro q label
    simp [label, Insn.loads?] at loads
  have ends : Tracks handOver b ⟨back, [locals v], heap, locals⟩
      ⟨back.flatMap (part handOver b), List.replicate (more + 1) (locals v), heap, locals⟩ :=
        tracks_next split next no_head
  have copied {n : Nat} (recopies : CopyPlan.Recopies (new.map Line.insn) n (more + 1)) :
      ∃ passed, M.Run (b.duplicate handOver)
        ⟨new ++ back.flatMap (part handOver b), List.replicate n (locals v), heap, locals⟩ passed
          ⟨back.flatMap (part handOver b), List.replicate (more + 1) (locals v), heap, locals⟩ ∧
        ∀ e ∈ passed, e.deed? b.fresh = none :=
    run_recopies copying (typed v clear.narrow) recopies fresh
  rw [List.flatMap_cons, parts]
  rcases cases with ⟨rfl, rfl, recopies⟩ | ⟨later, rfl, recopies⟩
  · obtain ⟨passed, run, silent⟩ := copied recopies
    refine .inr ⟨deed?_eq_none_of_loads rfl loads, _, _, .cons (Machine.step_load rfl loads) run,
      ends, ?_, by simp⟩
    exact List.forall_mem_cons.2 ⟨deed?_eq_none_of_loads rfl loads, silent⟩
  · obtain ⟨passed, run, silent⟩ := copied recopies
    rw [if_neg later]
    exact .inr ⟨deed?_eq_none_of_loads rfl loads, passed, _, run, ends, silent, by simp⟩

include addressed entered in
theorem tracks_acted (split : b.lines = front ++ l :: back)
    (holds : Holds handOver b (front.length + 1) 0 v) (acts : l.insn.acts = true)
    (stepped : M.step b ⟨l :: back, stack, heap, locals⟩ = some d) :
    Tracks handOver b d { d with rest := d.rest.flatMap (part handOver b), locals := locals } := by
  have inside : l ∈ b.lines := by simp [split]
  obtain ⟨same, leads⟩ := Machine.landed_of_step addressed rfl acts stepped
  obtain ⟨rest, stack', heap', locals'⟩ := d
  dsimp only at leads same ⊢
  subst same
  rcases leads with ⟨_, rfl⟩ | rfl | ⟨_, m, after, q, split', rfl, label, turns⟩
  · have next : Tracks handOver b ⟨rest, stack', heap', locals'⟩
        ⟨rest.flatMap (part handOver b), stack' ++ List.replicate 0 (locals' v), heap',
          locals'⟩ := by
      refine tracks_next split holds fun q label => ?_
      rw [label] at acts
      cases acts
    simpa using next
  · exact .ended
  · exact tracks_landed split' label (entered.isTarget inside turns)

include copying addressed entered in
theorem step_plain {code : Bytes} (split : b.lines = front ++ l :: back)
    (holds : Holds handOver b (front.length + 1) count v) (insn : l.insn = .plain code)
    (stepped : M.step b ⟨l :: back, stack, heap, locals⟩ = some d) :
    ∃ d', M.step (b.duplicate handOver) ⟨l :: back.flatMap (part handOver b),
      stack ++ List.replicate count (locals v), heap, locals⟩ = some d' ∧
      Tracks handOver b d d' := by
  have inside : l ∈ b.lines := by simp [split]
  have acts : l.insn.acts = true := by rw [insn]; rfl
  have no_head : ∀ q, l.insn ≠ .label (some q) := by simp [insn]
  rw [Machine.step_acting rfl acts] at stepped ⊢
  obtain ⟨reaction, reacts, proceeds⟩ := Option.bind_eq_some_iff.1 stepped
  have reacts' : M.reaction l.insn (stack ++ List.replicate count (locals v)) heap =
      some (reaction.onto (List.replicate count (locals v))) := by
    rw [insn] at reacts ⊢
    exact copying.below code stack heap reaction _ reacts
  dsimp only
  rw [reacts', Option.bind_some]
  cases reaction with
  | goes stack' heap' =>
    cases proceeds
    refine ⟨_, rfl, ?_⟩
    dsimp only
    split
    · exact tracks_next split holds no_head
    · exact .ended
  | jumps index stack' heap' =>
    have none : l.insn.targets = [] := by rw [insn]; rfl
    simp [Machine.proceed, none] at proceeds
  | raises exception heap' =>
    -- The handler is the same, and the copies are gone with the rest of the stack.
    rw [← Machine.step_acting rfl acts] at stepped
    have both :=
      Machine.step_reworked (reworked handOver addressed) addressed inside acts stepped locals
    rw [Machine.step_acting rfl acts] at both
    dsimp only at reacts both
    rw [reacts, Option.bind_some] at both
    refine ⟨_, both, ?_⟩
    rw [Machine.proceed] at proceeds
    split at proceeds
    next r found =>
      cases proceeds
      have member := List.mem_of_find?_eq_some found
      rcases b.linesFrom_eq_nil_or r.handler with nowhere | ⟨_, m, after, cut, tags, there⟩
      · rw [nowhere]
        exact .ended
      · obtain ⟨q, label⟩ := (addressed.rows r member).2.2.2 m (by simp [cut]) tags
        rw [there]
        exact tracks_landed cut label (by rw [Body.isTarget, tags, entered.rows r member])
    next =>
      cases proceeds
      exact .ended

include addressed in
theorem seen_both (split : b.lines = front ++ l :: back) (no_load : l.insn.loads? = none)
    (few : count ≤ 3)
    (idle : count ≠ 0 → v.isWide = false ∧ b.isTarget l = false ∧ l.insn.targets = [])
    (back' : List Line) :
    List.Forall₂ b.Spares
      (Config.deed? b.fresh (⟨l :: back, stack, heap, locals⟩ : Config V H)).toList
      (Config.deed? b.fresh
        (⟨l :: back', stack ++ List.replicate count (locals v), heap, locals⟩ :
          Config V H)).toList := by
  have bound := addressed.bound l (by simp [split])
  simp only [Config.deed?, bound, no_load, and_self, if_true, Option.toList_some]
  exact .cons ⟨rfl, rfl, count, v, rfl, few, idle⟩ .nil

include copying addressed entered gotos in
theorem matches_other (split : b.lines = front ++ l :: back)
    (holds : Holds handOver b front.length count v)
    (unused : ∀ uses ∈ chosen handOver b, ∀ u ∈ uses, u.index ≠ front.length)
    (reached : ∀ q m after w, l.insn = .label (some q) → back = m :: after →
      m.insn.loads? = some w → stack = [])
    (stepped : M.step b ⟨l :: back, stack, heap, locals⟩ = some d) :
    Machine.Matches M (b.duplicate handOver) (Config.deed? b.fresh) (Config.deed? b.fresh) b.Spares
      (Tracks handOver b)
      ⟨l :: back, stack, heap, locals⟩
      ⟨(l :: back).flatMap (part handOver b), stack ++ List.replicate count (locals v), heap,
        locals⟩ d := by
  have here : b.lines[front.length]? = some l := by simp [split]
  have inside : l ∈ b.lines := List.mem_of_getElem? here
  have next := holds.next unused
  have idle := spares_of_holds gotos split holds unused
  rw [List.flatMap_cons, part_other addressed.distinct here unused]
  rcases Machine.step_cases stepped with acts | ⟨w, x, stack, stores, rfl, rfl⟩ |
    ⟨_, no_store, pushed, same, step'⟩
  · obtain ⟨no_load, _⟩ := Insn.no_access_of_acts acts
    by_cases none_held : count = 0
    · subst none_held
      refine .inl ⟨_, ?_, tracks_acted addressed entered split next acts stepped,
        seen_both addressed split no_load holds.few idle _⟩
      rw [List.replicate_zero, List.append_nil]
      exact Machine.step_reworked (reworked handOver addressed) addressed inside acts stepped locals
    · obtain ⟨code, insn⟩ : ∃ code, l.insn = .plain code := by
        have barred := (holds.barred none_held here).2.1
        have straight := (idle none_held).2.2
        cases insn : l.insn with
        | plain code => exact ⟨code, rfl⟩
        | jump => simp [insn, Insn.targets] at straight
        | switch => simp [isBarrier, insn] at barred
        | label | access | literal | constant => simp [insn, Insn.acts] at acts
      obtain ⟨d', step', tracks⟩ := step_plain copying addressed entered split next insn stepped
      exact .inl ⟨d', step', tracks, seen_both addressed split no_load holds.few idle _⟩
  · -- The local that copies are held of is not the one that is stored.
    have kept : List.replicate count (locals v) =
        List.replicate count (Function.update locals w x v) := by
      by_cases some_held : count = 0
      · rw [some_held]
        rfl
      · have other : v ≠ w := by
          rintro rfl
          exact (holds.barred some_held here).2.2 stores
        rw [Function.update_of_ne other]
    refine .inl ⟨_, Machine.step_store rfl stores rfl, ?_,
      seen_both addressed split (Insn.loads?_of_stores? stores) holds.few idle _⟩
    dsimp only
    rw [kept]
    exact tracks_next split next fun q label => by simp [label, Insn.stores?] at stores
  · by_cases label : ∃ q, l.insn = .label q
    · obtain ⟨q, label⟩ := label
      rw [Machine.step_label rfl label] at stepped
      cases stepped
      refine .inl ⟨_, Machine.step_label rfl label, ?_,
        seen_both addressed split (by rw [label]; rfl) holds.few idle _⟩
      refine .along (front ++ [l]) (by simp [split]) (by simpa using next) rfl ?_
      intro before p q' m after w fronts head rest loads
      obtain ⟨_, last⟩ := List.append_inj' fronts rfl
      cases last
      exact reached q' m after w head rest loads
    · subst same
      have both := step' (b.duplicate handOver) (back.flatMap (part handOver b))
        (stack ++ List.replicate count (locals v)) heap locals fun _ _ => rfl
      have tracks : Tracks handOver b ⟨back, pushed ++ stack, heap, locals⟩
          ⟨back.flatMap (part handOver b), pushed ++ stack ++ List.replicate count (locals v),
            heap, locals⟩ :=
        tracks_next split next fun q head => label ⟨some q, head⟩
      rw [← List.append_assoc] at both
      cases loads : l.insn.loads? with
      | none => exact .inl ⟨_, both, tracks, seen_both addressed split loads holds.few idle _⟩
      | some w =>
        exact .quiet both tracks (deed?_eq_none_of_loads rfl loads)
          (deed?_eq_none_of_loads rfl loads)

include copying addressed entered gotos in
theorem simulates (handOver : HandOver) {P : Config V H → Prop}
    (kept : ∀ c d, P c → M.step b c = some d → P d)
    (heads : ∀ c l m back q v, P c → c.rest = l :: m :: back → l.insn = .label (some q) →
      m.insn.loads? = some v → c.stack = [])
    (typed : ∀ c (v : Local), P c → v.isWide = false → narrow (c.locals v)) :
    Machine.Simulates M b (b.duplicate handOver) (Config.deed? b.fresh)
      (Config.deed? b.fresh) b.Spares
      fun c c' => Tracks handOver b c c' ∧ P c := by
  refine Machine.Simulates.within kept fun c c' d tracks good stepped => ?_
  cases tracks with
  | ended => cases stepped
  | @along front rest count v stack stack' heap locals split holds same headed =>
    subst same
    cases rest with
    | nil => cases stepped
    | cons l back =>
      by_cases used : ∃ uses ∈ chosen handOver b, ∃ u ∈ uses, u.index = front.length
      · obtain ⟨uses, member, u, inside, here⟩ := used
        exact matches_use copying addressed split holds member inside here headed
          (fun v => typed _ v good) stepped
      · have unused : ∀ uses ∈ chosen handOver b, ∀ u ∈ uses, u.index ≠ front.length :=
          fun uses member u inside here => used ⟨uses, member, u, inside, here⟩
        refine matches_other copying addressed entered gotos split holds unused
          (fun q m after w label next loads => ?_) stepped
        exact heads _ l m after q w good (by rw [next]) label loads

section Runs

variable (heads : ∀ passed c l m back q v, M.Run b (b.start heap locals) passed c →
  c.rest = l :: m :: back → l.insn = .label (some q) → m.insn.loads? = some v → c.stack = [])
variable
  (typed : ∀ passed c (v : Local), M.Run b (b.start heap locals) passed c → v.isWide = false →
  narrow (c.locals v))
include copying addressed entered gotos heads typed

theorem simulates_runs (handOver : HandOver) :
    Machine.Simulates M b (b.duplicate handOver) (Config.deed? b.fresh)
      (Config.deed? b.fresh) b.Spares
      fun c c' => Tracks handOver b c c' ∧ ∃ passed, M.Run b (b.start heap locals) passed c :=
  simulates copying addressed entered gotos handOver
    (fun c d ⟨passed, run⟩ stepped => ⟨passed ++ [c], run.append (.cons stepped (.nil d))⟩)
    (fun c l m back q v ⟨passed, run⟩ => heads passed c l m back q v run)
    fun c v ⟨passed, run⟩ => typed passed c v run

omit copying addressed entered gotos heads typed in
theorem tracks_start (handOver : HandOver) (b : Body) (heap : H) (locals : Local → V) :
    Tracks handOver b (b.start heap locals) ((b.duplicate handOver).start heap locals) := by
  refine .along [] rfl (holds_start b default) (by simp) fun before p q l back w fronts => ?_
  simp at fronts

theorem exists_run_duplicate {passed : List (Config V H)}
    (run : M.Run b (b.start heap locals) passed d) :
    ∃ passed' d', M.Run (b.duplicate handOver)
      ((b.duplicate handOver).start heap locals) passed' d' ∧
      List.Forall₂ b.Spares (passed.filterMap (Config.deed? b.fresh))
        (passed'.filterMap (Config.deed? b.fresh)) := by
  obtain ⟨passed', d', run', _, spares⟩ :=
    (simulates_runs copying addressed entered gotos heads typed handOver).forward
    ⟨tracks_start handOver b heap locals, [], .nil _⟩ run
  exact ⟨passed', d', run', spares⟩

theorem exists_run_of_duplicate (ends : ∀ passed c, M.Run b (b.start heap locals) passed c →
      M.step b c = none → c.rest = []) {passed' : List (Config V H)}
    (run' : M.Run (b.duplicate handOver) ((b.duplicate handOver).start heap locals) passed' d) :
    ∃ passed c, M.Run b (b.start heap locals) passed c ∧
      List.Forall₂ b.Spares (passed.filterMap (Config.deed? b.fresh))
        (passed'.filterMap (Config.deed? b.fresh)) := by
  refine (simulates_runs copying addressed entered gotos heads typed handOver).backward ?_
    ⟨tracks_start handOver b heap locals, [], .nil _⟩ run'
  rintro c c' ⟨tracks, passed, run⟩ stops
  have ended := ends passed c run stops
  cases tracks with
  | ended => rfl
  | along front split holds same headed =>
    dsimp only at ended
    subst ended
    rfl

end Runs

end Simulation

end Duplicate

/-- Duplication keeps what a body does, if heads of blocks that load first are reached with an empty
stack: runs pass the same lines with the same heap and locals, over at most three spare copies of a
narrow local. The copies do not let a run go on, unless it is stuck before the end of the method. -/
theorem Body.duplicate_spares (M : Machine V H) {narrow : V → Prop} (copying : M.Copying narrow)
    {b : Body} (addressed : b.Addressed) (entered : b.Entered) (gotos : b.GotosEnd)
    (handOver : HandOver) (heap : H) (locals : Local → V)
    (heads : ∀ passed c l m back q v, M.Run b (b.start heap locals) passed c →
      c.rest = l :: m :: back → l.insn = .label (some q) → m.insn.loads? = some v → c.stack = [])
    (typed : ∀ passed c (v : Local), M.Run b (b.start heap locals) passed c → v.isWide = false →
      narrow (c.locals v)) :
    (∀ passed d, M.Run b (b.start heap locals) passed d → ∃ passed' d',
      M.Run (b.duplicate handOver) ((b.duplicate handOver).start heap locals) passed' d' ∧
        List.Forall₂ b.Spares (passed.filterMap (Config.deed? b.fresh))
          (passed'.filterMap (Config.deed? b.fresh))) ∧
    ((∀ passed c, M.Run b (b.start heap locals) passed c → M.step b c = none → c.rest = []) →
      ∀ passed' d', M.Run (b.duplicate handOver)
        ((b.duplicate handOver).start heap locals) passed' d' → ∃ passed d,
        M.Run b (b.start heap locals) passed d ∧
          List.Forall₂ b.Spares (passed.filterMap (Config.deed? b.fresh))
            (passed'.filterMap (Config.deed? b.fresh))) := by
  exact ⟨fun passed d run =>
    Duplicate.exists_run_duplicate copying addressed entered gotos heads typed run,
    fun ends passed' d' run' =>
      Duplicate.exists_run_of_duplicate copying addressed entered gotos heads typed ends run'⟩

/-- Plain instructions copy or drop the top of the stack, or leave it alone, and the heap counts
those that do not copy. -/
def copyingMachine : Machine Nat Nat where
  value _ := 0
  react insn stack heap :=
    if insn = .op Op.dup then stack.head?.map fun x => .goes (x :: stack) heap
    else if insn = .op Op.dup2 then if stack.length < 2 then none
      else some (.goes (stack.take 2 ++ stack) heap)
    else if insn = .op Op.pop then stack.head?.map fun _ => .goes stack.tail (heap + 1)
    else some (.goes stack (heap + 1))
  catches _ _ _ := true

theorem copyingMachine_copying : copyingMachine.Copying fun _ => True := by
  refine ⟨fun x stack heap _ => by simp [copyingMachine], fun x y stack heap _ _ => ?_,
    fun code stack heap reaction below => ?_⟩
  · have other : Insn.op Op.dup2 ≠ Insn.op Op.dup := by decide
    simp [copyingMachine, other]
  · simp only [copyingMachine]
    split
    · cases stack <;> simp +contextual [Reaction.onto, eq_comm]
    · split
      · split
        · simp
        next enough =>
          rintro ⟨⟩
          have enough' : ¬ (stack ++ below).length < 2 := by
            rw [List.length_append]
            omega
          rw [if_neg enough', List.take_append_of_le_length (by omega)]
          simp [Reaction.onto]
      · split
        · cases stack <;> simp +contextual [Reaction.onto, eq_comm]
        · rintro ⟨⟩
          rfl

/-- A loop that reads a local at the head of two blocks. -/
def readTwice : Body :=
  let counter : Local := ⟨0, .ofInt⟩
  { Body.ofInsns "readTwice" [.label (some 0), .load counter, .op Op.pop, .label (some 3),
    .load counter, .op Op.pop, .goto 0] with
    heads := (∅ : Std.HashMap UInt32 Nat).insert 0 0
    entries := (∅ : Std.HashMap Nat Nat).insert 0 1 }

theorem readTwice_addressed : readTwice.Addressed := by
  refine ⟨by decide, by decide, fun position tag found => ?_, by simp [readTwice, Body.ofInsns]⟩
  obtain ⟨_, rfl⟩ : 0 = position ∧ 0 = tag := by
    simpa [readTwice, Std.HashMap.getElem?_insert] using found
  exact ⟨by decide, by simp [readTwice, Body.ofInsns, List.zipIdx]⟩

theorem readTwice_entered : readTwice.Entered := by
  constructor
  · simp [Body.enters, readTwice, Body.ofInsns, List.zipIdx, Insn.targets, Insn.goto,
      Insn.load, Insn.op, Std.HashMap.getElem?_insert]
  · simp [readTwice, Body.ofInsns]

theorem readTwice_stack {heap : Nat} {locals : Local → Nat} {passed : List (Config Nat Nat)}
    {c : Config Nat Nat}
    (run : copyingMachine.Run readTwice (readTwice.start heap locals) passed c) :
    ∃ k < 7, c.rest = readTwice.lines.drop k ∧ c.stack.length = if k = 2 ∨ k = 5 then 1 else 0 := by
  refine run.keeps (P := fun c => ∃ k < 7, c.rest = readTwice.lines.drop k ∧
    c.stack.length = if k = 2 ∨ k = 5 then 1 else 0) ?_ ⟨0, by omega, rfl, rfl⟩
  rintro ⟨rest, stack, heap, locals⟩ d ⟨k, less, rfl, count⟩ stepped
  have jumped : copyingMachine.step readTwice ⟨readTwice.lines.drop 6, stack, heap, locals⟩ =
      some ⟨readTwice.lines, stack, heap, locals⟩ := by
    cbv
  obtain rfl | rfl | rfl | rfl | rfl | rfl | rfl : k = 0 ∨ k = 1 ∨ k = 2 ∨ k = 3 ∨ k = 4 ∨ k = 5 ∨
    k = 6 := by omega
  · cases stepped
    exact ⟨1, by omega, rfl, count⟩
  · cases stepped
    exact ⟨2, by omega, rfl, congrArg (· + 1) count⟩
  · obtain ⟨x, rfl⟩ := List.length_eq_one_iff.1 count
    cases stepped
    exact ⟨3, by omega, rfl, rfl⟩
  · cases stepped
    exact ⟨4, by omega, rfl, count⟩
  · cases stepped
    exact ⟨5, by omega, rfl, congrArg (· + 1) count⟩
  · obtain ⟨x, rfl⟩ := List.length_eq_one_iff.1 count
    cases stepped
    exact ⟨6, by omega, rfl, rfl⟩
  · cases jumped.symm.trans stepped
    exact ⟨0, by omega, rfl, count⟩

theorem readTwice_steps {heap : Nat} {locals : Local → Nat} {passed : List (Config Nat Nat)}
    {c : Config Nat Nat}
    (run : copyingMachine.Run readTwice (readTwice.start heap locals) passed c) :
    copyingMachine.step readTwice c ≠ none := by
  obtain ⟨rest, stack, heap, locals⟩ := c
  obtain ⟨k, less, rfl, count⟩ := readTwice_stack run
  have jumps :
      (copyingMachine.step readTwice ⟨readTwice.lines.drop 6, stack, heap, locals⟩).isSome =
        true := by
    cbv
  obtain rfl | rfl | rfl | rfl | rfl | rfl | rfl : k = 0 ∨ k = 1 ∨ k = 2 ∨ k = 3 ∨ k = 4 ∨ k = 5 ∨
    k = 6 := by omega
  case inr.inr.inl | inr.inr.inr.inr.inr.inl =>
    obtain ⟨x, rfl⟩ := List.length_eq_one_iff.1 count
    exact Option.some_ne_none _
  case inr.inr.inr.inr.inr.inr => exact Option.isSome_iff_ne_none.1 jumps
  all_goals exact Option.some_ne_none _

theorem readTwice_spares :
    (∃ passed d, copyingMachine.Run readTwice.duplicate
      (readTwice.duplicate.start 0 fun v => v.reg + 7) passed d ∧
      List.Forall₂ readTwice.Spares
        [(⟨0, .label (some 0)⟩, [], 0, fun v => v.reg + 7),
          (⟨2, .op Op.pop⟩, [7], 0, fun v => v.reg + 7),
          (⟨3, .label (some 3)⟩, [], 1, fun v => v.reg + 7),
            (⟨5, .op Op.pop⟩, [7], 1, fun v => v.reg + 7),
          (⟨6, .goto 0⟩, [], 2, fun v => v.reg + 7)]
        (passed.filterMap (Config.deed? readTwice.fresh))) ∧
    ∀ passed' d', copyingMachine.Run readTwice.duplicate
      (readTwice.duplicate.start 0 fun v => v.reg + 7) passed' d' →
      ∃ passed d, copyingMachine.Run readTwice (readTwice.start 0 fun v => v.reg + 7) passed d ∧
        List.Forall₂ readTwice.Spares (passed.filterMap (Config.deed? readTwice.fresh))
          (passed'.filterMap (Config.deed? readTwice.fresh)) := by
  have gotos : readTwice.GotosEnd := by
    intro front l m back j split insn _
    have here : readTwice.lines[front.length]? = some l := by simp [split]
    have length : readTwice.lines.length = front.length + (back.length + 2) := by simp [split]
    have seven : readTwice.lines.length = 7 := rfl
    generalize front.length = k at here length
    rw [seven] at length
    obtain rfl | rfl | rfl | rfl | rfl | rfl : k = 0 ∨ k = 1 ∨ k = 2 ∨ k = 3 ∨ k = 4 ∨ k = 5 := by
      omega
    all_goals
      cases here
      cases insn
  have heads : ∀ passed c l m back q v, copyingMachine.Run readTwice
      (readTwice.start 0 fun v => v.reg + 7) passed c →
      c.rest = l :: m :: back → l.insn = .label (some q) → m.insn.loads? = some v →
      c.stack = [] := by
    intro passed c l m back q v run rest label loads
    obtain ⟨k, less, here, count⟩ := readTwice_stack run
    have outside : ¬ (k = 2 ∨ k = 5) := by
      rintro (rfl | rfl)
      all_goals
        cases rest.symm.trans here
        cases label
    rw [if_neg outside] at count
    exact List.length_eq_zero_iff.1 count
  have jumped : copyingMachine.step readTwice ⟨readTwice.lines.drop 6, [], 2, fun v => v.reg + 7⟩ =
      some ⟨readTwice.lines, [], 2, fun v => v.reg + 7⟩ := by
    cbv
  obtain ⟨kept, known⟩ :=
    Body.duplicate_spares copyingMachine copyingMachine_copying readTwice_addressed
    readTwice_entered gotos .asListed 0 (fun v => v.reg + 7) heads fun _ _ _ _ _ => trivial
  exact ⟨kept _ _
    (.cons rfl (.cons rfl (.cons rfl (.cons rfl (.cons rfl (.cons rfl (.cons jumped (.nil _)))))))),
    known fun passed c run stops => absurd stops (readTwice_steps run)⟩

end Restack
