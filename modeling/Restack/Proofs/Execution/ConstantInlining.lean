import Restack.Proofs.Execution.ConstantParts

set_option autoImplicit false

namespace Restack

namespace InlineConstants

variable {V H : Type} {M : Machine V H} {b : Body} {l m : Line} {v w : Local}
  {front back rest : List Line}
variable {locals locals' : Local → V}

/-- Locals hold the constants of the stores that are left out, along straight lines that do not
store them again. -/
def Held (M : Machine V H) (b : Body) (front rest : List Line) (locals : Local → V) : Prop :=
  ∀ before value store lines v, front = before ++ value :: store :: lines → part b store = [] →
    store.insn.stores? = some v →
    (∀ x ∈ lines, b.Straight x ∧ x.insn.stores? ≠ some v) → ∀ l back, rest = l :: back →
    b.isTarget l = false →
      locals v = M.value value.insn

theorem held_target (M : Machine V H) (front back : List Line) (locals : Local → V)
    (target : b.isTarget l = true) :
    Held M b front (l :: back) locals := by
  intro before value store lines v _ _ _ _ l' back' same straight
  cases same
  rw [target] at straight
  cases straight

theorem held_next (held : Held M b front (l :: back) locals)
    (kept : ∀ v, l.insn.stores? ≠ some v → locals' v = locals v)
    (here : ∀ before value v, front = before ++ [value] → part b l = [] → l.insn.stores? = some v →
      locals' v = M.value value.insn) :
    Held M b (front ++ [l]) back locals' := by
  intro before value store lines v split gone stores straight l' back' _ _
  rcases List.eq_nil_or_concat' lines with rfl | ⟨lines, x, rfl⟩
  · have cut : front ++ [l] = (before ++ [value]) ++ [store] := by simp [split]
    obtain ⟨fronts, last⟩ := List.append_inj' cut rfl
    cases last
    exact here before value v fronts gone stores
  · have cut : front ++ [l] = (before ++ value :: store :: lines) ++ [x] := by simp [split]
    obtain ⟨fronts, last⟩ := List.append_inj' cut rfl
    cases last
    obtain ⟨straight_here, unstored⟩ := straight l (by simp)
    rw [kept v unstored]
    exact held before value store lines v fronts gone stores
      (fun x inside => straight x (List.mem_append_left _ inside)) l back rfl
      straight_here.entry

/-- Runs before and after the pass agree but for locals that are not read any more, and between a
constant and its store that go away. -/
inductive Tracks (M : Machine V H) (b : Body) : Config V H → Config V H → Prop where
  | along (front : List Line) {rest : List Line} {stack : List V} {heap : H}
      {locals locals' : Local → V} : b.lines = front ++ rest →
      Held M b front rest locals →
      (∀ l back w, rest = l :: back → l.insn.stores? = some w → part b l = [l]) →
      b.Alike (part b) rest locals locals' →
      Tracks M b ⟨rest, stack, heap, locals⟩ ⟨rest.flatMap (part b), stack, heap, locals'⟩
  | between {front back : List Line} {value m : Line} {w : Local} {stack : List V} {heap : H}
      {locals locals' : Local → V} :
      b.lines = (front ++ [value]) ++ m :: back → m.insn.stores? = some w → part b m = [] →
        b.Excused (part b) w back →
      Held M b (front ++ [value]) (m :: back) locals → b.Alike (part b) (m :: back) locals locals' →
      Tracks M b ⟨m :: back, M.value value.insn :: stack, heap, locals⟩
        ⟨back.flatMap (part b), stack, heap, locals'⟩
  | ended {stack stack' : List V} {heap heap' : H} {locals locals' : Local → V} :
      Tracks M b ⟨[], stack, heap, locals⟩ ⟨[], stack', heap', locals'⟩

section Simulation

variable (addressed : b.Addressed) (entered : b.Entered) (guarded : b.Guarded)
variable {stack : List V} {heap : H} {d : Config V H}

include addressed guarded

theorem kept_next (split : b.lines = front ++ l :: back)
    (stays : l.insn.isConstant = true → part b l ≠ []) (m : Line) (after : List Line) (w : Local)
    (next : back = m :: after) (stores : m.insn.stores? = some w) : part b m = [m] := by
  have cut : b.lines = (front ++ [l]) ++ m :: after := by simp [split, next]
  rcases part_store addressed.distinct guarded cut stores with whole |
    ⟨before, value, fronts, constant, gone, _⟩
  · exact whole
  · obtain ⟨_, last⟩ := List.append_inj' fronts rfl
    cases last
    exact absurd gone (stays constant)

theorem tracks_between {value : Line} (split : b.lines = (front ++ [value]) ++ m :: back)
    (stores : m.insn.stores? = some w) (excused : b.Excused (part b) w back)
    (held : Held M b (front ++ [value]) (m :: back) locals)
    (alike : b.Alike (part b) (m :: back) locals locals') :
    Tracks M b ⟨back, stack, heap, Function.update locals w (M.value value.insn)⟩
      ⟨back.flatMap (part b), stack, heap, locals'⟩ := by
  have inside : m ∈ b.lines := by simp [split]
  refine .along (front ++ [value] ++ [m]) (by simp [split]) (held_next held (fun v other => ?_) ?_)
    (kept_next addressed guarded split fun constant => ?_) (alike.skip inside stores excused _)
  · have apart : v ≠ w := fun same => other (by rw [same, stores])
    rw [Function.update_of_ne apart]
  · intro before value' v fronts _ stores'
    obtain ⟨_, last⟩ := List.append_inj' fronts rfl
    cases last
    cases stores.symm.trans stores'
    rw [Function.update_self]
  · rw [(Insn.no_access_of_isConstant constant).2] at stores
    cases stores

section Line

variable (split : b.lines = front ++ l :: back) (held : Held M b front (l :: back) locals)
variable (alike : b.Alike (part b) (l :: back) locals locals')

include split held alike

theorem tracks_passed (falls : l.insn.fallsThrough = true) (no_store : l.insn.stores? = none)
    (stays : l.insn.isConstant = true → part b l ≠ []) :
    Tracks M b ⟨back, stack, heap, locals⟩ ⟨back.flatMap (part b), stack, heap, locals'⟩ := by
  refine .along (front ++ [l]) (by simp [split]) (held_next held (fun _ _ => rfl) ?_)
    (kept_next addressed guarded split stays) (alike.pass (by simp [split]) no_store falls)
  intro before value v _ _ stores
  rw [no_store] at stores
  cases stores

theorem tracks_stored {x : V} (stores : l.insn.stores? = some w) (stays : part b l = [l]) :
    Tracks M b ⟨back, stack, heap, Function.update locals w x⟩
      ⟨back.flatMap (part b), stack, heap, Function.update locals' w x⟩ := by
  have inside : l ∈ b.lines := by simp [split]
  refine .along (front ++ [l]) (by simp [split]) (held_next held (fun v other => ?_) ?_)
    (kept_next addressed guarded split fun _ gone => by simp [stays] at gone)
      (alike.store inside stores x)
  · have apart : v ≠ w := fun same => other (by rw [same, stores])
    rw [Function.update_of_ne apart]
  · intro before value v _ gone _
    simp [stays] at gone

theorem matches_edited (idle : l.insn.acts = false) (no_store : l.insn.stores? = none)
    (edited : part b l ≠ [l]) (stepped : M.step b ⟨l :: back, stack, heap, locals⟩ = some d) :
    Machine.Matches M b.inlineConstants Config.act? Config.act? Eq (Tracks M b)
      ⟨l :: back, stack, heap, locals⟩
      ⟨(l :: back).flatMap (part b), stack, heap, locals'⟩ d := by
  have inside : l ∈ b.lines := by simp [split]
  have unseen : (⟨l :: back, stack, heap, locals⟩ : Config V H).act? = none :=
    Config.act?_eq_none rfl idle
  have falls := Insn.fallsThrough_of_idle idle
  rw [List.flatMap_cons]
  rcases l.insn.cases_of with ⟨q, label⟩ | ⟨v, loads⟩ | ⟨w, stores⟩ | constant | acts
  · exact absurd (part_still addressed.distinct guarded inside (by rw [label]; rfl)) edited
  · obtain ⟨before, value, store, lines, fronts, constant, gone, stores, there, straight⟩ :=
      (part_load addressed.distinct guarded split loads).resolve_left edited
    rw [Machine.step_load rfl loads] at stepped
    cases stepped
    rw [there]
    have step' : M.step b.inlineConstants ⟨value :: back.flatMap (part b), stack, heap, locals'⟩ =
        _ :=
      Machine.step_constant rfl constant
    dsimp only at step'
    have straight_here := (straight l (by simp)).1
    rw [← held before value store lines v fronts gone stores
      (fun x inside => straight x (List.mem_append_left _ inside)) l back rfl
      straight_here.entry] at step'
    exact .quiet step' (tracks_passed addressed guarded split held alike falls no_store
      fun _ => by simp [there]) unseen
      (Config.act?_eq_none rfl (Insn.idle_of_isConstant constant))
  · cases no_store.symm.trans stores
  · obtain ⟨m, after, w, rfl, gone, gone', stores, excused⟩ :=
      (part_constant addressed.distinct guarded split constant).resolve_left edited
    rw [Machine.step_constant rfl constant] at stepped
    cases stepped
    rw [gone, List.nil_append, List.flatMap_cons, gone', List.nil_append]
    refine .idle
      (.between (by simp [split]) stores gone' excused (held_next held (fun _ _ => rfl) ?_)
      (alike.pass inside no_store falls)) unseen (by simp)
    intro before value v _ _ stores'
    rw [no_store] at stores'
    cases stores'
  · cases idle.symm.trans acts

end Line

include entered in
theorem simulates :
    Machine.Simulates M b b.inlineConstants Config.act? Config.act? Eq (Tracks M b) := by
  rintro c c' d tracks stepped
  cases tracks with
  | ended => cases stepped
  | @between front back value m w stack heap locals locals' split stores gone excused held alike =>
    rw [Machine.step_store rfl stores rfl] at stepped
    cases stepped
    exact .idle (tracks_between addressed guarded split stores excused held alike)
      (Config.act?_eq_none rfl (Insn.idle_of_stores? stores)) (by simp)
  | @along front rest stack heap locals locals' split held kept alike =>
    cases rest with
    | nil => cases stepped
    | cons l back =>
      have inside : l ∈ b.lines := by simp [split]
      rcases Machine.step_cases stepped with acts | ⟨w, x, stack, stores, rfl, rfl⟩ |
        ⟨idle, no_store, pushed, rfl, step'⟩
      · refine Machine.matches_acted (reworked addressed.distinct guarded) addressed entered inside
          acts alike stepped
          (fun falls stack heap => ?_) (fun _ _ => .ended)
            fun front m after q stack heap split label target => ?_
        · refine tracks_passed addressed guarded split held alike falls
            (Insn.no_access_of_acts acts).2 fun constant => ?_
          rw [Insn.idle_of_isConstant constant] at acts
          cases acts
        · refine .along front split (held_target M front after _ target)
            (fun x more w next stores => ?_) fun v => .inl rfl
          cases next
          simp [label, Insn.stores?] at stores
      · have idle := Insn.idle_of_stores? stores
        have stays := kept l back w rfl stores
        rw [List.flatMap_cons, stays]
        exact .quiet (Machine.step_store rfl stores rfl)
          (tracks_stored addressed guarded split held alike stores stays)
          (Config.act?_eq_none rfl idle) (Config.act?_eq_none rfl idle)
      · by_cases stays : part b l = [l]
        · rw [List.flatMap_cons, stays]
          exact .quiet
            (step' _ _ _ _ _ fun v loads => (alike.load inside loads (by simp [stays])).symm)
            (tracks_passed addressed guarded split held alike
              (Insn.fallsThrough_of_idle idle) no_store fun _ => by simp [stays])
            (Config.act?_eq_none rfl idle) (Config.act?_eq_none rfl idle)
        · exact matches_edited addressed guarded split held alike idle no_store stays stepped

theorem stuck (c c' : Config V H) (tracks : Tracks M b c c') (stops : M.step b c = none) :
    M.step b.inlineConstants c' = none := by
  cases tracks with
  | ended => rfl
  | between split stores gone excused held alike =>
    rw [Machine.step_store rfl stores rfl] at stops
    cases stops
  | along front split held kept alike =>
    exact Machine.stuck_reworked (reworked addressed.distinct guarded) addressed split
      (fun l back w rest stores _ => kept l back w rest stores) stops _

theorem tracks_start (heap : H) (locals : Local → V) :
    Tracks M b (b.start heap locals) (b.inlineConstants.start heap locals) := by
  refine .along [] rfl (fun before value store lines v none => by simp at none)
    (fun l back w rest stores => ?_)
    fun v => .inl rfl
  have split : b.lines = [] ++ l :: back := rest
  rcases part_store addressed.distinct guarded split stores with stays | ⟨before, m, none, _⟩
  · exact stays
  · simp at none

theorem excused_of_not_mem (split : b.lines = front ++ l :: back) (stores : l.insn.stores? = some v)
    (gone : l ∉ b.inlineConstants.lines) : b.Excused (part b) v back := by
  rw [(reworked addressed.distinct guarded).lines] at gone
  rcases part_store addressed.distinct guarded split stores with stays | ⟨_, _, _, _, _, _, excused⟩
  · refine absurd (List.mem_flatMap.2 ⟨l, by simp [split], ?_⟩) gone
    rw [stays]
    exact List.mem_cons_self
  · exact excused

theorem mem_part_of_mem (loads : l.insn.loads? = some v) (member : l ∈ b.inlineConstants.lines) :
    l ∈ part b l := by
  rw [(reworked addressed.distinct guarded).lines] at member
  obtain ⟨x, inside, among⟩ := List.mem_flatMap.1 member
  rcases part_cases addressed.distinct inside with stays | ⟨pair, _, goes, ⟨_, gone⟩ | ⟨_, there⟩⟩
  · cases List.mem_singleton.1 (stays ▸ among)
    exact among
  · rw [gone] at among
    cases among
  · rw [there, List.mem_singleton] at among
    rw [among, (Insn.no_access_of_isConstant goes.2).1] at loads
    cases loads

end Simulation

end InlineConstants

namespace Body

variable {V H : Type} {b : Body}

/-- Constant inlining keeps what a body does: runs come to the same lines that act, with the same
stacks and heaps. No load that stays reads a value whose store was taken out. -/
theorem inlineConstants_shows_iff (M : Machine V H) (addressed : b.Addressed) (entered : b.Entered)
    (guarded : b.Guarded) (heap : H) (locals : Local → V) :
    (∀ seen, M.Shows b Config.act? (b.start heap locals) seen ↔
      M.Shows b.inlineConstants Config.act? (b.inlineConstants.start heap locals) seen) ∧
    ∀ (first second : List (Config V H)) (c d : Config V H) (store load : Line)
      (back after : List Line) (v : Local),
      M.Run b (b.start heap locals) (first ++ c :: second) d → c.rest = store :: back →
      store.insn.stores? = some v →
      store ∉ b.inlineConstants.lines →
      (∀ e ∈ second, ∀ l back, e.rest = l :: back → l.insn.stores? ≠ some v) →
      d.rest = load :: after → load.insn.loads? = some v → load ∉ b.inlineConstants.lines := by
  refine ⟨(InlineConstants.simulates addressed entered guarded).shows_iff
    (InlineConstants.stuck addressed guarded)
    (InlineConstants.tracks_start addressed guarded heap locals), ?_⟩
  intro first second c d store load back after v run there stores gone unstored here loads stays
  obtain ⟨front, split⟩ := (run.suffix (List.suffix_refl _)).1 c (by simp)
  rw [there] at split
  have excused := InlineConstants.excused_of_not_mem addressed guarded split.symm stores gone
  exact Machine.unread_of_run run there stores excused unstored here loads
    (InlineConstants.mem_part_of_mem addressed guarded loads stays)

end Body

theorem guardedLoop_noted :
    InlineConstants.noted guardedLoop =
      ⟨∅, ((∅ : Std.HashMap Nat Nat).insert 2 4).insert 7 8, (∅ : Std.HashSet Nat).insert 2⟩ := by
  simp [InlineConstants.noted, InlineConstants.walker, InlineConstants.visit,
    InlineConstants.forget, InlineConstants.leave,
    InlineConstants.State.start, Walker.walk, Walker.step, guardedLoop, Body.ofInsns, List.zipIdx,
    Body.isTarget, Insn.targets,
    Insn.fallsThrough, Insn.load, Insn.store, Insn.op, Insn.goto, Op.endsMethod, Op.pop, Op.ireturn,
    Op.vreturn, Op.athrow, Std.HashSet.contains_insert]

theorem guardedLoop_inlined :
    guardedLoop.inlineConstants.lines.map Line.tag =
      [0, 3, 1, 5, 6, 7, 8, 9, 10, 11, 12, 13, 14] := by
  have spliced : guardedLoop.inlineConstants =
      guardedLoop.splice (InlineConstants.replaced guardedLoop) := rfl
  rw [spliced, InlineConstants.replaced, guardedLoop_noted]
  simp [InlineConstants.move, guardedLoop, Body.ofInsns, List.zipIdx, Body.splice, Insn.isConstant,
    Insn.load, Insn.store,
    Insn.op, Insn.goto, Std.HashMap.getD_insert, Std.HashMap.getElem?_insert,
    Std.HashSet.contains_insert]

theorem guardedLoop_inlined_shows :
    countingMachine.Shows guardedLoop.inlineConstants Config.act?
      (guardedLoop.inlineConstants.start 0 fun v => v.reg + 5)
      [(⟨5, .op Op.pop⟩, [0], 0), (⟨9, .op Op.pop⟩, [0], 1), (⟨12, .op Op.pop⟩, [0], 2),
        (⟨14, .goto 0⟩, [], 3)] ∧
    ⟨4, .load ⟨0, .ofInt⟩⟩ ∉ guardedLoop.inlineConstants.lines := by
  obtain ⟨shows_iff, unread⟩ :=
    Body.inlineConstants_shows_iff countingMachine guardedLoop_addressed guardedLoop_entered
    guardedLoop_guarded 0 fun v => v.reg + 5
  obtain ⟨_, _, _, _, _, _, run, there, here, unstored⟩ := guardedLoop_run
  refine ⟨(shows_iff _).1 guardedLoop_shows,
    (unread _ _ _ _ _ _ _ _ ⟨0, .ofInt⟩ run there rfl ?_ unstored here rfl)⟩
  intro stays
  simpa [guardedLoop_inlined] using List.mem_map_of_mem (f := Line.tag) stays

end Restack
