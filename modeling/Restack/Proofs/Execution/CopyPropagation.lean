import Restack.Proofs.Execution.Parts
import Restack.Proofs.Pass.Orderly

set_option autoImplicit false

namespace Restack

namespace Body

/-- How many lines and rows lead to the line with a tag. -/
def ways (b : Body) (tag : Nat) : Nat :=
  b.lines.countP (b.enters · tag) + b.rows.countP (·.handler = tag)

/-- Only labels are targets, and every way to a line is counted. -/
structure Counted (b : Body) : Prop where
  labels : ∀ l ∈ b.lines, b.isTarget l = true → ∃ q, l.insn = .label q
  ways : ∀ tag, b.entryCount tag = b.ways tag

theorem contains_of_entryCount {b : Body} {tag : Nat} (some_way : 0 < b.entryCount tag) :
    b.entries.contains tag = true := by
  by_contra missing
  rw [entryCount, Std.HashMap.getD_eq_fallback (by simpa using missing)] at some_way
  exact Nat.lt_irrefl _ some_way

theorem Counted.straight {b : Body} (counted : b.Counted) {l : Line} (inside : l ∈ b.lines)
    (no_label : ∀ q, l.insn ≠ .label q) : b.isTarget l = false := by
  by_contra target
  obtain ⟨q, label⟩ := counted.labels l inside (by simpa using target)
  exact no_label q label

theorem Counted.entered {b : Body} (counted : b.Counted) : b.Entered := by
  constructor
  · intro l inside tag enters
    apply contains_of_entryCount
    rw [counted.ways, Body.ways]
    exact Nat.add_pos_left (List.countP_pos_iff.2 ⟨l, inside, enters⟩) _
  · intro r inside
    apply contains_of_entryCount
    rw [counted.ways, Body.ways]
    exact Nat.add_pos_right _ (List.countP_pos_iff.2 ⟨r, inside, by simp⟩)

end Body

namespace PropagateCopies

variable {V H : Type} {b : Body} {l m : Line} {v w : Local} {front back front' back' : List Line}
variable {locals : Local → V}

section Ways

variable (addressed : b.Addressed) (counted : b.Counted)

include addressed counted

theorem agrees_jumped (split : b.lines = front ++ l :: back) (enters : b.enters l m.tag = true)
    (agrees : (upto b front).known.Agrees locals) (split' : b.lines = front' ++ m :: back') :
    (knownAt b front' m).Agrees locals := by
  have target := counted.entered.jumps l (by simp [split]) m.tag enters
  rcases knownAt_cases front' target with nothing | ⟨alone, before, j, after, cut, enters', known⟩
  · rw [nothing]
    exact Copies.agrees_empty locals
  · -- The line that told what holds is the one that jumps.
    have whole : b.lines = before ++ j :: (after ++ m :: back') := by simp [split', cut]
    rw [counted.ways, Body.ways, split, List.countP_append,
      List.countP_cons_of_pos (p := (b.enters · m.tag)) enters] at alone
    have elsewhere : ∀ x ∈ front ++ back, ¬ b.enters x m.tag = true := by
      intro x inside
      refine (List.countP_eq_zero (p := (b.enters · m.tag))).1 ?_ x inside
      rw [List.countP_append]
      omega
    have itself : j = l := by
      have inside : j ∈ front ++ l :: back := split ▸ (by simp [whole])
      rcases List.mem_append.1 inside with first | second
      · exact absurd enters' (elsewhere j (List.mem_append_left _ first))
      · rcases List.mem_cons.1 second with here | behind
        · exact here
        · exact absurd enters' (elsewhere j (List.mem_append_right _ behind))
    subst itself
    rw [known, ← (Body.split_unique addressed.distinct split whole).1]
    exact agrees

omit addressed in
theorem agrees_caught {r : Row} (inside : r ∈ b.rows) (split' : b.lines = front' ++ m :: back')
    (same : m.tag = r.handler) :
    (knownAt b front' m).Agrees locals := by
  have target : b.isTarget m = true := by
    rw [Body.isTarget, same]
    exact counted.entered.rows r inside
  rcases knownAt_cases front' target with nothing | ⟨alone, before, j, after, cut, enters, _⟩
  · rw [nothing]
    exact Copies.agrees_empty locals
  · rw [counted.ways, Body.ways, split', cut] at alone
    have jump : 0 < b.lines.countP (b.enters · m.tag) :=
      List.countP_pos_iff.2 ⟨j, by simp [split', cut], enters⟩
    have row : 0 < b.rows.countP (·.handler = m.tag) :=
      List.countP_pos_iff.2 ⟨r, inside, by simp [same]⟩
    rw [split', cut] at jump
    omega

end Ways

section Simulation

variable (addressed : b.Addressed) (counted : b.Counted) {c : Config V H}

theorem part_still (distinct : (b.lines.map Line.tag).Nodup) (split : b.lines = front ++ l :: back)
    (no_load : l.insn.loads? = none) (no_store : l.insn.stores? = none) : part b l = [l] := by
  have not_vain : front.getLast?.any (isVain (upto b front).known · l) = false := by
    cases front.getLast? <;> simp [isVain, no_store]
  rw [part_of_not_loads distinct split no_load, not_vain, Bool.and_false]
  rfl

/-- A run is at a line, and what is known there holds. A store that stays comes next, if any, and
after a load the value is on the stack. -/
structure Sits (b : Body) (front : List Line) (c : Config V H) : Prop where
  split : b.lines = front ++ c.rest
  known : ∀ l back, c.rest = l :: back → (knownAt b front l).Agrees c.locals
  kept : ∀ l back w, c.rest = l :: back → l.insn.stores? = some w → part b l = [l]
  fetched : ∀ p v l back, front.getLast? = some p → p.insn.loads? = some v → c.rest = l :: back →
    b.isTarget l = false →
    c.stack.head? = some (c.locals v)

/-- Runs before and after the pass are in the same state, except between a load and a store that go
away. -/
inductive Tracks (b : Body) : Config V H → Config V H → Prop where
  | along (front : List Line) {c : Config V H} :
      Sits b front c → Tracks b c { c with rest := c.rest.flatMap (part b) }
  | between {front back : List Line} {m : Line} {x : V} {stack : List V} {heap : H}
      {locals : Local → V} {w : Local} :
      b.lines = front ++ m :: back → m.insn.stores? = some w → part b m = [] → locals w = x →
      (upto b (front ++ [m])).known.Agrees locals →
      Tracks b ⟨m :: back, x :: stack, heap, locals⟩ ⟨back.flatMap (part b), stack, heap, locals⟩

theorem sits_end (ended : c.rest = []) : Sits b b.lines c := by
  refine ⟨by simp [ended], ?_, ?_, ?_⟩ <;> simp [ended]

include addressed in
theorem sits_next (split : b.lines = front ++ l :: c.rest) (falls : l.insn.fallsThrough = true)
    (agrees : (upto b (front ++ [l])).known.Agrees c.locals)
    (kept : ∀ m back, c.rest = m :: back → b.isTarget m = false →
      isVain (upto b (front ++ [l])).known l m = false)
    (fetched : ∀ v, l.insn.loads? = some v → c.stack.head? = some (c.locals v)) :
    Sits b (front ++ [l]) c := by
  refine ⟨by simp [split], fun m back _ => agrees_fallen falls agrees m,
    fun m back w rest stores => ?_, fun p v m back last loads _ _ => ?_⟩
  · have cut : b.lines = (front ++ [l]) ++ m :: back := by simp [split, rest]
    rw [part_of_not_loads addressed.distinct cut (Insn.loads?_of_stores? stores),
      List.getLast?_concat, Option.any_some]
    cases target : b.isTarget m with
    | true => rfl
    | false =>
      rw [kept m back rest target]
      rfl
  · rw [List.getLast?_concat] at last
    cases last
    exact fetched v loads

theorem sits_landed (split : b.lines = front ++ l :: back) (rest : c.rest = l :: back)
    {q : Option UInt32} (label : l.insn = .label q) (target : b.isTarget l = true)
    (agrees : (knownAt b front l).Agrees c.locals) :
    Sits b front c := by
  refine ⟨by rw [rest, split], fun m back' same => ?_, fun m back' w same stores => ?_,
    fun p v m back' _ _ same straight => ?_⟩
  all_goals
    rw [rest] at same
    cases same
  · exact agrees
  · simp [label, Insn.stores?] at stores
  · rw [target] at straight
    cases straight

include addressed counted in
theorem reworked : b.Reworked b.propagateCopies (part b) := by
  have still : ∀ l ∈ b.lines, l.insn.isMovable = false → part b l = [l] := by
    intro l inside fixed
    obtain ⟨front, back, split⟩ := List.append_of_mem inside
    obtain ⟨no_load, no_store⟩ := Insn.no_access_of_fixed fixed
    exact part_still addressed.distinct split no_load no_store
  refine ⟨rfl, rfl, rfl, still, fun l inside m member => ?_⟩
  obtain ⟨front, back, split⟩ := List.append_of_mem inside
  cases loads : l.insn.loads? with
  | none =>
    rw [part_of_not_loads addressed.distinct split loads] at member
    split at member
    · cases member
    · exact .inl (by rw [List.mem_singleton.1 member])
  | some v =>
    have straight := counted.straight inside fun q label => by simp [label, Insn.loads?] at loads
    have parts := part_of_loads addressed.distinct split straight loads
    split at parts
    · simp [parts] at member
    · obtain ⟨x, only, _, own⟩ := parts
      rw [only, List.mem_singleton] at member
      subst member
      exact own.imp id .inl

variable {M : Machine V H}

include addressed

include counted in
theorem sits_acted (sits : Sits b front c) (rest : c.rest = l :: back) (acts : l.insn.acts = true)
    {d : Config V H} (stepped : M.step b c = some d) : ∃ front', Sits b front' d := by
  obtain ⟨same, leads⟩ := Machine.landed_of_step addressed rest acts stepped
  have split : b.lines = front ++ l :: back := rest ▸ sits.split
  obtain ⟨no_load, no_store⟩ := Insn.no_access_of_acts acts
  have agrees := sits.known l back rest
  have straight := counted.straight (l := l) (by simp [split]) fun q label => by
    simp [label, Insn.acts] at acts
  rcases leads with ⟨falls, here⟩ | ended | ⟨front', m, after, q, split', there, label, turns⟩
  · refine ⟨front ++ [l], sits_next addressed (by rw [here, split]) falls ?_ (fun m back _ _ => ?_)
      fun v loads => ?_⟩
    · rw [known_snoc no_store, same]
      exact agrees
    · simp [isVain, no_load]
    · rw [no_load] at loads
      cases loads
  · exact ⟨b.lines, sits_end ended⟩
  · refine ⟨front',
      sits_landed split' there label (counted.entered.isTarget (by simp [split]) turns) ?_⟩
    rcases turns with enters | ⟨r, inside, _, tags⟩
    · rw [knownAt, if_neg (by simp [straight])] at agrees
      exact same ▸ agrees_jumped addressed counted split enters agrees split'
    · exact agrees_caught counted inside split' tags

theorem sits_passed (sits : Sits b front c) (rest : c.rest = l :: back) (idle : l.insn.acts = false)
    (no_load : l.insn.loads? = none) (no_store : l.insn.stores? = none) (stack : List V) :
    Sits b (front ++ [l]) { c with rest := back, stack } := by
  refine sits_next addressed (by rw [sits.split, rest]) (Insn.fallsThrough_of_idle idle) ?_
    (fun m back _ _ => ?_) fun v loads => ?_
  · rw [known_snoc no_store]
    exact sits.known l back rest
  · simp [isVain, no_load]
  · rw [no_load] at loads
    cases loads

theorem sits_stored (sits : Sits b front c) (rest : c.rest = l :: back)
    (straight : b.isTarget l = false) (stores : l.insn.stores? = some w) {x : V} {stack : List V}
    (top : c.stack = x :: stack) :
    Sits b (front ++ [l])
      { c with rest := back, stack, locals := Function.update c.locals w x } := by
  have no_load := Insn.loads?_of_stores? stores
  have agrees := sits.known l back rest
  rw [knownAt, if_neg (by simp [straight])] at agrees
  refine sits_next addressed (by rw [sits.split, rest])
    (Insn.fallsThrough_of_idle (Insn.idle_of_stores? stores)) ?_
    (fun m back _ _ => ?_) fun v loads => ?_
  · rw [known_snoc_store straight stores]
    split
    next v copied =>
      obtain ⟨p, last, loads⟩ := Option.bind_eq_some_iff.1 copied
      have fetched := sits.fetched p v l back last loads rest straight
      rw [top, List.head?_cons, Option.some.injEq] at fetched
      rw [fetched]
      exact (agrees.copy w v).1
    next => exact agrees.clobber w x
  · simp [isVain, no_load]
  · rw [no_load] at loads
    cases loads

include counted in
theorem matches_load (sits : Sits b front c) (rest : c.rest = l :: back)
    (loads : l.insn.loads? = some v) :
    Machine.Matches M b.propagateCopies Config.scene? Config.scene? Eq
      (Tracks b) c { c with rest := c.rest.flatMap (part b) }
      { c with rest := back, stack := c.locals v :: c.stack } := by
  have split : b.lines = front ++ l :: back := rest ▸ sits.split
  have idle := Insn.idle_of_loads? loads
  have no_store := Insn.stores?_of_loads? loads
  have agrees := sits.known l back rest
  have straight := counted.straight (l := l) (by simp [split]) fun q label => by
    simp [label, Insn.loads?] at loads
  have known : (upto b (front ++ [l])).known = (upto b front).known := by
    rw [known_snoc no_store, knownAt, if_neg (by simp [straight])]
  rw [knownAt, if_neg (by simp [straight])] at agrees
  have parts := part_of_loads addressed.distinct split straight loads
  by_cases vain : back.head?.any (fun m => !b.isTarget m && isVain (upto b front).known l m) = true
  · rw [if_pos vain] at parts
    obtain ⟨m, first, pair⟩ := (Option.any_eq_true _ _).1 vain
    obtain ⟨back', rfl⟩ := List.head?_eq_some_iff.1 first
    rw [Bool.and_eq_true, Bool.not_eq_true'] at pair
    obtain ⟨v', w, loads', stores, same⟩ := isVain_iff.1 pair.2
    cases loads.symm.trans loads'
    have cut : b.lines = (front ++ [l]) ++ m :: back' := by simp [split]
    have gone : part b m = [] := by
      rw [part_of_not_loads addressed.distinct cut (Insn.loads?_of_stores? stores),
        List.getLast?_concat, Option.any_some, known, pair.1, pair.2]
      rfl
    obtain ⟨copied, equal⟩ := agrees.copy w v
    have holds := equal same
    rw [← holds, Function.update_eq_self] at copied
    have after : (upto b (front ++ [l] ++ [m])).known.Agrees c.locals := by
      rw [known_snoc_store pair.1 stores, List.getLast?_concat, Option.bind_some, loads, known]
      exact copied
    have rest' : c.rest.flatMap (part b) = back'.flatMap (part b) := by simp [rest, parts, gone]
    rw [rest']
    exact .idle (.between cut stores gone holds after) (Config.scene?_eq_none rest idle)
      (by simp [rest])
  · rw [if_neg vain] at parts
    obtain ⟨x, only, loads', _⟩ := parts
    have rest' : c.rest.flatMap (part b) = x :: back.flatMap (part b) := by simp [rest, only]
    rw [rest']
    have stepped : M.step b.propagateCopies { c with rest := x :: back.flatMap (part b) } = _ :=
      Machine.step_load rfl loads'
    dsimp only at stepped
    rw [agrees.root_eq] at stepped
    refine .quiet stepped
      (.along _ (sits_next addressed split (Insn.fallsThrough_of_idle idle) ?_ ?_ ?_))
      (Config.scene?_eq_none rest idle) (Config.scene?_eq_none rfl (Insn.idle_of_loads? loads'))
    · rw [known]
      exact agrees
    · intro m back' first straight'
      rw [known]
      cases first
      simpa [straight'] using vain
    · intro v' loads''
      cases loads.symm.trans loads''
      rfl

include counted in
theorem simulates :
    Machine.Simulates M b b.propagateCopies Config.scene? Config.scene? Eq (Tracks b) := by
  rintro c c' d tracks stepped
  cases tracks with
  | @between front back m x stack heap locals w split stores gone holds agrees =>
    have idle := Insn.idle_of_stores? stores
    have no_load := Insn.loads?_of_stores? stores
    rw [Machine.step_store rfl stores rfl, ← holds, Function.update_eq_self] at stepped
    cases stepped
    refine .idle
      (.along _ (sits_next addressed split (Insn.fallsThrough_of_idle idle) agrees ?_ ?_))
        (Config.scene?_eq_none rfl idle)
      (by simp)
    · simp [isVain, no_load]
    · simp [no_load]
  | @along front c sits =>
    obtain ⟨rest, stack, heap, locals⟩ := c
    cases rest with
    | nil => cases stepped
    | cons l back =>
      have split : b.lines = front ++ l :: back := sits.split
      have inside : l ∈ b.lines := by simp [split]
      rcases Machine.step_cases stepped with acts | ⟨w, x, stack, stores, rfl, rfl⟩ |
        ⟨idle, no_store, pushed, same, step'⟩
      · obtain ⟨front', sits'⟩ := sits_acted addressed counted sits rfl acts stepped
        have same : d.locals = locals := (Machine.leads_of_step rfl acts stepped).2
        rw [Machine.flatMap_acting (reworked addressed counted) inside acts]
        refine .inl
          ⟨_, Machine.step_reworked
            (reworked addressed counted) addressed inside acts stepped locals, ?_,
          by simp [Config.scene?, Config.act?, acts]⟩
        rw [← same]
        exact .along _ sits'
      · have idle := Insn.idle_of_stores? stores
        have straight :=
          counted.straight inside fun q label => by simp [label, Insn.stores?] at stores
        rw [List.flatMap_cons, sits.kept l back w rfl stores]
        exact .quiet (Machine.step_store rfl stores rfl)
          (.along _ (sits_stored addressed sits rfl straight stores rfl))
          (Config.scene?_eq_none rfl idle) (Config.scene?_eq_none rfl idle)
      · cases loads : l.insn.loads? with
        | none =>
          subst same
          rw [List.flatMap_cons, part_still addressed.distinct split loads no_store]
          exact .quiet (step' _ _ _ _ _ fun _ _ => rfl)
            (.along _ (sits_passed addressed sits rfl idle loads no_store _))
            (Config.scene?_eq_none rfl idle) (Config.scene?_eq_none rfl idle)
        | some v =>
          rw [Machine.step_load rfl loads] at stepped
          cases stepped
          exact matches_load addressed counted sits rfl loads

include counted in
theorem stuck (c c' : Config V H) (tracks : Tracks b c c') (stops : M.step b c = none) :
    M.step b.propagateCopies c' = none := by
  cases tracks with
  | between split stores gone holds agrees =>
    rw [Machine.step_store rfl stores rfl] at stops
    cases stops
  | @along front c sits =>
    exact Machine.stuck_reworked (reworked addressed counted) addressed sits.split
      (fun l back w rest stores _ => sits.kept l back w rest stores) stops _

theorem tracks_start (heap : H) (locals : Local → V) :
    Tracks b (b.start heap locals) (b.propagateCopies.start heap locals) := by
  refine .along [] ⟨rfl, fun l back _ => ?_, fun l back w rest stores => ?_, by simp⟩
  · have nothing : knownAt b [] l = .empty := by
      unfold knownAt
      split <;> rfl
    rw [nothing]
    exact Copies.agrees_empty _
  · have split : b.lines = [] ++ l :: back := rest
    rw [part_of_not_loads addressed.distinct split (Insn.loads?_of_stores? stores)]
    simp

end Simulation

end PropagateCopies

/-- Copy propagation keeps what a body does: runs pass the same plain instructions, jumps and
switches, with the same stack, heap and locals. -/
theorem Body.propagateCopies_shows_iff {V H : Type} (M : Machine V H) {b : Body}
    (addressed : b.Addressed) (counted : b.Counted) (heap : H) (locals : Local → V)
    (seen : List ((Line × List V × H) × (Local → V))) :
    M.Shows b Config.scene? (b.start heap locals) seen ↔
      M.Shows b.propagateCopies Config.scene? (b.propagateCopies.start heap locals) seen :=
  (PropagateCopies.simulates addressed counted).shows_iff (PropagateCopies.stuck addressed counted)
    (PropagateCopies.tracks_start addressed heap locals) seen

def copiedBack : Body :=
  let first : Local := ⟨0, .ofInt⟩
  let second : Local := ⟨1, .ofInt⟩
  { Body.ofInsns "copiedBack" [.label (some 0), .load first, .store second, .goto 7,
    .label (some 7), .load second,
      .store first, .load second, .op Op.ireturn] with
    heads := (∅ : Std.HashMap UInt32 Nat).insert 7 4
    entries := (∅ : Std.HashMap Nat Nat).insert 4 1 }

theorem copiedBack_addressed : copiedBack.Addressed := by
  have label : copiedBack.IsLabel 4 := by
    refine ⟨by decide, ?_⟩
    simp [copiedBack, Body.ofInsns, List.zipIdx]
  refine ⟨by decide, by decide, fun position tag found => ?_, by simp [copiedBack, Body.ofInsns]⟩
  obtain ⟨_, rfl⟩ : 7 = position ∧ 4 = tag := by
    simpa [copiedBack, Std.HashMap.getElem?_insert] using found
  exact label

theorem copiedBack_counted : copiedBack.Counted := by
  constructor
  · intro l inside target
    have tag : 4 = l.tag := by simpa [Body.isTarget, copiedBack] using target
    exact (copiedBack_addressed.heads 7 4 (by simp [copiedBack])).2 l inside tag.symm
  · intro tag
    simp [Body.entryCount, Body.ways, Body.enters, copiedBack, Body.ofInsns, List.zipIdx,
      List.countP_cons, Insn.targets,
      Insn.goto, Insn.load, Insn.store, Insn.op, Std.HashMap.getD_insert,
      Std.HashMap.getElem?_insert]

theorem copiedBack_shows :
    copiedBack.propagateCopies.insns =
      [.label (some 0), .load ⟨0, .ofInt⟩, .store ⟨1, .ofInt⟩, .goto 7, .label (some 7),
      .load ⟨0, .ofInt⟩, .op Op.ireturn] ∧
    ∃ copied again, countingMachine.Shows copiedBack.propagateCopies Config.scene?
      (copiedBack.propagateCopies.start 0 fun v => v.reg + 5)
      [((⟨3, .goto 7⟩, [], 0), copied), ((⟨8, .op Op.ireturn⟩, [5], 0), again)] := by
  let copied : Local → Nat := Function.update (fun v => v.reg + 5) ⟨1, .ofInt⟩ 5
  have jumped : countingMachine.step copiedBack ⟨copiedBack.lines.drop 3, [], 0, copied⟩ =
      some ⟨copiedBack.lines.drop 4, [], 0, copied⟩ := by
    cbv
  have shown : countingMachine.Shows copiedBack Config.scene?
      (copiedBack.start 0 fun v => v.reg + 5)
      [((⟨3, .goto 7⟩, [], 0), copied),
        ((⟨8, .op Op.ireturn⟩, [5], 0), Function.update copied ⟨0, .ofInt⟩ 5)] :=
    ⟨_, _, .cons
      rfl (.cons rfl (.cons rfl (.cons jumped (.cons rfl (.cons rfl (.cons rfl (.cons rfl (.cons rfl
      (.nil _))))))))), rfl⟩
  refine ⟨by cbv, copied, Function.update copied ⟨0, .ofInt⟩ 5, ?_⟩
  exact (Body.propagateCopies_shows_iff countingMachine copiedBack_addressed copiedBack_counted 0
    _ _).1 shown

end Restack
