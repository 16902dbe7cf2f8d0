import Restack.Proofs.Execution.Parts
import Restack.Proofs.Pass.Orderly

set_option autoImplicit false

namespace Restack

namespace Body

/-- Lines from which a handler can be reached lie between the start and the end of a guarded range.
-/
def Guarded (b : Body) : Prop :=
  ∀ front l back, b.lines = front ++ l :: back → l.insn.acts = true →
    ∀ r ∈ b.rows, b.covers r l = true →
    0 < b.level (front ++ [l])

/-- Control comes to the line from the line before only, and goes nowhere but on or out of the
method. -/
structure Straight (b : Body) (l : Line) : Prop where
  entry : b.isTarget l = false
  targets : l.insn.targets = []
  unguarded : l.insn.acts = true → ∀ r ∈ b.rows, b.covers r l = false

/-- Straight lines that do not store the local, with the tag of the one that loads it. -/
structure Idle (b : Body) (v : Local) (use : Option Nat) (lines : List Line) : Prop where
  straight : ∀ l ∈ lines, b.Straight l
  unstored : ∀ l ∈ lines, l.insn.stores? ≠ some v
  loads : (lines.filter (·.insn.loads? = some v)).map Line.tag = use.toList

/-- The value of the local is read by `use` only, until the local is stored again or the method
ends. -/
def Spent (b : Body) (v : Local) (use : Option Nat) (rest : List Line) : Prop :=
  ∃ lines l back, rest = lines ++ l :: back ∧ b.Idle v use lines ∧
    (l.insn.stores? = some v ∨ b.Straight l ∧ l.insn.fallsThrough = false)

/-- The value of the local is not read any more, where `part l` stands in the place of each line. -/
def Excused (b : Body) (part : Line → List Line) (v : Local) (rest : List Line) : Prop :=
  ∃ use, b.Spent v use rest ∧ ∀ l ∈ b.lines, use = some l.tag → l ∉ part l

/-- Locals are alike if they have the same values, as far as these are read. -/
def Alike {V : Type} (b : Body) (part : Line → List Line) (rest : List Line)
    (locals locals' : Local → V) : Prop :=
  ∀ v, locals v = locals' v ∨ b.Excused part v rest

variable {b later : Body} {part : Line → List Line} {l : Line} {front back rest : List Line}
  {v w : Local} {use : Option Nat}
variable {lines : List Line}

theorem idle_nil (b : Body) (v : Local) : b.Idle v none [] := ⟨by simp, by simp, rfl⟩

theorem Idle.snoc {use' : Option Nat} (idle : b.Idle v use lines) (straight : b.Straight l)
    (unstored : l.insn.stores? ≠ some v)
    (loads : ((lines ++ [l]).filter (·.insn.loads? = some v)).map Line.tag = use'.toList) :
    b.Idle v use' (lines ++ [l]) := by
  refine ⟨fun x inside => ?_, fun x inside => ?_, loads⟩
  all_goals rcases List.mem_append.1 inside with before | here
  · exact idle.straight x before
  · exact List.mem_singleton.1 here ▸ straight
  · exact idle.unstored x before
  · exact List.mem_singleton.1 here ▸ unstored

theorem Idle.pass (idle : b.Idle v use lines) (straight : b.Straight l)
    (unstored : l.insn.stores? ≠ some v) (unloaded : l.insn.loads? ≠ some v) :
    b.Idle v use (lines ++ [l]) :=
  idle.snoc straight unstored (by simp [idle.loads, unloaded])

theorem Idle.load (idle : b.Idle v none lines) (straight : b.Straight l)
    (loads : l.insn.loads? = some v) :
    b.Idle v (some l.tag) (lines ++ [l]) := by
  have none : (lines.filter (·.insn.loads? = some v)).map Line.tag = [] := idle.loads
  exact idle.snoc straight (by simp [Insn.stores?_of_loads? loads]) (by simp [none, loads])

theorem Idle.tail (idle : b.Idle v use (l :: lines)) :
    (l.insn.loads? = some v → use = some l.tag) ∧ ∃ use', b.Idle v use' lines ∧
    ∀ tag, use' = some tag → use = some tag := by
  have straight : ∀ x ∈ lines, b.Straight x :=
    fun x inside => idle.straight x (List.mem_cons_of_mem _ inside)
  have unstored : ∀ x ∈ lines, x.insn.stores? ≠ some v :=
    fun x inside => idle.unstored x (List.mem_cons_of_mem _ inside)
  have loads := idle.loads
  by_cases here : l.insn.loads? = some v
  · rw [List.filter_cons_of_pos (by simpa using here), List.map_cons] at loads
    cases use with
    | none => cases loads
    | some tag =>
      obtain ⟨same, no_more⟩ := List.cons_eq_cons.1 loads
      exact ⟨fun _ => by rw [same], none, ⟨straight, unstored, no_more⟩, by simp⟩
  · rw [List.filter_cons_of_neg (by simpa using here)] at loads
    exact ⟨fun loads => absurd loads here, use, ⟨straight, unstored, loads⟩, fun _ same => same⟩

section

variable (excused : b.Excused part v (l :: back)) (inside : l ∈ b.lines)
include excused inside

/-- What becomes of a value that is not read any more: it is overwritten, the method ends, or it
lives on unread. -/
theorem Excused.cases :
    l.insn.stores? = some v ∨ b.Straight l ∧ l.insn.fallsThrough = false ∨
      b.Straight l ∧ l.insn.stores? ≠ some v ∧ b.Excused part v back ∧
      (l.insn.loads? = some v → l ∉ part l) := by
  obtain ⟨use, ⟨lines, last, after, split, idle, ends⟩, gone⟩ := excused
  cases lines with
  | nil =>
    cases split
    exact ends.imp id .inl
  | cons x lines =>
    obtain ⟨rfl, rfl⟩ := List.cons_eq_cons.1 split
    obtain ⟨loaded, use', idle', same⟩ := idle.tail
    refine .inr
      (.inr ⟨idle.straight l List.mem_cons_self, idle.unstored l List.mem_cons_self, ?_,
        fun loads => ?_⟩)
    · exact ⟨use', ⟨lines, last, after, rfl, idle', ends⟩, fun m member here =>
        gone m member (same m.tag here)⟩
    · exact gone l inside (loaded loads)

theorem Excused.unread (loads : l.insn.loads? = some v) : l ∉ part l := by
  rcases excused.cases inside with stores | ⟨_, ends⟩ | ⟨_, _, _, gone⟩
  · cases stores.symm.trans (Insn.stores?_of_loads? loads)
  · cases ends.symm.trans (Insn.fallsThrough_of_idle (Insn.idle_of_loads? loads))
  · exact gone loads

theorem Excused.on (unstored : l.insn.stores? ≠ some v)
    (falls : l.insn.fallsThrough = true) : b.Excused part v back := by
  rcases excused.cases inside with stores | ⟨_, ends⟩ | ⟨_, _, on, _⟩
  · exact absurd stores unstored
  · cases ends.symm.trans falls
  · exact on

end

section Alike

variable {V : Type} {locals locals' : Local → V}

section Alike

variable (alike : b.Alike part (l :: back) locals locals')
include alike

section

variable (inside : l ∈ b.lines)
include inside

theorem Alike.load (loads : l.insn.loads? = some v) (stays : l ∈ part l) : locals v = locals' v :=
  (alike v).resolve_right fun excused => excused.unread inside loads stays

theorem Alike.pass (no_store : l.insn.stores? = none) (falls : l.insn.fallsThrough = true) :
    b.Alike part back locals locals' := by
  exact fun v => (alike v).imp id fun excused => excused.on inside (by simp [no_store]) falls

theorem Alike.other (stores : l.insn.stores? = some w) (other : v ≠ w) :
    locals v = locals' v ∨ b.Excused part v back := by
  refine (alike v).imp id fun excused => excused.on inside (fun stores' => other ?_)
    (Insn.fallsThrough_of_idle (Insn.idle_of_stores? stores))
  exact Option.some.inj (stores'.symm.trans stores)

theorem Alike.store (stores : l.insn.stores? = some w) (x : V) :
    b.Alike part back (Function.update locals w x) (Function.update locals' w x) := by
  intro v
  by_cases here : v = w
  · subst here
    rw [Function.update_self, Function.update_self]
    exact .inl rfl
  · rw [Function.update_of_ne here, Function.update_of_ne here]
    exact alike.other inside stores here

theorem Alike.skip (stores : l.insn.stores? = some w) (excused : b.Excused part w back) (x : V) :
    b.Alike part back (Function.update locals w x) locals' := by
  intro v
  by_cases here : v = w
  · exact .inr (here ▸ excused)
  · rw [Function.update_of_ne here]
    exact alike.other inside stores here

theorem Alike.turn (acts : l.insn.acts = true) {m : Line} (turns : b.Turns l m) :
    locals = locals' := by
  have bent : ¬ b.Straight l := by
    intro straight
    rcases turns with enters | ⟨r, member, covered, _⟩
    · rw [enters_of_targets straight.targets] at enters
      cases enters
    · rw [straight.unguarded acts r member] at covered
      cases covered
  funext v
  rcases alike v with same | excused
  · exact same
  · rcases excused.cases inside with stores | ⟨straight, _⟩ | ⟨straight, _⟩
    · simp [(Insn.no_access_of_acts acts).2] at stores
    · exact absurd straight bent
    · exact absurd straight bent

end

end Alike

end Alike

section Ranges

/-- Each row has its range between two marks, with no other mark inside, and only rows end ranges.
-/
structure Ranged (b : Body) : Prop where
  stops : ∀ tag, b.stops.contains tag = true → ∃ r ∈ b.rows, r.stop = tag
  order : ∀ r ∈ b.rows, ∃ before start inside stop after, b.lines =
    before ++ start :: (inside ++ stop :: after) ∧
    start.tag = r.start ∧ stop.tag = r.stop ∧ b.starts.contains start.tag = true ∧
    ∀ l ∈ inside, b.starts.contains l.tag = false ∧ b.stops.contains l.tag = false

theorem Ranged.level_pos (ranged : b.Ranged) (distinct : (b.lines.map Line.tag).Nodup)
    (split : b.lines = front ++ back) :
    0 ≤ b.level front ∧ ∀ before start inside, front = before ++ start :: inside →
    b.starts.contains start.tag = true →
      (∀ l ∈ inside, b.starts.contains l.tag = false ∧ b.stops.contains l.tag = false) →
      0 < b.level front := by
  induction front using List.reverseRecOn generalizing back with
  | nil => exact ⟨Int.le_refl 0, by simp⟩
  | append_singleton front l ih =>
    have split' : b.lines = front ++ l :: back := by simp [split]
    obtain ⟨above, inner⟩ := ih split'
    rw [b.level_snoc]
    cases starts : b.starts.contains l.tag with
    | true =>
      rw [if_pos rfl]
      exact ⟨by omega, fun _ _ _ _ _ _ => by omega⟩
    | false =>
      rw [if_neg (by simp)]
      -- The range that was open last was open before the line too.
      have open_before : ∀ before start inside, front ++ [l] = before ++ start :: inside →
          b.starts.contains start.tag = true →
          (∀ x ∈ inside, b.starts.contains x.tag = false ∧ b.stops.contains x.tag = false) →
            b.stops.contains l.tag = false ∧ 0 < b.level front := by
        intro before start inside cut opens unmarked
        rcases List.eq_nil_or_concat' inside with rfl | ⟨inside, x, rfl⟩
        · obtain ⟨_, last⟩ := List.append_inj' cut rfl
          cases last
          rw [starts] at opens
          cases opens
        · rw [← List.cons_append, ← List.append_assoc] at cut
          obtain ⟨fronts, last⟩ := List.append_inj' cut rfl
          cases last
          exact ⟨(unmarked l (by simp)).2,
            inner before start inside fronts opens fun y member =>
              unmarked y (List.mem_append_left _ member)⟩
      cases stops : b.stops.contains l.tag with
      | true =>
        rw [if_pos rfl]
        obtain ⟨r, member, same⟩ := ranged.stops l.tag stops
        obtain ⟨before, start, inside, stop, after, cut, _, same', opens, unmarked⟩ :=
          ranged.order r member
        cases eq_of_tag_eq distinct (l := stop) (m := l) (by simp [cut]) (by simp [split'])
          (same'.trans same)
        have cut' : b.lines = (before ++ start :: inside) ++ l :: after := by simp [cut]
        have opened :=
          inner before start inside (split_unique distinct split' cut').1 opens unmarked
        refine ⟨by omega, fun before start inside cut opens unmarked => ?_⟩
        have unmarked_here := (open_before before start inside cut opens unmarked).1
        rw [stops] at unmarked_here
        cases unmarked_here
      | false =>
        rw [if_neg (by simp)]
        exact ⟨above, fun before start inside cut opens unmarked =>
          (open_before before start inside cut opens unmarked).2⟩

theorem covers_of_split {r : Row} (distinct : (b.lines.map Line.tag).Nodup)
    (split : b.lines = front ++ l :: back) :
    b.covers r l = (front.any (·.tag = r.start) && (l :: back).any (·.tag = r.stop)) := by
  have others : ∀ x ∈ front, decide (x.tag ≠ l.tag) = true :=
    fun x inside => decide_eq_true fun same => tag_not_before distinct split ⟨x, inside, same⟩
  rw [covers, linesFrom, split, List.takeWhile_append_of_pos others,
    List.dropWhile_append_of_pos others,
    List.takeWhile_cons_of_neg (by simp), List.dropWhile_cons_of_neg (by simp), List.append_nil]

/-- Ranges that lie apart guard the lines they cover. -/
theorem Ranged.guarded (ranged : b.Ranged) (addressed : b.Addressed) : b.Guarded := by
  intro front l back split acts r member covered
  have distinct := addressed.distinct
  obtain ⟨before, start, inside, stop, after, cut, same, same', opens, unmarked⟩ :=
    ranged.order r member
  rw [covers_of_split distinct split, Bool.and_eq_true, List.any_eq_true,
    List.any_eq_true] at covered
  obtain ⟨⟨first, first_member, first_tag⟩, last, last_member, last_tag⟩ := covered
  cases eq_of_tag_eq distinct (l := first) (m := start) (by simp [split, first_member])
    (by simp [cut])
    ((of_decide_eq_true first_tag).trans same.symm)
  cases eq_of_tag_eq distinct (l := last) (m := stop)
    (by rw [split]; exact List.mem_append_right _ last_member) (by simp [cut])
    ((of_decide_eq_true last_tag).trans same'.symm)
  have not_stop : l ≠ stop := by
    rintro rfl
    obtain ⟨q, label⟩ := (addressed.rows r member).2.1.2 l (by simp [split]) same'
    simp [label, Insn.acts] at acts
  -- The line stands behind the start and before the end of the range.
  obtain ⟨gap, rfl⟩ : ∃ gap, front = before ++ start :: gap := by
    obtain ⟨front', gap, rfl⟩ := List.append_of_mem first_member
    have split' : b.lines = front' ++ start :: (gap ++ l :: back) := by simp [split]
    exact ⟨gap, by rw [(split_unique distinct split' cut).1]⟩
  have rest : gap ++ l :: back = inside ++ stop :: after := by
    have split' : b.lines = before ++ start :: (gap ++ l :: back) := by simp [split]
    exact (split_unique distinct split' cut).2
  obtain ⟨more, rfl⟩ : ∃ more, inside = gap ++ l :: more := by
    rcases List.append_eq_append_iff.1 rest with ⟨more, fronts, backs⟩ | ⟨more, fronts, backs⟩
    · cases more with
      | nil => exact absurd (List.cons_eq_cons.1 backs).1 not_stop
      | cons x more =>
        obtain ⟨rfl, _⟩ := List.cons_eq_cons.1 backs
        exact ⟨more, fronts⟩
    · cases more with
      | nil => exact absurd (List.cons_eq_cons.1 backs).1.symm not_stop
      | cons x more =>
        obtain ⟨rfl, _⟩ := List.cons_eq_cons.1 backs
        rcases List.mem_cons.1 last_member with here | behind
        · exact absurd here.symm not_stop
        · -- The end would stand before the line and behind it.
          have between : stop ∈ before ++ start :: gap := by simp [fronts]
          rw [split, List.map_append] at distinct
          exact absurd rfl (List.nodup_append.1 distinct |>.2.2 _ (List.mem_map_of_mem between) _
            (List.mem_map_of_mem (List.mem_cons_of_mem _ behind)))
  have cut' : b.lines = (before ++ start :: gap ++ [l]) ++ back := by simp [split]
  refine (ranged.level_pos distinct cut').2 before start (gap ++ [l]) (by simp) opens
    fun x among => ?_
  exact unmarked x (by rcases List.mem_append.1 among with first | here <;> simp_all)

end Ranges

end Body

theorem Body.Guarded.straight {b : Body} {front back : List Line} {l : Line} (guarded : b.Guarded)
    (split : b.lines = front ++ l :: back) (inside : b.InStretch front l) : b.Straight l := by
  refine ⟨inside.entry, inside.targets, fun acts r member => ?_⟩
  by_contra covered
  exact absurd (guarded front l back split acts r member (by simpa using covered))
    (Int.not_lt.2 inside.level)

section Runs

variable {V H : Type} {M : Machine V H} {b : Body} {part : Line → List Line} {c d : Config V H}
  {l : Line} {back : List Line}
variable {v : Local}

theorem Body.Straight.next (straight : b.Straight l) (rest : c.rest = l :: back)
    (stepped : M.step b c = some d) :
    l.insn.fallsThrough = true ∧ d.rest = back ∨ d.rest = [] := by
  cases acts : l.insn.acts with
  | false => exact .inl ⟨Insn.fallsThrough_of_idle acts, Machine.rest_of_step rest acts stepped⟩
  | true =>
    rcases (Machine.leads_of_step rest acts stepped).1 with on | ended | ⟨tag, enters, _⟩ |
      ⟨r, inside, covered, _⟩
    · exact .inl on
    · exact .inr ended
    · rw [Body.enters_of_targets straight.targets] at enters
      cases enters
    · rw [straight.unguarded acts r inside] at covered
      cases covered

theorem Machine.matches_acted {later : Body} {R : Config V H → Config V H → Prop} {stack : List V}
    {heap : H} {locals locals' : Local → V} (reworked : b.Reworked later part)
    (addressed : b.Addressed) (entered : b.Entered) (inside : l ∈ b.lines)
    (acts : l.insn.acts = true) (alike : b.Alike part (l :: back) locals locals')
    (stepped : M.step b ⟨l :: back, stack, heap, locals⟩ = some d)
    (on : l.insn.fallsThrough = true → ∀ stack heap,
      R ⟨back, stack, heap, locals⟩ ⟨back.flatMap part, stack, heap, locals'⟩)
    (ended : ∀ stack heap, R ⟨[], stack, heap, locals⟩ ⟨[], stack, heap, locals'⟩)
    (landed : ∀ front m after q stack heap, b.lines = front ++ m :: after → m.insn = .label q →
      b.isTarget m = true → R ⟨m :: after, stack, heap, locals'⟩
        ⟨(m :: after).flatMap part, stack, heap, locals'⟩) :
    Matches M later Config.act? Config.act? Eq R ⟨l :: back, stack, heap, locals⟩
      ⟨(l :: back).flatMap part, stack, heap, locals'⟩ d := by
  rw [flatMap_acting reworked inside acts]
  refine .inl ⟨_, step_reworked reworked addressed inside acts stepped locals',
    ?_, by simp [Config.act?, acts]⟩
  obtain ⟨same, leads⟩ := landed_of_step addressed rfl acts stepped
  obtain ⟨rest, stack', heap', locals''⟩ := d
  dsimp only at leads same ⊢
  subst same
  rcases leads with ⟨falls, rfl⟩ | rfl | ⟨front, m, after, q, split, rfl, label, turns⟩
  · exact on falls _ _
  · exact ended _ _
  · cases alike.turn inside acts turns
    exact landed front m after q _ _ split label (entered.isTarget inside turns)

/-- A value that is not read any more is not read until its local is stored again. -/
theorem Machine.excused_of_run {passed : List (Config V H)} (run : M.Run b c passed d)
    (within : c.rest <:+ b.lines) (excused : b.Excused part v c.rest ∨ c.rest = [])
    (unstored : ∀ e ∈ passed, ∀ l back, e.rest = l :: back → l.insn.stores? ≠ some v) :
    b.Excused part v d.rest ∨ d.rest = [] := by
  induction run with
  | nil => exact excused
  | @cons c d e passed stepped _ ih =>
    refine ih (suffix_of_step within stepped) ?_ fun x inside =>
      unstored x (List.mem_cons_of_mem _ inside)
    cases rest : c.rest with
    | nil =>
      rw [step_nil rest] at stepped
      cases stepped
    | cons l back =>
      have inside : l ∈ b.lines := within.subset (rest ▸ List.mem_cons_self)
      rcases excused with excused | ended
      · rw [rest] at excused
        rcases excused.cases inside with stores | ⟨straight, ends⟩ | ⟨straight, _, on, _⟩
        · exact absurd stores (unstored c List.mem_cons_self l back rest)
        · rcases straight.next rest stepped with ⟨falls, _⟩ | ended
          · rw [ends] at falls
            cases falls
          · exact .inr ended
        · rcases straight.next rest stepped with ⟨_, here⟩ | ended
          · exact .inl (here ▸ on)
          · exact .inr ended
      · rw [rest] at ended
        cases ended

theorem Machine.unread_of_run {heap : H} {locals : Local → V} {first second : List (Config V H)}
    {store load : Line} {after : List Line}
    (run : M.Run b (b.start heap locals) (first ++ c :: second) d) (there : c.rest = store :: back)
    (stores : store.insn.stores? = some v) (excused : b.Excused part v back)
    (unstored : ∀ e ∈ second, ∀ l back, e.rest = l :: back → l.insn.stores? ≠ some v)
    (here : d.rest = load :: after) (loads : load.insn.loads? = some v) : load ∉ part load := by
  have whole : (b.start heap locals).rest <:+ b.lines := List.suffix_refl _
  have inside : load ∈ b.lines := (run.suffix whole).2.subset (here ▸ List.mem_cons_self)
  obtain ⟨e, run_first, run_second⟩ := run.split
  cases run_second with
  | cons stepped run_on =>
    have within := suffix_of_step (run_first.suffix whole).2 stepped
    have next := rest_of_step there (Insn.idle_of_stores? stores) stepped
    rw [← next] at excused
    rcases excused_of_run run_on within (.inl excused) unstored with excused' | ended
    · rw [here] at excused'
      exact excused'.unread inside loads
    · cases ended.symm.trans here

end Runs

/-- Stores two constants in one local. The second one is read again where an exception may lead back
to the start. -/
def guardedLoop : Body :=
  let counter : Local := ⟨0, .ofInt⟩
  { Body.ofInsns "guardedLoop" [.label (some 0), .literal ⟨.ofInt, 5, [8]⟩, .store counter,
    .label none, .load counter,
      .op Op.pop, .literal ⟨.ofInt, 4, [7]⟩, .store counter, .load counter, .op Op.pop, .label none,
      .load counter, .op Op.pop, .label none, .goto 0] with
    heads := (∅ : Std.HashMap UInt32 Nat).insert 0 0
    entries := (∅ : Std.HashMap Nat Nat).insert 0 2
    starts := (∅ : Std.HashSet Nat).insert 10
    stops := (∅ : Std.HashSet Nat).insert 13
    rows := [⟨10, 13, 0, 0⟩] }

theorem guardedLoop_addressed : guardedLoop.Addressed := by
  have label : ∀ tag, tag = 0 ∨ tag = 10 ∨ tag = 13 → guardedLoop.IsLabel tag := by
    rintro tag (rfl | rfl | rfl)
    all_goals exact ⟨by decide, by simp [guardedLoop, Body.ofInsns, List.zipIdx]⟩
  refine ⟨by decide, by decide, fun position tag found => ?_, fun r member => ?_⟩
  · obtain ⟨_, rfl⟩ : 0 = position ∧ 0 = tag := by
      simpa [guardedLoop, Std.HashMap.getElem?_insert] using found
    exact label 0 (.inl rfl)
  · cases List.mem_singleton.1 member
    exact ⟨label 10 (.inr (.inl rfl)), label 13 (.inr (.inr rfl)), label 0 (.inl rfl)⟩

theorem guardedLoop_entered : guardedLoop.Entered := by
  constructor
  · simp [Body.enters, guardedLoop, Body.ofInsns, List.zipIdx, Insn.targets, Insn.goto, Insn.load,
      Insn.store, Insn.op, Std.HashMap.getElem?_insert]
  · simp [guardedLoop, Body.ofInsns]

theorem guardedLoop_guarded : guardedLoop.Guarded := by
  refine Body.Ranged.guarded ⟨?_, fun r member => ?_⟩ guardedLoop_addressed
  · simp [guardedLoop, Body.ofInsns]
  · cases List.mem_singleton.1 member
    refine ⟨guardedLoop.lines.take 10, ⟨10, .label none⟩, (guardedLoop.lines.drop 11).take 2,
      ⟨13, .label none⟩, guardedLoop.lines.drop 14, rfl, rfl, rfl, ?_, ?_⟩
    · simp [guardedLoop]
    · simp [guardedLoop, Body.ofInsns, List.zipIdx]

theorem guardedLoop_shows :
    countingMachine.Shows guardedLoop Config.act? (guardedLoop.start 0 fun v => v.reg + 5)
    [(⟨5, .op Op.pop⟩, [0], 0), (⟨9, .op Op.pop⟩, [0], 1), (⟨12, .op Op.pop⟩, [0], 2),
      (⟨14, .goto 0⟩, [], 3)] := by
  let stored : Local → Nat := Function.update (fun v => v.reg + 5) ⟨0, .ofInt⟩ 0
  let again : Local → Nat := Function.update stored ⟨0, .ofInt⟩ 0
  have jumped : countingMachine.step guardedLoop ⟨guardedLoop.lines.drop 14, [], 3, again⟩ =
      some ⟨guardedLoop.lines, [], 3, again⟩ := by
    cbv
  exact ⟨_, _,
    .cons rfl (.cons rfl (.cons rfl (.cons rfl (.cons rfl (.cons rfl (.cons rfl (.cons rfl
      (.cons rfl (.cons rfl (.cons rfl (.cons rfl (.cons rfl (.cons rfl (.cons jumped
        (.nil _))))))))))))))), rfl⟩

theorem guardedLoop_run : ∃ first c second d store load, countingMachine.Run guardedLoop
    (guardedLoop.start 0 fun v => v.reg + 5) (first ++ c :: second) d ∧
    c.rest = ⟨2, .store ⟨0, .ofInt⟩⟩ :: store ∧
    d.rest = ⟨4, .load ⟨0, .ofInt⟩⟩ :: load ∧
    ∀ e ∈ second, ∀ l back, e.rest = l :: back → l.insn.stores? ≠ some ⟨0, .ofInt⟩ := by
  let initial : Local → Nat := fun v => v.reg + 5
  let stored : Local → Nat := Function.update initial ⟨0, .ofInt⟩ 0
  refine ⟨[⟨guardedLoop.lines, [], 0, initial⟩, ⟨guardedLoop.lines.drop 1, [], 0, initial⟩],
    ⟨guardedLoop.lines.drop 2, [0], 0, initial⟩, [⟨guardedLoop.lines.drop 3, [], 0, stored⟩],
    ⟨guardedLoop.lines.drop 4, [], 0, stored⟩, _, _,
    .cons rfl (.cons rfl (.cons rfl (.cons rfl (.nil _)))), rfl, rfl, ?_⟩
  intro e member l back rest
  cases List.mem_singleton.1 member
  cases rest
  decide

end Restack
