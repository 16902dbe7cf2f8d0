import Restack.Proofs.Execution.Machine

set_option autoImplicit false

namespace Restack

namespace Body

def IsLabel (b : Body) (tag : Nat) : Prop :=
  tag < b.fresh ∧ ∀ l ∈ b.lines, l.tag = tag → ∃ q, l.insn = .label q

/-- Lines are told apart by their tags, and positions and rows name labels. -/
structure Addressed (b : Body) : Prop where
  distinct : (b.lines.map Line.tag).Nodup
  bound : ∀ l ∈ b.lines, l.tag < b.fresh
  heads : ∀ (position : UInt32) (tag : Nat), b.heads[position]? = some tag → b.IsLabel tag
  rows : ∀ r ∈ b.rows, b.IsLabel r.start ∧ b.IsLabel r.stop ∧ b.IsLabel r.handler

/-- All lines that jumps, switches and rows lead to are known as targets. -/
structure Entered (b : Body) : Prop where
  jumps : ∀ l ∈ b.lines, ∀ tag, b.enters l tag = true → b.entries.contains tag = true
  rows : ∀ r ∈ b.rows, b.entries.contains r.handler = true

/-- `later` has `part l` in the place of each line `l`. Only movable lines are edited, and no line
gets the tag of another one unless it is a constant. -/
structure Reworked (b later : Body) (part : Line → List Line) : Prop where
  lines : later.lines = b.lines.flatMap part
  heads : later.heads = b.heads
  rows : later.rows = b.rows
  fixed : ∀ l ∈ b.lines, l.insn.isMovable = false → part l = [l]
  own : ∀ l ∈ b.lines, ∀ m ∈ part l, m.tag = l.tag ∨ b.fresh ≤ m.tag ∨ m ∈ b.lines ∧
    m.insn.isConstant = true

def Turns (b : Body) (l m : Line) : Prop :=
  b.enters l m.tag = true ∨ ∃ r ∈ b.rows, b.covers r l = true ∧ m.tag = r.handler

def Stays (b : Body) (tag : Nat) : Prop :=
  tag < b.fresh ∧ ∀ l ∈ b.lines, l.tag = tag → l.insn.isMovable = false

variable {b later : Body} {part : Line → List Line} {tag : Nat} {l : Line} {front back : List Line}

theorem IsLabel.stays (label : b.IsLabel tag) : b.Stays tag := by
  refine ⟨label.1, fun l inside same => ?_⟩
  obtain ⟨q, insn⟩ := label.2 l inside same
  rw [insn]
  rfl

theorem Addressed.stays (addressed : b.Addressed) (inside : l ∈ b.lines)
    (fixed : l.insn.isMovable = false) :
    b.Stays l.tag := by
  refine ⟨addressed.bound l inside, fun m member same => ?_⟩
  cases eq_of_tag_eq addressed.distinct member inside same
  exact fixed

theorem Entered.isTarget (entered : b.Entered) (inside : l ∈ b.lines) {m : Line}
    (turns : b.Turns l m) :
    b.isTarget m = true := by
  rcases turns with enters | ⟨r, member, _, same⟩
  · exact entered.jumps l inside m.tag enters
  · rw [Body.isTarget, same]
    exact entered.rows r member

theorem enters_of_targets (none : l.insn.targets = []) : b.enters l tag = false := by
  rw [enters, none]
  rfl

theorem linesFrom_eq_nil_or (b : Body) (tag : Nat) :
    b.linesFrom tag = [] ∨ ∃ front l back, b.lines = front ++ l :: back ∧ l.tag = tag ∧
    b.linesFrom tag = l :: back := by
  unfold linesFrom
  cases found : b.lines.dropWhile (·.tag ≠ tag) with
  | nil => exact .inl rfl
  | cons l back =>
    refine .inr ⟨b.lines.takeWhile (·.tag ≠ tag), l, back, ?_, ?_, rfl⟩
    · rw [← found, List.takeWhile_append_dropWhile]
    · have fails := List.head?_dropWhile_not (fun m : Line => decide (m.tag ≠ tag)) b.lines
      rw [found] at fails
      simpa using fails

theorem Reworked.cut (reworked : b.Reworked later part) (stays : b.Stays tag) :
    later.linesFrom tag = (b.linesFrom tag).flatMap part ∧
      later.lines.takeWhile (·.tag ≠ tag) = (b.lines.takeWhile (·.tag ≠ tag)).flatMap part := by
  have passed : ∀ l ∈ b.lines, l.tag ≠ tag → ∀ m ∈ part l, decide (m.tag ≠ tag) = true := by
    intro l inside other m member
    refine decide_eq_true fun same => ?_
    rcases reworked.own l inside m member with itself | fresh | ⟨elsewhere, constant⟩
    · exact other (itself.symm.trans same)
    · have := stays.1
      omega
    · have still := stays.2 m elsewhere same
      rw [Insn.isMovable_of_isConstant constant] at still
      cases still
  have along : ∀ lines : List Line, (∀ l ∈ lines, l ∈ b.lines) →
      (lines.flatMap part).dropWhile (·.tag ≠ tag) = (lines.dropWhile (·.tag ≠ tag)).flatMap part ∧
        (lines.flatMap part).takeWhile (·.tag ≠ tag) =
          (lines.takeWhile (·.tag ≠ tag)).flatMap part := by
    intro lines among
    induction lines with
    | nil => exact ⟨rfl, rfl⟩
    | cons l lines ih =>
      have inside := among l List.mem_cons_self
      obtain ⟨dropped, taken⟩ := ih fun m member => among m (List.mem_cons_of_mem _ member)
      by_cases here : l.tag = tag
      · simp [List.flatMap_cons, reworked.fixed l inside (stays.2 l inside here), here]
      · rw [List.flatMap_cons, List.dropWhile_append_of_pos (passed l inside here),
          List.takeWhile_append_of_pos (passed l inside here), dropped, taken]
        simp [here]
  unfold linesFrom
  rw [reworked.lines]
  exact along b.lines fun _ inside => inside

theorem Reworked.any_tag (reworked : b.Reworked later part) {lines : List Line}
    (among : ∀ l ∈ lines, l ∈ b.lines) (stays : b.Stays tag) :
    (lines.flatMap part).any (·.tag = tag) = lines.any (·.tag = tag) := by
  rw [Bool.eq_iff_iff, List.any_eq_true, List.any_eq_true]
  simp only [List.mem_flatMap, decide_eq_true_eq]
  constructor
  · rintro ⟨m, ⟨l, inside, member⟩, same⟩
    refine ⟨l, inside, ?_⟩
    rcases reworked.own l (among l inside) m member with itself | fresh | ⟨elsewhere, constant⟩
    · exact itself.symm.trans same
    · have := stays.1
      omega
    · have still := stays.2 m elsewhere same
      rw [Insn.isMovable_of_isConstant constant] at still
      cases still
  · rintro ⟨l, inside, same⟩
    have fixed := reworked.fixed l (among l inside) (stays.2 l (among l inside) same)
    exact ⟨l, ⟨l, inside, by simp [fixed]⟩, same⟩

theorem Reworked.covers_eq (reworked : b.Reworked later part) {r : Row} (start : b.Stays r.start)
    (stop : b.Stays r.stop) (here : b.Stays l.tag) : later.covers r l = b.covers r l := by
  obtain ⟨dropped, taken⟩ := reworked.cut here
  have before : ∀ m ∈ b.lines.takeWhile (·.tag ≠ l.tag), m ∈ b.lines :=
    (List.takeWhile_prefix _).subset
  have behind : ∀ m ∈ b.linesFrom l.tag, m ∈ b.lines := (List.dropWhile_suffix _).subset
  unfold covers
  rw [dropped, taken, reworked.any_tag before start, reworked.any_tag behind stop]

end Body

namespace Machine

variable {V H : Type} {M : Machine V H} {b later : Body} {part : Line → List Line} {l : Line}
  {back : List Line}
variable {stack : List V} {heap : H} {locals : Local → V}

theorem isMovable_of_acts {x : Insn} (acts : x.acts = true) : x.isMovable = false := by
  cases x <;> simp_all [Insn.acts, Insn.isMovable]

theorem flatMap_acting (reworked : b.Reworked later part) (inside : l ∈ b.lines)
    (acts : l.insn.acts = true) :
    (l :: back).flatMap part = l :: back.flatMap part := by
  rw [List.flatMap_cons, reworked.fixed l inside (isMovable_of_acts acts)]
  rfl

/-- A line that acts does in both bodies the same, and leads on to the same lines. -/
theorem step_reworked (reworked : b.Reworked later part) (addressed : b.Addressed)
    (inside : l ∈ b.lines) (acts : l.insn.acts = true) {next : Option (Config V H)}
    (stepped : M.step b ⟨l :: back, stack, heap, locals⟩ = next) (locals' : Local → V) :
    M.step later ⟨l :: back.flatMap part, stack, heap, locals'⟩ =
      next.map fun d => { d with rest := d.rest.flatMap part, locals := locals' } := by
  have stays := addressed.stays inside (isMovable_of_acts acts)
  rw [← stepped, step_acting rfl acts, step_acting rfl acts]
  dsimp only
  cases M.reaction l.insn stack heap with
  | none => rfl
  | some reaction =>
    cases reaction with
    | goes stack heap =>
      simp only [Option.bind_some, proceed, Option.map_some]
      split <;> rfl
    | jumps index stack heap =>
      simp only [Option.bind_some, proceed, reworked.heads]
      cases l.insn.targets[index]? with
      | none => rfl
      | some target =>
        simp only [Option.bind_eq_bind, Option.bind_some]
        cases found : b.heads[target]? with
        | none => rfl
        | some tag =>
          simp only [Option.bind_some, Option.pure_def, Option.map_some]
          rw [(reworked.cut (addressed.heads target tag found).stays).1]
    | raises exception heap =>
      have same :
          (later.rows.find? fun r => later.covers r l && M.catches r.classRef exception heap) =
          b.rows.find? fun r => b.covers r l && M.catches r.classRef exception heap := by
        rw [reworked.rows, ← List.head?_filter, ← List.head?_filter]
        refine congrArg List.head? (List.filter_congr fun r member => ?_)
        obtain ⟨start, stop, _⟩ := addressed.rows r member
        rw [reworked.covers_eq start.stays stop.stays stays]
      simp only [Option.bind_some, proceed, same]
      cases found : b.rows.find? fun r => b.covers r l && M.catches r.classRef exception heap with
      | none => rfl
      | some r =>
        have member := List.mem_of_find?_eq_some found
        simp only [Option.map_some]
        rw [(reworked.cut (addressed.rows r member).2.2.stays).1]

theorem stuck_reworked (reworked : b.Reworked later part) (addressed : b.Addressed)
    {front rest : List Line} (split : b.lines = front ++ rest)
    (kept : ∀ l back w, rest = l :: back → l.insn.stores? = some w → stack = [] → part l = [l])
    (stops : M.step b ⟨rest, stack, heap, locals⟩ = none) (locals' : Local → V) :
    M.step later ⟨rest.flatMap part, stack, heap, locals'⟩ = none := by
  cases rest with
  | nil => rfl
  | cons l back =>
    have inside : l ∈ b.lines := by simp [split]
    rcases stuck_cases stops with acts | ⟨w, stores, rfl⟩
    · rw [flatMap_acting reworked inside acts]
      exact step_reworked reworked addressed inside acts stops locals'
    · rw [List.flatMap_cons, kept l back w rfl stores rfl]
      exact step_store_empty rfl stores rfl

end Machine

/-- Where a line that acts may lead: on, out of the method, to a target or to a handler. -/
def Body.Leads (b : Body) (l : Line) (back rest : List Line) : Prop :=
  l.insn.fallsThrough = true ∧ rest = back ∨ rest = [] ∨
    (∃ tag, b.enters l tag = true ∧ rest = b.linesFrom tag) ∨
    ∃ r ∈ b.rows, b.covers r l = true ∧ rest = b.linesFrom r.handler

theorem Machine.leads_of_step {V H : Type} {M : Machine V H} {b : Body} {c d : Config V H}
    {l : Line} {back : List Line} (rest : c.rest = l :: back) (acts : l.insn.acts = true)
    (stepped : M.step b c = some d) :
    b.Leads l back d.rest ∧ d.locals = c.locals := by
  rw [step_acting rest acts] at stepped
  obtain ⟨reaction, _, proceeds⟩ := Option.bind_eq_some_iff.1 stepped
  cases reaction with
  | goes stack heap =>
    cases proceeds
    refine ⟨?_, rfl⟩
    dsimp only
    split
    next falls => exact .inl ⟨falls, rfl⟩
    next => exact .inr (.inl rfl)
  | jumps index stack heap =>
    obtain ⟨target, at_index, proceeds⟩ := Option.bind_eq_some_iff.1 proceeds
    obtain ⟨tag, found, proceeds⟩ := Option.bind_eq_some_iff.1 proceeds
    cases proceeds
    have enters : b.enters l tag = true := by
      refine List.any_eq_true.2 ⟨target, List.mem_of_getElem? at_index, ?_⟩
      rw [found]
      simp
    exact ⟨.inr (.inr (.inl ⟨tag, enters, rfl⟩)), rfl⟩
  | raises exception heap =>
    rw [proceed] at proceeds
    split at proceeds
    next r found =>
      cases proceeds
      have covered := List.find?_some found
      rw [Bool.and_eq_true] at covered
      exact ⟨.inr (.inr (.inr ⟨r, List.mem_of_find?_eq_some found, covered.1, rfl⟩)), rfl⟩
    next =>
      cases proceeds
      exact ⟨.inr (.inl rfl), rfl⟩

namespace Machine

variable {V H : Type} {M : Machine V H} {b : Body} {c d : Config V H} {l : Line} {back : List Line}

theorem landed_of_step (addressed : b.Addressed) (rest : c.rest = l :: back)
    (acts : l.insn.acts = true) (stepped : M.step b c = some d) :
    d.locals = c.locals ∧ (l.insn.fallsThrough = true ∧ d.rest = back ∨ d.rest = [] ∨
      ∃ front m after q, b.lines = front ++ m :: after ∧ d.rest = m :: after ∧ m.insn = .label q ∧
      b.Turns l m) := by
  obtain ⟨leads, same⟩ := leads_of_step rest acts stepped
  have landed {tag : Nat} (label : b.IsLabel tag) (there : d.rest = b.linesFrom tag)
      (turns : ∀ m, m.tag = tag → b.Turns l m) :
      d.rest = [] ∨ ∃ front m after q, b.lines = front ++ m :: after ∧ d.rest = m :: after ∧
        m.insn = .label q ∧
        b.Turns l m := by
    rcases b.linesFrom_eq_nil_or tag with nowhere | ⟨front, m, after, split, tags, found⟩
    · exact .inl (there.trans nowhere)
    · obtain ⟨q, insn⟩ := label.2 m (by simp [split]) tags
      exact .inr ⟨front, m, after, q, split, there.trans found, insn, turns m tags⟩
  refine ⟨same, ?_⟩
  rcases leads with on | ended | ⟨tag, enters, there⟩ | ⟨r, member, covered, there⟩
  · exact .inl on
  · exact .inr (.inl ended)
  · obtain ⟨target, _, found⟩ := List.any_eq_true.1 enters
    exact .inr (landed (addressed.heads target tag (by simpa using found)) there fun m tags =>
      .inl (tags ▸ enters))
  · exact .inr
      (landed (addressed.rows r member).2.2 there fun m tags => .inr ⟨r, member, covered, tags⟩)

theorem rest_of_step (rest : c.rest = l :: back) (idle : l.insn.acts = false)
    (stepped : M.step b c = some d) :
    d.rest = back := by
  obtain ⟨_, stack, heap, locals⟩ := c
  cases rest
  rcases step_cases stepped with acts | ⟨_, _, _, _, _, rfl⟩ | ⟨_, _, _, rfl, _⟩
  · rw [idle] at acts
    cases acts
  · rfl
  · rfl

theorem suffix_of_step (within : c.rest <:+ b.lines) (stepped : M.step b c = some d) :
    d.rest <:+ b.lines := by
  cases rest : c.rest with
  | nil =>
    rw [step_nil rest] at stepped
    cases stepped
  | cons l back =>
    have behind : back <:+ b.lines := (List.suffix_cons l back).trans (rest ▸ within)
    have from_tag (tag : Nat) : b.linesFrom tag <:+ b.lines := List.dropWhile_suffix _
    cases acts : l.insn.acts with
    | false => exact rest_of_step rest acts stepped ▸ behind
    | true =>
      rcases (leads_of_step rest acts stepped).1 with ⟨_, on⟩ | ended | ⟨tag, _, there⟩ |
        ⟨r, _, _, there⟩
      · exact on ▸ behind
      · exact ended ▸ List.nil_suffix
      · exact there ▸ from_tag tag
      · exact there ▸ from_tag r.handler

theorem Run.suffix {passed : List (Config V H)} (run : M.Run b c passed d)
    (within : c.rest <:+ b.lines) :
    (∀ e ∈ passed, e.rest <:+ b.lines) ∧ d.rest <:+ b.lines := by
  induction run with
  | nil => exact ⟨by simp, within⟩
  | cons stepped _ ih =>
    obtain ⟨along, last⟩ := ih (suffix_of_step within stepped)
    exact ⟨fun e inside => by
      rcases List.mem_cons.1 inside with rfl | more; exacts [within, along e more], last⟩

theorem Run.split {first second : List (Config V H)} (run : M.Run b c (first ++ second) d) :
    ∃ e, M.Run b c first e ∧ M.Run b e second d := by
  induction first generalizing c with
  | nil => exact ⟨c, .nil c, run⟩
  | cons x first ih =>
    cases run with
    | cons stepped rest =>
      obtain ⟨e, before, after⟩ := ih rest
      exact ⟨e, .cons stepped before, after⟩

end Machine

end Restack
