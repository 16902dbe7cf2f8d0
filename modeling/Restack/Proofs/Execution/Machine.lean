import Mathlib.Logic.Function.Basic
import Restack.Proofs.Pass.Editing

set_option autoImplicit false

namespace Restack

variable {v : Local} {x : Insn}

/-- What an instruction does beside reading and writing locals: go on, jump to one of its targets,
or throw. -/
inductive Reaction (V H : Type) where
  | goes (stack : List V) (heap : H)
  | jumps (index : Nat) (stack : List V) (heap : H)
  | raises (exception : V) (heap : H)

structure Machine (V H : Type) where
  /-- The value that a constant pushes. -/
  value : Insn → V
  /-- What plain instructions, conditional jumps and switches do, where they can run. -/
  react : Insn → List V → H → Option (Reaction V H)
  /-- Whether a handler for a class takes an exception. -/
  catches : UInt16 → V → H → Bool

/-- The lines that are still to come, and the state to run them in. -/
structure Config (V H : Type) where
  rest : List Line
  stack : List V
  heap : H
  locals : Local → V

def Insn.acts : Insn → Bool
  | .plain _ | .jump _ | .switch _ => true
  | _ => false

theorem Insn.cases_of (x : Insn) :
    (∃ q, x = .label q) ∨ (∃ v, x.loads? = some v) ∨ (∃ v, x.stores? = some v) ∨
    x.isConstant = true ∨ x.acts = true := by
  cases x with
  | label q => exact .inl ⟨q, rfl⟩
  | access a =>
    cases isStore : a.isStore with
    | true => exact .inr (.inr (.inl ⟨a.var, by simp [stores?, isStore]⟩))
    | false => exact .inr (.inl ⟨a.var, by simp [loads?, isStore]⟩)
  | literal | constant => exact .inr (.inr (.inr (.inl rfl)))
  | plain | jump | switch => exact .inr (.inr (.inr (.inr rfl)))

theorem Insn.fallsThrough_of_idle (idle : x.acts = false) : x.fallsThrough = true := by
  cases x <;> simp_all [acts, fallsThrough]

theorem Insn.idle_of_loads? (loads : x.loads? = some v) : x.acts = false := by
  cases x <;> simp_all [acts, loads?]

theorem Insn.idle_of_stores? (stores : x.stores? = some v) : x.acts = false := by
  cases x <;> simp_all [acts, stores?]

theorem Insn.idle_of_isConstant (constant : x.isConstant = true) : x.acts = false := by
  cases x <;> simp_all [acts, isConstant]

theorem Insn.no_access_of_acts (acts : x.acts = true) : x.loads? = none ∧ x.stores? = none := by
  cases x <;> simp_all [Insn.acts, loads?, stores?]

theorem Insn.no_access_of_isConstant (constant : x.isConstant = true) :
    x.loads? = none ∧ x.stores? = none := by
  cases x <;> simp_all [isConstant, loads?, stores?]

theorem Insn.no_access_of_fixed (fixed : x.isMovable = false) :
    x.loads? = none ∧ x.stores? = none := by
  cases x <;> simp_all [isMovable, loads?, stores?]

/-- What the machine is about to do, if it is at a line that acts. -/
def Config.act? {V H : Type} (c : Config V H) : Option (Line × List V × H) :=
  match c.rest with
  | l :: _ => if l.insn.acts then some (l, c.stack, c.heap) else none
  | [] => none

/-- What the machine is about to do, with all locals. -/
def Config.scene? {V H : Type} (c : Config V H) : Option ((Line × List V × H) × (Local → V)) :=
  c.act?.map (·, c.locals)

theorem Config.act?_eq_none {V H : Type} {c : Config V H} {l : Line} {back : List Line}
    (rest : c.rest = l :: back) (idle : l.insn.acts = false) : c.act? = none := by
  simp [act?, rest, idle]

theorem Config.scene?_eq_none {V H : Type} {c : Config V H} {l : Line} {back : List Line}
    (rest : c.rest = l :: back) (idle : l.insn.acts = false) : c.scene? = none := by
  rw [scene?, act?_eq_none rest idle, Option.map_none]

namespace Body

def linesFrom (b : Body) (tag : Nat) : List Line := b.lines.dropWhile (·.tag ≠ tag)

/-- Whether a line is in the range of a row. -/
def covers (b : Body) (r : Row) (l : Line) : Bool :=
  (b.lines.takeWhile (·.tag ≠ l.tag)).any (·.tag = r.start) && (b.linesFrom l.tag).any
    (·.tag = r.stop)

/-- Whether a line may jump to the one with a tag. -/
def enters (b : Body) (l : Line) (tag : Nat) : Bool := l.insn.targets.any (b.heads[·]? = some tag)

def start {V H : Type} (b : Body) (heap : H) (locals : Local → V) : Config V H :=
  ⟨b.lines, [], heap, locals⟩

end Body

namespace Machine

variable {V H : Type}

/-- A `goto` always jumps. -/
def reaction (M : Machine V H) (x : Insn) (stack : List V) (heap : H) : Option (Reaction V H) :=
  match x with
  | .jump { op := none, .. } => some (.jumps 0 stack heap)
  | x => M.react x stack heap

/-- What follows a line that goes on at `back`. An exception that no row takes ends the run. -/
def proceed (M : Machine V H) (b : Body) (c : Config V H) (l : Line) (back : List Line) :
    Reaction V H → Option (Config V H)
  | .goes stack heap =>
      some { c with rest := if l.insn.fallsThrough then back else [], stack, heap }
  | .jumps index stack heap => do
    let target ← l.insn.targets[index]?
    let tag ← b.heads[target]?
    return { c with rest := b.linesFrom tag, stack, heap }
  | .raises exception heap =>
    match b.rows.find? fun r => b.covers r l && M.catches r.classRef exception heap with
    | some r => some { c with rest := b.linesFrom r.handler, stack := [exception], heap }
    | none => some { c with rest := [], stack := [], heap }

def step (M : Machine V H) (b : Body) (c : Config V H) : Option (Config V H) :=
  match c.rest with
  | [] => none
  | l :: back =>
    match l.insn with
    | .label _ => some { c with rest := back }
    | .access a =>
      if a.isStore then
        match c.stack with
        | x :: stack =>
          some { c with rest := back, stack, locals := Function.update c.locals a.var x }
        | [] => none
      else some { c with rest := back, stack := c.locals a.var :: c.stack }
    | .literal _ | .constant _ => some { c with rest := back, stack := M.value l.insn :: c.stack }
    | .plain _ | .jump _ | .switch _ =>
      (M.reaction l.insn c.stack c.heap).bind (M.proceed b c l back)

inductive Run (M : Machine V H) (b : Body) :
    Config V H → List (Config V H) → Config V H → Prop where
  | nil (c : Config V H) : Run M b c [] c
  | cons {c d e : Config V H} {passed : List (Config V H)} :
      M.step b c = some d → Run M b d passed e →
      Run M b c (c :: passed) e

def Shows {α : Type} (M : Machine V H) (b : Body) (view : Config V H → Option α) (c : Config V H)
    (seen : List α) : Prop :=
  ∃ passed d, M.Run b c passed d ∧ passed.filterMap view = seen

section Steps

variable {M : Machine V H} {b : Body} {c : Config V H} {l : Line} {back : List Line} {v : Local}

theorem step_nil (ended : c.rest = []) : M.step b c = none := by
  rw [step, ended]

section Rest

variable (rest : c.rest = l :: back)
include rest

theorem step_label {q : Option UInt32} (label : l.insn = .label q) :
    M.step b c = some { c with rest := back } := by
  simp only [step, rest, label]

theorem step_load (loads : l.insn.loads? = some v) :
    M.step b c = some { c with rest := back, stack := c.locals v :: c.stack } := by
  cases insn : l.insn <;> simp [Insn.loads?, insn] at loads
  simp [step, rest, insn, loads]

theorem step_store {x : V} {stack : List V} (stores : l.insn.stores? = some v)
    (top : c.stack = x :: stack) :
    M.step b c = some { c with rest := back, stack, locals := Function.update c.locals v x } := by
  cases insn : l.insn <;> simp [Insn.stores?, insn] at stores
  simp [step, rest, insn, stores, top]

theorem step_store_empty (stores : l.insn.stores? = some v) (empty : c.stack = []) :
    M.step b c = none := by
  cases insn : l.insn <;> simp [Insn.stores?, insn] at stores
  simp [step, rest, insn, stores, empty]

theorem step_constant (constant : l.insn.isConstant = true) :
    M.step b c = some { c with rest := back, stack := M.value l.insn :: c.stack } := by
  cases insn : l.insn <;> simp [Insn.isConstant, insn] at constant
  all_goals simp [step, rest, insn]

theorem step_acting (acts : l.insn.acts = true) :
    M.step b c = (M.reaction l.insn c.stack c.heap).bind (M.proceed b c l back) := by
  cases insn : l.insn <;> simp [Insn.acts, insn] at acts
  all_goals simp only [step, rest, insn]

end Rest

variable {stack : List V} {heap : H} {locals : Local → V} {d : Config V H}

theorem step_cases (stepped : M.step b ⟨l :: back, stack, heap, locals⟩ = some d) :
    l.insn.acts = true ∨
    (∃ w x stack', l.insn.stores? = some w ∧ stack = x :: stack' ∧
      d = ⟨back, stack', heap, Function.update locals w x⟩) ∨
    l.insn.acts = false ∧ l.insn.stores? = none ∧
    ∃ pushed, d = ⟨back, pushed ++ stack, heap, locals⟩ ∧
      ∀ (later : Body) (back' : List Line) (stack' : List V) (heap' : H) (locals' : Local → V),
        (∀ v, l.insn.loads? = some v → locals' v = locals v) →
          M.step later ⟨l :: back', stack', heap', locals'⟩ =
            some ⟨back', pushed ++ stack', heap', locals'⟩ := by
  rcases l.insn.cases_of with ⟨q, label⟩ | ⟨v, loads⟩ | ⟨w, stores⟩ | constant | acts
  · rw [step_label rfl label] at stepped
    cases stepped
    exact .inr
      (.inr ⟨by rw [label]; rfl, by rw [label]; rfl, [], rfl, fun _ _ _ _ _ _ =>
        step_label rfl label⟩)
  · rw [step_load rfl loads] at stepped
    cases stepped
    refine .inr
      (.inr ⟨Insn.idle_of_loads? loads, Insn.stores?_of_loads? loads, [locals v], rfl,
        fun _ _ _ _ _ same => ?_⟩)
    rw [step_load rfl loads, ← same v loads]
    rfl
  · cases stack with
    | nil =>
      rw [step_store_empty rfl stores rfl] at stepped
      cases stepped
    | cons x stack =>
      rw [step_store rfl stores rfl] at stepped
      cases stepped
      exact .inr (.inl ⟨w, x, stack, stores, rfl, rfl⟩)
  · rw [step_constant rfl constant] at stepped
    cases stepped
    exact .inr
      (.inr ⟨Insn.idle_of_isConstant constant, (Insn.no_access_of_isConstant constant).2,
        [M.value l.insn], rfl,
      fun _ _ _ _ _ _ => step_constant rfl constant⟩)
  · exact .inl acts

theorem stuck_cases (stops : M.step b ⟨l :: back, stack, heap, locals⟩ = none) :
    l.insn.acts = true ∨ ∃ w, l.insn.stores? = some w ∧ stack = [] := by
  rcases l.insn.cases_of with ⟨q, label⟩ | ⟨v, loads⟩ | ⟨w, stores⟩ | constant | acts
  · cases (step_label rfl label).symm.trans stops
  · cases (step_load rfl loads).symm.trans stops
  · cases stack with
    | nil => exact .inr ⟨w, stores, rfl⟩
    | cons x stack => cases (step_store rfl stores rfl).symm.trans stops
  · cases (step_constant rfl constant).symm.trans stops
  · exact .inl acts

end Steps

section Simulation

variable {M : Machine V H} {b later : Body} {α β : Type} {view : Config V H → Option α}
  {view' : Config V H → Option β}
variable {Q : α → β → Prop} {R : Config V H → Config V H → Prop} {c c' d d' : Config V H}
  {passed : List (Config V H)}

theorem Run.append {more : List (Config V H)} (first : M.Run b c passed d)
    (second : M.Run b d more d') :
    M.Run b c (passed ++ more) d' := by
  induction first with
  | nil => exact second
  | cons stepped _ ih => exact .cons stepped (ih second)

/-- What every step keeps, a run keeps. -/
theorem Run.keeps {P : Config V H → Prop} (kept : ∀ c d, P c → M.step b c = some d → P d)
    (run : M.Run b c passed d) (start : P c) : P d := by
  induction run with
  | nil => exact start
  | cons stepped _ ih => exact ih (kept _ _ start stepped)

theorem Run.compare {passed' : List (Config V H)} (first : M.Run b c passed d)
    (second : M.Run b c passed' d') :
    (∃ more, passed' = passed ++ more ∧ M.Run b d more d') ∨ ∃ more, more ≠ [] ∧
    passed = passed' ++ more := by
  induction first generalizing passed' with
  | nil => exact .inl ⟨passed', rfl, second⟩
  | @cons c d e passed stepped rest ih =>
    cases second with
    | nil => exact .inr ⟨_, List.cons_ne_nil _ _, rfl⟩
    | cons stepped' rest' =>
      cases stepped.symm.trans stepped'
      rcases ih rest' with ⟨more, rfl, run⟩ | ⟨more, some_more, rfl⟩
      · exact .inl ⟨more, rfl, run⟩
      · exact .inr ⟨more, some_more, rfl⟩

/-- A step of `c` to `d` is matched from `c'`: by one step that is seen as `Q` says, or, if it is
not seen, by some that are not seen either; by none at all only if fewer lines are left. -/
def Matches (M : Machine V H) (later : Body) (view : Config V H → Option α)
    (view' : Config V H → Option β) (Q : α → β → Prop) (R : Config V H → Config V H → Prop)
    (c c' d : Config V H) : Prop :=
  (∃ d', M.step later c' = some d' ∧ R d d' ∧ List.Forall₂ Q (view c).toList (view' c').toList) ∨
    view c = none ∧ ∃ passed d', M.Run later c' passed d' ∧ R d d' ∧
    (∀ e ∈ passed, view' e = none) ∧
      (passed = [] → d.rest.length < c.rest.length)

/-- Steps from related states lead to related states again. -/
def Simulates (M : Machine V H) (b later : Body) (view : Config V H → Option α)
    (view' : Config V H → Option β) (Q : α → β → Prop) (R : Config V H → Config V H → Prop) :
    Prop :=
  ∀ c c' d, R c c' → M.step b c = some d → Matches M later view view' Q R c c' d

theorem Matches.quiet (step' : M.step later c' = some d') (related : R d d')
    (unseen : view c = none) (unseen' : view' c' = none) :
    Matches M later view view' Q R c c' d := by
  refine .inl ⟨d', step', related, ?_⟩
  rw [unseen, unseen']
  exact .nil

theorem Matches.idle (related : R d c') (unseen : view c = none)
    (fewer : d.rest.length < c.rest.length) :
    Matches M later view view' Q R c c' d :=
  .inr ⟨unseen, [], c', .nil c', related, by simp, fun _ => fewer⟩

theorem Matches.imp {S : Config V H → Config V H → Prop}
    (matched : Matches M later view view' Q R c c' d) (weaker : ∀ d', R d d' → S d d') :
    Matches M later view view' Q S c c' d := by
  rcases matched with ⟨d', step', related, seen⟩ | ⟨unseen, passed, d', run, related, rest⟩
  · exact .inl ⟨d', step', weaker d' related, seen⟩
  · exact .inr ⟨unseen, passed, d', run, weaker d' related, rest⟩

/-- What the steps of one body keep may be assumed of its states. -/
theorem Simulates.within {P : Config V H → Prop} (kept : ∀ c d, P c → M.step b c = some d → P d)
    (simulates : ∀ c c' d, R c c' → P c → M.step b c = some d →
      Matches M later view view' Q R c c' d) :
    Simulates M b later view view' Q fun c c' => R c c' ∧ P c := by
  rintro c c' d ⟨related, holds⟩ stepped
  exact (simulates c c' d related holds stepped).imp fun d' related' =>
    ⟨related', kept c d holds stepped⟩

theorem filterMap_cons_toList {γ δ : Type} (f : γ → Option δ) (x : γ) (xs : List γ) :
    (x :: xs).filterMap f = (f x).toList ++ xs.filterMap f := by
  rw [List.filterMap_cons]
  cases f x <;> rfl

theorem filterMap_silent {γ δ : Type} {f : γ → Option δ} {xs : List γ}
    (silent : ∀ x ∈ xs, f x = none) : xs.filterMap f = [] :=
  List.filterMap_eq_nil_iff.2 silent

/-- A run is followed by one that looks as `Q` says. -/
theorem Simulates.forward (simulates : Simulates M b later view view' Q R) (related : R c c')
    (run : M.Run b c passed d) :
    ∃ passed' d', M.Run later c' passed' d' ∧ R d d' ∧
      List.Forall₂ Q (passed.filterMap view) (passed'.filterMap view') := by
  induction run generalizing c' with
  | nil c => exact ⟨[], c', .nil c', related, .nil⟩
  | @cons c d e passed stepped _ ih =>
    rw [filterMap_cons_toList]
    rcases simulates c c' d related stepped with ⟨d', step', related', same⟩ |
      ⟨unseen, first, d', run', related', silent, _⟩
    · obtain ⟨passed', e', rest, ends, alike⟩ := ih related'
      refine ⟨c' :: passed', e', .cons step' rest, ends, ?_⟩
      rw [filterMap_cons_toList]
      exact List.rel_append same alike
    · obtain ⟨passed', e', rest, ends, alike⟩ := ih related'
      refine ⟨first ++ passed', e', run'.append rest, ends, ?_⟩
      rw [unseen, List.filterMap_append, filterMap_silent silent]
      exact alike

/-- Where the simulated body does not get stuck alone, the runs of the other look like its own. -/
theorem Simulates.backward (simulates : Simulates M b later view view' Q R)
    (stuck : ∀ c c', R c c' → M.step b c = none → M.step later c' = none) (related : R c c')
    {passed' : List (Config V H)} (run : M.Run later c' passed' d') :
    ∃ passed d, M.Run b c passed d ∧
    List.Forall₂ Q (passed.filterMap view) (passed'.filterMap view') := by
  -- Steps that nothing matches use up lines, and all others use up the run.
  suffices claim : ∀ n k c c' passed', passed'.length = n → c.rest.length = k → R c c' →
      (∃ d', M.Run later c' passed' d') →
      ∃ passed d, M.Run b c passed d ∧
      List.Forall₂ Q (passed.filterMap view) (passed'.filterMap view') from
    claim _ _ c c' passed' rfl rfl related ⟨d', run⟩
  intro n
  induction n using Nat.strongRecOn with
  | ind n outer =>
    intro k
    induction k using Nat.strongRecOn with
    | ind k inner =>
      rintro c c' passed' length lines related ⟨e', run⟩
      cases run with
      | nil => exact ⟨[], c, .nil c, .nil⟩
      | @cons _ d'' _ passed'' stepped' run' =>
        cases stepped : M.step b c with
        | none =>
          rw [stuck c c' related stepped] at stepped'
          cases stepped'
        | some d =>
          rw [List.length_cons] at length
          rcases simulates c c' d related stepped with
            ⟨d', step', related', same⟩ | ⟨unseen, first, d', first_run, related', silent, fewer⟩
          · cases step'.symm.trans stepped'
            obtain ⟨passed, e, rest, alike⟩ :=
              outer passed''.length (by omega) _ d d'' passed'' rfl rfl related' ⟨e', run'⟩
            refine ⟨c :: passed, e, .cons stepped rest, ?_⟩
            rw [filterMap_cons_toList, filterMap_cons_toList]
            exact List.rel_append same alike
          · by_cases idle : first = []
            · subst idle
              cases first_run
              obtain ⟨passed, e, rest, alike⟩ :=
                inner d.rest.length (lines ▸ fewer rfl) d c' (c' :: passed'')
                (by rw [List.length_cons, length]) rfl related' ⟨e', .cons stepped' run'⟩
              refine ⟨c :: passed, e, .cons stepped rest, ?_⟩
              rw [filterMap_cons_toList, unseen]
              exact alike
            · rcases first_run.compare (.cons stepped' run') with ⟨more, whole, rest_run⟩ |
                ⟨more, _, longer⟩
              · have shorter : more.length < n := by
                  have total := congrArg List.length whole
                  rw [List.length_append, List.length_cons] at total
                  have := List.length_pos_iff.2 idle
                  omega
                obtain ⟨passed, e, rest, alike⟩ :=
                  outer more.length shorter _ d d' more rfl rfl related' ⟨e', rest_run⟩
                refine ⟨c :: passed, e, .cons stepped rest, ?_⟩
                rw [filterMap_cons_toList, unseen, whole, List.filterMap_append,
                  filterMap_silent silent]
                exact alike
              · have unseen_yet : (c' :: passed'').filterMap view' = [] :=
                  filterMap_silent fun x inside => silent x (longer ▸ List.mem_append_left _ inside)
                exact ⟨[], c, .nil c, by rw [unseen_yet]; exact .nil⟩

theorem Simulates.shows {view' : Config V H → Option α}
    (simulates : Simulates M b later view view' Eq R) (related : R c c') (seen : List α) :
    M.Shows b view c seen → M.Shows later view' c' seen := by
  rintro ⟨passed, d, run, rfl⟩
  obtain ⟨passed', d', run', _, alike⟩ := simulates.forward related run
  exact ⟨passed', d', run', (List.forall₂_eq_eq_eq ▸ alike).symm⟩

theorem Simulates.shows_iff {view' : Config V H → Option α}
    (simulates : Simulates M b later view view' Eq R)
    (stuck : ∀ c c', R c c' → M.step b c = none → M.step later c' = none) (related : R c c')
    (seen : List α) :
    M.Shows b view c seen ↔ M.Shows later view' c' seen := by
  refine ⟨simulates.shows related seen, ?_⟩
  rintro ⟨passed', d', run', rfl⟩
  obtain ⟨passed, d, run, alike⟩ := simulates.backward stuck related run'
  exact ⟨passed, d, run, List.forall₂_eq_eq_eq ▸ alike⟩

end Simulation

end Machine

/-- A machine on which plain instructions, conditional jumps and switches drop the top of the stack
and go on, and the heap counts them. -/
def countingMachine : Machine Nat Nat where
  value _ := 0
  react _ stack heap := some (.goes stack.tail (heap + 1))
  catches _ _ _ := true

end Restack
