import Restack.Proofs.Selection.DefiniteAssignment
import Restack.Proofs.Stack.Steps

set_option autoImplicit false

namespace Restack

/-- The stack goes from `s` to `t` along a list, by a step for each element. -/
inductive Runs {α : Type} (step : α → Operands → Operands → Prop) :
    List α → Operands → Operands → Prop where
  | nil (s : Operands) : Runs step [] s s
  | cons {x : α} {xs : List α} {s t u : Operands} :
      step x s t → Runs step xs t u → Runs step (x :: xs) s u

namespace Runs

variable {α β : Type} {step step' : α → Operands → Operands → Prop} {x : α} {xs ys : List α}
  {s t u : Operands}

theorem nil_iff : Runs step [] s t ↔ t = s := by
  constructor
  · intro runs
    cases runs
    rfl
  · rintro rfl
    exact nil _

theorem cons_iff : Runs step (x :: xs) s u ↔ ∃ t, step x s t ∧ Runs step xs t u := by
  constructor
  · intro runs
    cases runs with
    | cons first rest => exact ⟨_, first, rest⟩
  · rintro ⟨t, first, rest⟩
    exact cons first rest

theorem single (first : step x s t) : Runs step [x] s t := cons first (nil t)

theorem append (first : Runs step xs s t) (second : Runs step ys t u) :
    Runs step (xs ++ ys) s u := by
  induction first with
  | nil => exact second
  | cons head _ ih => exact cons head (ih second)

theorem append_iff : Runs step (xs ++ ys) s u ↔ ∃ t, Runs step xs s t ∧ Runs step ys t u := by
  constructor
  · intro runs
    induction xs generalizing s with
    | nil => exact ⟨s, nil s, runs⟩
    | cons x xs ih =>
      obtain ⟨t, first, rest⟩ := cons_iff.1 runs
      obtain ⟨v, front, back⟩ := ih rest
      exact ⟨v, cons first front, back⟩
  · rintro ⟨t, first, second⟩
    exact first.append second

theorem mono (runs : Runs step xs s t) (each : ∀ x ∈ xs, ∀ s t, step x s t → step' x s t) :
    Runs step' xs s t := by
  induction runs with
  | nil s => exact nil s
  | cons first _ ih =>
    exact cons (each _ List.mem_cons_self _ _ first)
      (ih fun x member => each x (List.mem_cons_of_mem _ member))

theorem map_iff {f : β → α} {zs : List β} :
    Runs step (zs.map f) s t ↔ Runs (fun z => step (f z)) zs s t := by
  induction zs generalizing s with
  | nil => rw [List.map_nil, nil_iff, nil_iff]
  | cons z zs ih => simp only [List.map_cons, cons_iff, ih]

theorem exists_stacks (runs : Runs step xs s t) :
    ∃ stack : Nat → Operands, stack 0 = s ∧ stack xs.length = t ∧
    ∀ (k : Nat) (x : α), xs[k]? = some x → step x (stack k) (stack (k + 1)) := by
  induction runs with
  | nil s => exact ⟨fun _ => s, rfl, rfl, by simp⟩
  | @cons x xs s t u first _ ih =>
    obtain ⟨stack, start, finish, each⟩ := ih
    refine ⟨fun k => k.casesOn s stack, rfl, finish, fun k y found => ?_⟩
    cases k with
    | zero =>
      cases found
      subst start
      exact first
    | succ k => exact each k y found

end Runs

/-- An instruction that is run with the stack `s`, within `cap` slots, and may be followed by one
with the stack `u`. Nothing is left on the stack when it jumps. -/
structure Insn.Moves (p : Pool) (cap : Nat) (x : Insn) (s u : Operands) : Prop where
  sound : x.Sound
  bound : s.slots ≤ cap
  steps : ∃ t, x.Steps p s t ∧ (x.targets ≠ [] → t = []) ∧ (x.fallsThrough = true → u = t)

namespace Insn.Moves

variable {p : Pool} {cap more : Nat} {x : Insn} {s t u : Operands}

theorem raise (moves : x.Moves p cap s u) (le : cap ≤ more) : x.Moves p more s u :=
  ⟨moves.sound, Nat.le_trans moves.bound le, moves.steps⟩

theorem redirect (moves : x.Moves p cap s u) (stops : x.fallsThrough = false) (v : Operands) :
    x.Moves p cap s v := by
  obtain ⟨t, steps, left, _⟩ := moves.steps
  exact ⟨moves.sound, moves.bound, t, steps, left, fun falls => by simp [stops] at falls⟩

theorem of_steps (sound : x.Sound) (bound : s.slots ≤ cap) (steps : x.Steps p s t)
    (straight : x.targets = []) :
    x.Moves p cap s t :=
  ⟨sound, bound, t, steps, fun jumps => absurd straight jumps, fun _ => rfl⟩

theorem of_turns {room : Nat} {code : Bytes} {a b : Operands} (turns : Turns room code a b)
    (le : room ≤ headroom) (bound : (a ++ s).slots ≤ cap) :
    (Insn.plain code).Moves p cap (a ++ s) (b ++ s) :=
  of_steps trivial bound (steps_of_turns turns le s) rfl

theorem steps_of_falls (moves : x.Moves p cap s u) (falls : x.fallsThrough = true) :
    x.Steps p s u := by
  obtain ⟨t, steps, _, same⟩ := moves.steps
  exact same falls ▸ steps

end Insn.Moves

namespace Body

/-- Paths of control flow from the entry to line `k`, with the operand stack that they leave.
Whatever throws leaves the exception on the stack and nothing else. -/
inductive Reaches (p : Pool) (b : Body) : Nat → Operands → Prop where
  | entry : Reaches p b 0 []
  | falls {k limit : Nat} {s t : Operands} {l : Line} : Reaches p b k s → b.lines[k]? = some l →
      l.insn.run? p limit s = some t → l.insn.fallsThrough = true → Reaches p b (k + 1) t
  | jumps {k k' limit : Nat} {s t : Operands} {l l' : Line} {q : UInt32} :
      Reaches p b k s → b.lines[k]? = some l →
      l.insn.run? p limit s = some t → q ∈ l.insn.targets → b.lines[k']? = some l' →
      b.heads[q]? = some l'.tag →
      Reaches p b k' t
  | throws {k k' : Nat} {s : Operands} {r : Row} {l' : Line} :
      Reaches p b k s → r ∈ b.rows → b.Guards r k →
      b.lines[k']? = some l' → l'.tag = r.handler → Reaches p b k' [1]

/-- The stack with which a line is entered that rows or jumps lead to: handlers find the exception.
-/
def entryStack (b : Body) (tag : Nat) : Operands :=
  if ∃ r ∈ b.rows, r.handler = tag then [1] else []

/-- A label that is entered from elsewhere has the stack of its entries. -/
def Expects (b : Body) (l : Line) (s : Operands) : Prop :=
  ∀ q, l.insn = .label q → b.isTarget l = true → s = b.entryStack l.tag

/-- What rows and jumps lead to is a label that is counted as entered, and no handler is jumped to.
-/
structure Linked (b : Body) : Prop where
  rows : ∀ r ∈ b.rows, b.entries.contains r.handler = true
  jumps : ∀ l ∈ b.lines, ∀ q ∈ l.insn.targets, ∀ tag, b.heads[q]? = some tag →
    b.entries.contains tag = true ∧ ∀ r ∈ b.rows, r.handler ≠ tag
  labels : ∀ l ∈ b.lines, b.isTarget l = true → ∃ q, l.insn = .label q

structure Stacked (p : Pool) (cap : Nat) (expects : Line → Operands → Prop) (b : Body)
    (stack : Nat → Operands) : Prop where
  start : stack 0 = []
  each : ∀ (k : Nat) (l : Line), b.lines[k]? = some l →
    expects l (stack k) ∧ l.insn.Moves p cap (stack k) (stack (k + 1))

def Balanced (p : Pool) (cap : Nat) (expects : Line → Operands → Prop) (b : Body) : Prop :=
  ∃ last, Runs (fun l s u => expects l s ∧ l.insn.Moves p cap s u) b.lines [] last

variable {p : Pool} {cap : Nat} {expects : Line → Operands → Prop} {b : Body}

theorem Balanced.exists_stacked (balanced : b.Balanced p cap expects) :
    ∃ stack, b.Stacked p cap expects stack := by
  obtain ⟨last, runs⟩ := balanced
  obtain ⟨stack, start, _, each⟩ := runs.exists_stacks
  exact ⟨stack, start, each⟩

/-- Every path arrives at a line with the stack of that line. -/
theorem Stacked.eq_of_reaches {stack : Nat → Operands} (stacked : b.Stacked p cap expects stack)
    (meets : ∀ l s, expects l s → b.Expects l s) (linked : b.Linked) {k : Nat} {s : Operands}
    (reaches : b.Reaches p k s) : s = stack k := by
  induction reaches with
  | entry => exact stacked.start.symm
  | falls _ here ran falls ih =>
    subst ih
    have moves := (stacked.each _ _ here).2
    exact Insn.run?_unique ran (moves.steps_of_falls falls)
  | @jumps k k' limit s t l l' q _ here ran leads there head ih =>
    subst ih
    obtain ⟨left, steps, empty, _⟩ := (stacked.each _ _ here).2.steps
    have nothing : t = [] := by
      rw [Insn.run?_unique ran steps]
      exact empty (List.ne_nil_of_mem leads)
    obtain ⟨entered, no_row⟩ := linked.jumps l (List.mem_of_getElem? here) q leads _ head
    obtain ⟨q', label⟩ := linked.labels l' (List.mem_of_getElem? there) entered
    have expected := meets _ _ (stacked.each _ _ there).1 q' label entered
    rw [nothing, expected, entryStack, if_neg]
    rintro ⟨r, member, same⟩
    exact no_row r member same
  | @throws k k' s r l' _ member _ there same ih =>
    have entered : b.isTarget l' = true := by
      rw [isTarget, same]
      exact linked.rows r member
    obtain ⟨q', label⟩ := linked.labels l' (List.mem_of_getElem? there) entered
    rw [meets _ _ (stacked.each _ _ there).1 q' label entered, entryStack,
      if_pos ⟨r, member, same.symm⟩]

end Body

end Restack
