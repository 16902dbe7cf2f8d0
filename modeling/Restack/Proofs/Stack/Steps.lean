import Restack.Proofs.Register.Transfer
import Restack.Proofs.Stack.Operands

set_option autoImplicit false

namespace Restack

/-- A kind of its own, or none: there is one load and one store for it. -/
def Kinds.Single (k : Kinds) : Prop := k ∈ Kinds.singles ∨ k = .none

instance (k : Kinds) : Decidable k.Single := inferInstanceAs (Decidable (_ ∨ _))

theorem Kinds.single_ofDescriptor (d : String) : (Kinds.ofDescriptor d).Single :=
  Kinds.ofDescriptor_cases d

theorem Kinds.Single.ofRef : Kinds.ofRef.Single := by decide

theorem Kinds.Single.ofInt : Kinds.ofInt.Single := by decide

theorem Kinds.Single.cases {k : Kinds} (single : k.Single) {P : Kinds → Prop}
    (each : ∀ k ∈ Kinds.none :: Kinds.singles, P k) : P k := by
  rcases single with one | rfl
  · exact each k (List.mem_cons_of_mem _ one)
  · exact each .none List.mem_cons_self

namespace Insn

/-- More slots than any instruction uses on top of what it finds. -/
def headroom : Nat := 20

/-- The instruction takes the stack from `s` to `t`, with little room on top of `s`. -/
def Steps (p : Pool) (x : Insn) (s t : Operands) : Prop := x.run? p (headroom + s.slots) s = some t

variable {p : Pool} {x : Insn} {s t u : Operands} {limit more : Nat} {v : Local}

theorem run?_mono (ran : x.run? p limit s = some t) (le : limit ≤ more) :
    x.run? p more s = some t := by
  cases x with
  | label | jump | switch => exact ran
  | access a =>
    obtain ⟨stepped, fits⟩ := Option.filter_eq_some_iff.1 ran
    refine Option.filter_eq_some_iff.2 ⟨stepped, ?_⟩
    simp only [decide_eq_true_eq] at fits ⊢
    omega
  | literal | constant | plain => exact Pool.run?_mono ran le

theorem run?_unique (first : x.run? p limit s = some t) (second : x.run? p more s = some u) :
    t = u := by
  have left := run?_mono first (Nat.le_max_left limit more)
  have right := run?_mono second (Nat.le_max_right limit more)
  exact Option.some.inj (left.symm.trans right)

theorem run?_below (ran : x.run? p limit s = some t) (below : Operands) :
    x.run? p (limit + below.slots) (s ++ below) = some (t ++ below) := by
  cases x with
  | label =>
    cases ran
    rfl
  | access a =>
    obtain ⟨stepped, fits⟩ := Option.filter_eq_some_iff.1 ran
    refine Option.filter_eq_some_iff.2 ⟨Pool.step?_append stepped below, ?_⟩
    simp only [decide_eq_true_eq, Operands.slots_append] at fits ⊢
    omega
  | jump | switch => exact Pool.step?_append ran below
  | literal | constant | plain => exact Pool.run?_below ran below

namespace Steps

theorem unique (first : x.Steps p s t) (second : x.Steps p s u) : t = u := run?_unique first second

theorem within (steps : x.Steps p s t) (le : headroom + s.slots ≤ limit) :
    x.run? p limit s = some t :=
  run?_mono steps le

theorem below (steps : x.Steps p s t) (below : Operands) : x.Steps p (s ++ below) (t ++ below) := by
  have deeper := run?_below steps below
  rwa [Nat.add_assoc, ← Operands.slots_append] at deeper

end Steps

theorem steps_label (position : Option UInt32) (s : Operands) : (Insn.label position).Steps p s s :=
  rfl

theorem steps_of_turns {room : Nat} {code : Bytes} {a b : Operands} (turns : Turns room code a b)
    (le : room ≤ headroom) (s : Operands) : (Insn.plain code).Steps p (a ++ s) (b ++ s) := by
  refine Pool.run?_mono (turns p s) ?_
  rw [Operands.slots_append]
  omega

/-- Whether the value that an instruction pushes or stores is told by its kinds alone. -/
def Sound : Insn → Prop
  | .access a => a.var.kinds.Single
  | .literal l => Turns headroom l.code [] [l.kinds.width]
  | .constant code => Turns headroom code [] [1]
  | _ => True

/-- The slots of the value that an instruction pushes, if it does nothing else. -/
def pushes? : Insn → Option Nat
  | .access a => if a.isStore then none else some a.var.width
  | .literal l => some l.kinds.width
  | .constant _ => some 1
  | _ => none

theorem effects_access {a : Access} (single : a.var.kinds.Single) :
    p.effects a.opcode [] = [if a.isStore then ⟨[a.var.width], []⟩ else ⟨[], [a.var.width]⟩] := by
  obtain ⟨⟨reg, kinds⟩, isStore, slot⟩ := a
  have listed : ∀ k ∈ Kinds.none :: Kinds.singles, ∀ isStore : Bool,
      p.effects (Access.opcode ⟨⟨reg, k⟩, isStore, slot⟩) [] =
        [if isStore then ⟨[k.width], []⟩ else ⟨[], [k.width]⟩] := by
    simp only [Kinds.singles, List.forall_mem_cons, List.not_mem_nil, false_implies,
      implies_true, and_true]
    refine ⟨?_, ?_, ?_, ?_, ?_, ?_⟩ <;> intro isStore <;> cases isStore <;> rfl
  exact single.cases listed isStore

theorem exists_access_of_stores? (stores : x.stores? = some v) :
    ∃ a, x = .access a ∧ a.isStore = true ∧ a.var = v := by
  cases x with
  | access a =>
    obtain ⟨isStore, same⟩ : a.isStore = true ∧ a.var = v := by simpa [stores?] using stores
    exact ⟨a, rfl, isStore, same⟩
  | label | literal | constant | plain | jump | switch => cases stores

theorem exists_access_of_loads? (loads : x.loads? = some v) :
    ∃ a, x = .access a ∧ a.isStore = false ∧ a.var = v := by
  cases x with
  | access a =>
    obtain ⟨isLoad, same⟩ : a.isStore = false ∧ a.var = v := by simpa [loads?] using loads
    exact ⟨a, rfl, isLoad, same⟩
  | label | literal | constant | plain | jump | switch => cases loads

theorem stores?_of_loads? (loads : x.loads? = some v) : x.stores? = none := by
  obtain ⟨a, rfl, isLoad, _⟩ := exists_access_of_loads? loads
  simp [stores?, isLoad]

theorem loads?_of_stores? (stores : x.stores? = some v) : x.loads? = none := by
  obtain ⟨a, rfl, isStore, _⟩ := exists_access_of_stores? stores
  simp [loads?, isStore]

theorem run?_store (sound : x.Sound) (stores : x.stores? = some v)
    (ran : x.run? p limit s = some t) :
    s = v.width :: t := by
  obtain ⟨a, rfl, isStore, rfl⟩ := exists_access_of_stores? stores
  have only : p.effects a.opcode [] = [⟨[a.var.width], []⟩] := by
    simpa [isStore] using effects_access sound
  obtain ⟨e, member, rest, taken, left⟩ := Pool.step?_eq_some.1 (Option.filter_eq_some_iff.1 ran).1
  rw [only, List.mem_singleton] at member
  subst member taken left
  rfl

theorem steps_store_iff (sound : x.Sound) (stores : x.stores? = some v) :
    x.Steps p s t ↔ s = v.width :: t := by
  refine ⟨run?_store sound stores, ?_⟩
  obtain ⟨a, rfl, isStore, rfl⟩ := exists_access_of_stores? stores
  have only : p.effects a.opcode [] = [⟨[a.var.width], []⟩] := by
    simpa [isStore] using effects_access sound
  rintro rfl
  refine Option.filter_eq_some_iff.2
    ⟨Pool.step?_eq_some.2 ⟨_, only ▸ List.mem_cons_self, t, rfl, rfl⟩, ?_⟩
  simp only [decide_eq_true_eq, Operands.slots_cons]
  omega

theorem steps_push_iff {w : Nat} (sound : x.Sound) (pushes : x.pushes? = some w) :
    x.Steps p s t ↔ t = w :: s := by
  have pushed : x.Steps p s (w :: s) := by
    cases x with
    | access a =>
      obtain ⟨isLoad, rfl⟩ : a.isStore = false ∧ a.var.width = w := by simpa [pushes?] using pushes
      have only : p.effects a.opcode [] = [⟨[], [a.var.width]⟩] := by
        simpa [isLoad] using effects_access sound
      refine Option.filter_eq_some_iff.2
        ⟨Pool.step?_eq_some.2 ⟨_, only ▸ List.mem_cons_self, s, rfl, rfl⟩, ?_⟩
      have narrow : a.var.width ≤ 2 := by
        unfold Local.width
        split <;> decide
      simp only [decide_eq_true_eq, Operands.slots_cons, headroom]
      omega
    | literal l =>
      cases pushes
      exact sound p s
    | constant code =>
      cases pushes
      exact sound p s
    | label | plain | jump | switch => cases pushes
  exact ⟨fun steps => steps.unique pushed, fun same => same ▸ pushed⟩

theorem pushes?_of_loads? (loads : x.loads? = some v) : x.pushes? = some v.width := by
  obtain ⟨a, rfl, isLoad, rfl⟩ := exists_access_of_loads? loads
  simp [pushes?, isLoad]

theorem of_pushes? {w : Nat} (pushes : x.pushes? = some w) :
    x.stores? = none ∧ x.targets = [] ∧ x.fallsThrough = true ∧ x.isPlain = false ∧
    ∀ q, x ≠ .label q := by
  cases x with
  | access a =>
    have isLoad : a.isStore = false := by
      by_contra isStore
      simp [pushes?, isStore] at pushes
    simp [stores?, isLoad, targets, fallsThrough, isPlain]
  | literal | constant => simp [stores?, targets, fallsThrough, isPlain]
  | label | plain | jump | switch => cases pushes

theorem of_stores? (stores : x.stores? = some v) :
    x.pushes? = none ∧ x.targets = [] ∧ x.fallsThrough = true ∧ x.isPlain = false ∧
    ∀ q, x ≠ .label q := by
  obtain ⟨a, rfl, isStore, _⟩ := exists_access_of_stores? stores
  simp [pushes?, isStore, targets, fallsThrough, isPlain]

theorem steps_pop (v : Local) (s : Operands) :
    (Insn.op (if v.isWide then Op.pop2 else Op.pop)).Steps p (v.width :: s) s := by
  unfold Local.width
  split
  · have turns : Turns 0 [Op.pop2] [2] [] := .of_run? fun _ => rfl
    exact steps_of_turns turns (by decide) s
  · have turns : Turns 0 [Op.pop] [1] [] := .of_run? fun _ => rfl
    exact steps_of_turns turns (by decide) s

end Insn

end Restack
