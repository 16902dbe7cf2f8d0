import Restack.Proofs.Layout.Positions

set_option autoImplicit false

namespace Restack

variable {first second : List Line}

/-- How far a jump goes at given positions; a target without a position counts as the start of the
code. -/
def distance (heads : Std.HashMap UInt32 Nat) (positions : Std.HashMap Nat Nat) (tag : Nat)
    (target : UInt32) : Int :=
  ((heads[target]?.bind fun head => positions[head]?).getD 0 : Nat) - (positions.getD tag 0 : Nat)

namespace Line

def isUndecided (l : Line) : Bool :=
  match l.insn with
  | .jump j => j.size = .undecided
  | _ => false

def widen (heads : Std.HashMap UInt32 Nat) (positions : Std.HashMap Nat Nat) (l : Line) : Line :=
  match l.insn with
  | .jump j => { l with insn := .jump (j.widen (distance heads positions l.tag j.target)) }
  | _ => l

def settle (l : Line) : Line :=
  match l.insn with
  | .jump j => { l with insn := .jump j.settle }
  | _ => l

/-- Lines that are laid out alike: they have one tag and the same length everywhere. -/
def SameExtent (a b : Line) : Prop :=
  a.tag = b.tag ∧ ∀ here, a.insn.lengthAt here = b.insn.lengthAt here

inductive Resized : Line → Line → Prop where
  | same (l : Line) : Resized l l
  | jump (tag : Nat) (j : Jump) (size : Jump.Size) :
      Resized ⟨tag, .jump j⟩ ⟨tag, .jump { j with size }⟩

theorem Resized.trans {a b c : Line} (first : Resized a b) (second : Resized b c) :
    Resized a c := by
  cases first with
  | same => exact second
  | jump tag j size =>
    cases second with
    | same => exact .jump tag j size
    | jump _ _ size' => exact .jump tag j size'

theorem widen_resized (heads : Std.HashMap UInt32 Nat) (positions : Std.HashMap Nat Nat)
    (l : Line) :
    Resized l (l.widen heads positions) := by
  obtain ⟨tag, insn⟩ := l
  cases insn with
  | jump j =>
    simp only [widen, Jump.widen]
    split
    · exact .jump tag j .long
    · exact .same _
  | _ => exact .same _

theorem settle_resized (l : Line) : Resized l l.settle := by
  obtain ⟨tag, insn⟩ := l
  cases insn with
  | jump j =>
    simp only [settle, Jump.settle]
    split
    · exact .jump tag j .short
    · exact .same _
  | _ => exact .same _

theorem widen_eq_or_decided (heads : Std.HashMap UInt32 Nat) (positions : Std.HashMap Nat Nat)
    (l : Line) :
    l.widen heads positions = l ∨
    (l.isUndecided = true ∧ (l.widen heads positions).isUndecided = false) := by
  obtain ⟨tag, insn⟩ := l
  cases insn with
  | jump j =>
    by_cases far : j.size = .undecided ∧ !Jump.inRange (distance heads positions tag j.target)
    · exact Or.inr ⟨by simp [isUndecided, far.1], by simp [widen, isUndecided, Jump.widen, far]⟩
    · exact Or.inl (by simp only [widen, Jump.widen, far, ↓reduceIte])
  | _ => exact Or.inl rfl

theorem settle_sameExtent (l : Line) : SameExtent l l.settle := by
  obtain ⟨tag, insn⟩ := l
  cases insn with
  | jump j =>
    refine ⟨rfl, fun here => ?_⟩
    by_cases undecided : j.size = .undecided <;>
      simp [settle, Jump.settle, Insn.lengthAt, Jump.minLength, undecided]
  | _ => exact ⟨rfl, fun _ => rfl⟩

end Line

theorem undecided_eq (lines : List Line) : undecided lines = lines.countP Line.isUndecided := rfl

theorem widenJumps_eq (heads : Std.HashMap UInt32 Nat) (lines : List Line) :
    widenJumps heads lines = lines.map (Line.widen heads (positionByTag lines)) := rfl

theorem settleJumps_eq (lines : List Line) : settleJumps lines = lines.map Line.settle := rfl

theorem map_eq_of_undecided_le (f : Line → Line)
    (decides : ∀ l, f l = l ∨ (l.isUndecided = true ∧ (f l).isUndecided = false))
    (lines : List Line) :
    undecided (lines.map f) ≤ undecided lines ∧
      (undecided lines ≤ undecided (lines.map f) → lines.map f = lines) := by
  simp only [undecided_eq]
  induction lines with
  | nil => simp
  | cons l rest ih =>
    obtain ⟨fewer, equal⟩ := ih
    rcases decides l with same | ⟨before, after⟩
    · simp only [List.map_cons, List.countP_cons, same]
      exact ⟨by omega, fun stuck => by rw [equal (by omega)]⟩
    · simp only [List.map_cons, List.countP_cons, before, after, ↓reduceIte, Bool.false_eq_true]
      exact ⟨by omega, fun stuck => by omega⟩

theorem widenJumps_eq_self {heads : Std.HashMap UInt32 Nat} {lines : List Line}
    (stuck : ¬ undecided (widenJumps heads lines) < undecided lines) :
    widenJumps heads lines = lines :=
  (map_eq_of_undecided_le _ (Line.widen_eq_or_decided heads (positionByTag lines)) lines).2
    (Nat.le_of_not_lt stuck)

theorem widenJumps_widenAll (heads : Std.HashMap UInt32 Nat) (lines : List Line) :
    widenJumps heads (widenAll heads lines) = widenAll heads lines := by
  fun_induction widenAll heads lines with
  | case1 lines wider fewer ih => exact ih
  | case2 lines wider stuck =>
    rw [show wider = lines from widenJumps_eq_self stuck, widenJumps_eq_self stuck]

theorem widenAll_induction {heads : Std.HashMap UInt32 Nat} {lines : List Line}
    {P : List Line → Prop} (round : ∀ lines, P lines → P (widenJumps heads lines))
    (start : P lines) : P (widenAll heads lines) := by
  fun_induction widenAll heads lines with
  | case1 lines wider _ ih => exact ih (round lines start)
  | case2 lines wider _ => exact round lines start

theorem forall₂_resized_map {f : Line → Line} (resized : List.Forall₂ Line.Resized first second)
    (each : ∀ l : Line, Line.Resized l (f l)) : List.Forall₂ Line.Resized first (second.map f) :=
  List.forall₂_map_right_iff.2 (resized.imp fun _ l before => before.trans (each l))

theorem sizeJumps_resized (b : Body) : List.Forall₂ Line.Resized b.lines b.sizeJumps.lines := by
  have widened : List.Forall₂ Line.Resized b.lines (widenAll b.heads b.lines) :=
    widenAll_induction
      (fun lines resized => forall₂_resized_map resized
        (Line.widen_resized _ (positionByTag lines)))
      (List.forall₂_same.2 fun l _ => .same l)
  exact forall₂_resized_map widened Line.settle_resized

section

variable (alike : List.Forall₂ Line.SameExtent first second)
include alike

theorem startsOf_congr (here : Nat) :
    startsOf here first = startsOf here second ∧ endOf here first = endOf here second := by
  induction alike generalizing here with
  | nil => exact ⟨rfl, rfl⟩
  | @cons a b _ _ head _ ih =>
    obtain ⟨starts, ends⟩ := ih (here + b.insn.lengthAt here)
    simp only [startsOf, endOf_cons, head.2 here, starts, ends, and_self]

theorem tableOf_congr (starts : List Nat) (table : Std.HashMap Nat Nat) :
    tableOf (first.zip starts) table = tableOf (second.zip starts) table := by
  induction alike generalizing starts table with
  | nil => rfl
  | cons head _ ih =>
    cases starts with
    | nil => simp
    | cons start starts =>
      rw [List.zip_cons_cons, List.zip_cons_cons, tableOf_cons, tableOf_cons, head.1, ih]

theorem positionByTag_congr : positionByTag first = positionByTag second := by
  rw [positionByTag_eq, positionByTag_eq, (startsOf_congr alike 0).1, tableOf_congr alike]

end

def Body.Unsized (b : Body) : Prop := ∀ l ∈ b.lines, ∀ j, l.insn = .jump j → j.size = .undecided

theorem not_short_of_widenAll (b : Body) (initial : b.Unsized) :
    ∀ l ∈ widenAll b.heads b.lines, ∀ j, l.insn = .jump j → j.size ≠ .short := by
  have keep : ∀ lines : List Line, (∀ l ∈ lines, ∀ j, l.insn = .jump j → j.size ≠ .short) →
      ∀ l ∈ widenJumps b.heads lines, ∀ j, l.insn = .jump j → j.size ≠ .short := by
    intro lines none_short l member j is_jump
    rw [widenJumps_eq] at member
    obtain ⟨⟨tag, insn⟩, inside, rfl⟩ := List.mem_map.1 member
    cases insn with
    | jump k =>
      have before := none_short _ inside k rfl
      simp only [Line.widen, Insn.jump.injEq] at is_jump
      subst is_jump
      unfold Jump.widen
      split
      · simp
      · exact before
    | _ => cases is_jump
  have start : ∀ l ∈ b.lines, ∀ j, l.insn = .jump j → j.size ≠ .short := by
    intro l member j is_jump
    simp [initial l member j is_jump]
  exact widenAll_induction keep start

theorem positionByTag_sizeJumps (b : Body) :
    positionByTag b.sizeJumps.lines = positionByTag (widenAll b.heads b.lines) := by
  refine (positionByTag_congr ?_).symm
  show List.Forall₂ _ _ (settleJumps _)
  rw [settleJumps_eq, List.forall₂_map_right_iff, List.forall₂_same]
  exact fun l _ => l.settle_sameExtent

theorem sizeJumps_decided (b : Body) (initial : b.Unsized) (l : Line)
    (member : l ∈ b.sizeJumps.lines) (j : Jump) (is_jump : l.insn = .jump j) :
    j.size ≠ .undecided ∧ (j.size = .short →
      Jump.inRange (distance b.heads (positionByTag b.sizeJumps.lines) l.tag j.target) = true) := by
  have settled : l ∈ (widenAll b.heads b.lines).map Line.settle := member
  obtain ⟨⟨tag, insn⟩, inside, rfl⟩ := List.mem_map.1 settled
  cases insn with
  | jump k =>
    simp only [Line.settle, Insn.jump.injEq] at is_jump
    subst is_jump
    have not_short := not_short_of_widenAll b initial _ inside k rfl
    by_cases open_jump : k.size = .undecided
    · refine ⟨by simp [Jump.settle, open_jump], fun _ => ?_⟩
      -- The line is a fixed point of widening, so an undecided jump is within reach.
      have fixed := widenJumps_widenAll b.heads b.lines
      rw [widenJumps_eq] at fixed
      have unchanged := List.map_inj_left.1 (fixed.trans (List.map_id _).symm) _ inside
      rw [positionByTag_sizeJumps]
      false_or_by_contra
      rename_i far
      simp only [Line.settle, Jump.settle, open_jump, ↓reduceIte, Bool.not_eq_true] at far
      simp [Line.widen, Jump.widen, open_jump, far] at unchanged
      rw [← unchanged] at open_jump
      cases open_jump
    · simp [Jump.settle, open_jump, not_short]
  | _ => cases is_jump

/-- Every short jump reaches its target at the positions that lines are looked up at. -/
def Body.Reaching (b : Body) : Prop :=
  ∀ l ∈ b.lines, ∀ j, l.insn = .jump j → j.size = .short →
    Jump.inRange (distance b.heads (positionByTag b.lines) l.tag j.target) = true

theorem sizeJumps_reaching (b : Body) (initial : b.Unsized) : b.sizeJumps.Reaching := by
  intro l member j is_jump
  exact (sizeJumps_decided b initial l member j is_jump).2

end Restack
