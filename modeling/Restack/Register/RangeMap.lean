set_option autoImplicit false

namespace Restack

namespace Register

/-- Positions from `start` up to but not including `stop`. -/
structure Span where
  start : UInt32
  stop : UInt32
deriving DecidableEq, Repr, Inhabited

namespace Span

variable {a b s : Span} {x : UInt32}

def isEmpty (s : Span) : Bool := s.stop ≤ s.start

def inter (a b : Span) : Span := ⟨max a.start b.start, min a.stop b.stop⟩

def minus (a b : Span) : List Span :=
  if (a.inter b).isEmpty then [a]
  else [⟨a.start, b.start⟩, ⟨b.stop, a.stop⟩].filter (fun s => !s.isEmpty)

def Contains (s : Span) (x : UInt32) : Prop := s.start ≤ x ∧ x < s.stop

instance (s : Span) (x : UInt32) : Decidable (s.Contains x) := inferInstanceAs (Decidable (_ ∧ _))

theorem isEmpty_eq_false_iff : s.isEmpty = false ↔ ∃ x, s.Contains x := by
  simp only [isEmpty, decide_eq_false_iff_not, UInt32.not_le]
  constructor
  · exact fun less => ⟨s.start, UInt32.le_refl _, less⟩
  · rintro ⟨x, le, less⟩
    exact UInt32.lt_of_le_of_lt le less

theorem contains_inter : (a.inter b).Contains x ↔ a.Contains x ∧ b.Contains x := by
  have later : max a.start b.start = if a.start ≤ b.start then b.start else a.start := rfl
  have earlier : min a.stop b.stop = if a.stop ≤ b.stop then a.stop else b.stop := rfl
  simp only [inter, Contains, later, earlier]
  grind

theorem contains_minus : (∃ s ∈ a.minus b, s.Contains x) ↔ a.Contains x ∧ ¬ b.Contains x := by
  unfold minus
  split
  next apart =>
    have none : ¬ (a.inter b).Contains x := fun inside => by
      simp [isEmpty_eq_false_iff.2 ⟨x, inside⟩] at apart
    rw [contains_inter, not_and] at none
    simp only [List.mem_singleton, exists_eq_left]
    exact ⟨fun inside => ⟨inside, none inside⟩, fun inside => inside.1⟩
  next meet =>
    obtain ⟨y, both⟩ := isEmpty_eq_false_iff.1 (Bool.eq_false_iff.2 meet)
    rw [contains_inter] at both
    simp only [Contains] at both ⊢
    simp only [List.mem_filter, List.mem_cons, List.not_mem_nil, or_false, isEmpty]
    constructor
    · rintro ⟨s, ⟨rfl | rfl, -⟩, inside⟩
      · grind
      · grind
    · rintro ⟨inside, outside⟩
      by_cases before : x < b.start
      · exact ⟨⟨a.start, b.start⟩, by grind, inside.1, before⟩
      · exact ⟨⟨b.stop, a.stop⟩, by grind, by grind, inside.2⟩

end Span

/-- `value?` is the value at a position, which `insert` replaces in a range; `overlapping` lists the
values in a range, in any order and as often as they come up. -/
structure RangeMap (α : Type) where
  Map : Type
  empty : Map
  insert : Map → Span → α → Map
  overlapping : Map → Span → List α
  value? : Map → UInt32 → Option α
  value?_empty : ∀ x, value? empty x = none
  value?_insert : ∀ m s v x, s.isEmpty = false →
    value? (insert m s v) x = if s.Contains x then some v else value? m x
  mem_overlapping : ∀ m s v, s.isEmpty = false →
    (v ∈ overlapping m s ↔ ∃ x, s.Contains x ∧ value? m x = some v)

namespace RangeMap

variable {α : Type}

/-- The values of the ranges that reach into what is left of `left` when the ranges before them have
taken their own. -/
def reaching : List (Span × α) → List Span → List α
  | [], _ => []
  | (s, v) :: older, left =>
    let others := reaching older (left.flatMap (·.minus s))
    if left.any fun l => !(l.inter s).isEmpty then v :: others else others

theorem mem_reaching {ranges : List (Span × α)} {left : List Span} {v : α} :
    v ∈ reaching ranges left ↔
      ∃ x, (∃ l ∈ left, l.Contains x) ∧ (ranges.find? fun r => r.1.Contains x).map Prod.snd =
        some v := by
  induction ranges generalizing left with
  | nil => simp [reaching]
  | cons first older ih =>
    obtain ⟨s, w⟩ := first
    have meets : (left.any fun l => !(l.inter s).isEmpty) = true ↔
        ∃ x, (∃ l ∈ left, l.Contains x) ∧ s.Contains x := by
      simp only [List.any_eq_true, Bool.not_eq_true', Span.isEmpty_eq_false_iff,
        Span.contains_inter]
      grind
    have others (x : UInt32) : (∃ l ∈ left.flatMap (·.minus s), l.Contains x) ↔
        (∃ l ∈ left, l.Contains x) ∧ ¬ s.Contains x := by
      constructor
      · rintro ⟨l, member, inside⟩
        obtain ⟨whole, listed, part⟩ := List.mem_flatMap.1 member
        have both := Span.contains_minus.1 ⟨l, part, inside⟩
        exact ⟨⟨whole, listed, both.1⟩, both.2⟩
      · rintro ⟨⟨whole, listed, inside⟩, outside⟩
        obtain ⟨l, part, inside⟩ := Span.contains_minus.2 ⟨inside, outside⟩
        exact ⟨l, List.mem_flatMap.2 ⟨whole, listed, part⟩, inside⟩
    have listed : v ∈ reaching ((s, w) :: older) left ↔
        (∃ x, (∃ l ∈ left, l.Contains x) ∧ s.Contains x) ∧ v = w ∨
          v ∈ reaching older (left.flatMap (·.minus s)) := by
      rw [reaching]
      split
      next reached => simp [meets.1 reached]
      next missed => simp [mt meets.2 missed]
    rw [listed, ih]
    simp only [others, List.find?_cons]
    grind

/-- Ranges with their values, the last inserted first. -/
def recent (α : Type) : RangeMap α where
  Map := List (Span × α)
  empty := []
  insert m s v := (s, v) :: m
  overlapping m s := reaching m [s]
  value? m x := (m.find? fun r => r.1.Contains x).map Prod.snd
  value?_empty _ := rfl
  value?_insert m s v x _ := by
    by_cases inside : s.Contains x <;> simp [inside]
  mem_overlapping m s v _ := by
    rw [mem_reaching]
    simp

end RangeMap

end Register

end Restack
