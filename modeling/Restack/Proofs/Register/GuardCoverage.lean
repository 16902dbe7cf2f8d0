import Mathlib.Data.List.Induction
import Mathlib.Tactic.Tauto
import Restack.Register.Handlers

set_option autoImplicit false

namespace Restack.Register

namespace Guard

def contains (g : Guard) (x : UInt32) : Bool := g.start ≤ x && x < g.stop

def meets (g : Guard) (i : Instr) : Bool :=
  g.start < g.stop && g.start < i.next && i.position < g.stop

end Guard

/-- The place in the list of the guard that a position belongs to, when each guard takes over what
it contains. -/
def coverage (guards : List Guard) : UInt32 → Option Nat :=
  guards.zipIdx.foldl (fun taken (g, k) x => if g.contains x then some k else taken x) fun _ => none

def Instr.Touches (i : Instr) (guards : List Guard) (k : Nat) : Prop :=
  ∃ x, i.position ≤ x ∧ x < i.next ∧ coverage guards x = some k

open Classical in
/-- The guards that some position of the instruction belongs to, in the order in which they are
listed. -/
noncomputable def Instr.guards (i : Instr) (guards : List Guard) : List Guard :=
  (guards.zipIdx.filter fun entry => i.Touches guards entry.2).map Prod.fst

variable {x : UInt32} {g : Guard}

/-- Handlers in order of precedence: up to the first that catches everything, the first for each
class. -/
def precedence (handlers : List Handler) : List Handler :=
  (handlers.take (handlers.findIdx (·.className = throwable) + 1)).eraseDupsBy fun a b =>
    a.className == b.className

section Coverage

variable {guards : List Guard} {x : UInt32}

theorem coverage_append_singleton (guards : List Guard) (g : Guard) (x : UInt32) :
    coverage (guards ++ [g]) x = if g.contains x then some guards.length
      else coverage guards x := by
  simp [coverage, List.zipIdx_append]

theorem coverage_eq_some_iff {k : Nat} : coverage guards x = some k ↔
    ∃ g, guards[k]? = some g ∧ g.contains x = true ∧ ∀ h ∈ guards.drop (k + 1),
      h.contains x = false := by
  induction guards using List.reverseRecOn with
  | nil => simp [coverage]
  | append_singleton guards g ih =>
    rw [coverage_append_singleton]
    split
    next last =>
      constructor
      · intro same
        cases same
        exact ⟨g, by simp, last, by simp⟩
      · rintro ⟨h, found, -, later⟩
        rcases Nat.lt_trichotomy k guards.length with less | same | more
        · have outside := later g (by rw [List.drop_append_of_le_length less]; simp)
          rw [last] at outside
          cases outside
        · rw [same]
        · simp [List.getElem?_eq_none (show (guards ++ [g]).length ≤ k by simp; omega)] at found
    next outside =>
      rw [ih]
      constructor
      · rintro ⟨h, found, inside, later⟩
        have less : k < guards.length := (List.getElem?_eq_some_iff.1 found).1
        refine ⟨h, by rw [List.getElem?_append_left less, found], inside, ?_⟩
        rw [List.drop_append_of_le_length less]
        simpa [or_imp, forall_and] using ⟨later, Bool.eq_false_iff.2 outside⟩
      · rintro ⟨h, found, inside, later⟩
        have less : k < guards.length := by
          have bound := (List.getElem?_eq_some_iff.1 found).1
          by_contra none
          have same : k = guards.length := by simp at bound; omega
          subst same
          simp at found
          subst found
          exact outside inside
        rw [List.getElem?_append_left less] at found
        rw [List.drop_append_of_le_length less] at later
        exact ⟨h, found, inside, fun h' member => later h' (List.mem_append_left _ member)⟩

end Coverage

theorem Guard.contains_iff : g.contains x = true ↔ g.span.Contains x := by
  simp [Guard.contains, Guard.span, Span.Contains]

/-- A map of ranges to which the guards are added one by one tells which guard a position belongs
to. -/
theorem value?_guardRanges (ranges : RangeMap Nat) (guards : List Guard) (x : UInt32) :
    ranges.value? (guardRanges ranges guards) x = coverage guards x := by
  induction guards using List.reverseRecOn with
  | nil => exact ranges.value?_empty x
  | append_singleton guards g ih =>
    have last : guardRanges ranges (guards ++ [g]) =
        if g.span.isEmpty then guardRanges ranges guards
        else ranges.insert (guardRanges ranges guards) g.span guards.length := by
      simp [guardRanges, List.zipIdx_append]
    rw [last, coverage_append_singleton, ← ih]
    cases empty : g.span.isEmpty with
    | true =>
      have outside : ¬ g.contains x = true := by
        rw [Guard.contains_iff]
        intro inside
        rw [Span.isEmpty_eq_false_iff.2 ⟨x, inside⟩] at empty
        cases empty
      rw [if_pos rfl, if_neg outside]
    | false =>
      rw [if_neg Bool.false_ne_true, ranges.value?_insert _ _ _ _ empty]
      simp only [Guard.contains_iff]

open Classical in
theorem owners_eq_guards (ranges : RangeMap Nat) {i : Instr} (guards : List Guard)
    (nonempty : i.span.isEmpty = false) :
    owners ranges i.span guards = i.guards guards := by
  have touched (k : Nat) : k ∈ ranges.overlapping (guardRanges ranges guards) i.span ↔
      i.Touches guards k := by
    rw [ranges.mem_overlapping _ _ _ nonempty]
    simp only [value?_guardRanges, Span.Contains, Instr.Touches, Instr.span, and_assoc]
  simp only [owners, Instr.guards, touched]

theorem effective_eq (seen : List String) (handlers : List Handler) :
    effective seen handlers =
      ((handlers.take (handlers.findIdx (·.className = throwable) + 1)).filter
      (·.className ∉ seen)).eraseDupsBy fun a b => a.className == b.className := by
  induction handlers generalizing seen with
  | nil => rfl
  | cons h rest ih =>
    rw [effective, List.findIdx_cons]
    by_cases everything : h.className = throwable
    · by_cases known : h.className ∈ seen <;> simp_all [List.eraseDupsBy_cons]
    · by_cases known : h.className ∈ seen
      · -- A class that was seen is seen once more, which leaves out nothing new.
        have same : (fun x : Handler => decide (x.className ∉ h.className :: seen)) = fun x =>
            decide (x.className ∉ seen) := by
          funext x
          have : x.className = h.className → x.className ∈ seen := fun same => same ▸ known
          grind
        have dropped := ih (h.className :: seen)
        rw [same] at dropped
        simp [everything, known, dropped]
      · simp [everything, known, ih, List.eraseDupsBy_cons, List.filter_filter]

theorem effective_eq_precedence (handlers : List Handler) :
    effective [] handlers = precedence handlers := by
  rw [effective_eq, precedence, List.filter_eq_self.2 (by simp)]

namespace Instr

variable {i : Instr} {guards : List Guard}

theorem handlers_eq (i : Instr) (guards : List Guard) (ranges : RangeMap Nat) :
    i.handlers guards ranges =
      if i.position < i.next ∧
      i.canThrow = true then precedence ((i.guards guards).flatMap Guard.handlers) else [] := by
  have proper : i.position < i.next ↔ i.span.isEmpty = false := by
    rw [Span.isEmpty, decide_eq_false_iff_not, UInt32.not_le]
    rfl
  simp only [proper]
  rw [handlers]
  cases empty : i.span.isEmpty with
  | true => simp
  | false =>
    rw [owners_eq_guards ranges guards empty, effective_eq_precedence]
    cases i.canThrow <;> simp

theorem exists_of_meets (nonempty : i.position < i.next) (meets : g.meets i = true) :
    ∃ x, i.position ≤ x ∧ x < i.next ∧ g.contains x = true := by
  simp only [Guard.meets, Bool.and_eq_true, decide_eq_true_eq] at meets
  obtain ⟨⟨proper, before⟩, after⟩ := meets
  rcases UInt32.le_total i.position g.start with first | second
  · exact ⟨g.start, first, before, by simp [Guard.contains, proper]⟩
  · exact ⟨i.position, UInt32.le_refl _, nonempty, by simp [Guard.contains, second, after]⟩

theorem meets_of_contains (lower : i.position ≤ x) (upper : x < i.next)
    (inside : g.contains x = true) : g.meets i = true := by
  simp only [Guard.contains, Guard.meets, Bool.and_eq_true, decide_eq_true_eq] at inside ⊢
  exact ⟨⟨UInt32.lt_of_le_of_lt inside.1 inside.2, UInt32.lt_of_le_of_lt inside.1 upper⟩,
    UInt32.lt_of_le_of_lt lower inside.2⟩

open Classical in
theorem guards_eq_filter
    (shows : ∀ k g, guards[k]? = some g → g.meets i = true → i.Touches guards k) :
    i.guards guards = guards.filter (·.meets i) := by
  have same : ∀ entry ∈ guards.zipIdx, decide (i.Touches guards entry.2) = entry.1.meets i := by
    rintro ⟨g, k⟩ member
    have found : guards[k]? = some g := List.mem_zipIdx_iff_getElem?.1 member
    rw [Bool.eq_iff_iff, decide_eq_true_iff]
    refine ⟨?_, shows k g found⟩
    rintro ⟨x, lower, upper, belongs⟩
    obtain ⟨g', found', inside, -⟩ := coverage_eq_some_iff.1 belongs
    cases found.symm.trans found'
    exact meets_of_contains lower upper inside
  rw [Instr.guards, List.filter_congr same]
  have split : (guards.zipIdx.filter fun entry => entry.1.meets i).map Prod.fst =
      (guards.zipIdx.map Prod.fst).filter (·.meets i) := by
    rw [List.filter_map]
    rfl
  rw [split, List.zipIdx_map_fst]

theorem touches_of_apart
    (apart : guards.Pairwise fun g h => ∀ x, ¬ (g.contains x = true ∧ h.contains x = true))
    (nonempty : i.position < i.next) {k : Nat} (found : guards[k]? = some g)
    (meets : g.meets i = true) :
    i.Touches guards k := by
  obtain ⟨x, lower, upper, inside⟩ := exists_of_meets nonempty meets
  refine ⟨x, lower, upper, coverage_eq_some_iff.2 ⟨g, found, inside, fun h member => ?_⟩⟩
  obtain ⟨less, rfl⟩ := List.getElem?_eq_some_iff.1 found
  have later := List.drop_eq_getElem_cons less ▸ apart.sublist (List.drop_sublist k guards)
  exact Bool.eq_false_iff.2 fun other => (List.pairwise_cons.1 later).1 h member x ⟨inside, other⟩

end Instr

theorem Code.getElem?_handlers (code : Code) (ranges : RangeMap Nat) (p : UInt32) :
    (code.handlers ranges)[p]? =
      ((code.instrs.filter fun i => i.position = p ∧
        i.handlers code.guards ranges ≠ []).getLast?).map fun i =>
        i.handlers code.guards ranges := by
  unfold Code.handlers
  induction code.instrs using List.reverseRecOn with
  | nil => simp
  | append_singleton instrs i ih =>
    rw [List.foldl_append, List.foldl_cons, List.foldl_nil, List.filter_append]
    split
    next none =>
      rw [ih]
      simp [none]
    next some_handler =>
      have nonempty : i.handlers code.guards ranges ≠ [] := some_handler
      rw [Std.TreeMap.getElem?_insert, ih]
      by_cases here : i.position = p
      · simp [here, nonempty]
      · simp [here]

/-- What would catch it if no guard took anything from another: the handlers of all guards that
reach into it, in order of precedence, if it can throw and is not empty. -/
def Instr.allHandlers (guards : List Guard) (i : Instr) : List Handler :=
  if i.position < i.next ∧
    i.canThrow = true then precedence ((guards.filter (·.meets i)).flatMap Guard.handlers) else []

/-- The handlers of a position are those of the last instruction there that has any: in order of
precedence, the handlers of the guards that a position of it belongs to. These are all guards that
reach into it unless one is covered up there by later ones, and none is if no two overlap. It does
not matter how the map of ranges works inside. -/
theorem handlers_by_coverage (code : Code) (ranges : RangeMap Nat) :
    (∀ p, (code.handlers ranges)[p]? =
      ((code.instrs.filter fun i => i.position = p ∧
        i.handlers code.guards ranges ≠ []).getLast?).map fun i =>
        i.handlers code.guards ranges) ∧
    (∀ i : Instr, i.handlers code.guards ranges =
      if i.position < i.next ∧
      i.canThrow = true then precedence ((i.guards code.guards).flatMap Guard.handlers) else []) ∧
    (∀ i : Instr, (∀ k g, code.guards[k]? = some g → g.meets i = true → i.Touches code.guards k) →
      i.handlers code.guards ranges = i.allHandlers code.guards) ∧
    (code.guards.Pairwise (fun g h => ∀ x, ¬ (g.contains x = true ∧ h.contains x = true)) →
      ∀ i : Instr, i.handlers code.guards ranges = i.allHandlers code.guards) ∧
    code.handlers ranges = code.handlers := by
  refine ⟨code.getElem?_handlers ranges, fun i => i.handlers_eq code.guards ranges,
    fun i shows => ?_, fun apart i => ?_, ?_⟩
  · rw [i.handlers_eq, Instr.guards_eq_filter shows, Instr.allHandlers]
  · by_cases nonempty : i.position < i.next
    · have shows := fun k g => Instr.touches_of_apart (k := k) (g := g) apart nonempty
      rw [i.handlers_eq, Instr.guards_eq_filter shows, Instr.allHandlers]
    · rw [i.handlers_eq, Instr.allHandlers, if_neg (by tauto), if_neg (by tauto)]
  · simp only [Code.handlers, Instr.handlers_eq]

/-- A guard within another that is listed before it, and instructions that throw: one at the edge of
the inner guard and one within it. -/
def nestedGuards : Code where
  registers := 1
  guards := [⟨0, 6, [⟨some "a/Outer", 9⟩]⟩, ⟨2, 4, [⟨some "a/Inner", 9⟩]⟩]
  instrs := [.ofOpcode 0x27 1 3 [0], .ofOpcode 0x27 3 4 [0]]

def adjacentGuards : Code where
  registers := 1
  guards := [⟨0, 2, [⟨some "a/First", 9⟩]⟩, ⟨2, 4, [⟨none, 9⟩, ⟨some "a/Last", 9⟩]⟩]
  instrs := [.ofOpcode 0x27 1 3 [0]]

theorem nestedGuards_by_coverage :
    (Instr.handlers nestedGuards.guards (.ofOpcode 0x27 1 3 [0]) =
        Instr.allHandlers nestedGuards.guards (.ofOpcode 0x27 1 3 [0]) ∧
      nestedGuards.handlers.toList =
        [((1 : UInt32), [⟨some "a/Outer", 9⟩, ⟨some "a/Inner", 9⟩]), (3, [⟨some "a/Inner", 9⟩])] ∧
      Instr.allHandlers nestedGuards.guards (.ofOpcode 0x27 3 4 [0]) =
        [⟨some "a/Outer", 9⟩, ⟨some "a/Inner", 9⟩]) ∧
    Instr.handlers adjacentGuards.guards (.ofOpcode 0x27 1 3 [0]) =
      Instr.allHandlers adjacentGuards.guards (.ofOpcode 0x27 1 3 [0]) ∧
    Instr.allHandlers adjacentGuards.guards (.ofOpcode 0x27 1 3 [0]) =
      [⟨some "a/First", 9⟩, ⟨none, 9⟩] := by
  have shows : ∀ k g, nestedGuards.guards[k]? = some g → g.meets (.ofOpcode 0x27 1 3 [0]) = true →
      Instr.Touches (.ofOpcode 0x27 1 3 [0]) nestedGuards.guards k := by
    rintro (_ | _ | k) g found -
    · exact ⟨1, by decide, by decide, by decide⟩
    · exact ⟨2, by decide, by decide, by decide⟩
    · cases found
  have apart : adjacentGuards.guards.Pairwise fun g h =>
      ∀ x, ¬ (g.contains x = true ∧ h.contains x = true) := by
    simp [adjacentGuards, Guard.contains]
    grind
  obtain ⟨-, -, unhidden, -, -⟩ := handlers_by_coverage nestedGuards (.recent Nat)
  obtain ⟨-, -, -, disjoint, -⟩ := handlers_by_coverage adjacentGuards (.recent Nat)
  exact ⟨⟨unhidden _ shows, rfl, rfl⟩, disjoint apart _, rfl⟩

end Restack.Register
