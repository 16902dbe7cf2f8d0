import Mathlib.Data.List.Nodup
import Restack.Layout.LateLiterals

set_option autoImplicit false

namespace Restack

def Insn.literal? : Insn → Option Literal
  | .literal x => some x
  | _ => none

def literals (bodies : List Body) : List Literal :=
  bodies.flatMap fun b => b.lines.filterMap fun l => l.insn.literal?

namespace Literal

def asked (x : Literal) : Entry := entry x.kinds x.value

def IsWanted (x : Literal) : Prop := (if x.isWide then 3 else 2) < x.code.length

instance (x : Literal) : Decidable x.IsWanted := inferInstanceAs (Decidable (_ < _))

end Literal

namespace LateLiterals

/-- What literals of one width ask for, as often as they do. -/
def requests (isWide : Bool) (xs : List Literal) : List Entry :=
  (xs.filter fun x => x.isWide = isWide ∧ x.IsWanted).map Literal.asked

theorem mem_requests {isWide : Bool} {xs : List Literal} {e : Entry} :
    e ∈ requests isWide xs ↔ ∃ x ∈ xs, x.isWide = isWide ∧ x.IsWanted ∧ x.asked = e := by
  simp [requests, and_assoc]

/-- The tally lists the requests once each and counts them. -/
structure Tally.Counts (t : Tally) (asked : List Entry) : Prop where
  distinct : t.order.toList.Nodup
  listed : ∀ e, e ∈ t.order ↔ e ∈ asked
  counted : ∀ e, t.counts[e]? = if e ∈ asked then some (asked.count e) else none

namespace Tally.Counts

variable {t : Tally} {asked : List Entry}

theorem add (counts : t.Counts asked) (e : Entry) : (t.add e).Counts (asked ++ [e]) := by
  have counted (x : Entry) (n : Nat) (next : n = asked.count e + 1) :
      (t.counts.insert e n)[x]? = if x ∈ asked ++ [e] then some ((asked ++ [e]).count x)
        else none := by
    rw [Std.HashMap.getElem?_insert, counts.counted, List.count_append, List.count_singleton]
    by_cases same : e = x
    · simp [same, next]
    · simp [same, Ne.symm same]
  have known := counts.counted e
  unfold Tally.add
  split
  next n found =>
    rw [found] at known
    split at known
    next old =>
      refine ⟨counts.distinct, fun x => ?_, fun x => counted x _ (by rw [Option.some.inj known])⟩
      rw [counts.listed, List.mem_append, List.mem_singleton, or_iff_left_of_imp]
      rintro rfl
      exact old
    next => cases known
  next missed =>
    rw [missed] at known
    split at known
    next => cases known
    next new =>
      refine ⟨?_, fun x => ?_, fun x => counted x _ (by rw [List.count_eq_zero.2 new])⟩
      · have unlisted : e ∉ t.order.toList :=
          fun listed => new ((counts.listed e).1 (Array.mem_toList_iff.1 listed))
        rw [Array.toList_push, ← List.concat_eq_append]
        exact counts.distinct.concat unlisted
      · rw [Array.mem_push, counts.listed, List.mem_append, List.mem_singleton]

theorem add_request {isWide : Bool} {xs : List Literal} (counts : t.Counts (requests isWide xs))
    (x : Literal) :
    Counts (if x.isWide = isWide ∧ x.IsWanted then t.add x.asked else t)
      (requests isWide (xs ++ [x])) := by
  have requested : requests isWide (xs ++ [x]) = requests isWide xs ++ requests isWide [x] := by
    simp only [requests, List.filter_append, List.map_append]
  rw [requested]
  split
  next wanted =>
    have one : requests isWide [x] = [x.asked] := by simp [requests, wanted]
    rw [one]
    exact counts.add x.asked
  next idle =>
    have nothing : requests isWide [x] = [] := by simp [requests, idle]
    rwa [nothing, List.append_nil]

end Tally.Counts

namespace Demand

/-- The demand of some literals. The length that is kept for an entry is that of some literal that
asks for it. -/
structure Of (d : Demand) (xs : List Literal) : Prop where
  narrow : d.narrow.Counts (requests false xs)
  wide : d.wide.Counts (requests true xs)
  lengths : ∀ x ∈ xs, ∃ y ∈ xs, y.asked = x.asked ∧ d.lengths[x.asked]? = some y.code.length

theorem add_eq (d : Demand) (x : Literal) : d.add x =
    ⟨if x.isWide = false ∧ x.IsWanted then d.narrow.add x.asked else d.narrow,
      if x.isWide = true ∧ x.IsWanted then d.wide.add x.asked else d.wide,
        d.lengths.insert x.asked x.code.length⟩ := by
  by_cases isWide : x.isWide = true
  · by_cases long : 3 < x.code.length <;> simp [add, Literal.IsWanted, Literal.asked, isWide, long]
  · by_cases long : 2 < x.code.length <;> simp [add, Literal.IsWanted, Literal.asked, isWide, long]

theorem Of.add {d : Demand} {xs : List Literal} (demand : d.Of xs) (x : Literal) :
    (d.add x).Of (xs ++ [x]) := by
  rw [add_eq]
  refine ⟨demand.narrow.add_request x, demand.wide.add_request x, fun z member => ?_⟩
  simp only [Std.HashMap.getElem?_insert]
  by_cases same : x.asked = z.asked
  · exact ⟨x, by simp, same, by simp [same]⟩
  · rcases List.mem_append.1 member with old | new
    · obtain ⟨y, inside, asks, length⟩ := demand.lengths z old
      exact ⟨y, List.mem_append_left _ inside, asks, by simp [same, length]⟩
    · exact absurd (List.mem_singleton.1 new ▸ rfl) same

theorem ofLines_eq (d : Demand) (lines : List Line) :
    d.ofLines lines = (lines.filterMap fun l => l.insn.literal?).foldl add d := by
  rw [List.foldl_filterMap, ofLines]
  congr 1
  funext d l
  cases l.insn <;> rfl

theorem ofBodies_of (bodies : List Body) : (ofBodies bodies).Of (literals bodies) := by
  have unfolded : ofBodies bodies = (literals bodies).foldl add ⟨.empty, .empty, ∅⟩ := by
    simp only [ofBodies, ofLines_eq, literals, List.foldl_flatMap]
  suffices walks : ∀ (xs done : List Literal) (d : Demand), d.Of done →
      (xs.foldl add d).Of (done ++ xs) by
    rw [unfolded]
    refine walks (literals bodies) [] _ ⟨?_, ?_, fun x none => absurd none List.not_mem_nil⟩
    all_goals constructor <;> simp [Tally.empty, requests]
  intro xs
  induction xs with
  | nil =>
    intro done d demand
    rwa [List.append_nil]
  | cons x xs ih =>
    intro done d demand
    rw [List.foldl_cons, List.append_cons]
    exact ih _ _ (demand.add x)

end Demand

end LateLiterals

end Restack
