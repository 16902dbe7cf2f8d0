set_option autoImplicit false

namespace Restack.Text

/-- A set of code points, as how many are left out, how many follow behind the next that is in, and
so on in turn. -/
abbrev RunLengths := List Nat

namespace RunLengths

def contains : RunLengths → Nat → Bool
  | out :: more :: rest, n =>
      decide (out ≤ n) && (n ≤ out + more || contains rest (n - (out + more + 1)))
  | _, _ => false

/-- The first and the last of each run that is in, counted from `low`. -/
def rangesFrom (low : Nat) : RunLengths → List (Nat × Nat)
  | out :: more :: rest => (low + out, low + out + more) :: rangesFrom (low + out + more + 1) rest
  | _ => []

def ranges (runs : RunLengths) : List (Nat × Nat) := runs.rangesFrom 0

theorem low_le_of_mem {low : Nat} {runs : RunLengths} {r : Nat × Nat}
    (member : r ∈ runs.rangesFrom low) :
    low ≤ r.1 := by
  fun_induction rangesFrom low runs with
  | case1 low out more rest ih =>
    rcases List.mem_cons.1 member with rfl | later
    · exact Nat.le_add_right low out
    · have := ih later
      omega
  | case2 => cases member

theorem contains_iff_rangesFrom (runs : RunLengths) (low n : Nat) :
    runs.contains n = true ↔ ∃ r ∈ runs.rangesFrom low, r.1 ≤ low + n ∧ low + n ≤ r.2 := by
  fun_induction contains runs n generalizing low with
  | case1 out more rest n ih =>
    simp only [Bool.and_eq_true, Bool.or_eq_true, decide_eq_true_eq,
      ih (low + out + more + 1), rangesFrom, List.mem_cons, exists_eq_or_imp]
    constructor
    · rintro ⟨reached, inside | ⟨r, member, first, last⟩⟩
      · exact .inl (by omega)
      · by_cases inside : n ≤ out + more
        · exact .inl (by omega)
        · exact .inr ⟨r, member, by omega, by omega⟩
    · rintro (⟨first, last⟩ | ⟨r, member, first, last⟩)
      · exact ⟨by omega, .inl (by omega)⟩
      · have := low_le_of_mem member
        exact ⟨by omega, .inr ⟨r, member, by omega, by omega⟩⟩
  | case2 runs n short =>
    have none : rangesFrom low runs = [] := by
      unfold rangesFrom
      split
      · exact absurd rfl (short _ _ _)
      · rfl
    simp [none]

theorem contains_iff (runs : RunLengths) (n : Nat) :
    runs.contains n = true ↔ ∃ r ∈ runs.ranges, r.1 ≤ n ∧ n ≤ r.2 := by
  simpa only [ranges, Nat.zero_add] using contains_iff_rangesFrom runs 0 n

end RunLengths

end Restack.Text
