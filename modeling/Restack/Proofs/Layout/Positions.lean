import Restack.Layout.JumpSizes
import Restack.Proofs.Success

set_option autoImplicit false

namespace Restack

def endOf (here : Nat) (lines : List Line) : Nat :=
  lines.foldl (fun here l => here + l.insn.lengthAt here) here

def startsOf (here : Nat) : List Line → List Nat
  | [] => []
  | l :: rest => here :: startsOf (here + l.insn.lengthAt here) rest

@[simp] theorem endOf_nil (here : Nat) : endOf here [] = here := rfl

@[simp] theorem endOf_cons (here : Nat) (l : Line) (rest : List Line) :
    endOf here (l :: rest) = endOf (here + l.insn.lengthAt here) rest := rfl

theorem endOf_append (here : Nat) (first second : List Line) :
    endOf here (first ++ second) = endOf (endOf here first) second := by
  simp only [endOf, List.foldl_append]

theorem le_endOf (here : Nat) (lines : List Line) : here ≤ endOf here lines := by
  induction lines generalizing here with
  | nil => exact Nat.le_refl here
  | cons l rest ih => exact Nat.le_trans (Nat.le_add_right _ _) (ih _)

@[simp] theorem startsOf_length (here : Nat) (lines : List Line) :
    (startsOf here lines).length = lines.length := by
  induction lines generalizing here with
  | nil => rfl
  | cons l rest ih => simp [startsOf, ih]

theorem startsOf_append (here : Nat) (first second : List Line) :
    startsOf here (first ++ second) =
      startsOf here first ++ startsOf (endOf here first) second := by
  induction first generalizing here with
  | nil => rfl
  | cons l rest ih => simp [startsOf, ih]

theorem linePositions_eq (lines : List Line) :
    linePositions lines = (startsOf 0 lines, endOf 0 lines) := by
  have walk : ∀ (rest : List Line) (positions : Array Nat) (here : Nat),
      rest.foldl (fun acc l => (acc.1.push acc.2, acc.2 + l.insn.lengthAt acc.2))
        (positions, here) = (positions ++ (startsOf here rest).toArray, endOf here rest) := by
    intro rest
    induction rest with
    | nil => simp [startsOf]
    | cons l rest ih =>
      intro positions here
      rw [List.foldl_cons, ih, endOf_cons, startsOf]
      simp
  have walked :=
    congrArg (fun found : Array Nat × Nat => (found.1.toList, found.2)) (walk lines #[] 0)
  exact walked.trans (by simp)

theorem startsOf_getElem? (lines : List Line) (i : Nat) (inside : i < lines.length) :
    (startsOf 0 lines)[i]? = some (endOf 0 (lines.take i)) := by
  have split := startsOf_append 0 (lines.take i) (lines.drop i)
  rw [List.take_append_drop] at split
  have before : (startsOf 0 (lines.take i)).length = i := by
    rw [startsOf_length, List.length_take]
    omega
  rw [split, List.getElem?_append_right (by omega), before, Nat.sub_self,
    List.drop_eq_getElem_cons inside]
  rfl

theorem linePositions_getElem? (before after : List Line) (l : Line) :
    (linePositions (before ++ l :: after)).1[before.length]? = some (endOf 0 before) := by
  rw [linePositions_eq, startsOf_getElem? _ _ (by simp), List.take_left]

/-- The table that a list of lines with positions gives, later ones replacing earlier ones. -/
def tableOf (placed : List (Line × Nat)) (table : Std.HashMap Nat Nat) : Std.HashMap Nat Nat :=
  placed.foldl (fun m (l, position) => m.insert l.tag position) table

theorem tableOf_cons (l : Line) (position : Nat) (rest : List (Line × Nat))
    (table : Std.HashMap Nat Nat) :
    tableOf ((l, position) :: rest) table = tableOf rest (table.insert l.tag position) := rfl

theorem tableOf_append (first second : List (Line × Nat)) (table : Std.HashMap Nat Nat) :
    tableOf (first ++ second) table = tableOf second (tableOf first table) := by
  simp only [tableOf, List.foldl_append]

theorem tableOf_other (placed : List (Line × Nat)) (table : Std.HashMap Nat Nat) (tag : Nat)
    (other : ∀ entry ∈ placed, entry.1.tag ≠ tag) : (tableOf placed table)[tag]? = table[tag]? := by
  induction placed generalizing table with
  | nil => rfl
  | cons entry rest ih =>
    obtain ⟨l, position⟩ := entry
    have different : l.tag ≠ tag := other (l, position) (by simp)
    rw [tableOf_cons, ih _ fun e member => other e (List.mem_cons_of_mem _ member),
      Std.HashMap.getElem?_insert]
    simp [different]

theorem tableOf_last (before after : List (Line × Nat)) (l : Line) (position : Nat)
    (table : Std.HashMap Nat Nat) (last : ∀ entry ∈ after, entry.1.tag ≠ l.tag) :
    (tableOf (before ++ (l, position) :: after) table)[l.tag]? = some position := by
  rw [tableOf_append, tableOf_cons, tableOf_other _ _ _ last, Std.HashMap.getElem?_insert_self]

theorem mem_of_tableOf (placed : List (Line × Nat)) (table : Std.HashMap Nat Nat)
    (tag position : Nat) (there : (tableOf placed table)[tag]? = some position) :
    (∃ l, (l, position) ∈ placed ∧ l.tag = tag) ∨ table[tag]? = some position := by
  induction placed generalizing table with
  | nil => exact Or.inr there
  | cons entry rest ih =>
    obtain ⟨l, here⟩ := entry
    rcases ih _ there with ⟨m, member, same⟩ | earlier
    · exact Or.inl ⟨m, List.mem_cons_of_mem _ member, same⟩
    · rw [Std.HashMap.getElem?_insert] at earlier
      by_cases same : l.tag = tag
      · simp only [same, beq_self_eq_true, ↓reduceIte, Option.some.injEq] at earlier
        exact Or.inl ⟨l, by simp [earlier], same⟩
      · simp only [beq_iff_eq, same, ↓reduceIte] at earlier
        exact Or.inr earlier

theorem positionByTag_eq (lines : List Line) :
    positionByTag lines = tableOf (lines.zip (startsOf 0 lines)) ∅ := by
  rw [positionByTag, linePositions_eq]
  rfl

theorem isSome_positionByTag {lines : List Line} {l : Line} (member : l ∈ lines) :
    ((positionByTag lines)[l.tag]?).isSome = true := by
  obtain ⟨i, inside, rfl⟩ := List.getElem_of_mem member
  have paired : i < (lines.zip (startsOf 0 lines)).length := by
    rwa [List.length_zip, startsOf_length, Nat.min_self]
  rw [positionByTag_eq]
  refine foldl_of_mem (fun table => (table[lines[i].tag]?).isSome = true)
    (List.getElem_mem paired) ?_ ?_
  · intro table
    rw [List.getElem_zip, Std.HashMap.getElem?_insert_self]
    rfl
  · intro table entry there
    rw [Std.HashMap.getElem?_insert]
    split
    · rfl
    · exact there

theorem exists_of_positionByTag {lines : List Line} {tag position : Nat}
    (there : (positionByTag lines)[tag]? = some position) :
    ∃ before l after, lines = before ++ l :: after ∧ l.tag = tag ∧ position = endOf 0 before := by
  rw [positionByTag_eq] at there
  rcases mem_of_tableOf _ _ _ _ there with ⟨l, member, same⟩ | absent
  · obtain ⟨i, inside, at_i⟩ := List.mem_iff_getElem.1 member
    rw [List.length_zip, startsOf_length, Nat.min_self] at inside
    rw [List.getElem_zip, Prod.mk.injEq] at at_i
    refine ⟨lines.take i, lines[i], lines.drop (i + 1), ?_, at_i.1 ▸ same, ?_⟩
    · rw [← List.drop_eq_getElem_cons inside, List.take_append_drop]
    · have start := startsOf_getElem? lines i inside
      rw [List.getElem?_eq_getElem (by simpa using inside), Option.some.injEq] at start
      rw [← at_i.2, start]
  · simp at absent

end Restack
