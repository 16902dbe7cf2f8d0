import Mathlib.Data.List.Dedup
import Mathlib.Data.List.Induction
import Restack.Proofs.Pass.Orderly

set_option autoImplicit false

namespace Restack

def Local.places (v : Local) : List (Option Local) := if v.isWide then [some v, none] else [some v]

@[simp] theorem Local.places_length (v : Local) : v.places.length = v.width := by
  unfold places width
  split <;> rfl

theorem Local.mem_places {v w : Local} : some w ∈ v.places ↔ w = v := by
  unfold places
  split <;> simp

def Insn.accesses? : Insn → Option Local
  | .access a => some a.var
  | _ => none

def accessed (lines : List Line) : List Local := lines.filterMap (·.insn.accesses?)

theorem mem_accessed {lines : List Line} {v : Local} :
    v ∈ accessed lines ↔ ∃ l ∈ lines, ∃ a, l.insn = .access a ∧ a.var = v := by
  rw [accessed, List.mem_filterMap]
  refine exists_congr fun l => and_congr_right fun _ => ?_
  cases l.insn <;> simp [Insn.accesses?]

/-- Every local stands in one place, with nothing at its second slot. -/
structure Laid (table : List (Option Local)) : Prop where
  upper : ∀ (i : Nat) (v : Local), table[i]? = some (some v) → v.isWide = true →
    table[i + 1]? = some none
  once : ∀ (i j : Nat) (v : Local), table[i]? = some (some v) → table[j]? = some (some v) → i = j

namespace Laid

variable {table other : List (Option Local)} {i j n place : Nat} {v w : Local} {vars : List Local}

theorem nil : Laid [] := ⟨by simp, by simp⟩

theorem of_places (v : Local) : Laid v.places := by
  unfold Local.places
  split
  next => refine ⟨fun i w => ?_, fun i j w => ?_⟩ <;> grind
  next narrow => refine ⟨fun i w => ?_, fun i j w => ?_⟩ <;> grind

theorem append (first : Laid table) (second : Laid other)
    (apart : ∀ v, some v ∈ table → some v ∉ other) :
    Laid (table ++ other) := by
  have here {i : Nat} {v : Local} (found : (table ++ other)[i]? = some (some v)) :
      i < table.length ∧ table[i]? = some (some v) ∨ table.length ≤ i ∧
        other[i - table.length]? = some (some v) := by
    rw [List.getElem?_append] at found
    split at found
    next less => exact .inl ⟨less, found⟩
    next more => exact .inr ⟨Nat.le_of_not_lt more, found⟩
  refine ⟨fun i v found wide => ?_, fun i j v found found' => ?_⟩
  · rcases here found with ⟨less, left⟩ | ⟨more, right⟩
    · have next := first.upper i v left wide
      rwa [List.getElem?_append_left (List.getElem?_eq_some_iff.1 next).1]
    · rw [List.getElem?_append_right (by omega), Nat.sub_add_comm more]
      exact second.upper _ v right wide
  · rcases here found with ⟨_, left⟩ | ⟨more, right⟩ <;> rcases here found' with ⟨_, left'⟩ |
      ⟨more', right'⟩
    · exact first.once i j v left left'
    · exact absurd (List.mem_of_getElem? right') (apart v (List.mem_of_getElem? left))
    · exact absurd (List.mem_of_getElem? right) (apart v (List.mem_of_getElem? left'))
    · have same := second.once _ _ v right right'
      omega

theorem mem_flatMap_places : some v ∈ vars.flatMap Local.places ↔ v ∈ vars := by
  simp [List.mem_flatMap, Local.mem_places]

theorem flatMap_places (distinct : vars.Nodup) : Laid (vars.flatMap Local.places) := by
  induction vars with
  | nil => exact .nil
  | cons v vars ih =>
    obtain ⟨new, distinct⟩ := List.nodup_cons.1 distinct
    rw [List.flatMap_cons]
    refine (of_places v).append (ih distinct) fun w here there => ?_
    rw [Local.mem_places.1 here] at there
    exact new (mem_flatMap_places.1 there)

section

variable (laid : Laid table) (found : table[i]? = some (some v))
include laid found

theorem inside : i + v.width ≤ table.length := by
  have first := (List.getElem?_eq_some_iff.1 found).1
  unfold Local.width
  split
  next wide =>
    have second := (List.getElem?_eq_some_iff.1 (laid.upper i v found wide)).1
    omega
  next => omega

theorem apart (found' : table[j]? = some (some w)) (different : v ≠ w) :
    i + v.width ≤ j ∨ j + w.width ≤ i := by
  have ordered {i j : Nat} {v w : Local} (found : table[i]? = some (some v))
      (found' : table[j]? = some (some w))
      (less : i < j) : i + v.width ≤ j := by
    unfold Local.width
    split
    next wide =>
      -- Nothing stands at the second slot, so the other one is further on.
      have nothing := laid.upper i v found wide
      have beyond : j ≠ i + 1 := by
        rintro rfl
        cases nothing.symm.trans found'
      omega
    next => omega
  have elsewhere : i ≠ j := by
    rintro rfl
    cases found.symm.trans found'
    exact different rfl
  rcases Nat.lt_or_gt_of_ne elsewhere with less | greater
  · exact .inl (ordered found found' less)
  · exact .inr (ordered found' found greater)

theorem narrow_of_next (next : table[i + 1]? = some (some w)) : v.isWide = false := by
  cases wide : v.isWide with
  | false => rfl
  | true => cases next.symm.trans (laid.upper i v found wide)

end

theorem trade (laid : Laid table) (at_n : table[n]? = some (some v))
    (at_place : table[place]? = some (some w)) (narrow : v.isWide = false)
    (narrow' : w.isWide = false)
    (traded : ∀ i, other[i]? = if i = n then some (some w) else if i = place then some (some v)
      else table[i]?) :
    Laid other := by
  refine ⟨fun i x found wide => ?_, fun i j x found found' => ?_⟩
  · rw [traded] at found
    split at found
    · cases found
      rw [narrow'] at wide
      cases wide
    · split at found
      · cases found
        rw [narrow] at wide
        cases wide
      · have nothing := laid.upper i x found wide
        rw [traded, if_neg, if_neg, nothing]
        · rintro rfl
          cases nothing.symm.trans at_place
        · rintro rfl
          cases nothing.symm.trans at_n
  · -- Each local comes from one place of the old table.
    have origin {i : Nat} (found : other[i]? = some (some x)) :
        table[if i = n then place else if i = place then n else i]? = some (some x) := by
      rw [traded] at found
      split at found
      next here =>
        rw [if_pos here]
        exact found ▸ at_place
      next =>
        split at found
        next there =>
          rw [if_neg (by assumption), if_pos there]
          exact found ▸ at_n
        next => rwa [if_neg (by assumption), if_neg (by assumption)]
    have same := laid.once _ _ x (origin found) (origin found')
    split at same <;> split at same
    all_goals grind

end Laid

/-- The slots lead to the places of a table. -/
structure Finds (slots : Std.HashMap Local UInt16) (table : List (Option Local)) : Prop where
  places : ∀ (i : Nat) (v : Local), table[i]? = some (some v) → slots[v]? = some i.toUInt16
  missing : ∀ v, some v ∉ table → slots[v]? = none

namespace Finds

variable {slots : Std.HashMap Local UInt16} {table : List (Option Local)} {v : Local}

theorem skip (finds : Finds slots table) : Finds slots (table ++ [none]) := by
  refine ⟨fun i w found => finds.places i w ?_, fun w absent => finds.missing w fun there =>
    absent (by simp [there])⟩
  rw [List.getElem?_append] at found
  split at found
  · exact found
  · cases List.mem_singleton.1 (List.mem_of_getElem? found)

theorem push (finds : Finds slots table) (new : some v ∉ table) :
    Finds (slots.insert v table.length.toUInt16) (table ++ [some v]) := by
  refine ⟨fun i w found => ?_, fun w absent => ?_⟩
  · rw [List.getElem?_append] at found
    rw [Std.HashMap.getElem?_insert]
    split at found
    next =>
      have other : v ≠ w := fun same => new (same ▸ List.mem_of_getElem? found)
      rw [if_neg (by simpa using other), finds.places i w found]
    next more =>
      have place := (List.getElem?_eq_some_iff.1 found).1
      cases List.mem_singleton.1 (List.mem_of_getElem? found)
      rw [List.length_singleton] at place
      rw [if_pos (by simp), show i = table.length by omega]
  · obtain ⟨absent, other⟩ : some w ∉ table ∧ w ≠ v := by simpa using absent
    rw [Std.HashMap.getElem?_insert, if_neg (by simpa using other.symm), finds.missing w absent]

theorem push_places (finds : Finds slots table) (new : some v ∉ table) :
    Finds (slots.insert v table.length.toUInt16) (table ++ v.places) := by
  unfold Local.places
  split
  · rw [List.append_cons]
    exact (finds.push new).skip
  · exact finds.push new

end Finds

namespace Body

variable {args : List (Option Local)} {lines : List Line} {vars : List Local} {v : Local}

theorem argSlots_snoc (args : List (Option Local)) (x : Option Local) :
    argSlots (args ++ [x]) = match x with
      | some v => (argSlots args).insert v args.length.toUInt16
      | none => argSlots args := by
  rw [argSlots, List.zipIdx_append, List.foldl_append, Nat.zero_add, List.zipIdx_singleton,
    List.foldl_cons, List.foldl_nil]
  rfl

theorem finds_argSlots {table : List (Option Local)} (laid : Laid table) :
    Finds (argSlots table) table := by
  have once := laid.once
  clear laid
  induction table using List.reverseRecOn with
  | nil => exact ⟨by simp, by simp [argSlots]⟩
  | append_singleton table x ih =>
    have before : Finds (argSlots table) table := by
      refine ih fun i j v left right => once i j v ?_ ?_
      · rwa [List.getElem?_append_left (List.getElem?_eq_some_iff.1 left).1]
      · rwa [List.getElem?_append_left (List.getElem?_eq_some_iff.1 right).1]
    rw [argSlots_snoc]
    cases x with
    | none => exact before.skip
    | some v =>
      refine before.push fun there => ?_
      obtain ⟨i, at_i⟩ := List.getElem?_of_mem there
      have less := (List.getElem?_eq_some_iff.1 at_i).1
      have same := once i table.length v (by rwa [List.getElem?_append_left less]) (by simp)
      omega

/-- The locals that lines load and store, without the arguments. -/
structure Others (args : List (Option Local)) (lines : List Line) (vars : List Local) : Prop where
  distinct : vars.Nodup
  mem_iff : ∀ v, v ∈ vars ↔ v ∈ accessed lines ∧ some v ∉ args

theorem Others.laid (others : Others args lines vars) (laid : Laid args) :
    Laid (args ++ vars.flatMap Local.places) :=
  laid.append (.flatMap_places others.distinct) fun v there here =>
    ((others.mem_iff v).1 (Laid.mem_flatMap_places.1 here)).2 there

theorem Others.mem (others : Others args lines vars) (key : some v ∈ args ∨ v ∈ accessed lines) :
    some v ∈ args ++ vars.flatMap Local.places := by
  rw [List.mem_append, Laid.mem_flatMap_places, others.mem_iff]
  by_cases argument : some v ∈ args
  · exact .inl argument
  · exact .inr ⟨key.resolve_left argument, argument⟩

/-- The slots that all arguments and locals of a body take up together. -/
def slotsNeeded (b : Body) : Nat :=
  b.args.length +
    (((accessed b.lines).dedup.filter fun v => !b.args.contains (some v)).map Local.width).sum

theorem Others.length_eq {b : Body} (others : Others b.args b.lines vars) :
    (b.args ++ vars.flatMap Local.places).length = b.slotsNeeded := by
  have alike : vars.Perm ((accessed b.lines).dedup.filter fun v => !b.args.contains (some v)) := by
    refine (List.perm_ext_iff_of_nodup others.distinct ((List.nodup_dedup _).filter _)).2 fun v =>
      ?_
    rw [others.mem_iff, List.mem_filter, List.mem_dedup]
    simp
  have widths : (vars.flatMap Local.places).length = (vars.map Local.width).sum := by
    rw [List.length_flatMap]
    simp only [Local.places_length]
  rw [List.length_append, widths, slotsNeeded, (alike.map Local.width).sum_nat]

theorem accessed_snoc (front : List Line) (l : Line) :
    v ∈ accessed (front ++ [l]) ↔ v ∈ accessed front ∨ l.insn.accesses? = some v := by
  simp [accessed, List.filterMap_append, List.mem_filterMap, eq_comm]

theorem slotsInOrder_table (laid : Laid args) (lines : List Line) : ∃ vars, Others args lines vars ∧
    Finds (slotsInOrder args lines).1 (args ++ vars.flatMap Local.places) ∧
    (slotsInOrder args lines).2 = (args ++ vars.flatMap Local.places).length := by
  unfold slotsInOrder
  refine foldl_along
    (fun front (state : Std.HashMap Local UInt16 × Nat) => ∃ vars, Others args front vars ∧
    Finds state.1 (args ++ vars.flatMap Local.places) ∧
    state.2 = (args ++ vars.flatMap Local.places).length) ?_ ?_
  · exact ⟨[], ⟨.nil, by simp [accessed]⟩, by simpa using finds_argSlots laid, by simp⟩
  · rintro front l back ⟨slots, next⟩ _ ⟨vars, others, finds, rfl⟩
    have unchanged
        (old : ∀ v, l.insn.accesses? = some v → some v ∈ args ++ vars.flatMap Local.places) :
        Others args (front ++ [l]) vars := by
      refine ⟨others.distinct, fun v => ?_⟩
      rw [accessed_snoc]
      refine ⟨fun known => ?_, fun ⟨known, absent⟩ => ?_⟩
      · exact ((others.mem_iff v).1 known).imp .inl id
      · rcases known with before | here
        · exact (others.mem_iff v).2 ⟨before, absent⟩
        · exact Laid.mem_flatMap_places.1 ((List.mem_append.1 (old v here)).resolve_left absent)
    cases insn : l.insn with
    | access a =>
      have only (v : Local) : l.insn.accesses? = some v ↔ v = a.var := by
        simp [insn, Insn.accesses?, eq_comm]
      dsimp only
      rw [Std.HashMap.contains_eq_isSome_getElem?]
      by_cases there : some a.var ∈ args ++ vars.flatMap Local.places
      · obtain ⟨i, at_i⟩ := List.getElem?_of_mem there
        rw [if_pos (by rw [finds.places i a.var at_i]; rfl)]
        exact ⟨vars, unchanged fun v here => (only v).1 here ▸ there, finds, rfl⟩
      · rw [if_neg (by rw [finds.missing a.var there]; exact Bool.false_ne_true)]
        obtain ⟨no_argument, new⟩ : some a.var ∉ args ∧ a.var ∉ vars := by
          rwa [List.mem_append, Laid.mem_flatMap_places, not_or] at there
        have grown : args ++ (vars ++ [a.var]).flatMap Local.places =
            args ++ vars.flatMap Local.places ++ a.var.places := by
          simp
        refine ⟨vars ++ [a.var], ⟨?_, fun v => ?_⟩, grown ▸ finds.push_places there, ?_⟩
        · exact others.distinct.append (List.nodup_singleton _) (by simpa using new)
        · rw [accessed_snoc, only, List.mem_append, List.mem_singleton, others.mem_iff]
          constructor
          · rintro (⟨before, absent⟩ | rfl)
            · exact ⟨.inl before, absent⟩
            · exact ⟨.inr rfl, no_argument⟩
          · rintro ⟨before | here, absent⟩
            · exact .inl ⟨before, absent⟩
            · exact .inr here
        · rw [grown, ← a.var.places_length]
          exact List.length_append.symm
    | label | literal | constant | plain | jump | switch =>
      exact ⟨vars, unchanged (by simp [insn, Insn.accesses?]), finds, rfl⟩

theorem contains_useCounts (lines : List Line) (v : Local) :
    (useCounts lines).contains v = true ↔ v ∈ accessed lines := by
  unfold useCounts
  refine foldl_along (fun front (counts : Std.HashMap Local Nat) => counts.contains v = true ↔
    v ∈ accessed front)
    (by simp [accessed]) ?_
  rintro front l back counts _ known
  rw [accessed_snoc, ← known]
  cases insn : l.insn with
  | access a => simp [Std.HashMap.contains_insert, Insn.accesses?, or_comm]
  | label | literal | constant | plain | jump | switch => simp [Insn.accesses?]

theorem others_byUse (args : List (Option Local)) (lines : List Line) :
    Others args lines ((byUse (useCounts lines)).filter fun v => !args.contains (some v)) := by
  have alike : (byUse (useCounts lines)).Perm (useCounts lines).keys := by
    rw [← Std.HashMap.map_fst_toList_eq_keys]
    exact (List.mergeSort_perm _ _).map _
  refine ⟨(alike.nodup_iff.2 (useCounts lines).nodup_keys).filter _, fun v => ?_⟩
  rw [List.mem_filter, alike.mem_iff, Std.HashMap.mem_keys, ← Std.HashMap.contains_iff_mem,
    contains_useCounts]
  simp

theorem slotTable_toList (args : List (Option Local)) (counts : Std.HashMap Local Nat) :
    (slotTable args counts).toList =
      args ++ ((byUse counts).filter fun v => !args.contains (some v)).flatMap Local.places := rfl

theorem exchange?_cases {counts : Std.HashMap Local Nat} {table : Array (Option Local)}
    {n place : Nat} {arg : Local} (laid : Laid table.toList)
    (exchanged : exchange? args counts table = some (n, place, arg)) :
    n < args.length ∧ n < 4 ∧ args.length ≤ place ∧ table.toList[n]? = some (some arg) ∧
    arg.isWide = false ∧
      ∃ candidate, table.toList[place]? = some (some candidate) ∧ candidate.isWide = false := by
  unfold exchange? at exchanged
  dsimp only at exchanged
  split at exchanged
  next candidate hot =>
    split at exchanged
    · cases exchanged
    next worth =>
      obtain ⟨i, among, found⟩ := List.exists_of_findSome?_eq_some exchanged
      rw [List.mem_range] at among
      split at found
      next at_i next_i =>
        split at found
        · cases found
          have here : table.toList[n]? = some (some arg) :=
            Array.getElem?_toList.trans (Option.join_eq_some_iff.1 at_i)
          have next : table.toList[n + 1]? = some (some _) :=
            Array.getElem?_toList.trans (Option.join_eq_some_iff.1 next_i)
          rw [Bool.or_eq_true, not_or, Bool.not_eq_true] at worth
          refine ⟨by omega, by omega, Nat.le_max_right _ _, here, laid.narrow_of_next here next,
            candidate, ?_, worth.1⟩
          exact Array.getElem?_toList.trans (Option.join_eq_some_iff.1 hot)
        · cases found
      · cases found
  · cases exchanged

theorem getElem?_traded {table : Array (Option Local)} {n place : Nat} {x y : Option Local}
    (at_n : table.toList[n]? = some x) (at_place : table.toList[place]? = some y) (i : Nat) :
    (table.swapIfInBounds n place).toList[i]? = if i = n then some y else if i = place then some x
      else table.toList[i]? := by
  rw [Array.getElem?_toList] at at_n at_place ⊢
  obtain ⟨n_inside, rfl⟩ := Array.getElem?_eq_some_iff.1 at_n
  obtain ⟨place_inside, rfl⟩ := Array.getElem?_eq_some_iff.1 at_place
  rw [Array.swapIfInBounds_def, dif_pos n_inside, dif_pos place_inside, Array.getElem?_swap,
    Array.getElem?_toList]
  grind

end Body

end Restack
