import Restack.Proofs.Pass.Orderly
import Restack.Proofs.Stack.CopyStacks

set_option autoImplicit false

namespace Restack

/-- The line behind a `goto` is known as a target. -/
def Body.GotosEnd (b : Body) : Prop :=
  ∀ front l m back j, b.lines = front ++ l :: m :: back → l.insn = .jump j → j.op = none →
    b.isTarget m = true

namespace Duplicate

open CopyPlan (copies Provides)

variable {handOver : HandOver} {b : Body} {k count : Nat} {l : Line} {v : Local}
  {uses others : Stretch} {u : Use}

def put (first : Nat) (state : Std.HashMap Nat (List Line) × Nat) (x : Use × List Insn) :
    Std.HashMap Nat (List Line) × Nat :=
  let new := tagAll state.2 x.2
  (state.1.insert x.1.line.tag (if x.1.index = first then x.1.line :: new.1 else new.1), new.2)

theorem map_insn_tagAll (fresh : Nat) (insns : List Insn) :
    (tagAll fresh insns).1.map Line.insn = insns := by
  rw [tagAll, List.map_map]
  exact List.zipIdx_map_fst fresh insns

theorem foldl_put (first : Nat) (pairs : List (Use × List Insn))
    (distinct : (pairs.map fun x => x.1.line.tag).Nodup)
    (state : Std.HashMap Nat (List Line) × Nat) :
    (∀ u step, (u, step) ∈ pairs → ∃ new : List Line, new.map Line.insn = step ∧
      (pairs.foldl (put first) state).1[u.line.tag]? =
        some (if u.index = first then u.line :: new else new)) ∧
    ∀ tag, tag ∉ pairs.map (fun x => x.1.line.tag) → (pairs.foldl (put first) state).1[tag]? =
      state.1[tag]? := by
  induction pairs generalizing state with
  | nil => simp
  | cons x pairs ih =>
    rw [List.map_cons, List.nodup_cons] at distinct
    obtain ⟨served, others⟩ := ih distinct.2 (put first state x)
    refine ⟨fun u step member => ?_, fun tag absent => ?_⟩
    · rcases List.mem_cons.1 member with rfl | later
      · refine ⟨(tagAll state.2 step).1, map_insn_tagAll _ _, ?_⟩
        rw [List.foldl_cons, others _ distinct.1]
        exact Std.HashMap.getElem?_insert_self
      · exact served u step later
    · rw [List.map_cons, List.mem_cons, not_or] at absent
      rw [List.foldl_cons, others tag absent.2]
      simp only [put]
      rw [Std.HashMap.getElem?_insert, if_neg]
      simpa using Ne.symm absent.1

theorem index_of_tag (distinct : (b.lines.map Line.tag).Nodup) (use : u.AtHead b v)
    (here : b.lines[k]? = some l) (same : u.line.tag = l.tag) : u.index = k ∧ u.line = l := by
  have equal :=
    eq_of_tag_eq distinct (List.mem_of_getElem? use.line) (List.mem_of_getElem? here) same
  exact ⟨(List.getElem?_inj (List.getElem?_eq_some_iff.1 use.line).1 distinct.of_map).1
    (by rw [use.line, here, equal]), equal⟩

theorem index_eq_head_iff (clear : Clear b v uses) {j : Nat} (here : uses[j]? = some u) :
    u.index = (uses.head?.map Use.index).getD 0 ↔ j = 0 := by
  obtain ⟨less, rfl⟩ := List.getElem?_eq_some_iff.1 here
  have zero : 0 < uses.length := by omega
  rw [List.head?_eq_getElem?, List.getElem?_eq_getElem zero, Option.map_some, Option.getD_some]
  constructor
  · intro same
    by_contra later
    have := List.pairwise_iff_getElem.1 clear.ascending 0 j zero less (Nat.pos_of_ne_zero later)
    omega
  · rintro rfl
    rfl

theorem lookup_serve (distinct : (b.lines.map Line.tag).Nodup) (clear : Clear b v uses)
    (replacement : Std.HashMap Nat (List Line)) (fresh : Nat) :
    (∀ (j : Nat) (u : Use), uses[j]? = some u → ∃ new : List Line,
      (copyPlan uses.length 0)[j]? = some (new.map Line.insn) ∧
        (serve replacement fresh uses).1[u.line.tag]? =
          some (if j = 0 then u.line :: new else new)) ∧
    ∀ tag, (∀ u ∈ uses, u.line.tag ≠ tag) → (serve replacement fresh uses).1[tag]? =
      replacement[tag]? := by
  have plan_length := CopyPlan.length_copyPlan uses.length 0
  have own_tags : (uses.map fun u => u.line.tag).Nodup := by
    refine List.pairwise_map.2 (clear.ascending.imp_of_mem fun {u w} inside inside' less same => ?_)
    exact Nat.ne_of_lt less
      (index_of_tag distinct (clear.loads u inside) (clear.loads w inside').line same).1
  have tags : (uses.zip (copyPlan uses.length 0)).map (fun x => x.1.line.tag) = uses.map fun u =>
      u.line.tag := by
    have firsts : (uses.zip (copyPlan uses.length 0)).map Prod.fst = uses :=
      List.map_fst_zip (by omega)
    calc (uses.zip (copyPlan uses.length 0)).map (fun x => x.1.line.tag)
        = ((uses.zip (copyPlan uses.length 0)).map Prod.fst).map fun u => u.line.tag := by
          rw [List.map_map]; rfl
      _ = uses.map fun u => u.line.tag := by rw [firsts]
  obtain ⟨served, others⟩ :=
    foldl_put ((uses.head?.map Use.index).getD 0) (uses.zip (copyPlan uses.length 0))
    (tags ▸ own_tags) (replacement, fresh)
  refine ⟨fun j u here => ?_, fun tag absent => others tag ?_⟩
  · obtain ⟨less, _⟩ := List.getElem?_eq_some_iff.1 here
    have planned : (copyPlan uses.length 0)[j]? = some (copyPlan uses.length 0)[j] :=
      List.getElem?_eq_getElem (by omega)
    obtain ⟨new, same, found⟩ := served u (copyPlan uses.length 0)[j]
      (List.mem_of_getElem? (List.getElem?_zip_eq_some.2 ⟨here, planned⟩))
    simp only [index_eq_head_iff clear here] at found
    exact ⟨new, by rw [planned, same], found⟩
  · rw [tags]
    intro inside
    obtain ⟨u, member, same⟩ := List.mem_map.1 inside
    exact absent u member same

structure Served (done : List Stretch) (replacement : Std.HashMap Nat (List Line)) : Prop where
  use : ∀ uses ∈ done, ∀ (j : Nat) (u : Use), uses[j]? = some u → ∃ new : List Line,
    (copyPlan uses.length 0)[j]? = some (new.map Line.insn) ∧
      replacement[u.line.tag]? = some (if j = 0 then u.line :: new else new)
  other : ∀ tag, (∀ uses ∈ done, ∀ u ∈ uses, u.line.tag ≠ tag) → replacement[tag]? = none

theorem served_serve (distinct : (b.lines.map Line.tag).Nodup) {done : List Stretch}
    {replacement : Std.HashMap Nat (List Line)} (served : Served done replacement)
    (clear : Clear b v uses) (apart : ∀ others ∈ done, (∃ w, Clear b w others) ∧ Apart others uses)
    (fresh : Nat) : Served (done ++ [uses]) (serve replacement fresh uses).1 := by
  obtain ⟨here, elsewhere⟩ := lookup_serve distinct clear replacement fresh
  refine ⟨fun uses' member j u at_place => ?_, fun tag absent => ?_⟩
  · rcases List.mem_append.1 member with before | new
    · obtain ⟨⟨w, clear'⟩, apart'⟩ := apart uses' before
      have inside := List.mem_of_getElem? at_place
      have untouched : ∀ u' ∈ uses, u'.line.tag ≠ u.line.tag := by
        intro u' inside' same
        have indices :=
          (index_of_tag distinct (clear.loads u' inside') (clear'.loads u inside).line same).1
        rcases apart' with first | second
        · exact absurd (first u inside u' inside') (by omega)
        · exact absurd (second u inside u' inside') (by omega)
      rw [elsewhere u.line.tag untouched]
      exact served.use uses' before j u at_place
    · cases List.mem_singleton.1 new
      exact here j u at_place
  · rw [elsewhere tag fun u inside => absent uses (by simp) u inside]
    exact served.other tag fun others member => absent others (by simp [member])

def part (handOver : HandOver) (b : Body) (l : Line) : List Line :=
  (replaced handOver b).1.getD l.tag [l]

section Parts

variable (distinct : (b.lines.map Line.tag).Nodup)

include distinct

theorem served_replaced : Served (chosen handOver b) (replaced handOver b).1 := by
  refine foldl_along (fun done (state : Std.HashMap Nat (List Line) × Nat) => Served done state.1)
    ⟨by simp, by simp⟩ fun done uses rest state split served => ?_
  have pairwise := pairwise_chosen handOver b
  have listed : uses ∈ chosen handOver b := by simp [split]
  rw [split] at pairwise
  obtain ⟨v, clear⟩ := clear_of_mem_chosen uses listed
  refine served_serve distinct served clear (fun others before => ?_) state.2
  have listed' : others ∈ chosen handOver b := by simp [split, before]
  exact ⟨clear_of_mem_chosen others listed',
    (List.pairwise_append.1 pairwise).2.2 others before uses List.mem_cons_self⟩

theorem part_use (bound : ∀ l ∈ b.lines, l.tag < b.fresh) (member : uses ∈ chosen handOver b)
    {j : Nat} (at_place : uses[j]? = some u) :
    ∃ new : List Line, (copyPlan uses.length 0)[j]? = some (new.map Line.insn) ∧
    (∀ m ∈ new, b.fresh ≤ m.tag) ∧
      part handOver b u.line = if j = 0 then u.line :: new else new := by
  obtain ⟨new, planned, found⟩ := (served_replaced distinct).use uses member j u at_place
  have inside := List.mem_of_getElem? at_place
  obtain ⟨v, clear⟩ := clear_of_mem_chosen uses member
  obtain ⟨here, loads, _⟩ := clear.loads u inside
  refine ⟨new, planned, fun m added =>
    ?_, by rw [part, Std.HashMap.getD_eq_getD_getElem?, found, Option.getD_some]⟩
  have in_part : m ∈ if j = 0 then u.line :: new else new := by
    split
    · exact List.mem_cons_of_mem _ added
    · exact added
  obtain ⟨op, insn⟩ := op_of_mem_copyPlan (List.mem_of_getElem? planned) (List.mem_map_of_mem added)
  rcases (edit_replaced handOver (Body.tagged_of_distinct distinct bound)).origin _ _ found m
    in_part with ⟨kept, constant | same⟩ | ⟨fresh, _⟩
  · rw [insn] at constant
    cases constant
  · cases eq_of_tag_eq distinct kept (List.mem_of_getElem? here) same
    rw [insn] at loads
    cases loads
  · exact fresh

theorem part_other (here : b.lines[k]? = some l)
    (unused : ∀ uses ∈ chosen handOver b, ∀ u ∈ uses, u.index ≠ k) : part handOver b l = [l] := by
  rw [part, Std.HashMap.getD_eq_getD_getElem?, (served_replaced distinct).other l.tag,
    Option.getD_none]
  intro uses member u inside same
  obtain ⟨v, clear⟩ := clear_of_mem_chosen uses member
  exact unused uses member u inside (index_of_tag distinct (clear.loads u inside) here same).1

theorem no_constant_of_replaced {tag : Nat} {lines : List Line}
    (found : (replaced handOver b).1[tag]? = some lines) :
    ∀ m ∈ lines, m.insn.isConstant = false := by
  by_cases used : ∃ uses ∈ chosen handOver b, ∃ u ∈ uses, u.line.tag = tag
  · obtain ⟨uses, member, u, inside, rfl⟩ := used
    obtain ⟨v, clear⟩ := clear_of_mem_chosen uses member
    obtain ⟨j, at_place⟩ := List.getElem?_of_mem inside
    obtain ⟨new, planned, there⟩ := (served_replaced distinct).use uses member j u at_place
    cases there.symm.trans found
    have all : ∀ m ∈ u.line :: new, m.insn.isConstant = false := by
      refine List.forall_mem_cons.2 ⟨?_, fun m added => ?_⟩
      · obtain ⟨a, access, _⟩ := Insn.exists_access_of_loads? (clear.loads u inside).loads
        rw [access]
        rfl
      · obtain ⟨op, same⟩ :=
          op_of_mem_copyPlan (List.mem_of_getElem? planned) (List.mem_map_of_mem added)
        rw [same]
        rfl
    intro m member
    refine all m ?_
    split at member
    · exact member
    · exact List.mem_cons_of_mem _ member
  · rw [(served_replaced distinct).other tag fun uses member u inside same =>
      used ⟨uses, member, u, inside, same⟩] at found
    cases found

end Parts

/-- The place lies behind the first use of the stretch, and not behind the last. -/
def Covers (uses : Stretch) (k : Nat) : Prop := (∃ u ∈ uses, u.index < k) ∧ ∃ v ∈ uses, k ≤ v.index

theorem Apart.beside (apart : Apart uses others) (covers : Covers uses k) :
    (∀ v ∈ others, k < v.index) ∨ ∀ v ∈ others, v.index + 1 < k := by
  obtain ⟨⟨u, inside, before⟩, u', inside', behind⟩ := covers
  rcases apart with first | second
  · exact .inl fun v member => Nat.lt_of_le_of_lt behind (first u' inside' v member)
  · exact .inr fun v member => Nat.lt_of_le_of_lt (second u inside v member) before

/-- How many copies are left when the uses before place `k` are served, if `held` says how many
there are after each use. -/
def copiesAt (held : Nat → Nat) (uses : Stretch) (k : Nat) : Nat :=
  if uses.countP (·.index < k) = 0 then 0 else held (uses.countP (·.index < k))

section Counting

variable {front back : Stretch}

theorem countP_cut (before : ∀ u ∈ front, u.index < k) (after : ∀ u ∈ back, k ≤ u.index) :
    (front ++ back).countP (·.index < k) = front.length := by
  rw [List.countP_append, List.countP_eq_length.2 (by simpa using before),
    List.countP_eq_zero.2 (by simpa using after), Nat.add_zero]

theorem countP_use (ascending : (front ++ u :: back).Pairwise fun u v => u.index < v.index) :
    (front ++ u :: back).countP (·.index < u.index) = front.length ∧
      (front ++ u :: back).countP (·.index < u.index + 1) = front.length + 1 := by
  obtain ⟨_, later, before⟩ := List.pairwise_append.1 ascending
  have after : ∀ v ∈ back, u.index < v.index :=
    fun v inside => List.rel_of_pairwise_cons later inside
  have early : ∀ v ∈ front, v.index < u.index :=
    fun v inside => before v inside u List.mem_cons_self
  constructor
  · refine countP_cut early fun v inside => ?_
    rcases List.mem_cons.1 inside with rfl | later
    · exact Nat.le_refl _
    · exact Nat.le_of_lt (after v later)
  · rw [List.append_cons, countP_cut (fun v inside => ?_) after, List.length_append]
    · rfl
    · rcases List.mem_append.1 inside with before | here
      · exact Nat.lt_succ_of_lt (early v before)
      · rw [List.mem_singleton.1 here]
        exact Nat.lt_succ_self _

theorem countP_other (none_here : ∀ u ∈ uses, u.index ≠ k) :
    uses.countP (·.index < k + 1) = uses.countP (·.index < k) := by
  refine List.countP_congr fun u inside => ?_
  have := none_here u inside
  simp only [decide_eq_true_eq]
  omega

end Counting

/-- At place `k`, so many copies of the local are held. -/
inductive Holds (handOver : HandOver) (b : Body) (k : Nat) : Nat → Local → Prop where
  | nothing (v : Local) : (∀ uses ∈ chosen handOver b, ¬ Covers uses k) → Holds handOver b k 0 v
  | copies {uses : Stretch} {v : Local} {held : Nat → Nat} :
      uses ∈ chosen handOver b → Covers uses k → Clear b v uses →
      Provides (copyPlan uses.length 0) uses.length held →
      Holds handOver b k (copiesAt held uses k) v

theorem eq_of_covers (member : uses ∈ chosen handOver b) (member' : others ∈ chosen handOver b)
    (covers : Covers others k) (inside : u ∈ uses) (le : u.index ≤ k) {u' : Use}
    (inside' : u' ∈ uses) (ge : k ≤ u'.index + 1) : others = uses := by
  refine (apart_of_mem_chosen member' member).resolve_right fun apart => ?_
  rcases apart.beside covers with behind | before
  · exact absurd (behind u inside) (by omega)
  · exact absurd (before u' inside') (by omega)

theorem Holds.few (holds : Holds handOver b k count v) : count ≤ 3 := by
  cases holds with
  | nothing => exact Nat.zero_le 3
  | @copies uses _ held _ _ _ provides =>
    unfold copiesAt
    split
    · exact Nat.zero_le 3
    · exact provides.few _ List.countP_le_length

theorem Holds.barred (holds : Holds handOver b k count v) (some_held : count ≠ 0)
    (here : b.lines[k]? = some l) :
    v.isWide = false ∧ Lets b v l := by
  cases holds with
  | nothing => exact absurd rfl some_held
  | copies _ covers clear =>
    obtain ⟨⟨u, inside, before⟩, w, inside', behind⟩ := covers
    exact ⟨clear.narrow, clear.free u inside w inside' k l before behind here⟩

theorem holds_barrier (here : b.lines[k]? = some l) (barrier : isBarrier b l = true) (v : Local) :
    Holds handOver b k 0 v := by
  refine .nothing v fun uses member covers => ?_
  obtain ⟨⟨u, inside, before⟩, w, inside', behind⟩ := covers
  obtain ⟨_, clear⟩ := clear_of_mem_chosen _ member
  rw [(clear.free u inside w inside' k l before behind here).1] at barrier
  cases barrier

theorem holds_start (b : Body) (v : Local) : Holds handOver b 0 0 v := by
  refine .nothing v fun uses _ covers => ?_
  obtain ⟨⟨u, _, before⟩, _⟩ := covers
  exact absurd before (Nat.not_lt_zero _)

theorem Holds.next (holds : Holds handOver b k count v)
    (unused : ∀ uses ∈ chosen handOver b, ∀ u ∈ uses, u.index ≠ k) :
    Holds handOver b (k + 1) count v := by
  have same : ∀ uses ∈ chosen handOver b, Covers uses (k + 1) ↔ Covers uses k := by
    intro uses member
    have apart := unused uses member
    constructor
    · rintro ⟨⟨u, inside, before⟩, w, inside', behind⟩
      have := apart u inside
      exact ⟨⟨u, inside, by omega⟩, w, inside', by omega⟩
    · rintro ⟨⟨u, inside, before⟩, w, inside', behind⟩
      have := apart w inside'
      exact ⟨⟨u, inside, by omega⟩, w, inside', by omega⟩
  cases holds with
  | nothing _ none =>
    exact .nothing v fun uses member covers => none uses member ((same uses member).1 covers)
  | @copies uses _ held member covers clear provides =>
    have count : copiesAt held uses k = copiesAt held uses (k + 1) := by
      rw [copiesAt, copiesAt, countP_other (unused uses member)]
    rw [count]
    exact .copies member ((same uses member).2 covers) clear provides

section Uses

variable {j : Nat} {held : Nat → Nat}

theorem countP_at (clear : Clear b v uses) (at_place : uses[j]? = some u) :
    uses.countP (·.index < u.index) = j ∧ uses.countP (·.index < u.index + 1) = j + 1 := by
  obtain ⟨less, got⟩ := List.getElem?_eq_some_iff.1 at_place
  have split : uses = uses.take j ++ u :: uses.drop (j + 1) := by
    rw [← got, List.getElem_cons_drop, List.take_append_drop]
  have length : (uses.take j).length = j := by
    rw [List.length_take, Nat.min_eq_left (Nat.le_of_lt less)]
  have counts := countP_use (split ▸ clear.ascending)
  rwa [← split, length] at counts

theorem holds_behind (member : uses ∈ chosen handOver b) (at_place : uses[j]? = some u)
    (clear : Clear b v uses) (provides : Provides (copyPlan uses.length 0) uses.length held) :
    Holds handOver b (u.index + 1) (held (j + 1)) v := by
  obtain ⟨less, got⟩ := List.getElem?_eq_some_iff.1 at_place
  have inside := List.mem_of_getElem? at_place
  by_cases more : j + 1 < uses.length
  · have count : copiesAt held uses (u.index + 1) = held (j + 1) := by
      rw [copiesAt, (countP_at clear at_place).2, if_neg (Nat.succ_ne_zero j)]
    have later :=
      List.pairwise_iff_getElem.1 clear.ascending j (j + 1) less more (Nat.lt_succ_self j)
    rw [got] at later
    rw [← count]
    exact .copies member ⟨⟨u, inside, Nat.lt_succ_self _⟩, uses[j + 1], List.getElem_mem more,
      later⟩ clear provides
  · have last : j + 1 = uses.length := by omega
    rw [last, provides.last (by omega)]
    refine .nothing v fun others member' covers => ?_
    cases eq_of_covers member member' covers inside (by omega) inside (by omega)
    obtain ⟨_, w, inside', behind⟩ := covers
    have all_before := List.countP_eq_length.1 ((countP_at clear at_place).2.trans last) w inside'
    rw [decide_eq_true_eq] at all_before
    omega

theorem Holds.use {w : Local} (holds : Holds handOver b u.index count w)
    (member : uses ∈ chosen handOver b) (at_place : uses[j]? = some u) :
    ∃ v more step, Clear b v uses ∧ (copyPlan uses.length 0)[j]? = some step ∧
      Holds handOver b (u.index + 1) more v ∧
      (j = 0 ∧ count = 0 ∧ CopyPlan.Recopies step 1 (more + 1) ∨
        j ≠ 0 ∧ w = v ∧ CopyPlan.Recopies step count (more + 1)) := by
  obtain ⟨less, got⟩ := List.getElem?_eq_some_iff.1 at_place
  have inside := List.mem_of_getElem? at_place
  by_cases first : j = 0
  · subst first
    obtain ⟨v, clear⟩ := clear_of_mem_chosen uses member
    obtain ⟨held, provides⟩ := CopyPlan.exists_provides uses.length
    obtain ⟨step, planned, recopies⟩ := provides.each 0 less
    rw [provides.one] at recopies
    refine ⟨v, held 1, step, clear, planned, holds_behind member at_place clear provides,
      .inl ⟨rfl, ?_, recopies⟩⟩
    cases holds with
    | nothing => rfl
    | copies member' covers =>
      cases eq_of_covers member member' covers inside (by omega) inside (by omega)
      rw [copiesAt, (countP_at clear at_place).1, if_pos rfl]
  · cases holds with
    | nothing _ none =>
      obtain ⟨v, clear⟩ := clear_of_mem_chosen uses member
      have some_before : 0 < uses.countP (·.index < u.index) :=
        (countP_at clear at_place).1 ▸ Nat.pos_of_ne_zero first
      obtain ⟨u', inside', before⟩ := List.countP_pos_iff.1 some_before
      exact absurd ⟨⟨u', inside', by simpa using before⟩, u, inside, Nat.le_refl _⟩
        (none uses member)
    | @copies _ _ held member' covers clear provides =>
      cases eq_of_covers member member' covers inside (by omega) inside (by omega)
      obtain ⟨step, planned, recopies⟩ := provides.each j less
      refine ⟨w, held (j + 1), step, clear, planned, holds_behind member at_place clear provides,
        .inr ⟨first, rfl, ?_⟩⟩
      rw [copiesAt, (countP_at clear at_place).1, if_neg first]
      exact recopies

end Uses

theorem spares_of_holds {front back : List Line} (gotos : b.GotosEnd)
    (split : b.lines = front ++ l :: back) (holds : Holds handOver b front.length count v)
    (unused : ∀ uses ∈ chosen handOver b, ∀ u ∈ uses, u.index ≠ front.length)
    (some_held : count ≠ 0) :
    v.isWide = false ∧ b.isTarget l = false ∧ l.insn.targets = [] := by
  have here : b.lines[front.length]? = some l := by simp [split]
  obtain ⟨narrow, free, _⟩ := holds.barred some_held here
  rw [isBarrier, Bool.or_eq_false_iff] at free
  refine ⟨narrow, free.1, ?_⟩
  cases insn : l.insn with
  | label | access | literal | constant | plain => rfl
  | switch => simp [insn] at free
  | jump j =>
    have always : j.op = none := by simpa [insn] using free.2
    -- The line behind is a target, and copies are still held there.
    have next := holds.next unused
    cases back with
    | nil =>
      cases next with
      | nothing => exact absurd rfl some_held
      | copies _ covers clear =>
        obtain ⟨_, u, inside, behind⟩ := covers
        have less := (List.getElem?_eq_some_iff.1 (clear.loads u inside).line).1
        rw [split] at less
        simp only [List.length_append, List.length_cons, List.length_nil] at less
        omega
    | cons m back =>
      have target := gotos front l m back j split insn always
      have here' : b.lines[front.length + 1]? = some m := by simp [split]
      have free' := (next.barred some_held here').2.1
      rw [isBarrier, target] at free'
      cases free'

section Stacks

variable {p : Pool} {cap more : Nat} {picks : UInt32 → Prop} {stack : Nat → Operands}
  {front back : List Line}
variable (orderly : b.Orderly p cap picks) (stacked : b.Stacked p cap (b.Shows picks) stack)
  (room : cap + 4 ≤ more)

theorem moves_below {x : Insn} {s t : Operands} (moves : x.Moves p cap s t)
    (straight : x.targets = []) (n : Nat) (le : cap + n ≤ more) :
    x.Moves p more (s ++ copies n []) (t ++ copies n []) := by
  obtain ⟨left, steps, _, same⟩ := moves.steps
  refine ⟨moves.sound, ?_, _, steps.below _, fun jumps => absurd straight jumps,
    fun falls => by rw [same falls]⟩
  rw [Operands.slots_append, CopyPlan.slots_copies]
  exact Nat.le_trans (Nat.add_le_add_right moves.bound n) le

include orderly stacked

/-- A use finds nothing on the stack: its block is not one that picks up a result, which would store
it first. -/
theorem stack_of_use (clear : Clear b v uses) (inside : u ∈ uses) :
    stack u.index = [] ∧ stack (u.index + 1) = [1] ∧ u.line.insn.Moves p cap [] [1] := by
  obtain ⟨here, loads, k, l, q, next, before, label⟩ := clear.loads u inside
  have pushes := Insn.pushes?_of_loads? loads
  have follows : b.Follows picks l u.line := by
    rw [next] at here
    obtain ⟨less, got⟩ := List.getElem?_eq_some_iff.1 here
    obtain ⟨_, got'⟩ := List.getElem?_eq_some_iff.1 before
    have chained := List.isChain_iff_getElem.1 orderly.follows k less
    rwa [got, got'] at chained
  have no_pick : ¬ picks q := by
    intro picked
    rw [follows.2 q label picked] at pushes
    cases pushes
  obtain ⟨⟨_, empty⟩, passes⟩ := stacked.each k l before
  have start : stack u.index = [] := by
    have steps := passes.steps_of_falls (by rw [label]; rfl)
    rw [label] at steps
    rw [next, steps.unique (Insn.steps_label _ _)]
    exact empty q label no_pick
  have moves := (stacked.each u.index u.line here).2
  have finish : stack (u.index + 1) = [1] := by
    have steps := moves.steps_of_falls (Insn.of_pushes? pushes).2.2.1
    rw [(Insn.steps_push_iff moves.sound pushes).1 steps, start, Local.width, clear.narrow]
    rfl
  rw [start, finish] at moves
  exact ⟨start, finish, moves⟩

include room in
theorem runs_use {j : Nat} (holds : Holds handOver b u.index count v)
    (member : uses ∈ chosen handOver b) (at_place : uses[j]? = some u) :
    ∃ left w, Holds handOver b (u.index + 1) left w ∧
    Runs (fun l s t => b.Expects l s ∧ l.insn.Moves p more s t) (part handOver b u.line)
      (stack u.index ++ copies count []) (stack (u.index + 1) ++ copies left []) := by
  have inside := List.mem_of_getElem? at_place
  obtain ⟨w, left, step, clear, planned, next, either⟩ := holds.use member at_place
  obtain ⟨new, planned', _, parts⟩ := part_use orderly.distinct orderly.bound member at_place
  cases Option.some.inj (planned.symm.trans planned')
  obtain ⟨start, finish, load⟩ := stack_of_use orderly stacked clear inside
  have served {n : Nat} (recopies : CopyPlan.Recopies (new.map Line.insn) n (left + 1)) :
      Runs (fun l s t => b.Expects l s ∧ l.insn.Moves p more s t) new (copies n [])
        (copies (left + 1) []) := by
    have empty : Operands.slots [] + 4 ≤ more :=
      Nat.le_trans (Nat.add_le_add_right (Nat.zero_le _) 4) room
    refine (Runs.map_iff.1 (recopies.runs empty (Nat.succ_le_succ next.few) p)).mono
      fun m added s t moves => ⟨fun q label => ?_, moves⟩
    obtain ⟨op, same⟩ :=
      op_of_mem_copyPlan (List.mem_of_getElem? planned) (List.mem_map_of_mem added)
    simp [same, Insn.op] at label
  refine ⟨left, w, next, ?_⟩
  rw [start, finish, parts]
  rcases either with ⟨rfl, rfl, recopies⟩ | ⟨later, rfl, recopies⟩
  · -- The first use is loaded, and then copied.
    have loads := (clear.loads u inside).loads
    exact .cons
      ⟨fun q label => absurd label ((Insn.of_pushes? (Insn.pushes?_of_loads? loads)).2.2.2.2 q),
        load.raise (by omega)⟩
      (served recopies)
  · rw [if_neg later]
    exact served recopies

include room in
theorem runs_other (gotos : b.GotosEnd) (split : b.lines = front ++ l :: back)
    (holds : Holds handOver b front.length count v)
    (unused : ∀ uses ∈ chosen handOver b, ∀ u ∈ uses, u.index ≠ front.length) :
    Runs (fun l s t => b.Expects l s ∧ l.insn.Moves p more s t) (part handOver b l)
      (stack front.length ++ copies count [])
      (stack (front.length + 1) ++ copies count []) := by
  have here : b.lines[front.length]? = some l := by simp [split]
  obtain ⟨shows, moves⟩ := stacked.each front.length l here
  rw [part_other orderly.distinct here unused]
  by_cases none_held : count = 0
  · rw [none_held, CopyPlan.copies, List.replicate_zero, List.nil_append, List.append_nil,
      List.append_nil]
    exact .single ⟨shows.1, moves.raise (by omega)⟩
  · obtain ⟨_, no_target, straight⟩ := spares_of_holds gotos split holds unused none_held
    have few := holds.few
    refine .single ⟨fun q _ target => ?_, moves_below moves straight count (by omega)⟩
    rw [no_target] at target
    cases target

include room in
theorem runs_upto (gotos : b.GotosEnd) (split : b.lines = front ++ back) :
    ∃ count v, Holds handOver b front.length count v ∧
    Runs (fun l s t => b.Expects l s ∧ l.insn.Moves p more s t) (front.flatMap (part handOver b)) []
      (stack front.length ++ copies count []) := by
  induction front using List.reverseRecOn generalizing back with
  | nil =>
    refine ⟨0, default, holds_start b default, ?_⟩
    rw [List.length_nil, stacked.start]
    exact .nil _
  | append_singleton front l ih =>
    have cut : b.lines = front ++ l :: back := by simp [split]
    obtain ⟨count, v, holds, runs⟩ := ih cut
    rw [List.flatMap_append, List.flatMap_singleton, List.length_append, List.length_singleton]
    by_cases used : ∃ uses ∈ chosen handOver b, ∃ u ∈ uses, u.index = front.length
    · obtain ⟨uses, member, u, inside, here⟩ := used
      obtain ⟨j, at_place⟩ := List.getElem?_of_mem inside
      obtain ⟨_, clear⟩ := clear_of_mem_chosen uses member
      have same : u.line = l := by
        have line := (clear.loads u inside).line
        rw [here, cut, List.getElem?_append_right (Nat.le_refl _), Nat.sub_self] at line
        exact (Option.some.inj line).symm
      rw [← here] at holds runs
      obtain ⟨left, w, next, served⟩ := runs_use orderly stacked room holds member at_place
      rw [same, here] at served
      rw [here] at next runs
      exact ⟨left, w, next, runs.append served⟩
    · have unused : ∀ uses ∈ chosen handOver b, ∀ u ∈ uses, u.index ≠ front.length :=
        fun uses member u inside here => used ⟨uses, member, u, inside, here⟩
      exact ⟨count, v, holds.next unused,
        runs.append (runs_other orderly stacked room gotos cut holds unused)⟩

end Stacks

end Duplicate

open Duplicate

section Follows

variable {p : Pool} {cap : Nat} {picks : UInt32 → Prop} {b : Body} (orderly : b.Orderly p cap picks)
include orderly

theorem Body.Orderly.follows_of_split {front back : List Line} {l m : Line}
    (split : b.lines = front ++ l :: m :: back) : b.Follows picks l m := by
  have follows := orderly.follows
  rw [split] at follows
  exact (List.isChain_cons_cons.1 (List.isChain_append.1 follows).2.1).1

theorem Body.Orderly.gotosEnd : b.GotosEnd :=
  fun _ _ _ _ j split jump always => ((orderly.follows_of_split split).1 j jump always).1

end Follows

theorem Body.Orderly.duplicate {p : Pool} {cap more : Nat} {picks : UInt32 → Prop} {b : Body}
    (handOver : HandOver) (orderly : b.Orderly p cap picks) (room : cap + 4 ≤ more) :
    (b.duplicate handOver).Steady p more b.Expects := by
  obtain ⟨stack, stacked⟩ := orderly.balanced.exists_stacked
  obtain ⟨count, v, _, runs⟩ :=
    runs_upto orderly stacked room orderly.gotosEnd (List.append_nil b.lines).symm
  have rewrites := rewrites_duplicate handOver (tagged_of_distinct orderly.distinct orderly.bound)
  exact ⟨⟨_, runs⟩, distinct_of_rewrites rewrites orderly.distinct
    (constants_splice fun l _ lines found => no_constant_of_replaced orderly.distinct found),
    rewrites.tagged.2⟩

end Restack
