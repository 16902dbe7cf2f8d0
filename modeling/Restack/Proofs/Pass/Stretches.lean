import Mathlib.Data.List.Pairwise
import Restack.Pass.Duplicate
import Restack.Proofs.Pass.Walks
import Restack.Proofs.Stack.Steps

set_option autoImplicit false

namespace Restack.Duplicate

variable {handOver : HandOver} {b : Body} {n : Nat} {s : Duplicate.State} {l : Line} {v : Local}
  {uses others : Stretch}

/-- The use loads the local right behind the head of a block. -/
structure Use.AtHead (b : Body) (v : Local) (u : Use) : Prop where
  line : b.lines[u.index]? = some u.line
  loads : u.line.insn.loads? = some v
  headed : ∃ k l q, u.index = k + 1 ∧ b.lines[k]? = some l ∧ l.insn = .label (some q)

/-- Copies of the local may stay on the stack along the line. -/
def Lets (b : Body) (v : Local) (l : Line) : Prop := isBarrier b l = false ∧ l.insn.stores? ≠ some v

/-- Uses of one narrow local, with nothing between them that stops copies. -/
structure Clear (b : Body) (v : Local) (uses : Stretch) : Prop where
  narrow : v.isWide = false
  ascending : uses.Pairwise fun u w => u.index < w.index
  loads : ∀ u ∈ uses, u.AtHead b v
  free : ∀ u ∈ uses, ∀ w ∈ uses, ∀ k l, u.index < k → k ≤ w.index →
    b.lines[k]? = some l → Lets b v l

theorem Clear.sublist {part : Stretch} (clear : Clear b v uses) (sub : part.Sublist uses) :
    Clear b v part :=
  ⟨clear.narrow, clear.ascending.sublist sub, fun u inside => clear.loads u (sub.subset inside),
    fun u inside w inside' => clear.free u (sub.subset inside) w (sub.subset inside')⟩

/-- The uses come before place `n`, and nothing has stopped copies since. -/
structure Ongoing (b : Body) (n : Nat) (v : Local) (uses : Stretch) :
    Prop extends Clear b v uses where
  before : ∀ u ∈ uses, u.index < n ∧ ∀ k l, u.index < k → k < n → b.lines[k]? = some l → Lets b v l

section

variable (ongoing : Ongoing b n v uses) (here : b.lines[n]? = some l)
  (lets : uses ≠ [] → Lets b v l)
include ongoing here lets

theorem Ongoing.lets_upto {u : Use} (inside : u ∈ uses) {k : Nat} {l' : Line} (after : u.index < k)
    (upto : k ≤ n) (found : b.lines[k]? = some l') :
    Lets b v l' := by
  rcases Nat.lt_or_eq_of_le upto with earlier | rfl
  · exact (ongoing.before u inside).2 k l' after earlier found
  · cases here.symm.trans found
    exact lets (List.ne_nil_of_mem inside)

theorem Ongoing.pass : Ongoing b (n + 1) v uses :=
  ⟨ongoing.toClear, fun u inside =>
    ⟨Nat.lt_succ_of_lt (ongoing.before u inside).1, fun _ _ after upto found =>
    ongoing.lets_upto here lets inside after (Nat.le_of_lt_succ upto) found⟩⟩

end

theorem Ongoing.push (ongoing : Ongoing b n v uses) (lets : uses ≠ [] → Lets b v l)
    (use : Use.AtHead b v ⟨n, l⟩) :
    Ongoing b (n + 1) v (uses ++ [⟨n, l⟩]) := by
  have passed := ongoing.pass use.line lets
  have all {P : Use → Prop} (old : ∀ u ∈ uses, P u) (new : P ⟨n, l⟩) :
      ∀ u ∈ uses ++ [⟨n, l⟩], P u :=
    List.forall_mem_append.2 ⟨old, List.forall_mem_singleton.2 new⟩
  have upto : ∀ w ∈ uses ++ [⟨n, l⟩], w.index ≤ n :=
    all (fun w inside => Nat.le_of_lt (ongoing.before w inside).1) (Nat.le_refl n)
  refine ⟨⟨ongoing.narrow, ?_, all ongoing.loads use,
    all (fun u inside w inside' k l' after le found => ?_) ?_⟩,
    all passed.before ⟨Nat.lt_succ_self n, fun k l' after le => ?_⟩⟩
  · refine List.pairwise_append.2
      ⟨ongoing.ascending, List.pairwise_singleton _ _, fun u inside w new => ?_⟩
    cases List.mem_singleton.1 new
    exact (ongoing.before u inside).1
  · exact ongoing.lets_upto use.line lets inside after (Nat.le_trans le (upto w inside')) found
  · -- The new use is the last one.
    intro w inside' k l' after le
    have := upto w inside'
    dsimp only at after
    omega
  · dsimp only at after
    omega

structure Found (b : Body) (n : Nat) (s : Duplicate.State) : Prop where
  current : ∀ (v : Local) (uses : Array Use), s.current[v]? = some uses → Ongoing b n v uses.toList
  ended : ∀ uses ∈ s.ended, ∃ v, Clear b v uses.toList
  atHead : s.atHead = true → ∃ k l q, n = k + 1 ∧ b.lines[k]? = some l ∧ l.insn = .label (some q)

theorem clear_endAll (found : Found b n s) :
    ∀ uses ∈ (endAll handOver s).ended, ∃ v, Clear b v uses.toList := by
  intro uses inside
  simp only [endAll, Array.mem_append, List.mem_toArray, List.mem_map] at inside
  rcases inside with before | ⟨⟨v, _⟩, handed, rfl⟩
  · exact found.ended uses before
  · have here := Std.HashMap.mem_toList_iff_getElem?_eq_some.1 ((handOver.perm _).mem_iff.1 handed)
    exact ⟨v, (found.current v _ here).toClear⟩

theorem found_visit (found : Found b n s) (here : b.lines[n]? = some l) :
    Found b (n + 1) (visit handOver b s l n) := by
  -- A barrier ends all stretches.
  obtain ⟨t, same, ended, head, current⟩ : ∃ t, t =
    (if isBarrier b l then endAll handOver s else s) ∧
      (∀ uses ∈ t.ended, ∃ v, Clear b v uses.toList) ∧ t.atHead = s.atHead ∧
      ∀ (v : Local) (uses : Array Use), t.current[v]? = some uses → isBarrier b l = false ∧
      Ongoing b n v uses.toList := by
    refine ⟨_, rfl, ?_⟩
    split
    · exact ⟨clear_endAll found, rfl, by simp [endAll]⟩
    next free =>
      exact ⟨found.ended, rfl, fun v uses known =>
        ⟨by simpa using free, found.current v uses known⟩⟩
  have goes_on (v : Local) (uses : Array Use) (known : t.current[v]? = some uses)
      (unstored : l.insn.stores? ≠ some v) :
      Ongoing b (n + 1) v uses.toList :=
    (current v uses known).2.pass here fun _ => ⟨(current v uses known).1, unstored⟩
  have at_head : (visit handOver b s l n).atHead = true →
      ∃ k l q, n + 1 = k + 1 ∧ b.lines[k]? = some l ∧ l.insn = .label (some q) := by
    intro is_head
    dsimp only [visit] at is_head
    split at is_head
    next q label => exact ⟨n, l, q, rfl, here, label⟩
    next => cases is_head
  have kept (unstored : ∀ v uses, t.current[v]? = some uses → l.insn.stores? ≠ some v) :
      Found b (n + 1) { t with atHead := (visit handOver b s l n).atHead } :=
    ⟨fun v uses known => goes_on v uses known (unstored v uses known), ended, at_head⟩
  unfold visit
  dsimp only
  rw [← same]
  split
  next a access =>
    unfold Duplicate.access
    split
    next wide =>
      refine kept fun v uses known stores => ?_
      obtain ⟨_, rfl⟩ : a.isStore = true ∧ a.var = v := by simpa [access, Insn.stores?] using stores
      rw [(current _ uses known).2.narrow] at wide
      cases wide
    next narrow =>
      split
      next isStore =>
        have stores : l.insn.stores? = some a.var := by simp [access, Insn.stores?, isStore]
        split
        next uses known =>
          refine ⟨fun v uses' found => ?_, fun uses' inside => ?_, at_head⟩
          · obtain ⟨other, found⟩ := erase_cases found
            exact goes_on v uses' found fun stores' =>
              other (Option.some.inj (stores'.symm.trans stores))
          · rcases Array.mem_push.1 inside with before | rfl
            · exact ended uses' before
            · exact ⟨a.var, (current _ _ known).2.toClear⟩
        next unknown =>
          refine kept fun v uses known stores' => ?_
          rw [← Option.some.inj (stores.symm.trans stores'), unknown] at known
          cases known
      next isLoad =>
        have loads : l.insn.loads? = some a.var := by simp [access, Insn.loads?, isLoad]
        have unstored (v : Local) : l.insn.stores? ≠ some v := by
          simp [Insn.stores?_of_loads? loads]
        split
        next headed =>
          refine ⟨fun v uses known => ?_, ended, at_head⟩
          dsimp only at known
          rw [Std.HashMap.getElem?_alter] at known
          split at known
          next same_local =>
            cases known
            cases eq_of_beq same_local
            rw [Array.toList_push]
            have use : Use.AtHead b a.var ⟨n, l⟩ := ⟨here, loads, found.atHead (head ▸ headed)⟩
            cases known : t.current[a.var]? with
            | none =>
              exact Ongoing.push ⟨⟨by simpa using narrow, .nil, by simp, by simp⟩, by simp⟩
                (by simp) use
            | some uses =>
              exact (current _ uses known).2.push
                (fun _ => ⟨(current _ uses known).1, unstored _⟩) use
          next => exact goes_on v uses known (unstored v)
        next => exact kept fun v _ _ => unstored v
  next no_access =>
    refine kept fun v _ _ => ?_
    cases insn : l.insn with
    | access a => exact absurd insn (no_access a)
    | label | literal | constant | plain | jump | switch => simp [Insn.stores?]

theorem clear_of_mem_stretches (member : uses ∈ stretches handOver b) : ∃ v, Clear b v uses := by
  have found : Found b b.lines.length
      (b.lines.zipIdx.foldl (fun s x => visit handOver b s x.1 x.2) ⟨∅, #[], false⟩) := by
    rw [← List.length_zipIdx (l := b.lines) (i := 0)]
    refine foldl_along (fun front s => Found b front.length s) ⟨by simp, by simp, by simp⟩ ?_
    rintro front ⟨l, index⟩ back s split found
    have at_front : b.lines.zipIdx[front.length]? = some (l, index) := by simp [split]
    rw [List.getElem?_zipIdx] at at_front
    obtain ⟨l', here, same⟩ := Option.map_eq_some_iff.1 at_front
    cases same
    rw [List.length_append]
    simpa using found_visit found here
  have inside := (List.mem_filter.1 member).1
  obtain ⟨array, listed, rfl⟩ := List.mem_map.1 inside
  exact clear_endAll found array (Array.mem_toList_iff.1 listed)

/-- Every use of one stretch comes before every use of the other, or after it. -/
def Apart (uses others : Stretch) : Prop :=
  (∀ u ∈ uses, ∀ v ∈ others, u.index < v.index) ∨ ∀ u ∈ uses, ∀ v ∈ others, v.index < u.index

theorem sublist_of_mem_outside {first last : Nat} {part : Stretch}
    (member : part ∈ outside first last uses) :
    part.Sublist uses ∧ ((∀ u ∈ part, u.index < first) ∨ ∀ u ∈ part, last < u.index) := by
  have either := (List.mem_filter.1 member).1
  simp only [List.mem_cons, List.not_mem_nil, or_false] at either
  rcases either with rfl | rfl
  · exact ⟨List.filter_sublist, .inl fun u inside => by simpa using (List.mem_filter.1 inside).2⟩
  · exact ⟨List.filter_sublist.trans List.filter_sublist,
      .inr fun u inside => by simpa using (List.mem_filter.1 inside).2⟩

theorem choose_of_sublist {P : Stretch → Prop}
    (part : ∀ uses part : Stretch, part.Sublist uses → P uses → P part) (all : List Stretch)
    (good : ∀ uses ∈ all, P uses) : ∀ uses ∈ choose all, P uses := by
  fun_induction choose all with
  | case1 all first others found last ih =>
    intro uses member
    rcases List.mem_cons.1 member with rfl | later
    · exact good _ (List.mem_of_getLast? found)
    · refine ih (fun uses' sorted => ?_) uses later
      obtain ⟨whole, listed, cut⟩ := List.mem_flatMap.1 ((List.mergeSort_perm _ _).mem_iff.1 sorted)
      exact part whole uses' (sublist_of_mem_outside cut).1
        (good whole ((List.dropLast_sublist all).subset listed))
  | case2 => simp

theorem between_of_ascending {first : Use}
    (ascending : (first :: others).Pairwise fun u v => u.index < v.index) :
    ∀ u ∈ first :: others, first.index ≤ u.index ∧
      u.index ≤ ((first :: others).getLast?.map Use.index).getD first.index := by
  intro u inside
  constructor
  · rcases List.mem_cons.1 inside with rfl | later
    · exact Nat.le_refl _
    · exact Nat.le_of_lt (List.rel_of_pairwise_cons ascending later)
  · rw [List.getLast?_eq_some_getLast (List.cons_ne_nil first others), Option.map_some,
      Option.getD_some]
    rcases List.mem_append.1 (List.dropLast_append_getLast (List.cons_ne_nil first others) ▸ inside)
      with early | last
    · rw [← List.dropLast_append_getLast (List.cons_ne_nil first others)] at ascending
      exact Nat.le_of_lt ((List.pairwise_append.1 ascending).2.2 u early _ List.mem_cons_self)
    · exact Nat.le_of_eq (by rw [List.mem_singleton.1 last])

theorem pairwise_choose (all : List Stretch)
    (ascending : ∀ uses ∈ all, uses.Pairwise fun u v => u.index < v.index) :
    (choose all).Pairwise Apart := by
  fun_induction choose all with
  | case1 all first others found last ih =>
    have parts : ∀ part ∈ sortByRank (all.dropLast.flatMap (outside first.index last)), ∃ uses ∈
        all, part.Sublist uses ∧
        ((∀ u ∈ part, u.index < first.index) ∨ ∀ u ∈ part, last < u.index) := by
      intro part sorted
      obtain ⟨whole, listed, cut⟩ := List.mem_flatMap.1 ((List.mergeSort_perm _ _).mem_iff.1 sorted)
      exact ⟨whole, (List.dropLast_sublist all).subset listed, sublist_of_mem_outside cut⟩
    refine List.pairwise_cons.2 ⟨?_, ih fun part sorted => ?_⟩
    · refine choose_of_sublist (fun uses part sub apart => ?_) _ fun part sorted => ?_
      · exact apart.imp (fun before u inside v inside' => before u inside v (sub.subset inside'))
          (fun after u inside v inside' => after u inside v (sub.subset inside'))
      · obtain ⟨_, _, _, side⟩ := parts part sorted
        have between := between_of_ascending (ascending _ (List.mem_of_getLast? found))
        rcases side with before | after
        · exact .inr fun u inside v inside' => Nat.lt_of_lt_of_le (before v inside')
            (between u inside).1
        · exact .inl fun u inside v inside' => Nat.lt_of_le_of_lt (between u inside).2
            (after v inside')
    · obtain ⟨whole, listed, sub, _⟩ := parts part sorted
      exact (ascending whole listed).sublist sub
  | case2 => exact .nil

def chosen (handOver : HandOver) (b : Body) : List Stretch :=
  choose (sortByRank (stretches handOver b))

theorem clear_of_mem_chosen : ∀ uses ∈ chosen handOver b, ∃ v, Clear b v uses :=
  choose_of_sublist (fun _ _ sub ⟨v, clear⟩ => ⟨v, clear.sublist sub⟩) _ fun _ sorted =>
    clear_of_mem_stretches ((List.mergeSort_perm _ _).mem_iff.1 sorted)

theorem pairwise_chosen (handOver : HandOver) (b : Body) : (chosen handOver b).Pairwise Apart := by
  refine pairwise_choose _ fun uses sorted => ?_
  obtain ⟨v, clear⟩ := clear_of_mem_stretches ((List.mergeSort_perm _ _).mem_iff.1 sorted)
  exact clear.ascending

theorem Apart.symm (apart : Apart uses others) : Apart others uses :=
  Or.symm (apart.imp (fun before v inside u inside' => before u inside' v inside)
    fun after v inside u inside' => after u inside' v inside)

theorem apart_of_mem_chosen (member : uses ∈ chosen handOver b)
    (member' : others ∈ chosen handOver b) :
    uses = others ∨ Apart uses others := by
  by_cases same : uses = others
  · exact .inl same
  · have : Std.Symm Apart := ⟨fun _ _ apart => apart.symm⟩
    exact .inr ((pairwise_chosen handOver b).forall member member' same)

end Restack.Duplicate
