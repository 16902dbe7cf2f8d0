import Mathlib.Data.List.GetD
import Restack.Trie

set_option autoImplicit false

namespace Restack.Trie

namespace Node

variable {α : Type}

/-- An absent node reads like one that is present and holds nothing but the fill value. -/
theorem get_eq (fill : α) (n : Node α) (i : Nat) :
    n.get fill i =
      if i < fanout then (n.slots fill).getD i fill
      else (n.children.getD ((i - fanout) % fanout) .absent).get fill ((i - fanout) / fanout) := by
  cases n with
  | absent =>
    have nothing : ∀ k, get fill (.absent : Node α) k = fill := fun k => by rw [get]
    rw [nothing]
    split
    · next low => simp [slots, low]
    · simp only [children, List.getD_eq_getElem?_getD, List.getElem?_replicate]
      split <;> simp [nothing]
  | branch s cs =>
    rw [get]
    simp only [slots, children, dite_eq_ite]

theorem get_absent (fill : α) (i : Nat) : get fill (.absent : Node α) i = fill := by
  rw [get]

theorem get_branch_low (fill : α) (s : List α) (cs : List (Node α)) {i : Nat} (low : i < fanout) :
    (Node.branch s cs).get fill i = s.getD i fill := by
  rw [get_eq, if_pos low, slots]

theorem key_cases (i : Nat) : i < fanout ∨ ∃ c < fanout, ∃ k, i = fanout + c + fanout * k := by
  by_cases low : i < fanout
  · exact .inl low
  · refine .inr ⟨(i - fanout) % fanout, Nat.mod_lt _ (by decide), (i - fanout) / fanout, ?_⟩
    have := Nat.mod_add_div (i - fanout) fanout
    omega

theorem get_child (fill : α) (n : Node α) {c : Nat} (bound : c < fanout) (k : Nat) :
    n.get fill (fanout + c + fanout * k) = (n.children.getD c .absent).get fill k := by
  have high : ¬ fanout + c + fanout * k < fanout := by omega
  rw [get_eq, if_neg high, Nat.add_assoc, Nat.add_sub_cancel_left, Nat.add_mul_mod_self_left,
    Nat.mod_eq_of_lt bound,
    Nat.add_mul_div_left _ _ (by decide), Nat.div_eq_of_lt bound, Nat.zero_add]

theorem eq_child_iff {i c k : Nat} (high : ¬ i < fanout) (bound : c < fanout) :
    i = fanout + c + fanout * k ↔ (i - fanout) % fanout = c ∧ (i - fanout) / fanout = k := by
  simp only [fanout] at *
  omega

theorem get_set (fill : α) (n : Node α) (i j : Nat) (v : α) (full : n.Full) :
    (n.set fill i v).get fill j = if i = j then v else n.get fill j := by
  fun_induction set fill n i v generalizing j with
  | case1 n i low =>
    obtain j_low | ⟨d, bound, k, rfl⟩ := key_cases j
    · have places := full.slots_length fill
      rw [get_branch_low fill _ _ j_low, get_eq fill n, if_pos j_low]
      simp only [List.getD_eq_getElem?_getD, List.getElem?_set, places, low]
      by_cases same : i = j <;> simp [same]
    · rw [if_neg (by omega), get_child fill _ bound, get_child fill _ bound, children]
  | case2 n i high _ c ih =>
    obtain j_low | ⟨d, bound, k, rfl⟩ := key_cases j
    · rw [get_branch_low fill _ _ j_low, if_neg (by omega), get_eq fill n, if_pos j_low]
    · rw [get_child fill _ bound, get_child fill _ bound, children]
      simp only [eq_child_iff high bound]
      by_cases same : c = d
      · have child :
            (n.children.set c (set fill (n.children.getD c .absent) ((i - fanout) / fanout) v)).getD
              d .absent =
            set fill (n.children.getD c .absent) ((i - fanout) / fanout) v := by
          rw [same, List.getD_eq_getElem?_getD,
            List.getElem?_set_self (full.children_length ▸ bound)]
          rfl
        rw [child, ih _ (full.child c)]
        simp only [show (i - fanout) % fanout = d from same, same, true_and]
      · rw [List.getD_eq_getElem?_getD, List.getElem?_set_ne same, ← List.getD_eq_getElem?_getD]
        simp only [show (i - fanout) % fanout ≠ d from same, false_and, if_false]

theorem get_map (g : α → α) (fill : α) (keeps : g fill = fill) (n : Node α) (i : Nat) :
    (n.map g).get fill i = g (n.get fill i) := by
  induction i using Nat.strongRecOn generalizing n with
  | ind i ih =>
    cases n with
    | absent => rw [map, get_absent, keeps]
    | branch s cs =>
      rw [map, mapAll_eq_map]
      obtain low | ⟨c, bound, k, rfl⟩ := key_cases i
      · rw [get_branch_low _ _ _ low, get_branch_low _ _ _ low]
        simp only [List.getD_eq_getElem?_getD, List.getElem?_map]
        cases s[i]? with
        | none => exact keeps.symm
        | some v => rfl
      · rw [get_child _ _ bound, get_child _ _ bound, ← ih _ (by simp only [fanout]; omega)]
        simp only [children, List.getD_eq_getElem?_getD, List.getElem?_map]
        cases cs[c]? with
        | none => simp [map]
        | some c => rfl

theorem get_merge (f : α → α → α) (fill : α) (comm : ∀ x y, f x y = f y x)
    (idem : f fill fill = fill) {a b : Node α} (left : a.Full) (right : b.Full) (i : Nat) :
    (a.merge f fill b).get fill i = f (a.get fill i) (b.get fill i) := by
  induction left generalizing b i with
  | absent => rw [merge, get_map (f · fill) fill idem, get_absent, comm]
  | @branch s cs slots counted inner ih =>
    cases right with
    | absent => rw [merge, get_map (f · fill) fill idem, get_absent]
    | @branch t ds slots' counted' inner' =>
      rw [merge, mergeAll_eq_zipWith]
      obtain low | ⟨c, bound, k, rfl⟩ := key_cases i
      · rw [get_branch_low _ _ _ low, get_branch_low _ _ _ low, get_branch_low _ _ _ low]
        simp [List.getD_eq_getElem?_getD, slots, slots', low]
      · have at_left : c < cs.length := by omega
        have at_right : c < ds.length := by omega
        simp only [get_child fill _ bound, children, List.getD_eq_getElem?_getD,
          List.getElem?_zipWith,
          List.getElem?_eq_getElem at_left, List.getElem?_eq_getElem at_right, Option.getD_some]
        exact ih _ (List.getElem_mem at_left) (inner' _ (List.getElem_mem at_right)) _

theorem merge_self {f : α → α → α} (idem : ∀ x, f x x = x) (fill : α) (n : Node α) (full : n.Full) :
    n.merge f fill n = n := by
  induction full with
  | absent => rw [merge, map]
  | @branch s cs _ _ _ ih =>
    have own : s.map (fun x => f x x) = s := by simp only [idem, List.map_id']
    have below : cs.map (fun c => c.merge f fill c) = cs := by
      rw [List.map_congr_left ih, List.map_id']
    rw [merge, mergeAll_eq_zipWith, List.zipWith_self, List.zipWith_self, own, below]

theorem forall_get_eq_iff (fill : α) (a b : Node α) :
    (∀ i, a.get fill i = b.get fill i) ↔
      (∀ i < fanout, (a.slots fill).getD i fill = (b.slots fill).getD i fill) ∧
      ∀ c < fanout, ∀ k, (a.children.getD c .absent).get fill k =
        (b.children.getD c .absent).get fill k := by
  constructor
  · intro agree
    refine ⟨fun i low => ?_, fun c bound k => ?_⟩
    · have at_i := agree i
      rwa [get_eq fill a, if_pos low, get_eq fill b, if_pos low] at at_i
    · rw [← get_child fill a bound, agree, get_child fill b bound]
  · rintro ⟨own, children⟩ i
    rcases key_cases i with low | ⟨c, bound, k, rfl⟩
    · rw [get_eq fill a, if_pos low, get_eq fill b, if_pos low]
      exact own i low
    · rw [get_child fill a bound, get_child fill b bound]
      exact children c bound k

theorem eq_of_getD_eq {s t : List α} (fill : α) (places : s.length = fanout)
    (places' : t.length = fanout) (agree : ∀ i < fanout, s.getD i fill = t.getD i fill) :
    s = t := by
  refine List.ext_getElem (places.trans places'.symm) fun i at_left at_right => ?_
  have at_i := agree i (by omega)
  rwa [List.getD_eq_getElem s fill at_left, List.getD_eq_getElem t fill at_right] at at_i

variable [DecidableEq α]

theorem allFill_eq_all (fill : α) (cs : List (Node α)) :
    allFill fill cs = cs.all (isFill fill) := by
  induction cs with
  | nil => rfl
  | cons c cs ih => rw [allFill, ih, List.all_cons]

theorem isFill_iff (fill : α) {n : Node α} (full : n.Full) :
    n.isFill fill ↔ ∀ i, n.get fill i = fill := by
  induction full with
  | absent => simp [isFill, get_absent]
  | @branch s cs places children inner ih =>
    rw [isFill, allFill_eq_all, Bool.and_eq_true, List.all_eq_true, List.all_eq_true]
    constructor
    · rintro ⟨own, below⟩ i
      rcases key_cases i with low | ⟨c, bound, k, rfl⟩
      · have inside : i < s.length := by omega
        have at_i := own _ (List.getElem_mem inside)
        rw [get_branch_low _ _ _ low]
        simpa [List.getElem?_eq_getElem inside] using at_i
      · have inside : c < cs.length := by omega
        have member := List.getElem_mem inside
        rw [get_child _ _ bound, Node.children, List.getD_eq_getElem cs _ inside]
        exact (ih _ member).1 (below _ member) _
    · intro nothing
      have agree : ∀ i, (Node.branch s cs).get fill i = (Node.absent).get fill i := fun i => by
        rw [nothing, get_absent]
      obtain ⟨own, below⟩ := (forall_get_eq_iff fill _ _).1 agree
      refine ⟨fun v member => ?_, fun c member => (ih c member).2 fun k => ?_⟩
      · obtain ⟨i, inside, rfl⟩ := List.mem_iff_getElem.1 member
        have at_i := own i (by omega)
        simpa [slots, List.getElem?_eq_getElem inside, places ▸ inside] using at_i
      · obtain ⟨i, inside, rfl⟩ := List.mem_iff_getElem.1 member
        have at_child := below i (by omega) k
        simp only [Node.children] at at_child
        rwa [List.getD_eq_getElem cs _ inside, List.getD_replicate _ (by omega),
          get_absent] at at_child

theorem allSame_iff (fill : α) {cs ds : List (Node α)} (lengths : cs.length = ds.length)
    (each : ∀ c ∈ cs, ∀ d ∈ ds, (c.same fill d ↔ ∀ i, c.get fill i = d.get fill i)) :
    allSame fill cs ds ↔
      ∀ c < cs.length, ∀ k, (cs.getD c .absent).get fill k = (ds.getD c .absent).get fill k := by
  induction cs generalizing ds with
  | nil => simp [allSame]
  | cons c cs ih =>
    cases ds with
    | nil => simp at lengths
    | cons d ds =>
      rw [allSame, Bool.and_eq_true, each c List.mem_cons_self d List.mem_cons_self,
        ih (by simpa using lengths) fun c' member d' inside =>
          each c' (List.mem_cons_of_mem _ member) d' (List.mem_cons_of_mem _ inside)]
      constructor
      · rintro ⟨first, others⟩ i bound
        cases i with
        | zero => exact first
        | succ i => exact others i (by simpa using bound)
      · intro agree
        exact ⟨agree 0 (by simp), fun i bound => agree (i + 1) (by simpa using bound)⟩

theorem same_iff (fill : α) {a b : Node α} (left : a.Full) (right : b.Full) :
    a.same fill b ↔ ∀ i, a.get fill i = b.get fill i := by
  induction left generalizing b with
  | absent =>
    rw [same, isFill_iff fill right]
    simp only [get_absent, eq_comm]
  | @branch s cs places children inner ih =>
    cases right with
    | absent =>
      rw [same, isFill_iff fill (.branch places children inner)]
      simp only [get_absent]
    | @branch t ds places' children' inner' =>
      rw [same, forall_get_eq_iff, Bool.and_eq_true, decide_eq_true_iff]
      refine and_congr ⟨fun equal => ?_, fun agree => eq_of_getD_eq fill places places' agree⟩ ?_
      · subst equal
        exact fun _ _ => rfl
      · rw [allSame_iff fill (children.trans children'.symm) fun c member d inside =>
          ih c member (inner' d inside), children]
        rfl

end Node

variable {α : Type} [DecidableEq α]

@[simp] theorem get_set (t : Trie α) (i j : Nat) (v : α) :
    (t.set i v).get j = if i = j then v else t.get j := by
  unfold set
  split
  · next kept =>
    split
    · next same => rw [← same, kept]
    · rfl
  · exact t.root.get_set t.fill i j v t.full

omit [DecidableEq α] in
@[simp] theorem get_empty (fill : α) (i : Nat) : (empty fill).get i = fill := by
  have agree : ∀ i, (empty fill).root.get fill i = (Node.absent).get fill i := by
    refine (Node.forall_get_eq_iff fill _ _).2 ⟨fun i low => ?_, fun c bound k => ?_⟩
    · rfl
    · rfl
  exact (agree i).trans (Node.get_absent fill i)

omit [DecidableEq α] in
theorem get_merge {f : α → α → α} (comm : ∀ x y, f x y = f y x) (idem : ∀ x, f x x = x)
    {a b : Trie α} (fills : a.fill = b.fill) (i : Nat) :
    (a.merge f b).get i = f (a.get i) (b.get i) := by
  have pointwise := Node.get_merge f a.fill comm (idem a.fill) a.full b.full i
  simpa only [get, merge, ← fills] using pointwise

theorem same_iff {a b : Trie α} (fills : a.fill = b.fill) : a.same b ↔ ∀ i, a.get i = b.get i := by
  rw [same, Bool.and_eq_true, decide_eq_true_iff, Node.same_iff a.fill a.full b.full]
  simp only [get, ← fills, true_and]

end Restack.Trie
