import Restack.Proofs.Trie

set_option autoImplicit false

namespace Restack.Trie

namespace Node

variable {α : Type} [DecidableEq α]

theorem mem_own_iff {fill : α} {s : List α} (places : s.length = fanout) {base stride k : Nat}
    {v : α} :
    (k, v) ∈ (s.zipIdx.filter (·.1 ≠ fill)).map (fun p => (base + stride * p.2, p.1)) ↔
      ∃ j < fanout, k = base + stride * j ∧ v = s.getD j fill ∧ v ≠ fill := by
  simp only [List.mem_map, List.mem_filter, decide_eq_true_eq, Prod.mk.injEq,
    List.getD_eq_getElem?_getD]
  constructor
  · rintro ⟨⟨w, j⟩, ⟨here, differs⟩, rfl, rfl⟩
    have value := List.mem_zipIdx_iff_getElem?.1 here
    obtain ⟨inside, _⟩ := List.getElem?_eq_some_iff.1 value
    exact ⟨j, places ▸ inside, rfl, by rw [value, Option.getD_some], differs⟩
  · rintro ⟨j, low, rfl, value, differs⟩
    have inside : j < s.length := by omega
    rw [List.getElem?_eq_getElem inside, Option.getD_some] at value
    exact ⟨(v, j),
      ⟨List.mem_zipIdx_iff_getElem?.2 (value ▸ List.getElem?_eq_getElem inside), differs⟩, rfl, rfl⟩

theorem childEntries_eq_flatMap (fill : α) (base stride c : Nat) (ns : List (Node α)) :
    childEntries fill base stride c ns =
      (ns.zipIdx c).flatMap fun p => p.1.entries fill (base + stride * (fanout + p.2))
        (stride * fanout) := by
  induction ns generalizing c with
  | nil => rfl
  | cons n ns ih => rw [childEntries, ih, List.zipIdx_cons, List.flatMap_cons]

theorem child_place (base stride c k : Nat) :
    base + stride * (fanout + c) + stride * fanout * k =
      base + stride * (fanout + c + fanout * k) := by
  rw [Nat.mul_add stride (fanout + c), Nat.mul_assoc, Nat.add_assoc]

theorem mem_entries_iff (fill : α) {n : Node α} (full : n.Full) (base stride k : Nat) (v : α) :
    (k, v) ∈ n.entries fill base stride ↔ ∃ i, k = base + stride * i ∧ v = n.get fill i ∧
    v ≠ fill := by
  induction full generalizing base stride with
  | absent => simp [entries, get_absent]
  | @branch s cs places children inner ih =>
    rw [entries, childEntries_eq_flatMap, List.mem_append, mem_own_iff places]
    simp only [List.mem_flatMap, Prod.exists, List.mem_zipIdx_iff_getElem?]
    constructor
    · rintro (⟨j, low, key, value, differs⟩ | ⟨m, c, here, listed⟩)
      · exact ⟨j, key, by rw [get_branch_low _ _ _ low, value], differs⟩
      · obtain ⟨inside, rfl⟩ := List.getElem?_eq_some_iff.1 here
        obtain ⟨i, key, value, differs⟩ := (ih _ (List.getElem_mem inside) _ _).1 listed
        refine ⟨_, key.trans (child_place base stride c i), ?_, differs⟩
        rw [get_child _ _ (children ▸ inside), Node.children, List.getD_eq_getElem _ _ inside,
          value]
    · rintro ⟨i, key, value, differs⟩
      rcases key_cases i with low | ⟨c, bound, i, rfl⟩
      · exact .inl ⟨i, low, key, by rw [value, get_branch_low _ _ _ low], differs⟩
      · have inside : c < cs.length := by omega
        rw [get_child _ _ bound, Node.children, List.getD_eq_getElem _ _ inside] at value
        refine .inr
          ⟨cs[c], c, List.getElem?_eq_getElem inside, (ih _ (List.getElem_mem inside) _ _).2 ?_⟩
        exact ⟨i, key.trans (child_place base stride c i).symm, value, differs⟩

theorem zipIdx_ascending {β : Type} (l : List β) : l.zipIdx.Pairwise fun p q => p.2 < q.2 := by
  rw [← List.pairwise_map, List.zipIdx_map_snd]
  exact List.pairwise_lt_range'

theorem entries_distinct (fill : α) {n : Node α} (full : n.Full) (base : Nat) {stride : Nat}
    (pos : 0 < stride) :
    (n.entries fill base stride).Pairwise fun e e' => e.1 ≠ e'.1 := by
  induction full generalizing base stride with
  | absent => simp [entries]
  | @branch s cs places children inner ih =>
    have same_place {i j : Nat} (same : base + stride * i = base + stride * j) : i = j :=
      Nat.eq_of_mul_eq_mul_left pos (Nat.add_left_cancel same)
    have below {p : Node α × Nat} (here : p ∈ cs.zipIdx) {e : Nat × α}
        (listed : e ∈ p.1.entries fill (base + stride * (fanout + p.2)) (stride * fanout)) :
        p.2 < fanout ∧ ∃ i, e.1 = base + stride * (fanout + p.2 + fanout * i) := by
      have child := List.mem_zipIdx_iff_getElem?.1 here
      obtain ⟨inside, _⟩ := List.getElem?_eq_some_iff.1 child
      obtain ⟨i, key, _⟩ :=
        (mem_entries_iff fill (inner _ (List.mem_of_getElem? child)) _ _ e.1 e.2).1 listed
      exact ⟨children ▸ inside, i, key.trans (child_place base stride p.2 i)⟩
    rw [entries, childEntries_eq_flatMap, List.pairwise_append, List.pairwise_map,
      List.pairwise_flatMap]
    refine ⟨?_, ⟨?_, ?_⟩, ?_⟩
    · refine ((zipIdx_ascending s).filter _).imp fun less same => ?_
      exact Nat.ne_of_lt less (same_place same)
    · intro p here
      exact ih _ (List.fst_mem_of_mem_zipIdx here) _ (Nat.mul_pos pos (by decide))
    · refine (zipIdx_ascending cs).imp_of_mem fun {p q} here there less e listed e' listed' same =>
        ?_
      obtain ⟨place, i, key⟩ := below here listed
      obtain ⟨place', i', key'⟩ := below there listed'
      have := same_place (key.symm.trans (same.trans key'))
      simp only [fanout] at *
      omega
    · intro e own e' other same
      obtain ⟨j, low, key, _⟩ := (mem_own_iff places (k := e.1) (v := e.2)).1 own
      obtain ⟨p, here, listed⟩ := List.mem_flatMap.1 other
      obtain ⟨_, i, key'⟩ := below here listed
      have := same_place (key.symm.trans (same.trans key'))
      omega

end Node

variable {α : Type} [DecidableEq α]

theorem mem_entries_iff (t : Trie α) (k : Nat) (v : α) :
    (k, v) ∈ t.entries ↔ v = t.get k ∧ v ≠ t.fill := by
  rw [entries, List.mem_mergeSort, Node.mem_entries_iff t.fill t.full]
  simp [get]

theorem entries_ascending (t : Trie α) : (t.entries.map Prod.fst).Pairwise (· < ·) := by
  have sorted : t.entries.Pairwise fun e e' => e.1 ≤ e'.1 := by
    refine (List.pairwise_mergeSort ?_ ?_ _).imp of_decide_eq_true
    · intro a b c le le'
      simp only [decide_eq_true_eq] at *
      exact Nat.le_trans le le'
    · intro a b
      simpa using Nat.le_total a.1 b.1
  have distinct : t.entries.Pairwise fun e e' => e.1 ≠ e'.1 :=
    (List.mergeSort_perm _ _).symm.pairwise
      (t.root.entries_distinct t.fill t.full 0 Nat.one_pos) Ne.symm
  exact List.pairwise_map.2 (sorted.imp₂ (fun _ _ => Nat.lt_of_le_of_ne) distinct)

/-- The listing of a trie is exact: it holds the keys with another value than the fill value, each
with the value that reading it gives, once, in ascending order. -/
theorem entries_exact (t : Trie α) :
    (∀ k v, (k, v) ∈ t.entries ↔ v = t.get k ∧ v ≠ t.fill) ∧
    (t.entries.map Prod.fst).Pairwise (· < ·) :=
  ⟨t.mem_entries_iff, t.entries_ascending⟩

end Restack.Trie
