import Restack.Frame
import Restack.Proofs.Trie

set_option autoImplicit false

namespace Restack

theorem Kinds.inter_assoc (a b c : Kinds) : (a.inter b).inter c = a.inter (b.inter c) := by
  simp [Kinds.inter, Bool.and_assoc]

theorem ArrayView.merge_assoc (a b c : ArrayView) : (a.merge b).merge c = a.merge (b.merge c) := by
  cases a <;> cases b <;> cases c <;> simp only [ArrayView.merge] <;> grind [ArrayView.merge]

namespace Frame

@[simp] theorem kindsOf_empty (reg : Nat) : empty.kindsOf reg = .none := by
  simp [kindsOf, empty]

@[simp] theorem kindsOf_join (a b : Frame) (reg : Nat) :
    (a.join b).kindsOf reg = (a.kindsOf reg).inter (b.kindsOf reg) :=
  Trie.get_merge Kinds.inter_comm Kinds.inter_self (a.kinds_fill.trans b.kinds_fill.symm) reg

@[simp] theorem arrayOf_join (a b : Frame) (reg : Nat) :
    (a.join b).arrayOf reg = (a.arrayOf reg).merge (b.arrayOf reg) :=
  Trie.get_merge ArrayView.merge_comm ArrayView.merge_self
    (a.arrays_fill.trans b.arrays_fill.symm) reg

@[simp] theorem isTainted_join (a b : Frame) (reg : Nat) :
    (a.join b).isTainted reg = (a.isTainted reg || b.isTainted reg) :=
  Trie.get_merge Bool.or_comm Bool.or_self (a.taints_fill.trans b.taints_fill.symm) reg

theorem same_iff (a b : Frame) :
    a.same b ↔ ∀ reg, a.kindsOf reg = b.kindsOf reg ∧ a.arrayOf reg = b.arrayOf reg ∧
      a.isTainted reg = b.isTainted reg := by
  rw [same, Bool.and_eq_true, Bool.and_eq_true,
    Trie.same_iff (a.kinds_fill.trans b.kinds_fill.symm),
    Trie.same_iff (a.arrays_fill.trans b.arrays_fill.symm),
    Trie.same_iff (a.taints_fill.trans b.taints_fill.symm), ← forall_and, ← forall_and]
  exact forall_congr' fun reg => and_assoc

def Absorbs (y x : Frame) : Prop := y.merge? x = none

theorem absorbs_iff (y x : Frame) :
    y.Absorbs x ↔ ∀ reg, (y.kindsOf reg).inter (x.kindsOf reg) = y.kindsOf reg ∧
      (y.arrayOf reg).merge (x.arrayOf reg) = y.arrayOf reg ∧
      (y.isTainted reg || x.isTainted reg) = y.isTainted reg := by
  have unchanged : y.Absorbs x ↔ (y.join x).same y := by
    simp [Absorbs, merge?]
  rw [unchanged, same_iff]
  simp only [kindsOf_join, arrayOf_join, isTainted_join]

namespace Absorbs

theorem refl (s : Frame) : s.Absorbs s :=
  (absorbs_iff s s).2 fun _ => ⟨Kinds.inter_self _, ArrayView.merge_self _, Bool.or_self _⟩

theorem trans {a b c : Frame} (upper : a.Absorbs b) (lower : b.Absorbs c) : a.Absorbs c := by
  rw [absorbs_iff] at *
  intro reg
  obtain ⟨kinds, array, taint⟩ := upper reg
  obtain ⟨kinds', array', taint'⟩ := lower reg
  refine ⟨?_, ?_, ?_⟩
  · rw [← kinds, Kinds.inter_assoc, kinds']
  · rw [← array, ArrayView.merge_assoc, array']
  · rw [← taint, Bool.or_assoc, taint']

end Absorbs

theorem join_absorbs_left (a b : Frame) : (a.join b).Absorbs a := by
  refine (absorbs_iff _ _).2 fun reg => ⟨?_, ?_, ?_⟩
  · rw [kindsOf_join, Kinds.inter_comm, ← Kinds.inter_assoc, Kinds.inter_self]
  · rw [arrayOf_join, ArrayView.merge_comm, ← ArrayView.merge_assoc, ArrayView.merge_self]
  · rw [isTainted_join, Bool.or_comm, ← Bool.or_assoc, Bool.or_self]

theorem join_absorbs_right (a b : Frame) : (a.join b).Absorbs b := by
  refine (absorbs_iff _ _).2 fun reg => ⟨?_, ?_, ?_⟩
  · rw [kindsOf_join, Kinds.inter_assoc, Kinds.inter_self]
  · rw [arrayOf_join, ArrayView.merge_assoc, ArrayView.merge_self]
  · rw [isTainted_join, Bool.or_assoc, Bool.or_self]

theorem eq_join_of_merge? {a b joined : Frame} (changed : a.merge? b = some joined) :
    joined = a.join b := by
  simp only [merge?] at changed
  split at changed
  · cases changed
  · exact (Option.some.inj changed).symm

theorem kindsOf_placeParameter (first : Nat) (s : Frame) (d : String) (n reg : Nat) :
    (s.placeParameter first (some d, n)).kindsOf reg = if first + n = reg then .ofDescriptor d
      else s.kindsOf reg := by
  simp [kindsOf, placeParameter]

theorem kindsOf_foldl_placeParameter (first reg : Nat) (parameters : List (Option String × Nat))
    (s : Frame) :
    (parameters.foldl (placeParameter first) s).kindsOf reg = s.kindsOf reg ∨
      ∃ d n, (some d, n) ∈ parameters ∧ reg = first + n ∧
        (parameters.foldl (placeParameter first) s).kindsOf reg = .ofDescriptor d := by
  induction parameters generalizing s with
  | nil => exact .inl rfl
  | cons parameter parameters ih =>
    rw [List.foldl_cons]
    rcases ih (s.placeParameter first parameter) with same | ⟨d, n, member, place, kinds⟩
    · obtain ⟨_ | d, n⟩ := parameter
      · exact .inl same
      · rw [kindsOf_placeParameter] at same
        by_cases here : first + n = reg
        · rw [if_pos here] at same
          exact .inr ⟨d, n, List.mem_cons_self, here.symm, same⟩
        · rw [if_neg here] at same
          exact .inl same
    · exact .inr ⟨d, n, List.mem_cons_of_mem _ member, place, kinds⟩

theorem kindsOf_ofParameters (parameters : List (Option String)) (registers reg : Nat) :
    (ofParameters parameters registers).kindsOf reg = .none ∨
      ∃ d n, (some d, n) ∈ parameters.zipIdx ∧ reg = registers - parameters.length + n ∧
        (ofParameters parameters registers).kindsOf reg = .ofDescriptor d := by
  have placed :=
    kindsOf_foldl_placeParameter (registers - parameters.length) reg parameters.zipIdx empty
  rwa [kindsOf_empty] at placed

end Frame

end Restack
