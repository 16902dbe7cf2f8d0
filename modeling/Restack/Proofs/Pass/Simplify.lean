import Restack.Layout.Slots
import Restack.Pass.Simplify
import Restack.Proofs.Pass.Scans
import Restack.Proofs.Pass.Stretches
import Restack.Proofs.Stack.CopyPlan

set_option autoImplicit false

namespace Restack

variable {b : Body}

section InlineConstants

open InlineConstants

variable {b : Body}

theorem Body.rewrites_inlineConstants (tagged : Tagged b.lines b.fresh) :
    b.Rewrites b.inlineConstants := by
  have noted := noted_walk b
  have edit : Edit b.lines b.fresh ((b.lines.zip b.lines.tail).foldl
      (fun replacement pair => move (walker.walk b .start) replacement pair.1 pair.2) ∅)
        b.fresh := by
    refine List.foldlRecOn (motive := fun replacement => Edit b.lines b.fresh replacement b.fresh) _
      _ (.empty _ _) ?_
    rintro replacement edit ⟨value, store⟩ pair
    have value_member : value ∈ b.lines := (List.of_mem_zip pair).1
    simp only [move]
    split
    next moves =>
      rw [Bool.and_eq_true] at moves
      obtain ⟨l, member, same, v, stores⟩ := noted.single store.tag moves.1
      have dropped :=
        (edit.drop tagged ⟨value, value_member, rfl, Insn.isMovable_of_isConstant moves.2⟩).drop
          tagged
        ⟨l, member, same, Insn.isMovable_of_stores? stores⟩
      split
      next load found =>
        obtain ⟨_, _, l, member, same, loads⟩ := noted.use _ load found
        refine dropped.insert tagged ⟨l, member, same, Insn.isMovable_of_loads? loads⟩
          (Nat.le_refl _) (fun m inside => ?_)
          (List.pairwise_singleton _ _)
        cases List.mem_singleton.1 inside
        exact .inl ⟨value_member, .inl moves.2⟩
      next => exact dropped
    next => exact edit
  exact .of_edit tagged edit

end InlineConstants

section PruneStoreLoads

open PruneStoreLoads

variable {b : Body}

theorem Body.rewrites_pruneStoreLoads (tagged : Tagged b.lines b.fresh) :
    b.Rewrites b.pruneStoreLoads := by
  refine ⟨⟨[], _, rfl, .of_filter b.lines fun l member fixed => ?_⟩,
    tagged.sublist List.filter_sublist, fun l inside _ => (List.mem_filter.1 inside).1, rfl, rfl⟩
  by_contra gone
  obtain ⟨⟨store, load⟩, ⟨front, first, mid, last, back, split, ⟨⟨v, stores, loads⟩, _⟩, rfl, rfl⟩,
    which, _⟩ :=
    (noted_walk (account_spans b)).dropped l.tag (by simpa using gone)
  have moves {m : Line} (there : m ∈ b.lines) (same : l.tag = m.tag)
      (movable : m.insn.isMovable = true) : False := by
    rcases tagged.eq_or_constant there member same.symm with rfl | both
    · rw [movable] at fixed
      cases fixed
    · rw [Insn.isMovable_of_isConstant both.2] at fixed
      cases fixed
  rcases which with same | same
  · exact moves (by simp [split]) same (Insn.isMovable_of_stores? stores)
  · exact moves (by simp [split]) same (Insn.isMovable_of_loads? loads)

end PruneStoreLoads

theorem Body.rewrites_propagateCopies (tagged : Tagged b.lines b.fresh) :
    b.Rewrites b.propagateCopies :=
  .of_edit tagged
    ((PropagateCopies.scan b).edit (s := ⟨.empty, ∅, none, ∅, b.fresh⟩) tagged rfl rfl)

theorem Body.rewrites_removeUnused (tagged : Tagged b.lines b.fresh) : b.Rewrites b.removeUnused :=
  .of_edit tagged ((RemoveUnused.scan _).edit (s := ⟨none, ∅, b.fresh⟩) tagged rfl rfl)

section Duplicate

open Duplicate

variable {handOver : HandOver} {b : Body} {uses : Stretch} {v : Local}

theorem Duplicate.tagAll_spec (fresh : Nat) (insns : List Insn) :
    (tagAll fresh insns).1.Pairwise (fun x y => x.tag < y.tag) ∧
    (tagAll fresh insns).2 = fresh + insns.length ∧
      ∀ m ∈ (tagAll fresh insns).1, fresh ≤ m.tag ∧ m.tag < fresh + insns.length ∧
      m.insn ∈ insns := by
  refine ⟨?_, rfl, fun m inside => ?_⟩
  · refine List.pairwise_map.2 (List.pairwise_iff_getElem.2 fun i j _ _ less => ?_)
    rw [List.getElem_zipIdx, List.getElem_zipIdx]
    dsimp only
    omega
  · obtain ⟨⟨insn, tag⟩, listed, rfl⟩ := List.mem_map.1 inside
    obtain ⟨from_fresh, less, same⟩ := List.mem_zipIdx listed
    refine ⟨from_fresh, by simpa using less, ?_⟩
    dsimp only
    rw [same]
    exact List.getElem_mem _

theorem Duplicate.edit_serve (tagged : Tagged b.lines b.fresh)
    {replacement : Std.HashMap Nat (List Line)} {fresh : Nat}
    (edit : Edit b.lines b.fresh replacement fresh) (clear : Clear b v uses) :
    Edit b.lines b.fresh (serve replacement fresh uses).1 (serve replacement fresh uses).2 := by
  refine List.foldlRecOn (motive := fun state : Std.HashMap Nat (List Line) × Nat =>
    Edit b.lines b.fresh state.1 state.2)
    _ _ edit ?_
  rintro ⟨replacement, fresh⟩ edit ⟨use, step⟩ pair
  obtain ⟨in_uses, planned⟩ := List.of_mem_zip pair
  have of_use := clear.loads use in_uses
  obtain ⟨a, insn, _⟩ := Insn.exists_access_of_loads? of_use.loads
  have member := List.mem_of_getElem? of_use.line
  obtain ⟨ascending, next, added⟩ := tagAll_spec fresh step
  have straight : ∀ m ∈ (tagAll fresh step).1, fresh ≤ m.tag ∧ m.tag < (tagAll fresh step).2 ∧
      m.insn.targets = [] := by
    intro m inside
    obtain ⟨from_fresh, less, in_step⟩ := added m inside
    obtain ⟨op, same⟩ := op_of_mem_copyPlan planned in_step
    exact ⟨from_fresh, by omega, by rw [same]; rfl⟩
  have le : fresh ≤ (tagAll fresh step).2 := by omega
  dsimp only
  split
  · exact edit.renew tagged member insn (.inr rfl) ascending le straight
  · exact edit.renew tagged member insn (.inl rfl) ascending le straight

def Duplicate.replaced (handOver : HandOver) (b : Body) : Std.HashMap Nat (List Line) × Nat :=
  (chosen handOver b).foldl (fun (replacement, fresh) uses => serve replacement fresh uses)
    (∅, b.fresh)

theorem Duplicate.edit_replaced (handOver : HandOver) (tagged : Tagged b.lines b.fresh) :
    Edit b.lines b.fresh (replaced handOver b).1 (replaced handOver b).2 := by
  refine List.foldlRecOn (motive := fun state : Std.HashMap Nat (List Line) × Nat =>
    Edit b.lines b.fresh state.1 state.2)
    (chosen handOver b) (fun (replacement, fresh) uses => serve replacement fresh uses)
      (Edit.empty b.lines b.fresh) ?_
  intro state edit uses member
  obtain ⟨v, clear⟩ := clear_of_mem_chosen uses member
  exact edit_serve tagged edit clear

theorem Body.rewrites_duplicate (handOver : HandOver) (tagged : Tagged b.lines b.fresh) :
    b.Rewrites (b.duplicate handOver) :=
  .of_edit tagged (edit_replaced handOver tagged)

end Duplicate

theorem Body.rewrites_applyIf {pass : Body → Body} (wanted : Bool) (tagged : Tagged b.lines b.fresh)
    (rewrites : b.Rewrites (pass b)) : b.Rewrites (applyIf wanted pass b) := by
  cases wanted with
  | true => exact rewrites
  | false => exact .refl tagged

theorem Body.rewrites_simplify (tagged : Tagged b.lines b.fresh) (o : Options)
    (handOver : HandOver) :
    b.Rewrites (b.simplify o handOver) := by
  have inlined := rewrites_applyIf o.inlineConstants tagged (rewrites_inlineConstants tagged)
  have propagated :=
    rewrites_applyIf o.propagateCopies inlined.tagged (rewrites_propagateCopies inlined.tagged)
  have removed :=
    rewrites_applyIf o.removeUnused propagated.tagged (rewrites_removeUnused propagated.tagged)
  have duplicated := @rewrites_applyIf _ (duplicate · handOver) o.duplicate removed.tagged
    (rewrites_duplicate handOver removed.tagged)
  have pruned := rewrites_applyIf o.pruneStoreLoads duplicated.tagged
    (rewrites_pruneStoreLoads duplicated.tagged)
  have last := rewrites_applyIf (o.pruneStoreLoads && o.removeUnused) pruned.tagged
    (rewrites_removeUnused pruned.tagged)
  exact inlined.trans (propagated.trans (removed.trans (duplicated.trans (pruned.trans last))))

end Restack
