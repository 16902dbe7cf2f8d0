import Mathlib.Logic.Function.Basic
import Mathlib.Data.List.TakeWhile
import Restack.Proofs.Pass.Scans

set_option autoImplicit false

namespace Restack.Copies

variable {V : Type} {c : Copies} {locals : Local → V} {v target source : Local} {g : Nat}

/-- A member of a group is listed in it, and so is the root, which still is a member. -/
def Lists (c : Copies) (v : Local) (g : Nat) : Prop :=
  ∃ group, c.groups[g]? = some group ∧ v ∈ group.root :: group.later ∧
    c.groupOf[group.root]? = some g

structure Agrees (c : Copies) (locals : Local → V) : Prop where
  lists : ∀ (v : Local) (g : Nat), c.groupOf[v]? = some g → c.Lists v g
  equal : ∀ (u v : Local) (g : Nat), c.groupOf[u]? = some g → c.groupOf[v]? = some g →
    locals u = locals v

theorem agrees_empty (locals : Local → V) : empty.Agrees locals :=
  ⟨fun v g found => by simp [empty] at found, fun u v g found => by simp [empty] at found⟩

theorem Agrees.root_eq (agrees : c.Agrees locals) (v : Local) : locals (c.root v) = locals v := by
  unfold root
  split
  next g found =>
    obtain ⟨group, there, _, member⟩ := agrees.lists v g found
    rw [there]
    exact agrees.equal _ v g member found
  next => rfl

theorem Agrees.find (agrees : c.Agrees locals) (v : Local) : (c.find v).2.Agrees locals := by
  have kept := (c.groupOf_find v).2
  unfold Copies.find at kept ⊢
  split
  next => exact agrees
  next missing =>
    rw [missing] at kept
    have cases_of : ∀ (u : Local) (g : Nat), (c.groupOf.insert v c.groups.size)[u]? = some g →
        u = v ∧ g = c.groups.size ∨ c.groupOf[u]? = some g ∧ g < c.groups.size := by
      intro u g found
      refine (insert_cases found).imp id fun before => ⟨before.2, ?_⟩
      obtain ⟨group, there, _⟩ := agrees.lists u g before.2
      exact (Array.getElem?_eq_some_iff.1 there).1
    refine ⟨fun u g found => ?_, fun u w g left right => ?_⟩
    · rcases cases_of u g found with ⟨rfl, rfl⟩ | ⟨before, less⟩
      · exact ⟨⟨u, []⟩, by simp, by simp, by simp⟩
      · obtain ⟨group, there, listed, member⟩ := agrees.lists u g before
        exact ⟨group, by rw [Array.getElem?_push_lt less, ← there, Array.getElem?_eq_getElem less],
          listed, kept _ g member⟩
    · rcases cases_of u g left with ⟨rfl, rfl⟩ | ⟨before, less⟩
      · rcases cases_of w _ right with ⟨rfl, _⟩ | ⟨_, less⟩
        · rfl
        · exact absurd less (Nat.lt_irrefl _)
      · rcases cases_of w g right with ⟨_, rfl⟩ | ⟨before', _⟩
        · exact absurd less (Nat.lt_irrefl _)
        · exact agrees.equal u w g before before'

theorem renew_spec (listed : ∀ v : Local, c.groupOf[v]? = some g →
      ∃ group, c.groups[g]? = some group ∧ v ∈ group.root :: group.later) :
    (c.renew g).groupOf = c.groupOf ∧ (∀ k, k ≠ g → (c.renew g).groups[k]? = c.groups[k]?) ∧
      ∀ v : Local, c.groupOf[v]? = some g → (c.renew g).Lists v g := by
  unfold renew
  dsimp only
  split
  next group there =>
    split
    next member =>
      refine ⟨rfl, fun _ _ => rfl, fun v found => ?_⟩
      obtain ⟨group', there', listed⟩ := listed v found
      cases there.symm.trans there'
      exact ⟨group, there, listed, eq_of_beq member⟩
    next left =>
      -- Members are not dropped with those that have left.
      have remains : ∀ v : Local, c.groupOf[v]? = some g →
          v ∈ group.later.reverse.dropWhile (fun u => !(c.groupOf[u]? == some g)) := by
        intro v found
        obtain ⟨group', there', listed⟩ := listed v found
        cases there.symm.trans there'
        have joined : v ∈ group.later.reverse := by
          rcases List.mem_cons.1 listed with rfl | joined
          · simp [found] at left
          · exact List.mem_reverse.2 joined
        rw [← List.takeWhile_append_dropWhile (p := fun u => !(c.groupOf[u]? == some g))
          (l := group.later.reverse)] at joined
        rcases List.mem_append.1 joined with taken | dropped
        · have gone := List.mem_takeWhile_imp taken
          simp [found] at gone
        · exact dropped
      split
      next next rest remaining =>
        refine ⟨rfl, fun k other => Array.getElem?_setIfInBounds_ne other.symm, fun v found => ?_⟩
        have member : c.groupOf[next]? = some g := by
          have stays :=
            List.head?_dropWhile_not (fun u => !(c.groupOf[u]? == some g)) group.later.reverse
          rw [remaining] at stays
          simpa using stays
        refine ⟨⟨next, rest.reverse⟩, ?_, ?_, member⟩
        · dsimp only
          rw [Array.getElem?_setIfInBounds_self_of_lt (Array.getElem?_eq_some_iff.1 there).1]
        · simpa [remaining] using remains v found
      next none_left =>
        refine ⟨rfl, fun _ _ => rfl, fun v found => ?_⟩
        have inside := remains v found
        rw [none_left] at inside
        cases inside
  next missing =>
    refine ⟨rfl, fun _ _ => rfl, fun v found => ?_⟩
    obtain ⟨group, there, _⟩ := listed v found
    cases missing.symm.trans there

theorem Agrees.clobber (agrees : c.Agrees locals) (v : Local) (x : V) :
    (c.clobber v).Agrees (Function.update locals v x) := by
  have unchanged {u : Local} (other : u ≠ v) : Function.update locals v x u = locals u :=
    Function.update_of_ne other x locals
  unfold Copies.clobber
  split
  next g found =>
    obtain ⟨same, others, own⟩ := renew_spec (c := { c with groupOf := c.groupOf.erase v }) (g := g)
      fun u erased => by
      obtain ⟨_, before⟩ := erase_cases erased
      obtain ⟨group, there, listed, _⟩ := agrees.lists u g before
      exact ⟨group, there, listed⟩
    refine ⟨fun u k found' => ?_, fun u w k left right => ?_⟩
    · rw [same] at found'
      by_cases here : k = g
      · exact here ▸ own u (here ▸ found')
      · obtain ⟨_, before⟩ := erase_cases found'
        obtain ⟨group, there, listed, member⟩ := agrees.lists u k before
        refine ⟨group, (others k here).trans there, listed, ?_⟩
        rw [same]
        dsimp only
        rw [Std.HashMap.getElem?_erase, if_neg, member]
        intro root
        rw [← eq_of_beq root, found] at member
        exact here (Option.some.inj member).symm
    · rw [same] at left right
      obtain ⟨other, before⟩ := erase_cases left
      obtain ⟨other', before'⟩ := erase_cases right
      rw [unchanged other, unchanged other']
      exact agrees.equal u w k before before'
  next missing =>
    have other {u : Local} {k : Nat} (found : c.groupOf[u]? = some k) : u ≠ v := by
      rintro rfl
      rw [missing] at found
      cases found
    refine ⟨agrees.lists, fun u w k left right => ?_⟩
    rw [unchanged (other left), unchanged (other right)]
    exact agrees.equal u w k left right

theorem Agrees.copy (agrees : c.Agrees locals) (target source : Local) :
    (c.copy target source).2.Agrees (Function.update locals target (locals source)) ∧
      ((c.copy target source).1 = false → locals target = locals source) := by
  obtain ⟨has_source, _⟩ := c.groupOf_find source
  obtain ⟨has_target, kept⟩ := (c.find source).2.groupOf_find target
  have first := agrees.find source
  have second := first.find target
  unfold Copies.copy
  dsimp only
  generalize (c.find source).1 = s at has_source ⊢
  generalize (c.find source).2 = c1 at first has_source second has_target kept ⊢
  generalize (c1.find target).1 = t at has_target ⊢
  generalize (c1.find target).2 = c2 at second has_target kept ⊢
  have source_in := kept source s has_source
  split
  next same =>
    have equal := second.equal target source s (same ▸ has_target) source_in
    refine ⟨?_, fun _ => equal⟩
    rw [← equal, Function.update_eq_self]
    exact second
  next differ =>
    refine ⟨?_, fun same => by cases same⟩
    obtain ⟨same, others, own⟩ :=
      renew_spec (c := { c2 with groupOf := c2.groupOf.insert target s }) (g := t) fun u found => by
      rcases insert_cases found with ⟨_, here⟩ | ⟨_, before⟩
      · exact absurd here.symm differ
      · obtain ⟨group, there, listed, _⟩ := second.lists u t before
        exact ⟨group, there, listed⟩
    -- Roots are still members, the target in its new group.
    have root_stays : ∀ (u : Local) (k : Nat), k ≠ t → c2.groupOf[u]? = some k →
        (c2.groupOf.insert target s)[u]? = some k := by
      intro u k other found
      rw [Std.HashMap.getElem?_insert, if_neg, found]
      intro here
      rw [← eq_of_beq here, has_target] at found
      exact other (Option.some.inj found).symm
    refine ⟨fun u k found => ?_, fun u w k left right => ?_⟩
    · rw [same] at found
      unfold Lists
      dsimp only
      rw [same, Array.getElem?_modify]
      by_cases old : k = t
      · subst old
        rw [if_neg differ]
        obtain ⟨group, there, listed, member⟩ := own u found
        rw [same] at member
        exact ⟨group, there, listed, member⟩
      · rw [others k old]
        by_cases here : s = k
        · subst here
          rw [if_pos rfl]
          rcases insert_cases found with ⟨rfl, _⟩ | ⟨_, before⟩
          · obtain ⟨group, there, _, member⟩ := second.lists source s source_in
            exact ⟨{ group with later := u :: group.later }, by
              rw [there]; rfl, by simp, root_stays _ s old member⟩
          · obtain ⟨group, there, listed, member⟩ := second.lists u s before
            refine ⟨{ group with later := target :: group.later }, by
              rw [there]; rfl, ?_, root_stays _ s old member⟩
            rcases List.mem_cons.1 listed with root | later
            · exact root ▸ List.mem_cons_self
            · exact List.mem_cons_of_mem _ (List.mem_cons_of_mem _ later)
        · rw [if_neg here]
          rcases insert_cases found with ⟨_, now⟩ | ⟨_, before⟩
          · exact absurd now.symm here
          · obtain ⟨group, there, listed, member⟩ := second.lists u k before
            exact ⟨group, there, listed, root_stays _ k old member⟩
    · have valued : ∀ (u : Local) (k : Nat), (c2.groupOf.insert target s)[u]? = some k →
          ∃ u', c2.groupOf[u']? = some k ∧ Function.update locals target (locals source) u =
            locals u' := by
        intro u k found
        rcases insert_cases found with ⟨rfl, rfl⟩ | ⟨other, before⟩
        · exact ⟨source, source_in, Function.update_self _ _ _⟩
        · exact ⟨u, before, Function.update_of_ne other _ _⟩
      rw [same] at left right
      obtain ⟨u', before, value⟩ := valued u k left
      obtain ⟨w', before', value'⟩ := valued w k right
      rw [value, value']
      exact second.equal u' w' k before before'

end Restack.Copies
