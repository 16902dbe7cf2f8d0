import Restack.Proofs.Execution.Lifetimes

set_option autoImplicit false

namespace Restack.InlineConstants

variable {b : Body} {front back : List Line} {s : InlineConstants.State} {l : Line} {v : Local}
  {pair : Line × Line} {t : Nat}

/-- The tag of a store of `front` whose value is spent, with the use it has. -/
def SpentAt (b : Body) (front : List Line) (use : Option Nat) (t : Nat) : Prop :=
  ∃ before store back v, b.lines = before ++ store :: back ∧ store ∈ front ∧ store.tag = t ∧
    store.insn.stores? = some v ∧ b.Spent v use back

theorem SpentAt.more {use : Option Nat} (spent : SpentAt b front use t) (l : Line) :
    SpentAt b (front ++ [l]) use t := by
  obtain ⟨before, store, back, v, split, inside, rest⟩ := spent
  exact ⟨before, store, back, v, split, List.mem_append_left _ inside, rest⟩

/-- What the walk has noted at the end of `front`: stores whose values may be spent, and those whose
values are. -/
structure Traced (b : Body) (front : List Line) (s : InlineConstants.State) : Prop where
  last : ∀ (v : Local) (t : Nat), s.last[v]? = some t →
    ∃ before store lines, front = before ++ store :: lines ∧
    store.tag = t ∧ store.insn.stores? = some v ∧ b.Idle v s.use[t]? lines
  use : ∀ t u : Nat, s.use[t]? = some u → ∃ before store lines load after v,
    front = before ++ store :: (lines ++ load :: after) ∧ store.tag = t ∧ load.tag = u ∧
    store.insn.stores? = some v ∧
      load.insn.loads? = some v ∧ ∀ l ∈ lines ++ [load], b.Straight l ∧ l.insn.stores? ≠ some v
  single : ∀ t : Nat, s.single.contains t = true → SpentAt b front s.use[t]? t
  apart : ∀ (v : Local) (t : Nat), s.last[v]? = some t → s.single.contains t = false

section

variable (traced : Traced b front s)
include traced

theorem Traced.more (l : Line)
    (idle : ∀ (v : Local) (t : Nat) (lines : List Line), s.last[v]? = some t →
      b.Idle v s.use[t]? lines → b.Idle v s.use[t]? (lines ++ [l])) :
    Traced b (front ++ [l]) s := by
  refine ⟨fun v t found => ?_, fun t u found => ?_, fun t found => (traced.single t found).more l,
    traced.apart⟩
  · obtain ⟨before, store, lines, rfl, same, stores, unread⟩ := traced.last v t found
    exact ⟨before, store, lines ++ [l], by simp, same, stores, idle v t lines found unread⟩
  · obtain ⟨before, store, lines, load, after, v, rfl, rest⟩ := traced.use t u found
    exact ⟨before, store, lines, load, after ++ [l], v, by simp, rest⟩

theorem traced_forget : Traced b front (forget s) :=
  ⟨by simp [forget], traced.use, traced.single, by simp [forget]⟩

theorem Traced.spent (split : b.lines = front ++ l :: back) (found : s.last[v]? = some t)
    (ends : l.insn.stores? = some v ∨ b.Straight l ∧ l.insn.fallsThrough = false) :
    SpentAt b front s.use[t]? t := by
  obtain ⟨before, store, lines, rfl, same, stores, idle⟩ := traced.last v t found
  exact ⟨before, store, lines ++ l :: back,
    v, by simp [split], by simp, same, stores, lines, l, back, rfl, idle, ends⟩

theorem traced_leave (split : b.lines = front ++ l :: back) (straight : b.Straight l)
    (ends : l.insn.fallsThrough = false) : Traced b (front ++ [l]) (leave s) := by
  have kept : Traced b front (leave s) := by
    refine ⟨by simp [leave], traced.use, ?_, by simp [leave]⟩
    refine fold_invariant s.last
      (P := fun single : Std.HashSet Nat => ∀ t, single.contains t = true →
      SpentAt b front s.use[t]? t) traced.single ?_
    exact fun single v t found known => forall_insert_set known
      (traced.spent split found (.inr ⟨straight, ends⟩))
  exact kept.more l fun v t lines found => by simp [leave] at found

end

section Visit

variable (distinct : (b.lines.map Line.tag).Nodup)

include distinct

section

variable (traced : Traced b front s)
include traced

theorem Traced.owner (within : ∀ x ∈ front, x ∈ b.lines) {v w : Local} (found : s.last[v]? = some t)
    (found' : s.last[w]? = some t) : v = w := by
  obtain ⟨before, store, lines, split, same, stores, _⟩ := traced.last v t found
  obtain ⟨before', store', lines', split', same', stores', _⟩ := traced.last w t found'
  have equal := eq_of_tag_eq distinct (within store (by simp [split]))
    (within store' (by simp [split'])) (same.trans same'.symm)
  subst equal
  exact Option.some.inj (stores.symm.trans stores')

theorem traced_store (split : b.lines = front ++ l :: back) (straight : b.Straight l) {a : Access}
    (access : l.insn = .access a) (isStore : a.isStore = true) :
    Traced b (front ++ [l]) (visit s l) := by
  have stores : l.insn.stores? = some a.var := by simp [access, Insn.stores?, isStore]
  have no_load := Insn.loads?_of_stores? stores
  have within : ∀ x ∈ front, x ∈ b.lines := fun x inside => by simp [split, inside]
  have new : ∀ m ∈ front, m.tag ≠ l.tag :=
    fun m inside same => tag_not_before distinct split ⟨m, inside, same⟩
  have unused : s.use[l.tag]? = none := by
    by_contra some_use
    obtain ⟨u, found⟩ := Option.ne_none_iff_exists'.1 some_use
    obtain ⟨before, store, lines, load, after, v, rfl, same, _⟩ := traced.use l.tag u found
    exact new store (by simp) same
  have not_single : s.single.contains l.tag = false := by
    by_contra inside
    obtain ⟨_, store, _, _, _, member, same, _⟩ := traced.single l.tag (by simpa using inside)
    exact new store member same
  have more : ∀ t, s.single.contains t = true → SpentAt b (front ++ [l]) s.use[t]? t :=
    fun t found =>
    (traced.single t found).more l
  simp only [visit, access, isStore, if_true]
  refine ⟨fun v t found => ?_, fun t u found => ?_, ?_, fun v t found => ?_⟩
  · rcases insert_cases found with ⟨rfl, rfl⟩ | ⟨other, before⟩
    · exact ⟨front, l, [], rfl, rfl, stores, unused ▸ b.idle_nil a.var⟩
    · obtain ⟨before, store, lines, rfl, same, stored, idle⟩ := traced.last v t before
      refine ⟨before, store,
        lines ++ [l], by simp, same, stored, idle.pass straight ?_ (by simp [no_load])⟩
      rw [stores]
      exact fun same => other (Option.some.inj same).symm
  · obtain ⟨before, store, lines, load, after, v, rfl, rest⟩ := traced.use t u found
    exact ⟨before, store, lines, load, after ++ [l], v, by simp, rest⟩
  · split
    next old found =>
      exact forall_insert_set more ((traced.spent split found (.inl stores)).more l)
    next => exact more
  · have unspent : s.single.contains t = false ∧ s.last[a.var]? ≠ some t := by
      rcases insert_cases found with ⟨rfl, rfl⟩ | ⟨other, before⟩
      · refine ⟨not_single, fun found => ?_⟩
        obtain ⟨before, store, lines, rfl, same, _⟩ := traced.last _ _ found
        exact new store (by simp) same
      · exact ⟨traced.apart v t before,
          fun found => other (traced.owner distinct within before found)⟩
    split
    next old found =>
      rw [Std.HashSet.contains_insert, unspent.1, Bool.or_false]
      by_contra same
      exact unspent.2 (found.trans (congrArg some (eq_of_beq (by simpa using same))))
    next => exact unspent.1

theorem traced_load (split : b.lines = front ++ l :: back) (straight : b.Straight l) {a : Access}
    (access : l.insn = .access a) (isLoad : a.isStore = false) :
    Traced b (front ++ [l]) (visit s l) := by
  have loads : l.insn.loads? = some a.var := by simp [access, Insn.loads?, isLoad]
  have no_store := Insn.stores?_of_loads? loads
  have within : ∀ x ∈ front, x ∈ b.lines := fun x inside => by simp [split, inside]
  have other_idle {v : Local} {use : Option Nat} {lines : List Line} (other : v ≠ a.var)
      (idle : b.Idle v use lines) :
      b.Idle v use (lines ++ [l]) := by
    refine idle.pass straight (by simp [no_store]) ?_
    rw [loads]
    exact fun same => other (Option.some.inj same).symm
  simp only [visit, access, isLoad, Bool.false_eq_true, if_false]
  split
  next store found =>
    split
    next =>
      refine Traced.more (s := { s with last := s.last.erase a.var }) ?_ l
        fun v t lines erased idle => ?_
      · exact ⟨fun v t erased => traced.last v t (erase_cases erased).2, traced.use, traced.single,
          fun v t erased => traced.apart v t (erase_cases erased).2⟩
      · exact other_idle (erase_cases erased).1 idle
    next unused =>
      have no_use : s.use[store]? = none := Std.HashMap.getElem?_eq_none (by simpa using unused)
      obtain ⟨before, st, lines, cut, same, stored, idle⟩ := traced.last a.var store found
      rw [no_use] at idle
      refine ⟨fun v t found' => ?_, fun t u found' => ?_, fun t found' => ?_, traced.apart⟩
      · dsimp only at found' ⊢
        by_cases here : v = a.var
        · subst here
          cases found.symm.trans found'
          exact ⟨before, st, lines ++ [l], by simp [cut], same, stored, by
            rw [Std.HashMap.getElem?_insert_self]
            exact idle.load straight loads⟩
        · obtain ⟨before', st', lines', cut', same', stored', idle'⟩ := traced.last v t found'
          refine ⟨before', st', lines' ++ [l], by simp [cut'], same', stored', ?_⟩
          rw [Std.HashMap.getElem?_insert, if_neg]
          · exact other_idle here idle'
          · intro same_store
            exact here (traced.owner distinct within found' (eq_of_beq same_store ▸ found))
      · rcases insert_cases found' with ⟨rfl, rfl⟩ | ⟨_, found'⟩
        · refine ⟨before, st, lines, l, [],
            a.var, by simp [cut], same, rfl, stored, loads, fun x inside => ?_⟩
          rcases List.mem_append.1 inside with earlier | last
          · exact ⟨idle.straight x earlier, idle.unstored x earlier⟩
          · cases List.mem_singleton.1 last
            exact ⟨straight, by simp [no_store]⟩
        · obtain ⟨before', st', lines', load, after, v, cut', rest⟩ := traced.use t u found'
          exact ⟨before', st', lines', load, after ++ [l], v, by simp [cut'], rest⟩
      · dsimp only at found' ⊢
        rw [Std.HashMap.getElem?_insert, if_neg]
        · exact (traced.single t found').more l
        · intro same_store
          rw [← eq_of_beq same_store, traced.apart a.var store found] at found'
          cases found'
  next unknown =>
    refine traced.more l fun v t lines found idle => other_idle (fun same => ?_) idle
    rw [same, unknown] at found
    cases found

theorem traced_visit (split : b.lines = front ++ l :: back) (straight : b.Straight l) :
    Traced b (front ++ [l]) (visit s l) := by
  cases access : l.insn with
  | access a =>
    cases isStore : a.isStore with
    | true => exact traced_store distinct traced split straight access isStore
    | false => exact traced_load distinct traced split straight access isStore
  | label | literal | constant | plain | jump | switch =>
    simp only [visit, access]
    exact traced.more l fun v t lines _ idle =>
      idle.pass straight (by simp [access, Insn.stores?]) (by simp [access, Insn.loads?])

end

theorem traced_walk (guarded : b.Guarded) : Traced b b.lines (walker.walk b .start) := by
  refine walker.walk_along (Traced b) (fun s => s.last = ∅) ?_ ?_ ?_ ?_ ?_
  · exact ⟨by simp [State.start], by simp [State.start], by simp [State.start], by
      simp [State.start]⟩
  · exact fun front s traced => ⟨traced_forget traced, rfl⟩
  · exact fun front l back s _ traced blank => traced.more l fun v t lines found => by
      simp [blank] at found
  · exact fun front l back s split inside ends traced =>
      traced_leave traced split (guarded.straight split inside) ends
  · exact fun front l back s split inside _ traced =>
      traced_visit distinct traced split (guarded.straight split inside)

end Visit

section Parts

variable (distinct : (b.lines.map Line.tag).Nodup) (guarded : b.Guarded)

include distinct guarded

theorem spent_of_single (inside : l ∈ b.lines) (single : (noted b).single.contains l.tag = true) :
    ∃ before back v, b.lines = before ++ l :: back ∧ l.insn.stores? = some v ∧
    b.Spent v (noted b).use[l.tag]? back := by
  obtain ⟨before, store, back, v, split, _, same, stores, spent⟩ :=
    (traced_walk distinct guarded).single l.tag single
  cases eq_of_tag_eq distinct (by simp [split]) inside same
  exact ⟨before, back, v, split, stores, spent⟩

theorem part_of_goes (member : pair ∈ b.lines.zip b.lines.tail) (goes : Goes (noted b) pair) :
    ∃ front back v, b.lines = front ++ pair.1 :: pair.2 :: back ∧ part b pair.1 = [] ∧
    part b pair.2 = [] ∧
      pair.2.insn.stores? = some v ∧ b.Excused (part b) v back := by
  obtain ⟨front, back, split⟩ := split_of_mem_zip_tail member
  obtain ⟨value, store, used⟩ := (placed_replaced distinct).gone pair member goes
  obtain ⟨before, after, v, split', stores, spent⟩ :=
    spent_of_single distinct guarded (by simp [split]) goes.1
  have cut : b.lines = (front ++ [pair.1]) ++ pair.2 :: back := by simp [split]
  cases (Body.split_unique distinct cut split').2
  refine ⟨front, back, v, split, ?_, ?_, stores, _, spent, fun l inside use stays => ?_⟩
  · rw [part, Std.HashMap.getD_eq_getD_getElem?, value, Option.getD_some]
  · rw [part, Std.HashMap.getD_eq_getD_getElem?, store, Option.getD_some]
  · obtain ⟨w, loads⟩ := loads_of_use distinct inside use
    obtain ⟨lines, found⟩ := Option.isSome_iff_exists.1 (used l.tag use)
    rw [part, Std.HashMap.getD_eq_getD_getElem?, found, Option.getD_some] at stays
    obtain ⟨other, _, goes', ⟨_, rfl⟩ | ⟨_, rfl⟩⟩ :=
      (placed_replaced distinct).reason l.tag lines found
    · cases stays
    · cases List.mem_singleton.1 stays
      rw [(Insn.no_access_of_isConstant goes'.2).1] at loads
      cases loads

theorem part_constant (split : b.lines = front ++ l :: back) (constant : l.insn.isConstant = true) :
    part b l = [l] ∨ ∃ m after v, back = m :: after ∧ part b l = [] ∧ part b m = [] ∧
    m.insn.stores? = some v ∧
      b.Excused (part b) v after := by
  have inside : l ∈ b.lines := by simp [split]
  obtain ⟨no_load, no_store⟩ := Insn.no_access_of_isConstant constant
  refine (part_cases distinct inside).imp id ?_
  rintro ⟨pair, member, goes, ⟨rfl | rfl, _⟩ | ⟨used, _⟩⟩
  · obtain ⟨_, _, v, _, _, _, stores, _⟩ := part_of_goes distinct guarded member goes
    rw [no_store] at stores
    cases stores
  · obtain ⟨front', after, v, split', value, store, stores, excused⟩ :=
      part_of_goes distinct guarded member goes
    exact ⟨pair.2, after, v, (Body.split_unique distinct split split').2, value, store,
      stores, excused⟩
  · obtain ⟨v, loads⟩ := loads_of_use distinct inside used
    rw [no_load] at loads
    cases loads

theorem part_store (split : b.lines = front ++ l :: back) (stores : l.insn.stores? = some v) :
    part b l = [l] ∨ ∃ before m, front = before ++ [m] ∧ m.insn.isConstant = true ∧ part b m = [] ∧
    part b l = [] ∧
      b.Excused (part b) v back := by
  have inside : l ∈ b.lines := by simp [split]
  refine (part_cases distinct inside).imp id ?_
  rintro ⟨pair, member, goes, ⟨rfl | rfl, _⟩ | ⟨used, _⟩⟩
  · obtain ⟨before, after, w, split', value, store, stores', excused⟩ :=
      part_of_goes distinct guarded member goes
    cases stores.symm.trans stores'
    have cut : b.lines = (before ++ [pair.1]) ++ pair.2 :: after := by simp [split']
    obtain ⟨fronts, rfl⟩ := Body.split_unique distinct split cut
    exact ⟨before, pair.1, fronts, goes.2, value, store, excused⟩
  · rw [(Insn.no_access_of_isConstant goes.2).2] at stores
    cases stores
  · obtain ⟨w, loads⟩ := loads_of_use distinct inside used
    rw [Insn.loads?_of_stores? stores] at loads
    cases loads

theorem part_load (split : b.lines = front ++ l :: back) (loads : l.insn.loads? = some v) :
    part b l = [l] ∨ ∃ before value store lines, front = before ++ value :: store :: lines ∧
    value.insn.isConstant = true ∧
      part b store = [] ∧ store.insn.stores? = some v ∧ part b l = [value] ∧
      ∀ x ∈ lines ++ [l], b.Straight x ∧ x.insn.stores? ≠ some v := by
  have inside : l ∈ b.lines := by simp [split]
  refine (part_cases distinct inside).imp id ?_
  rintro ⟨pair, member, goes, ⟨rfl | rfl, _⟩ | ⟨used, there⟩⟩
  · obtain ⟨_, _, w, _, _, _, stores, _⟩ := part_of_goes distinct guarded member goes
    rw [Insn.loads?_of_stores? stores] at loads
    cases loads
  · rw [(Insn.no_access_of_isConstant goes.2).1] at loads
    cases loads
  · obtain ⟨before, after, w, split', _, gone, stores, _⟩ :=
      part_of_goes distinct guarded member goes
    obtain ⟨first, store, lines, load, last, v', cut, same, same', stores', loads', straight⟩ :=
      (traced_walk distinct guarded).use _ _ used
    cases eq_of_tag_eq distinct (l := store) (m := pair.2) (by simp [cut]) (by simp [split']) same
    cases eq_of_tag_eq distinct (l := load) (m := l) (by simp [cut]) inside same'
    cases loads.symm.trans loads'
    have pair_cut : b.lines = (before ++ [pair.1]) ++ pair.2 :: after := by simp [split']
    have load_cut : b.lines = (first ++ pair.2 :: lines) ++ l :: last := by simp [cut]
    have fronts := (Body.split_unique distinct split load_cut).1
    rw [(Body.split_unique distinct pair_cut cut).1.symm] at fronts
    exact ⟨before, pair.1, pair.2, lines, by simp [fronts], goes.2, gone, stores', there, straight⟩

theorem part_still (inside : l ∈ b.lines) (fixed : l.insn.isMovable = false) : part b l = [l] := by
  rcases part_cases distinct inside with stays | ⟨pair, member, goes, ⟨rfl | rfl, _⟩ | ⟨used, _⟩⟩
  · exact stays
  · obtain ⟨_, _, w, _, _, _, stores, _⟩ := part_of_goes distinct guarded member goes
    rw [(Insn.no_access_of_fixed fixed).2] at stores
    cases stores
  · rw [Insn.isMovable_of_isConstant goes.2] at fixed
    cases fixed
  · obtain ⟨v, loads⟩ := loads_of_use distinct inside used
    rw [(Insn.no_access_of_fixed fixed).1] at loads
    cases loads

theorem reworked : b.Reworked b.inlineConstants (part b) := by
  refine ⟨rfl, rfl, rfl, fun l inside fixed => part_still distinct guarded inside fixed,
    fun l inside m member => ?_⟩
  rcases part_cases distinct inside with stays | ⟨pair, among, goes, ⟨_, gone⟩ | ⟨_, there⟩⟩
  · rw [stays, List.mem_singleton] at member
    exact .inl (by rw [member])
  · rw [gone] at member
    cases member
  · rw [there, List.mem_singleton] at member
    obtain ⟨_, _, split⟩ := split_of_mem_zip_tail among
    exact .inr (.inr ⟨by simp [member, split], member ▸ goes.2⟩)

end Parts

end Restack.InlineConstants
