import Restack.Proofs.Execution.Lifetimes

set_option autoImplicit false

namespace Restack

namespace PruneStoreLoads

variable {b : Body} {front back : List Line} {s : PruneStoreLoads.State} {l : Line} {v w : Local}

theorem Passing.no_access (passing : Passing b l) :
    l.insn.loads? = none ∧ l.insn.stores? = none := by
  obtain ⟨⟨q, label⟩, _⟩ := passing
  rw [label]
  exact ⟨rfl, rfl⟩

theorem Passing.straight (passing : Passing b l) : b.Straight l := by
  obtain ⟨⟨q, label⟩, free⟩ := passing
  exact ⟨free, by rw [label]; rfl, fun acts => by simp [label, Insn.acts] at acts⟩

/-- A store and the load of the same local, with labels between them. -/
structure Pair (b : Body) (v : Local) (store : Line) (mid : List Line) (load : Line) : Prop where
  stores : store.insn.stores? = some v
  loads : load.insn.loads? = some v
  labels : ∀ x ∈ mid, Passing b x
  straight : b.Straight load

/-- A pair stands in `front`, and its value has not been read since. -/
def OpenPair (b : Body) (front : List Line) (v : Local) (tags : Nat × Nat) : Prop :=
  ∃ before store mid load lines, front = before ++ store :: (mid ++ load :: lines) ∧
    store.tag = tags.1 ∧ load.tag = tags.2 ∧
    Pair b v store mid load ∧ b.Idle v none lines

/-- A pair whose value is not read again. -/
def SpentPair (b : Body) (tags : Nat × Nat) : Prop :=
  ∃ before store mid load back v, b.lines = before ++ store :: (mid ++ load :: back) ∧
    store.tag = tags.1 ∧ load.tag = tags.2 ∧
    Pair b v store mid load ∧ b.Spent v none back

theorem account_pairs (guarded : b.Guarded) : Account b (OpenPair b) (SpentPair b) where
  new before store mid load back v split inside stores loads labels := by
    have split' : b.lines = (before ++ store :: mid) ++ load :: back := by simp [split]
    exact ⟨before, store, mid, load,
      [], by simp, rfl, rfl, ⟨stores, loads, labels, guarded.straight split' inside⟩, b.idle_nil v⟩
  pass front l back v pair split inside unstored unloaded := by
    rintro ⟨before, store, mid, load, lines, rfl, same, same', both, idle⟩
    exact ⟨before, store, mid, load, lines ++ [l], by simp, same, same', both,
      idle.pass (guarded.straight split inside) unstored unloaded⟩
  drop front l back v pair split inside ends := by
    rintro ⟨before, store, mid, load, lines, rfl, same, same', both, idle⟩
    exact ⟨before, store, mid, load, lines ++ l :: back,
      v, by simp [split], same, same', both, lines, l, back, rfl, idle,
      ends.imp id (⟨guarded.straight split inside, ·⟩)⟩

def part (b : Body) (l : Line) : List Line :=
  if (walker.walk b .start).dropped.contains l.tag then [] else [l]

theorem part_cases (b : Body) (l : Line) : part b l = [l] ∨ part b l = [] := by
  unfold part
  split
  · exact .inr rfl
  · exact .inl rfl

section Parts

variable (distinct : (b.lines.map Line.tag).Nodup) (guarded : b.Guarded)

include distinct guarded

/-- Only pairs are dropped, as a whole, and only if their values are not read again. -/
theorem pair_of_part (inside : l ∈ b.lines) (gone : part b l = []) :
    ∃ before store mid load back v, b.lines = before ++ store :: (mid ++ load :: back) ∧
    (l = store ∨ l = load) ∧
      Pair b v store mid load ∧ part b store = [] ∧ part b load = [] ∧ b.Spent v none back := by
  have dropped : (walker.walk b .start).dropped.contains l.tag = true := by
    by_contra stays
    rw [part, if_neg stays] at gone
    cases gone
  obtain ⟨pair, ⟨before, store, mid, load, back, v, split, same, same', both, spent⟩, which,
    first, second⟩ :=
    (noted_walk (account_pairs guarded)).dropped l.tag dropped
  rw [← same] at first which
  rw [← same'] at second which
  refine ⟨before, store, mid, load, back, v, split, which.imp ?_ ?_,
    both, by rw [part, if_pos first], by rw [part, if_pos second], spent⟩
  · exact eq_of_tag_eq distinct inside (by simp [split])
  · exact eq_of_tag_eq distinct inside (by simp [split])

theorem part_store (split : b.lines = front ++ l :: back) (stores : l.insn.stores? = some v)
    (gone : part b l = []) :
    ∃ mid load after, back = mid ++ load :: after ∧ Pair b v l mid load ∧ part b load = [] ∧
    b.Spent v none after := by
  obtain ⟨before, store, mid, load, after, w, cut, rfl | rfl, both, _, second, spent⟩ :=
    pair_of_part distinct guarded (by simp [split]) gone
  · cases stores.symm.trans both.stores
    exact ⟨mid, load, after, (Body.split_unique distinct split cut).2, both, second, spent⟩
  · cases both.loads.symm.trans (Insn.loads?_of_stores? stores)

theorem part_load (split : b.lines = front ++ l :: back) (loads : l.insn.loads? = some v)
    (gone : part b l = []) :
    ∃ before store mid, front = before ++ store :: mid ∧ Pair b v store mid l ∧
    part b store = [] := by
  obtain ⟨before, store, mid, load, after, w, cut, rfl | rfl, both, first, _, _⟩ :=
    pair_of_part distinct guarded (by simp [split]) gone
  · cases loads.symm.trans (Insn.loads?_of_stores? both.stores)
  · cases loads.symm.trans both.loads
    have cut' : b.lines = (before ++ store :: mid) ++ l :: after := by simp [cut]
    exact ⟨before, store, mid, (Body.split_unique distinct split cut').1, both, first⟩

theorem part_still (inside : l ∈ b.lines) (no_load : l.insn.loads? = none)
    (no_store : l.insn.stores? = none) :
    part b l = [l] := by
  refine (part_cases b l).resolve_right fun gone => ?_
  obtain ⟨before, store, mid, load, after, w, cut, rfl | rfl, both, _⟩ :=
    pair_of_part distinct guarded inside gone
  · cases no_store.symm.trans both.stores
  · cases no_load.symm.trans both.loads

theorem reworked : b.Reworked b.pruneStoreLoads (part b) := by
  refine ⟨?_, rfl, rfl, fun l inside fixed => ?_, fun l inside m member => ?_⟩
  · have along (lines : List Line) (dropped : Std.HashSet Nat) :
        (lines.filter fun l => !dropped.contains l.tag) =
        lines.flatMap fun l => if dropped.contains l.tag then [] else [l] := by
      induction lines with
      | nil => rfl
      | cons l lines ih =>
        rw [List.flatMap_cons, List.filter_cons, ih]
        cases dropped.contains l.tag <;> rfl
    exact along b.lines _
  · obtain ⟨no_load, no_store⟩ := Insn.no_access_of_fixed fixed
    exact part_still distinct guarded inside no_load no_store
  · rcases part_cases b l with stays | gone
    · rw [stays, List.mem_singleton] at member
      exact .inl (by rw [member])
    · rw [gone] at member
      cases member

theorem not_mem_pruned_iff (inside : l ∈ b.lines) :
    l ∉ b.pruneStoreLoads.lines ↔ part b l = [] := by
  rw [(reworked distinct guarded).lines, List.mem_flatMap]
  constructor
  · intro missing
    exact (part_cases b l).resolve_left fun stays => missing ⟨l, inside, by simp [stays]⟩
  · rintro gone ⟨x, _, member⟩
    rcases part_cases b x with stays | gone'
    · cases List.mem_singleton.1 (stays ▸ member)
      cases gone.symm.trans stays
    · rw [gone'] at member
      cases member

end Parts

/-- No dropped load comes next, past labels. -/
def Free (b : Body) (rest : List Line) : Prop :=
  ∀ mid load back v, rest = mid ++ load :: back → (∀ x ∈ mid, Passing b x) →
    load.insn.loads? = some v → part b load = [load]

theorem free_target (back : List Line) {q : Option UInt32} (label : l.insn = .label q)
    (target : b.isTarget l = true) :
    Free b (l :: back) := by
  intro mid load back' v rest labels loads
  cases mid with
  | nil =>
    cases rest
    simp [label, Insn.loads?] at loads
  | cons x mid =>
    cases rest
    rw [(labels l List.mem_cons_self).2] at target
    cases target

section Simulation

variable {V H : Type} {M : Machine V H} {stack : List V} {heap : H} {locals locals' : Local → V}
  {d : Config V H}
variable (addressed : b.Addressed) (entered : b.Entered) (guarded : b.Guarded) {load : Line}
  {after : List Line}
variable {mid : List Line}

include addressed guarded in
theorem free_next (split : b.lines = front ++ l :: back) (free : Passing b l → Free b (l :: back))
    (kept : ∀ w, l.insn.stores? = some w → part b l = [l]) : Free b back := by
  intro mid load after v rest labels loads
  refine (part_cases b load).resolve_right fun gone => ?_
  have cut : b.lines = (front ++ l :: mid) ++ load :: after := by simp [split, rest]
  obtain ⟨before, store, mid', fronts, both, gone'⟩ :=
    part_load addressed.distinct guarded cut loads gone
  have not_here : l ≠ store := by
    rintro rfl
    rw [kept v both.stores] at gone'
    cases gone'
  rcases List.append_eq_append_iff.1 fronts with ⟨more, _, rest'⟩ | ⟨more, _, rest'⟩
  · cases more with
    | nil => exact not_here (List.cons_eq_cons.1 rest').1
    | cons x more =>
      obtain ⟨rfl, rfl⟩ := List.cons_eq_cons.1 rest'
      cases both.stores.symm.trans (labels store (by simp)).no_access.2
  · cases more with
    | nil => exact not_here (List.cons_eq_cons.1 rest').1.symm
    | cons x more =>
      obtain ⟨rfl, rfl⟩ := List.cons_eq_cons.1 rest'
      have passing := both.labels l (by simp)
      have stays := free passing (l :: mid) load after v (by simp [rest])
        (List.forall_mem_cons.2 ⟨passing, labels⟩) loads
      rw [stays] at gone
      cases gone

theorem Pair.excused {store : Line} (both : Pair b v store mid load) (gone : part b load = [])
    (distinct : (b.lines.map Line.tag).Nodup) (inside : load ∈ b.lines)
    (spent : b.Spent v none after) :
    b.Excused (part b) v (mid ++ load :: after) := by
  obtain ⟨lines, last, back, rfl, idle, ends⟩ := spent
  refine ⟨some load.tag,
    ⟨mid ++ load :: lines, last, back, by simp, ⟨fun x member => ?_, fun x member => ?_, ?_⟩, ends⟩,
    fun x member same => ?_⟩
  · rcases List.mem_append.1 member with first | second
    · exact (both.labels x first).straight
    · rcases List.mem_cons.1 second with rfl | behind
      · exact both.straight
      · exact idle.straight x behind
  · rcases List.mem_append.1 member with first | second
    · simp [(both.labels x first).no_access.2]
    · rcases List.mem_cons.1 second with rfl | behind
      · simp [Insn.stores?_of_loads? both.loads]
      · exact idle.unstored x behind
  · have none_before : mid.filter (·.insn.loads? = some v) = [] :=
      List.filter_eq_nil_iff.2 fun x member => by simp [(both.labels x member).no_access.1]
    have none_behind : (lines.filter (·.insn.loads? = some v)).map Line.tag = [] := idle.loads
    rw [List.filter_append, none_before, List.nil_append,
      List.filter_cons_of_pos (by simpa using both.loads), List.map_cons, none_behind]
    rfl
  · cases eq_of_tag_eq distinct member inside (Option.some.inj same).symm
    simp [gone]

/-- Runs agree but for locals that are not read any more, and between a store and its load that go
away: there the value is on the stack. -/
inductive Tracks (b : Body) : Config V H → Config V H → Prop where
  | along (front : List Line) {rest : List Line} {stack : List V} {heap : H}
      {locals locals' : Local → V} : b.lines = front ++ rest →
      Free b rest → b.Alike (part b) rest locals locals' →
      Tracks b ⟨rest, stack, heap, locals⟩ ⟨rest.flatMap (part b), stack, heap, locals'⟩
  | held (front : List Line) {mid after : List Line} {load : Line} {v : Local} {stack : List V}
      {heap : H} {locals locals' : Local → V} :
      b.lines = front ++ (mid ++ load :: after) → (∀ x ∈ mid, Passing b x) →
        load.insn.loads? = some v →
      b.Alike (part b) (mid ++ load :: after) locals locals' →
      Tracks b ⟨mid ++ load :: after, stack, heap, locals⟩
        ⟨mid ++ after.flatMap (part b), locals v :: stack, heap, locals'⟩
  | ended {stack stack' : List V} {heap heap' : H} {locals locals' : Local → V} :
      Tracks b ⟨[], stack, heap, locals⟩ ⟨[], stack', heap', locals'⟩

include addressed guarded

theorem tracks_passed (split : b.lines = front ++ l :: back)
    (free : Passing b l → Free b (l :: back)) (alike : b.Alike (part b) (l :: back) locals locals')
    (falls : l.insn.fallsThrough = true) (no_store : l.insn.stores? = none) :
    Tracks b ⟨back, stack, heap, locals⟩ ⟨back.flatMap (part b), stack, heap, locals'⟩ :=
  .along (front ++ [l]) (by simp [split])
    (free_next addressed guarded split free fun w stores => by simp [no_store] at stores)
    (alike.pass (by simp [split]) no_store falls)

theorem flatMap_part_pair (among : ∀ x ∈ mid, x ∈ b.lines) (labels : ∀ x ∈ mid, Passing b x)
    (gone : part b load = []) :
    (mid ++ load :: after).flatMap (part b) = mid ++ after.flatMap (part b) := by
  have kept : mid.flatMap (part b) = mid := by
    have stays : ∀ x ∈ mid, part b x = [x] := fun x member =>
      part_still addressed.distinct guarded (among x member) (labels x member).no_access.1
        (labels x member).no_access.2
    rw [List.flatMap_congr stays, List.flatMap_singleton']
  rw [List.flatMap_append, List.flatMap_cons, gone, kept, List.nil_append]

theorem matches_store {x : V} (split : b.lines = front ++ l :: back) (free : Free b (l :: back))
    (alike : b.Alike (part b) (l :: back) locals locals') (stores : l.insn.stores? = some w) :
    Machine.Matches M b.pruneStoreLoads Config.act? Config.act? Eq (Tracks b)
      ⟨l :: back, x :: stack, heap, locals⟩
      ⟨(l :: back).flatMap (part b), x :: stack, heap, locals'⟩
        ⟨back, stack, heap, Function.update locals w x⟩ := by
  have inside : l ∈ b.lines := by simp [split]
  have idle := Insn.idle_of_stores? stores
  rw [List.flatMap_cons]
  rcases part_cases b l with stays | gone
  · rw [stays]
    refine .quiet (Machine.step_store rfl stores rfl)
      (.along (front ++ [l]) (by simp [split]) ?_ ?_)
      (Config.act?_eq_none rfl idle) (Config.act?_eq_none rfl idle)
    · exact free_next addressed guarded split (fun _ => free) fun _ _ => stays
    · exact alike.store inside stores x
  · obtain ⟨mid, load, after, rfl, both, gone', spent⟩ :=
      part_store addressed.distinct guarded split stores gone
    have excused := both.excused gone' addressed.distinct (by simp [split]) spent
    have held : Tracks b ⟨mid ++ load :: after, stack, heap, Function.update locals w x⟩
        ⟨mid ++ after.flatMap (part b), Function.update locals w x w :: stack, heap, locals'⟩ :=
      .held (front ++ [l]) (by simp [split]) both.labels both.loads
        (alike.skip inside stores excused x)
    rw [Function.update_self] at held
    rw [gone, List.nil_append,
      flatMap_part_pair addressed guarded
        (fun y member => by simp [split, member]) both.labels gone']
    exact .idle held (Config.act?_eq_none rfl idle) (by simp)

theorem matches_held (split : b.lines = front ++ (mid ++ load :: after))
    (labels : ∀ x ∈ mid, Passing b x) (loads : load.insn.loads? = some v)
    (alike : b.Alike (part b) (mid ++ load :: after) locals locals')
    (stepped : M.step b ⟨mid ++ load :: after, stack, heap, locals⟩ = some d) :
    Machine.Matches M b.pruneStoreLoads Config.act? Config.act? Eq (Tracks b)
      ⟨mid ++ load :: after, stack, heap, locals⟩
      ⟨mid ++ after.flatMap (part b), locals v :: stack, heap, locals'⟩ d := by
  cases mid with
  | nil =>
    have no_store := Insn.stores?_of_loads? loads
    have idle := Insn.idle_of_loads? loads
    rw [List.nil_append] at *
    rw [Machine.step_load rfl loads] at stepped
    cases stepped
    refine .idle
      (tracks_passed addressed guarded split (fun passing => ?_) alike
        (Insn.fallsThrough_of_idle idle) no_store)
      (Config.act?_eq_none rfl idle) (by simp)
    cases loads.symm.trans passing.no_access.1
  | cons x mid =>
    obtain ⟨passing, labels⟩ := List.forall_mem_cons.1 labels
    obtain ⟨q, label⟩ := passing.1
    have idle : x.insn.acts = false := by rw [label]; rfl
    rw [List.cons_append] at *
    rw [Machine.step_label rfl label] at stepped
    cases stepped
    refine .quiet (Machine.step_label rfl label)
      (.held (front ++ [x]) (by simp [split]) labels loads ?_)
      (Config.act?_eq_none rfl idle) (Config.act?_eq_none rfl idle)
    exact alike.pass (by simp [split]) passing.no_access.2 (Insn.fallsThrough_of_idle idle)

include entered in
theorem simulates :
    Machine.Simulates M b b.pruneStoreLoads Config.act? Config.act? Eq (Tracks b) := by
  rintro c c' d tracks stepped
  cases tracks with
  | ended => cases stepped
  | held front split labels loads alike =>
    exact matches_held addressed guarded split labels loads alike stepped
  | @along front rest stack heap locals locals' split free alike =>
    cases rest with
    | nil => cases stepped
    | cons l back =>
      have inside : l ∈ b.lines := by simp [split]
      rcases Machine.step_cases stepped with acts | ⟨w, x, stack, stores, rfl, rfl⟩ |
        ⟨idle, no_store, pushed, rfl, step'⟩
      · exact Machine.matches_acted (reworked addressed.distinct guarded) addressed entered inside
          acts alike stepped
          (fun falls _ _ =>
            tracks_passed addressed guarded split (fun _ => free) alike falls
              (Insn.no_access_of_acts acts).2)
          (fun _ _ => .ended) fun front m after q _ _ split label target =>
            .along front split (free_target after label target) fun v => .inl rfl
      · exact matches_store addressed guarded split free alike stores
      · have stays : part b l = [l] := by
          cases loads : l.insn.loads? with
          | none => exact part_still addressed.distinct guarded inside loads no_store
          | some v => exact free [] l back v rfl (by simp) loads
        rw [List.flatMap_cons, stays]
        refine .quiet
          (step' _ _ _ _ _ fun v loads => (alike.load inside loads (by simp [stays])).symm) ?_
          (Config.act?_eq_none rfl idle) (Config.act?_eq_none rfl idle)
        exact tracks_passed addressed guarded split (fun _ => free) alike
          (Insn.fallsThrough_of_idle idle) no_store

theorem stuck (c c' : Config V H) (tracks : Tracks b c c')
    (filled : ∀ l back w, c.rest = l :: back → l.insn.stores? = some w → c.stack ≠ [])
    (stops : M.step b c = none) :
    M.step b.pruneStoreLoads c' = none := by
  cases tracks with
  | ended => rfl
  | @held front mid after load v stack heap locals locals' split labels loads alike =>
    cases mid with
    | nil =>
      rw [Machine.step_load rfl loads] at stops
      cases stops
    | cons x mid =>
      obtain ⟨⟨q, label⟩, _⟩ := labels x List.mem_cons_self
      rw [Machine.step_label rfl label] at stops
      cases stops
  | along front split free alike =>
    exact Machine.stuck_reworked (reworked addressed.distinct guarded) addressed split
      (fun l back w rest stores none => absurd none (filled l back w rest stores)) stops _

theorem tracks_start (heap : H) (locals : Local → V) :
    Tracks b (b.start heap locals) (b.pruneStoreLoads.start heap locals) := by
  have spliced := (reworked addressed.distinct guarded).lines
  unfold Body.start
  rw [spliced]
  refine .along [] rfl (fun mid load back v rest labels loads => ?_) fun v => .inl rfl
  refine (part_cases b load).resolve_right fun gone => ?_
  obtain ⟨before, store, mid', rfl, both, _⟩ := part_load addressed.distinct guarded rest loads gone
  cases both.stores.symm.trans (labels store (by simp)).no_access.2

omit addressed guarded in
theorem run_past_labels {c d : Config V H} {passed : List (Config V H)} (run : M.Run b c passed d)
    (rest : c.rest = mid ++ load :: after) (labels : ∀ x ∈ mid, Passing b x) :
    (∃ x more, d.rest = x :: more ∧ Passing b x) ∨ ∃ first second, passed = first ++ second ∧
      M.Run b { c with rest := load :: after } second d ∧ ∀ e ∈ first, ∃ x more,
        e.rest = x :: more ∧ Passing b x := by
  induction mid generalizing c passed with
  | nil =>
    refine .inr ⟨[], passed, rfl, ?_, by simp⟩
    rw [List.nil_append] at rest
    rw [← rest]
    exact run
  | cons x mid ih =>
    obtain ⟨passing, labels⟩ := List.forall_mem_cons.1 labels
    cases run with
    | nil => exact .inl ⟨x, _, rest, passing⟩
    | cons stepped run =>
      obtain ⟨q, label⟩ := passing.1
      rw [Machine.step_label rest label] at stepped
      cases stepped
      rcases ih run rfl labels with here | ⟨first, second, rfl, beyond, passings⟩
      · exact .inl here
      · exact .inr
          ⟨c :: first, second, rfl, beyond,
            List.forall_mem_cons.2 ⟨⟨x, _, rest, passing⟩, passings⟩⟩

theorem handed_over {c d : Config V H} {second : List (Config V H)} {store : Line}
    (run : M.Run b c (c :: second) d) (split : b.lines = front ++ c.rest)
    (there : c.rest = store :: back) (stores : store.insn.stores? = some v)
    (gone : part b store = [])
    (unstored : ∀ e ∈ second, ∀ l back, e.rest = l :: back → l.insn.stores? ≠ some v)
    (here : d.rest = load :: after) (loads : load.insn.loads? = some v) :
    (∀ e ∈ second, ∃ x more, e.rest = x :: more ∧ Passing b x) ∧ part b load = [] ∧
    c.stack = d.locals v :: d.stack := by
  rw [there] at split
  obtain ⟨mid, load', after', rfl, both, gone', spent⟩ :=
    part_store addressed.distinct guarded split stores gone
  cases run with
  | cons stepped run =>
    have within := Machine.suffix_of_step (b := b) ⟨front, by rw [there, split]⟩ stepped
    cases top : c.stack with
    | nil =>
      rw [Machine.step_store_empty there stores top] at stepped
      cases stepped
    | cons x stack =>
      rw [Machine.step_store there stores top] at stepped
      cases stepped
      rcases run_past_labels run rfl both.labels with ⟨y, more, rest, passing⟩ |
        ⟨first, rest, rfl, beyond, passings⟩
      · rw [here] at rest
        cases rest
        cases loads.symm.trans passing.no_access.1
      · cases beyond with
        | nil =>
          cases here
          exact ⟨by simpa using passings, gone', by dsimp only; rw [Function.update_self]⟩
        | cons stepped' run' =>
          -- Behind the load the value is not read, whatever stays.
          have unread : b.Excused (fun l => [l]) v after' := ⟨none, spent, by simp⟩
          have next := Machine.rest_of_step rfl (Insn.idle_of_loads? both.loads) stepped'
          have within' :=
            Machine.suffix_of_step (b := b) ((List.suffix_append _ _).trans within) stepped'
          rcases Machine.excused_of_run run' within' (.inl (next ▸ unread)) fun e member =>
            unstored e (by simp [member]) with excused | ended
          · have inside : load ∈ b.lines :=
              (run'.suffix within').2.subset (here ▸ List.mem_cons_self)
            rw [here] at excused
            exact absurd (List.mem_singleton.2 rfl) (excused.unread inside loads)
          · cases ended.symm.trans here

theorem shows_iff (entered : b.Entered) {heap : H} {locals : Local → V}
    (filled : ∀ passed c l back w, M.Run b (b.start heap locals) passed c → c.rest = l :: back →
      l.insn.stores? = some w → c.stack ≠ []) (seen : List (Line × List V × H)) :
    M.Shows b Config.act? (b.start heap locals) seen ↔
      M.Shows b.pruneStoreLoads Config.act? (b.pruneStoreLoads.start heap locals) seen := by
  have simulates : Machine.Simulates M b b.pruneStoreLoads Config.act? Config.act? Eq (Tracks b) :=
    simulates addressed entered guarded
  -- Only states that the run comes to have to be filled.
  have within :=
    Machine.Simulates.within (P := fun c => ∃ passed, M.Run b (b.start heap locals) passed c)
    (fun c d ⟨passed, run⟩ stepped => ⟨passed ++ [c], run.append (.cons stepped (.nil d))⟩)
    fun c c' d related _ stepped => simulates c c' d related stepped
  refine within.shows_iff ?_ ⟨tracks_start addressed guarded heap locals, [], .nil _⟩ seen
  rintro c c' ⟨tracks, passed, run⟩ stops
  exact stuck addressed guarded c c' tracks (fun l back w => filled passed c l back w run) stops

end Simulation

end PruneStoreLoads

namespace Body

variable {V H : Type} {b : Body}

/-- Store and load pruning keeps what a body does: runs come to the same lines that act, with the
same stacks and heaps, as long as no store finds an empty stack. A dropped store has its value read
once, by a dropped load right after it but for labels. -/
theorem pruneStoreLoads_shows (M : Machine V H) (addressed : b.Addressed) (entered : b.Entered)
    (guarded : b.Guarded) (heap : H) (locals : Local → V) :
    (∀ seen, M.Shows b Config.act? (b.start heap locals) seen →
      M.Shows b.pruneStoreLoads Config.act? (b.pruneStoreLoads.start heap locals) seen) ∧
    ((∀ passed c l back w, M.Run b (b.start heap locals) passed c → c.rest = l :: back →
      l.insn.stores? = some w →
        c.stack ≠ []) →
      ∀ seen, M.Shows b.pruneStoreLoads Config.act? (b.pruneStoreLoads.start heap locals) seen →
        M.Shows b Config.act? (b.start heap locals) seen) ∧
    ∀ (first second : List (Config V H)) (c d : Config V H) (store load : Line)
      (back after : List Line) (v : Local),
      M.Run b (b.start heap locals) (first ++ c :: second) d → c.rest = store :: back →
      store.insn.stores? = some v →
      store ∉ b.pruneStoreLoads.lines →
      (∀ e ∈ second, ∀ l back, e.rest = l :: back → l.insn.stores? ≠ some v) →
      d.rest = load :: after → load.insn.loads? = some v →
      (∀ e ∈ second, ∃ l back q, e.rest = l :: back ∧ l.insn = .label q) ∧
      load ∉ b.pruneStoreLoads.lines ∧
        c.stack = d.locals v :: d.stack := by
  have simulates : Machine.Simulates M b b.pruneStoreLoads Config.act? Config.act? Eq
      (PruneStoreLoads.Tracks b) :=
    PruneStoreLoads.simulates addressed entered guarded
  have related := PruneStoreLoads.tracks_start addressed guarded heap locals
  refine ⟨simulates.shows related, fun filled seen => ?_, ?_⟩
  · exact (PruneStoreLoads.shows_iff addressed guarded entered filled seen).2
  · intro first second c d store load back after v run there stores gone unstored here loads
    obtain ⟨front, split⟩ := (run.suffix (List.suffix_refl _)).1 c (by simp)
    have inside : store ∈ b.lines := by simp [← split, there]
    have inside' : load ∈ b.lines :=
      (run.suffix (List.suffix_refl _)).2.subset (here ▸ List.mem_cons_self)
    obtain ⟨e, _, run'⟩ := run.split
    cases run' with
    | cons stepped on =>
      obtain ⟨labels, gone', handed⟩ :=
        PruneStoreLoads.handed_over addressed guarded (.cons stepped on) split.symm there stores
        ((PruneStoreLoads.not_mem_pruned_iff addressed.distinct guarded inside).1 gone)
          unstored here loads
      refine ⟨fun e member => ?_,
        (PruneStoreLoads.not_mem_pruned_iff addressed.distinct guarded inside').2 gone', handed⟩
      obtain ⟨x, more, rest, ⟨q, label⟩, _⟩ := labels e member
      exact ⟨x, more, q, rest, label⟩

end Body

theorem guardedLoop_pruned :
    guardedLoop.pruneStoreLoads.lines.map Line.tag =
      [0, 1, 3, 5, 6, 7, 8, 9, 10, 11, 12, 13, 14] := by
  have walked : PruneStoreLoads.walker.walk guardedLoop .start =
      ⟨∅, none, ((∅ : Std.HashSet Nat).insert 2).insert 4⟩ := by
    simp [PruneStoreLoads.walker, PruneStoreLoads.visit, PruneStoreLoads.forget,
      PruneStoreLoads.leave, PruneStoreLoads.drop,
      PruneStoreLoads.State.start, Walker.walk, Walker.step, guardedLoop, Body.ofInsns, List.zipIdx,
      Body.isTarget, Insn.targets,
      Insn.fallsThrough, Insn.load, Insn.store, Insn.op, Insn.goto, Op.endsMethod, Op.pop,
      Op.ireturn, Op.vreturn, Op.athrow, Std.HashSet.contains_insert]
  unfold Body.pruneStoreLoads
  rw [walked]
  simp [guardedLoop, Body.ofInsns, List.zipIdx, Insn.load, Insn.store, Insn.op, Insn.goto,
    Std.HashSet.contains_insert]

theorem Body.filled_of_pushes {V H : Type} {M : Machine V H} {b : Body} (addressed : b.Addressed)
    (pushed : b.lines.IsChain fun l m => m.insn.stores?.isSome → l.insn.isConstant = true)
    (first : ∀ l ∈ b.lines.head?, l.insn.stores? = none)
    {heap : H} {locals : Local → V} {passed : List (Config V H)} {c : Config V H}
    (run : M.Run b (b.start heap locals) passed c) {l : Line} {back : List Line} {w : Local}
    (rest : c.rest = l :: back) (stores : l.insn.stores? = some w) : c.stack ≠ [] := by
  suffices kept : c.rest <:+ b.lines ∧
      ∀ l back w, c.rest = l :: back → l.insn.stores? = some w →
      c.stack ≠ [] from kept.2 l back w rest stores
  refine run.keeps (P := fun c => c.rest <:+ b.lines ∧
    ∀ l back w, c.rest = l :: back → l.insn.stores? = some w → c.stack ≠ [])
      (fun c d before stepped => ?_)
    ⟨List.suffix_refl _, fun l back w rest stores => ?_⟩
  · obtain ⟨within, _⟩ := before
    refine ⟨Machine.suffix_of_step within stepped, fun m after w next stores => ?_⟩
    obtain ⟨rest, stack, heap, locals⟩ := c
    cases rest with
    | nil => cases stepped
    | cons l back =>
      have constant (on : d.rest = back) : l.insn.isConstant = true := by
        obtain ⟨front, split⟩ := within
        rw [← split, ← on, next] at pushed
        exact (List.isChain_cons_cons.1 (List.isChain_append.1 pushed).2.1).1 (by rw [stores]; rfl)
      cases acts : l.insn.acts with
      | false =>
        rw [Machine.step_constant rfl (constant (Machine.rest_of_step rfl acts stepped))] at stepped
        cases stepped
        exact List.cons_ne_nil _ _
      | true =>
        rcases (Machine.landed_of_step addressed rfl acts stepped).2 with ⟨_, on⟩ | ended |
          ⟨_, x, _, q, _, landed, label, _⟩
        · rw [Insn.idle_of_isConstant (constant on)] at acts
          cases acts
        · cases ended.symm.trans next
        · cases landed.symm.trans next
          simp [label, Insn.stores?] at stores
  · have none := first l (by rw [show b.lines = l :: back from rest]; rfl)
    rw [none] at stores
    cases stores

theorem guardedLoop_pruned_shows :
    countingMachine.Shows guardedLoop.pruneStoreLoads Config.act?
      (guardedLoop.pruneStoreLoads.start 0 fun v => v.reg + 5)
      [(⟨5, .op Op.pop⟩, [0], 0), (⟨9, .op Op.pop⟩, [0], 1), (⟨12, .op Op.pop⟩, [0], 2),
        (⟨14, .goto 0⟩, [], 3)] ∧
    ⟨4, .load ⟨0, .ofInt⟩⟩ ∉ guardedLoop.pruneStoreLoads.lines ∧
    ∀ seen, countingMachine.Shows guardedLoop.pruneStoreLoads Config.act?
      (guardedLoop.pruneStoreLoads.start 0 fun v => v.reg + 5) seen →
        countingMachine.Shows guardedLoop Config.act?
          (guardedLoop.start 0 fun v => v.reg + 5) seen := by
  obtain ⟨shows, shown, handed⟩ :=
    Body.pruneStoreLoads_shows countingMachine guardedLoop_addressed guardedLoop_entered
    guardedLoop_guarded 0 fun v => v.reg + 5
  obtain ⟨_, _, _, _, _, _, run, there, here, unstored⟩ := guardedLoop_run
  refine ⟨shows _ guardedLoop_shows,
    (handed _ _ _ _ _ _ _ _ ⟨0, .ofInt⟩ run there rfl ?_ unstored here rfl).2.1,
    shown fun passed c l back w run => Body.filled_of_pushes guardedLoop_addressed (by decide)
      (by decide) run⟩
  intro stays
  simpa [guardedLoop_pruned] using List.mem_map_of_mem (f := Line.tag) stays

end Restack
