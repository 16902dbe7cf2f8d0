import Restack.Proofs.Execution.Parts
import Restack.Proofs.Pass.Orderly

set_option autoImplicit false

namespace Restack

variable {V H : Type}

/-- The machine can drop the value on top of the stack, with the instruction for its width. -/
structure Machine.Popping (M : Machine V H) (wide : V → Bool) : Prop where
  pop : ∀ x stack heap, wide x = false → M.react (.op Op.pop) (x :: stack) heap =
    some (.goes stack heap)
  pop2 : ∀ x stack heap, wide x = true → M.react (.op Op.pop2) (x :: stack) heap =
    some (.goes stack heap)

/-- What the machine is about to do, with all locals, if it is at a line that acts and has a tag
below `fresh`. -/
def Config.sceneBelow? (fresh : Nat) (c : Config V H) :
    Option ((Line × List V × H) × (Local → V)) :=
  c.scene?.filter fun scene => scene.1.1.tag < fresh

namespace Body

def reads (b : Body) (v : Local) : Bool := b.lines.any (·.insn.loads? = some v)

/-- The same is done in both scenes, and locals that are loaded somewhere have the same values. -/
def SameReads (b : Body) (x y : (Line × List V × H) × (Local → V)) : Prop :=
  y.1 = x.1 ∧ ∀ v, b.reads v = true → y.2 v = x.2 v

theorem reads_of_mem {b : Body} {l : Line} {v : Local} (inside : l ∈ b.lines)
    (loads : l.insn.loads? = some v) :
    b.reads v = true :=
  List.any_eq_true.2 ⟨l, inside, by simp [loads]⟩

end Body

namespace RemoveUnused

def isDead (b : Body) (l : Line) : Bool := l.insn.stores?.any fun v => !b.reads v

def used (b : Body) : Std.HashSet Local :=
  (b.lines.filterMap (·.insn.loads?)).foldl (fun used var => used.insert var) ∅

def swept (b : Body) : State := b.lines.foldl (visit (used b)) ⟨none, ∅, b.fresh⟩

def part (b : Body) (l : Line) : List Line := (swept b).replacement.getD l.tag [l]

variable {b : Body} {l m p : Line} {v w : Local} {front back rest : List Line} {s : State}

theorem contains_used (b : Body) (v : Local) : (used b).contains v = b.reads v := by
  have along (vars : List Local) (seen : Std.HashSet Local) :
      (vars.foldl (fun used var => used.insert var) seen).contains v =
        (seen.contains v || vars.contains v) := by
    induction vars generalizing seen with
    | nil => simp
    | cons var vars ih =>
      rw [List.foldl_cons, ih, Std.HashSet.contains_insert, List.contains_cons,
        Bool.or_comm (var == v), Bool.or_assoc, Bool.beq_comm (a := var)]
  rw [used, along, Bool.eq_iff_iff]
  simp [Body.reads, List.mem_filterMap]

theorem isDead_iff : isDead b l = true ↔ ∃ v, l.insn.stores? = some v ∧ b.reads v = false := by
  simp [isDead, Option.any_eq_true]

theorem isPush_of_stores? (stores : l.insn.stores? = some v) : isPush l = false := by
  cases insn : l.insn <;> simp_all [isPush, Insn.stores?, Insn.loads?, Insn.isConstant]

theorem isPush_of_isDead (dead : isDead b l = true) : isPush l = false := by
  obtain ⟨v, stores, _⟩ := isDead_iff.1 dead
  exact isPush_of_stores? stores

theorem isDead_of_unstored (no_store : l.insn.stores? = none) : isDead b l = false := by
  rw [isDead, no_store]
  rfl

/-- What becomes of a line between the lines before and behind it. -/
inductive Fate (b : Body) (before : List Line) (l : Line) (behind : List Line) :
    Option (List Line) → Prop where
  | stays : isDead b l = false →
    (isPush l = true → ∀ m, behind.head? = some m → isDead b m = false) →
    Fate b before l behind none
  | pushGoes (m : Line) :
      isPush l = true → behind.head? = some m → isDead b m = true → Fate b before l behind (some [])
  | storeGoes (p : Line) :
      isDead b l = true → before.getLast? = some p → isPush p = true →
        Fate b before l behind (some [])
  | pops (v : Local) (tag : Nat) : l.insn.stores? = some v → b.reads v = false →
      (∀ p, before.getLast? = some p → isPush p = false) → b.fresh ≤ tag →
      Fate b before l behind (some [⟨tag, .op (if v.isWide then Op.pop2 else Op.pop)⟩])

theorem Fate.dead {before behind : List Line} {r : Option (List Line)}
    (fate : Fate b before l behind r) (dead : isDead b l = true) :
    (r = some [] ∧ ∃ p, before.getLast? = some p ∧ isPush p = true) ∨
      ∃ v tag, r = some [⟨tag, .op (if v.isWide then Op.pop2 else Op.pop)⟩] ∧
      l.insn.stores? = some v ∧ b.fresh ≤ tag ∧
        ∀ p, before.getLast? = some p → isPush p = false := by
  cases fate with
  | stays live => cases live.symm.trans dead
  | pushGoes _ push => cases push.symm.trans (isPush_of_isDead dead)
  | storeGoes p _ last push => exact .inl ⟨rfl, p, last, push⟩
  | pops v tag stores _ no_push fresh => exact .inr ⟨v, tag, rfl, stores, fresh, no_push⟩

theorem Fate.push {before behind : List Line} {r : Option (List Line)}
    (fate : Fate b before l behind r) (push : isPush l = true) :
    (r = none ∧ ∀ m, behind.head? = some m → isDead b m = false) ∨
      r = some [] ∧ ∃ m, behind.head? = some m ∧ isDead b m = true := by
  cases fate with
  | stays _ next => exact .inl ⟨rfl, next push⟩
  | pushGoes m _ next dead => exact .inr ⟨rfl, m, next, dead⟩
  | storeGoes _ dead => cases push.symm.trans (isPush_of_isDead dead)
  | pops _ _ stores => cases push.symm.trans (isPush_of_stores? stores)

theorem verdict_of_live (live : isDead b l = false) (s : State) :
    (scan (used b)).verdict s l = .stays := by
  cases stores : l.insn.stores? with
  | none => simp [scan, stores]
  | some v => simp_all [scan, isDead, contains_used]

theorem verdict_of_dead (stores : l.insn.stores? = some v) (unread : b.reads v = false)
    (s : State) :
    (scan (used b)).verdict s l =
      if s.before.any isPush then .goes
        else .becomes (.op (if v.isWide then Op.pop2 else Op.pop)) := by
  simp [scan, stores, contains_used, unread]

theorem isGoes_verdict (s : State) (l : Line) :
    ((scan (used b)).verdict s l).isGoes = (isDead b l && s.before.any isPush) := by
  cases dead : isDead b l with
  | false =>
    rw [verdict_of_live dead]
    rfl
  | true =>
    obtain ⟨v, stores, unread⟩ := isDead_iff.1 dead
    rw [verdict_of_dead stores unread]
    cases s.before.any isPush <;> rfl

theorem fate_of_split (distinct : (b.lines.map Line.tag).Nodup)
    (split : b.lines = front ++ l :: back) :
    ∃ r, Fate b front l back r ∧ part b l = r.getD [l] := by
  let start : State := ⟨none, ∅, b.fresh⟩
  have before (lines : List Line) : (lines.foldl (visit (used b)) start).before = lines.getLast? :=
    (scan (used b)).before_foldl (s := start) rfl lines
  have lookup := (scan (used b)).lookup_lines (s := start) distinct rfl rfl split
  refine ⟨(swept b).replacement[l.tag]?, ?_, Std.HashMap.getD_eq_getD_getElem?⟩
  rw [show (swept b).replacement[l.tag]? = _ from lookup]
  split
  next goes =>
    obtain ⟨m, next, goes⟩ := (Option.any_eq_true _ _).1 goes
    rw [isGoes_verdict, Bool.and_eq_true] at goes
    rw [show ((front ++ [l]).foldl (scan (used b)).visit start).before = _ from before _,
      List.getLast?_concat] at goes
    exact .pushGoes m goes.2 next goes.1
  next kept =>
    cases dead : isDead b l with
    | false =>
      rw [verdict_of_live dead]
      refine .stays dead fun push m next => ?_
      by_contra alive
      refine kept ((Option.any_eq_true _ _).2 ⟨m, next, ?_⟩)
      rw [isGoes_verdict,
        show ((front ++ [l]).foldl (scan (used b)).visit start).before = _ from before _,
        List.getLast?_concat]
      simpa [push] using alive
    | true =>
      obtain ⟨v, stores, unread⟩ := isDead_iff.1 dead
      rw [verdict_of_dead stores unread,
        show (front.foldl (scan (used b)).visit start).before = _ from before _]
      split
      next pushed =>
        obtain ⟨p, last, push⟩ := (Option.any_eq_true _ _).1 pushed
        exact .storeGoes p dead last push
      next no_push =>
        refine .pops v _ stores unread (fun p last => ?_)
          ((scan (used b)).fresh_foldl (s := start) front)
        simpa [last] using no_push

section Parts

variable (distinct : (b.lines.map Line.tag).Nodup)
include distinct

theorem part_still (inside : l ∈ b.lines) (no_push : isPush l = false) (live : isDead b l = false) :
    part b l = [l] := by
  obtain ⟨front, back, split⟩ := List.append_of_mem inside
  obtain ⟨r, fate, same⟩ := fate_of_split distinct split
  cases fate with
  | stays => exact same
  | pushGoes m push => rw [no_push] at push; cases push
  | storeGoes p dead => rw [live] at dead; cases dead
  | pops v tag stores unread => rw [isDead_iff.2 ⟨v, stores, unread⟩] at live; cases live

theorem part_push (split : b.lines = front ++ l :: back) (push : isPush l = true) :
    part b l = [l] ∨ ∃ m after v, back = m :: after ∧ m.insn.stores? = some v ∧ b.reads v = false ∧
      part b l = [] ∧ part b m = [] := by
  obtain ⟨r, fate, same⟩ := fate_of_split distinct split
  rcases fate.push push with ⟨rfl, _⟩ | ⟨rfl, m, next, dead⟩
  · exact .inl same
  · obtain ⟨after, rfl⟩ : ∃ after, back = m :: after := List.head?_eq_some_iff.1 next
    obtain ⟨v, stores, unread⟩ := isDead_iff.1 dead
    have split' : b.lines = (front ++ [l]) ++ m :: after := by simp [split]
    obtain ⟨r', fate', same'⟩ := fate_of_split distinct split'
    refine .inr ⟨m, after, v, rfl, stores, unread, same, ?_⟩
    rcases fate'.dead dead with ⟨rfl, _⟩ | ⟨_, _, _, _, _, no_push⟩
    · exact same'
    · cases push.symm.trans (no_push l List.getLast?_concat)

theorem part_store (inside : l ∈ b.lines) (stores : l.insn.stores? = some v) :
    b.reads v = true ∧ part b l = [l] ∨ b.reads v = false ∧ (part b l = [] ∨
      ∃ tag, b.fresh ≤ tag ∧ part b l = [⟨tag, .op (if v.isWide then Op.pop2 else Op.pop)⟩]) := by
  cases reads : b.reads v with
  | true =>
    exact .inl
      ⟨rfl, part_still distinct inside (isPush_of_stores? stores) (by simp [isDead, stores, reads])⟩
  | false =>
    have dead := isDead_iff.2 ⟨v, stores, reads⟩
    obtain ⟨front, back, split⟩ := List.append_of_mem inside
    obtain ⟨r, fate, same⟩ := fate_of_split distinct split
    refine .inr ⟨rfl, ?_⟩
    rcases fate.dead dead with ⟨rfl, _⟩ | ⟨w, tag, rfl, stores', fresh, _⟩
    · exact .inl same
    · cases stores.symm.trans stores'
      exact .inr ⟨tag, fresh, same⟩

theorem push_of_part_store (split : b.lines = front ++ l :: m :: back) (dead : isDead b m = true)
    (gone : part b m = []) :
    isPush l = true ∧ part b l ≠ [l] := by
  have split' : b.lines = (front ++ [l]) ++ m :: back := by simp [split]
  obtain ⟨r, fate, same⟩ := fate_of_split distinct split'
  rw [same] at gone
  rcases fate.dead dead with ⟨rfl, p, last, push⟩ | ⟨_, _, rfl, _⟩
  · rw [List.getLast?_concat] at last
    cases last
    refine ⟨push, fun stays => ?_⟩
    obtain ⟨r', fate', same'⟩ := fate_of_split distinct split
    rw [same'] at stays
    rcases fate'.push push with ⟨_, live⟩ | ⟨rfl, _⟩
    · cases dead.symm.trans (live m rfl)
    · cases stays
  · cases gone

theorem mem_part (inside : l ∈ b.lines) (member : m ∈ part b l) :
    m = l ∧ isDead b l = false ∨ b.fresh ≤ m.tag ∧
    (m.insn = .op Op.pop ∨ m.insn = .op Op.pop2) := by
  obtain ⟨front, back, split⟩ := List.append_of_mem inside
  obtain ⟨r, fate, same⟩ := fate_of_split distinct split
  rw [same] at member
  cases fate with
  | stays live => exact .inl ⟨List.mem_singleton.1 member, live⟩
  | pushGoes => cases member
  | storeGoes => cases member
  | pops v tag _ _ _ fresh =>
    cases List.mem_singleton.1 member
    refine .inr ⟨fresh, ?_⟩
    cases v.isWide
    · exact .inl rfl
    · exact .inr rfl

theorem reworked : b.Reworked b.removeUnused (part b) := by
  refine ⟨rfl, rfl, rfl, fun l inside fixed => part_still distinct inside ?_ ?_,
    fun l inside m member => ?_⟩
  · by_contra push
    rw [isMovable_of_isPush (by simpa using push)] at fixed
    cases fixed
  · exact isDead_of_unstored (Insn.no_access_of_fixed fixed).2
  · exact (mem_part distinct inside member).imp (fun same => by rw [same.1]) fun new => .inl new.1

end Parts

section Simulation

variable {M : Machine V H} {stack : List V} {heap : H} {locals locals' : Local → V}
  {c c' d : Config V H}
variable {wide : V → Bool} (addressed : b.Addressed)

def Agree (b : Body) (locals locals' : Local → V) : Prop :=
  ∀ v, b.reads v = true → locals' v = locals v

theorem Agree.store (agree : Agree b locals locals') (v : Local) (x : V) :
    Agree b (Function.update locals v x) (Function.update locals' v x) := by
  intro w reads
  by_cases same : w = v
  · rw [same, Function.update_self, Function.update_self]
  · rw [Function.update_of_ne same, Function.update_of_ne same, agree w reads]

theorem Agree.skip (agree : Agree b locals locals') (unread : b.reads v = false) (x : V) :
    Agree b (Function.update locals v x) locals' := by
  intro w reads
  have other : w ≠ v := by
    rintro rfl
    rw [unread] at reads
    cases reads
  rw [Function.update_of_ne other, agree w reads]

/-- No store comes next that goes with the push before it. -/
def Clear (b : Body) (rest : List Line) : Prop :=
  ∀ m after, rest = m :: after → isDead b m = true → part b m ≠ []

/-- Runs agree but for locals that are never loaded, and between a push and a store that go away:
there the first run has the value on its stack. -/
inductive Tracks (b : Body) : Config V H → Config V H → Prop where
  | along (front : List Line) {rest : List Line} {stack : List V} {heap : H}
      {locals locals' : Local → V} :
      b.lines = front ++ rest → Clear b rest → Agree b locals locals' →
      Tracks b ⟨rest, stack, heap, locals⟩ ⟨rest.flatMap (part b), stack, heap, locals'⟩
  | pushed (front : List Line) {m : Line} {after : List Line} {v : Local} {x : V} {stack : List V}
      {heap : H} {locals locals' : Local → V} :
      b.lines = front ++ m :: after → m.insn.stores? = some v → b.reads v = false →
      Agree b locals locals' →
      Tracks b ⟨m :: after, x :: stack, heap, locals⟩ ⟨after.flatMap (part b), stack, heap, locals'⟩

theorem clear_label {q : Option UInt32} (label : l.insn = .label q) (back : List Line) :
    Clear b (l :: back) := by
  rintro m after same dead
  cases same
  rw [isDead_of_unstored (by rw [label]; rfl)] at dead
  cases dead

include addressed in
theorem clear_next (split : b.lines = front ++ l :: back)
    (stays : isPush l = true → part b l = [l]) : Clear b back := by
  rintro m after rfl dead gone
  obtain ⟨push, goes⟩ := push_of_part_store addressed.distinct split dead gone
  exact goes (stays push)

include addressed in
theorem tracks_next (split : b.lines = front ++ l :: back)
    (stays : isPush l = true → part b l = [l]) (agree : Agree b locals locals') :
    Tracks b ⟨back, stack, heap, locals⟩ ⟨back.flatMap (part b), stack, heap, locals'⟩ :=
  .along (front ++ [l]) (by simp [split]) (clear_next addressed split stays) agree

theorem unseen_of_idle (rest : c.rest = l :: back) (idle : l.insn.acts = false) (fresh : Nat) :
    c.sceneBelow? fresh = none := by
  rw [Config.sceneBelow?, Config.scene?_eq_none rest idle, Option.filter_none]

theorem unseen_of_fresh {fresh : Nat} (rest : c.rest = l :: back) (new : fresh ≤ l.tag) :
    c.sceneBelow? fresh = none := by
  rw [Config.sceneBelow?, Option.filter_eq_none_iff]
  rintro scene shown
  obtain ⟨act, acting, rfl⟩ := Option.map_eq_some_iff.1 shown
  have here : act.1 = l := by
    rw [Config.act?, rest] at acting
    dsimp only at acting
    split at acting
    · cases acting
      rfl
    · cases acting
  simpa [here] using new

theorem scene?_of_acts (rest : c.rest = l :: back) (acts : l.insn.acts = true) :
    c.scene? = some ((l, c.stack, c.heap), c.locals) := by
  simp [Config.scene?, Config.act?, rest, acts]

theorem matches_push (distinct : (b.lines.map Line.tag).Nodup)
    (split : b.lines = front ++ l :: back) (idle : l.insn.acts = false)
    (no_store : l.insn.stores? = none) (edited : part b l ≠ [l]) (agree : Agree b locals locals')
    (stepped : M.step b ⟨l :: back, stack, heap, locals⟩ = some d) :
    Machine.Matches M b.removeUnused Config.scene? (Config.sceneBelow? b.fresh) b.SameReads
      (Tracks b)
      ⟨l :: back, stack, heap, locals⟩ ⟨(l :: back).flatMap (part b), stack, heap, locals'⟩ d := by
  have live := isDead_of_unstored (b := b) no_store
  have push : isPush l = true := by
    by_contra no_push
    exact edited (part_still distinct (by simp [split]) (by simpa using no_push) live)
  obtain ⟨m, after, v, rfl, stores, unread, gone, gone'⟩ :=
    (part_push distinct split push).resolve_left edited
  obtain ⟨x, rfl⟩ : ∃ x, d = ⟨m :: after, x :: stack, heap, locals⟩ := by
    rcases Bool.or_eq_true_iff.1 push with loads | constant
    · obtain ⟨w, loads⟩ := Option.isSome_iff_exists.1 loads
      exact ⟨_, Option.some.inj (stepped.symm.trans (Machine.step_load rfl loads))⟩
    · exact ⟨_, Option.some.inj (stepped.symm.trans (Machine.step_constant rfl constant))⟩
  rw [List.flatMap_cons, gone, List.nil_append, List.flatMap_cons, gone', List.nil_append]
  exact .idle (.pushed (front ++ [l]) (by simp [split]) stores unread agree)
    (Config.scene?_eq_none rfl idle) (by simp)

theorem step_pop (popping : M.Popping wide) {later : Body} {x : V} {tag : Nat}
    (width : wide x = v.isWide) :
    M.step later ⟨⟨tag, .op (if v.isWide then Op.pop2 else Op.pop)⟩ :: rest, x :: stack,
      heap, locals⟩ =
      some ⟨rest, stack, heap, locals⟩ := by
  rw [Machine.step_acting rfl rfl]
  dsimp only
  cases isWide : v.isWide with
  | true =>
    have reacts : M.reaction (.op Op.pop2) (x :: stack) heap = _ :=
      popping.pop2 x stack heap (width.trans isWide)
    rw [if_pos rfl, reacts]
    rfl
  | false =>
    have reacts : M.reaction (.op Op.pop) (x :: stack) heap = _ :=
      popping.pop x stack heap (width.trans isWide)
    rw [if_neg Bool.false_ne_true, reacts]
    rfl

/-- Every store that a state is at finds a value of its width. -/
def Filled (wide : V → Bool) (c : Config V H) : Prop :=
  ∀ l back w, c.rest = l :: back → l.insn.stores? = some w → ∃ x stack, c.stack = x :: stack ∧
    wide x = w.isWide

include addressed

theorem matches_store (popping : M.Popping wide) {x : V} (width : wide x = w.isWide)
    (split : b.lines = front ++ l :: back) (clear : Clear b (l :: back))
    (agree : Agree b locals locals') (stores : l.insn.stores? = some w) :
    Machine.Matches M b.removeUnused Config.scene? (Config.sceneBelow? b.fresh) b.SameReads
      (Tracks b)
      ⟨l :: back, x :: stack, heap, locals⟩
        ⟨(l :: back).flatMap (part b), x :: stack, heap, locals'⟩
      ⟨back, stack, heap, Function.update locals w x⟩ := by
  have idle := Insn.idle_of_stores? stores
  have inside : l ∈ b.lines := by simp [split]
  have no_push : isPush l = true → part b l = [l] := fun push => by
    cases push.symm.trans (isPush_of_stores? stores)
  rw [List.flatMap_cons]
  rcases part_store addressed.distinct inside stores with ⟨_, stays⟩ |
    ⟨unread, gone | ⟨tag, fresh, pops⟩⟩
  · rw [stays]
    exact .quiet (Machine.step_store rfl stores rfl)
      (tracks_next addressed split no_push (agree.store w x))
      (Config.scene?_eq_none rfl idle) (unseen_of_idle rfl idle _)
  · exact absurd gone (clear l back rfl (isDead_iff.2 ⟨w, stores, unread⟩))
  · rw [pops]
    exact .quiet (step_pop popping width)
      (tracks_next addressed split no_push (agree.skip unread x))
      (Config.scene?_eq_none rfl idle) (unseen_of_fresh rfl fresh)

theorem tracks_acted (split : b.lines = front ++ l :: back) (agree : Agree b locals locals')
    (acts : l.insn.acts = true) (stepped : M.step b ⟨l :: back, stack, heap, locals⟩ = some d) :
    Tracks b d { d with rest := d.rest.flatMap (part b), locals := locals' } := by
  obtain ⟨same, leads⟩ := Machine.landed_of_step addressed rfl acts stepped
  obtain ⟨front', split'⟩ := Machine.suffix_of_step (b := b) ⟨front, split.symm⟩ stepped
  have no_push : isPush l = true → part b l = [l] := fun push => by
    cases insn : l.insn <;> simp_all [isPush, Insn.acts, Insn.loads?, Insn.isConstant]
  have clear : Clear b d.rest := by
    rcases leads with ⟨_, on⟩ | ended | ⟨_, m, after, q, _, there, label, _⟩
    · exact on ▸ clear_next addressed split no_push
    · rw [ended]
      intro m after none
      cases none
    · exact there ▸ clear_label label after
  obtain ⟨rest, stack', heap', locals''⟩ := d
  dsimp only at same split' clear ⊢
  subst same
  exact .along front' split'.symm clear agree

theorem simulates (popping : M.Popping wide) (related : Tracks b c c') (filled : Filled wide c)
    (stepped : M.step b c = some d) :
    Machine.Matches M b.removeUnused Config.scene? (Config.sceneBelow? b.fresh) b.SameReads
      (Tracks b) c c' d := by
  cases related with
  | @pushed front m after v x stack heap locals locals' split stores unread agree =>
    have idle := Insn.idle_of_stores? stores
    rw [Machine.step_store rfl stores rfl] at stepped
    cases stepped
    refine .idle (tracks_next addressed split (fun push => ?_) (agree.skip unread x))
      (Config.scene?_eq_none rfl idle) (by simp)
    rw [isPush_of_isDead (isDead_iff.2 ⟨v, stores, unread⟩)] at push
    cases push
  | @along front rest stack heap locals locals' split clear agree =>
    cases rest with
    | nil => cases stepped
    | cons l back =>
      have inside : l ∈ b.lines := by simp [split]
      rcases Machine.step_cases stepped with acts | ⟨w, x, stack', stores, rfl, rfl⟩ |
        ⟨idle, no_store, pushed, rfl, step'⟩
      · rw [Machine.flatMap_acting (reworked addressed.distinct) inside acts]
        refine .inl
          ⟨_, Machine.step_reworked
            (reworked addressed.distinct) addressed inside acts stepped locals',
          tracks_acted addressed split agree acts stepped, ?_⟩
        have seen : Config.sceneBelow? b.fresh
            (⟨l :: back.flatMap (part b), stack, heap, locals'⟩ : Config V H) =
            some ((l, stack, heap), locals') := by
          rw [Config.sceneBelow?, scene?_of_acts rfl acts, Option.filter_some,
            if_pos (decide_eq_true (addressed.bound l inside))]
        rw [scene?_of_acts rfl acts, seen]
        exact .cons ⟨rfl, agree⟩ .nil
      · obtain ⟨_, _, same, width⟩ : ∃ y more, x :: stack' = y :: more ∧ wide y = w.isWide :=
          filled l back w rfl stores
        cases same
        exact matches_store addressed popping width split clear agree stores
      · by_cases stays : part b l = [l]
        · rw [List.flatMap_cons, stays]
          exact .quiet (step' _ _ _ _ _ fun v loads => agree v (Body.reads_of_mem inside loads))
            (tracks_next addressed split (fun _ => stays) agree) (Config.scene?_eq_none rfl idle)
              (unseen_of_idle rfl idle _)
        · exact matches_push addressed.distinct split idle no_store stays agree stepped

theorem stuck (related : Tracks b c c') (filled : Filled wide c) (stops : M.step b c = none) :
    M.step b.removeUnused c' = none := by
  cases related with
  | pushed front split stores =>
    rw [Machine.step_store rfl stores rfl] at stops
    cases stops
  | along front split clear agree =>
    refine Machine.stuck_reworked
      (reworked addressed.distinct) addressed split (fun l back w rest stores empty => ?_) stops _
    obtain ⟨_, _, some, _⟩ := filled l back w rest stores
    cases empty.symm.trans some

theorem tracks_start (heap : H) (locals : Local → V) :
    Tracks b (b.start heap locals) (b.removeUnused.start heap locals) := by
  refine .along [] rfl (fun m after split dead gone => ?_) fun v _ => rfl
  obtain ⟨r, fate, same⟩ : ∃ r, Fate b [] m after r ∧ part b m = r.getD [m] :=
    fate_of_split addressed.distinct split
  rw [same] at gone
  rcases fate.dead dead with ⟨_, _, last, _⟩ | ⟨_, _, rfl, _⟩
  · cases last
  · cases gone

end Simulation

end RemoveUnused

namespace Body

variable {b : Body}

/-- Removing unused stores keeps what a body does, if stores find values of their width: runs come
to the same lines that act, with the same stacks, heaps and locals that are loaded somewhere, apart
from new lines, which are pops. No store to a local that is loaded nowhere is left. -/
theorem removeUnused_sameReads (M : Machine V H) {wide : V → Bool} (popping : M.Popping wide)
    (addressed : b.Addressed) (heap : H) (locals : Local → V)
    (filled : ∀ passed c l back w, M.Run b (b.start heap locals) passed c → c.rest = l :: back →
      l.insn.stores? = some w → ∃ x stack, c.stack = x :: stack ∧ wide x = w.isWide) :
    (∀ passed d, M.Run b (b.start heap locals) passed d → ∃ passed' d',
      M.Run b.removeUnused (b.removeUnused.start heap locals) passed' d' ∧
        List.Forall₂ b.SameReads (passed.filterMap Config.scene?)
          (passed'.filterMap (Config.sceneBelow? b.fresh))) ∧
    (∀ passed' d', M.Run b.removeUnused (b.removeUnused.start heap locals) passed' d' → ∃ passed d,
      M.Run b (b.start heap locals) passed d ∧
        List.Forall₂ b.SameReads (passed.filterMap Config.scene?)
          (passed'.filterMap (Config.sceneBelow? b.fresh))) ∧
    ∀ l ∈ b.removeUnused.lines, (∀ v, l.insn.stores? = some v → b.reads v = true) ∧
      (l ∈ b.lines ∨ b.fresh ≤ l.tag ∧ (l.insn = .op Op.pop ∨ l.insn = .op Op.pop2)) := by
  -- Only states that the run comes to have to be filled.
  have simulates :=
    Machine.Simulates.within (P := fun c => ∃ passed, M.Run b (b.start heap locals) passed c)
    (fun c d ⟨passed, run⟩ stepped => ⟨passed ++ [c], run.append (.cons stepped (.nil d))⟩)
    fun c c' d related ⟨passed, run⟩ stepped => RemoveUnused.simulates addressed popping related
      (fun l back w => filled passed c l back w run) stepped
  have related := RemoveUnused.tracks_start addressed heap locals
  refine ⟨fun passed d run => ?_, fun passed' d' run' => ?_, fun m member => ?_⟩
  · obtain ⟨passed', d', run', _, same⟩ := simulates.forward ⟨related, [], .nil _⟩ run
    exact ⟨passed', d', run', same⟩
  · refine simulates.backward ?_ ⟨related, [], .nil _⟩ run'
    rintro c c' ⟨tracks, passed, run⟩ stops
    exact RemoveUnused.stuck addressed tracks (fun l back w => filled passed c l back w run) stops
  · obtain ⟨l, inside, among⟩ := List.mem_flatMap.1 member
    rcases RemoveUnused.mem_part addressed.distinct inside among with ⟨rfl, live⟩ | ⟨fresh, pops⟩
    · refine ⟨fun v stores => ?_, .inl inside⟩
      simpa [RemoveUnused.isDead, stores] using live
    · refine ⟨fun v stores => ?_, .inr ⟨fresh, pops⟩⟩
      rcases pops with insn | insn <;> simp [insn, Insn.op, Insn.stores?] at stores

end Body

/-- Values of both widths: one instruction pushes a wide value, two drop values of their width, and
the heap counts all others. -/
def sizedMachine : Machine (Int32 ⊕ Int64) Nat where
  value _ := .inl 0
  react insn stack heap :=
    match stack with
    | .inl x :: stack =>
      if insn = .op Op.pop then some (.goes stack heap)
        else some (.goes (.inl x :: stack) (heap + 1))
    | .inr x :: stack =>
      if insn = .op Op.pop2 then some (.goes stack heap)
        else some (.goes (.inr x :: stack) (heap + 1))
    | [] => if insn = .op Op.lconst1 then some (.goes [.inr 1] heap) else some (.goes [] (heap + 1))
  catches _ _ _ := true

theorem sizedMachine_popping : sizedMachine.Popping Sum.isRight := by
  refine ⟨fun x stack heap narrow => ?_, fun x stack heap wide => ?_⟩
  · cases x with
    | inl => rfl
    | inr => cases narrow
  · cases x with
    | inl => cases wide
    | inr => rfl

/-- A loop with two stores that nothing reads, one behind a load and one behind another instruction.
-/
def unreadStores : Body :=
  let kept : Local := ⟨0, .ofInt⟩
  { Body.ofInsns "unreadStores" [.label (some 0), .load kept, .store ⟨1, .ofInt⟩, .op Op.lconst1,
    .store ⟨2, .ofLong⟩,
      .load kept, .op Op.pop, .goto 0] with
    heads := (∅ : Std.HashMap UInt32 Nat).insert 0 0
    entries := (∅ : Std.HashMap Nat Nat).insert 0 1 }

theorem unreadStores_addressed : unreadStores.Addressed := by
  refine ⟨by decide, by decide, fun position tag found => ?_, by simp [unreadStores, Body.ofInsns]⟩
  obtain ⟨_, rfl⟩ : 0 = position ∧ 0 = tag := by
    simpa [unreadStores, Std.HashMap.getElem?_insert] using found
  exact ⟨by decide, by simp [unreadStores, Body.ofInsns, List.zipIdx]⟩

theorem unreadStores_stack {heap : Nat} {locals : Local → Int32 ⊕ Int64}
    (narrow : (locals ⟨0, .ofInt⟩).isRight = false) {passed : List (Config (Int32 ⊕ Int64) Nat)}
    {c : Config (Int32 ⊕ Int64) Nat}
    (run : sizedMachine.Run unreadStores (unreadStores.start heap locals) passed c) :
    (c.locals ⟨0, .ofInt⟩).isRight = false ∧ ∃ k < 8, c.rest = unreadStores.lines.drop k ∧
      c.stack.map Sum.isRight = if k = 2 ∨ k = 6 then [false] else if k = 4 then [true]
        else [] := by
  refine run.keeps (P := fun c => (c.locals ⟨0, .ofInt⟩).isRight = false ∧
    ∃ k < 8, c.rest = unreadStores.lines.drop k ∧
    c.stack.map Sum.isRight = if k = 2 ∨ k = 6 then [false] else if k = 4 then [true] else []) ?_
    ⟨narrow, 0, by omega, rfl, rfl⟩
  rintro ⟨rest, stack, heap, locals⟩ d ⟨narrow, k, less, rfl, widths⟩ stepped
  have jumped : sizedMachine.step unreadStores ⟨unreadStores.lines.drop 7, stack, heap, locals⟩ =
      some ⟨unreadStores.lines, stack, heap, locals⟩ := by
    cbv
  obtain rfl | rfl | rfl | rfl | rfl | rfl | rfl | rfl :
    k = 0 ∨ k = 1 ∨ k = 2 ∨ k = 3 ∨ k = 4 ∨ k = 5 ∨ k = 6 ∨ k = 7 := by omega
  · cases stepped
    exact ⟨narrow, 1, by omega, rfl, widths⟩
  · cases stepped
    refine ⟨narrow, 2, by omega, rfl, ?_⟩
    rw [List.map_cons, widths, narrow]
    rfl
  · obtain ⟨x, rfl, _⟩ : ∃ x, stack = [x] ∧ x.isRight = false := by
      simpa [List.map_eq_singleton_iff] using widths
    cases stepped
    exact ⟨narrow, 3, by omega, rfl, rfl⟩
  · obtain rfl : stack = [] := by simpa using widths
    cases stepped
    exact ⟨narrow, 4, by omega, rfl, rfl⟩
  · obtain ⟨x, rfl, _⟩ : ∃ x, stack = [x] ∧ x.isRight = true := by
      simpa [List.map_eq_singleton_iff] using widths
    cases stepped
    exact ⟨narrow, 5, by omega, rfl, rfl⟩
  · cases stepped
    refine ⟨narrow, 6, by omega, rfl, ?_⟩
    rw [List.map_cons, widths, narrow]
    rfl
  · obtain ⟨x, rfl, is_narrow⟩ : ∃ x, stack = [x] ∧ x.isRight = false := by
      simpa [List.map_eq_singleton_iff] using widths
    cases x with
    | inr => cases is_narrow
    | inl x =>
      cases stepped
      exact ⟨narrow, 7, by omega, rfl, rfl⟩
  · cases jumped.symm.trans stepped
    exact ⟨narrow, 0, by omega, rfl, widths⟩

theorem unreadStores_sameReads :
    let initial : Local → Int32 ⊕ Int64 := fun _ => .inl 7
    let first := Function.update initial ⟨1, .ofInt⟩ (.inl 7)
    let second := Function.update first ⟨2, .ofLong⟩ (.inr 1)
    (∃ passed d, sizedMachine.Run unreadStores.removeUnused
      (unreadStores.removeUnused.start 0 initial) passed d ∧
      List.Forall₂ unreadStores.SameReads
        [((⟨3, .op Op.lconst1⟩, [], 0), first), ((⟨6, .op Op.pop⟩, [.inl 7], 0), second),
          ((⟨7, .goto 0⟩, [], 0), second)]
        (passed.filterMap (Config.sceneBelow? unreadStores.fresh))) ∧
    ⟨4, .store ⟨2, .ofLong⟩⟩ ∉ unreadStores.removeUnused.lines := by
  intro initial first second
  have filled : ∀ passed c l back w, sizedMachine.Run unreadStores
      (unreadStores.start 0 initial) passed c →
      c.rest = l :: back → l.insn.stores? = some w → ∃ x stack, c.stack = x :: stack ∧
      x.isRight = w.isWide := by
    intro passed c l back w run rest stores
    obtain ⟨_, k, less, here, widths⟩ := unreadStores_stack rfl run
    obtain rfl | rfl | rfl | rfl | rfl | rfl | rfl | rfl :
      k = 0 ∨ k = 1 ∨ k = 2 ∨ k = 3 ∨ k = 4 ∨ k = 5 ∨ k = 6 ∨ k = 7 := by omega
    all_goals
      cases rest.symm.trans here
      cases stores
    all_goals
      obtain ⟨x, only, width⟩ := List.map_eq_singleton_iff.1 widths
      exact ⟨x, [], only, width⟩
  have jumped : sizedMachine.step unreadStores ⟨unreadStores.lines.drop 7, [], 0, second⟩ =
      some ⟨unreadStores.lines, [], 0, second⟩ := by
    cbv
  obtain ⟨forward, _, lines⟩ :=
    Body.removeUnused_sameReads sizedMachine sizedMachine_popping unreadStores_addressed 0
      initial filled
  refine ⟨forward _ _
    (.cons rfl (.cons rfl (.cons rfl (.cons rfl (.cons rfl (.cons rfl (.cons rfl (.cons jumped
    (.nil _))))))))), fun stays => ?_⟩
  have reads := (lines _ stays).1 ⟨2, .ofLong⟩ rfl
  revert reads
  decide

end Restack
