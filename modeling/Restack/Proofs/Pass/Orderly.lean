import Restack.Proofs.Execution.CopyParts

set_option autoImplicit false

namespace Restack

variable {l : Line} {v : Local}

theorem split_last {α : Type} {all front back : List α} {x before : α}
    (split : all = front ++ x :: back) (last : front.getLast? = some before) :
    ∃ front', all = front' ++ before :: x :: back := by
  obtain ⟨front', rfl⟩ := List.getLast?_eq_some_iff.1 last
  exact ⟨front', by simp [split]⟩

theorem tag_not_before {lines front back : List Line} (distinct : (lines.map Line.tag).Nodup)
    (split : lines = front ++ l :: back) : ¬ ∃ m ∈ front, m.tag = l.tag := by
  rintro ⟨m, inside, same⟩
  have equal := eq_of_tag_eq distinct (by simp [split, inside]) (by simp [split]) same
  subst equal
  rw [split] at distinct
  exact (List.disjoint_of_nodup_append distinct.of_map) inside List.mem_cons_self

namespace Body

theorem split_unique {lines front front' back back' : List Line}
    (distinct : (lines.map Line.tag).Nodup) (split : lines = front ++ l :: back)
    (split' : lines = front' ++ l :: back') : front = front' ∧ back = back' := by
  have same := split.symm.trans split'
  obtain rfl : front = front' := by
    refine cut_unique same ?_ ?_
    · exact fun inside => tag_not_before distinct split' ⟨l, inside, rfl⟩
    · exact fun inside => tag_not_before distinct split ⟨l, inside, rfl⟩
  exact ⟨rfl, (List.cons_eq_cons.1 (List.append_cancel_left same)).2⟩

/-- What a line expects of the stack: entries agree, and blocks that pick nothing up start with an
empty stack. -/
def Shows (b : Body) (picks : UInt32 → Prop) (l : Line) (s : Operands) : Prop :=
  b.Expects l s ∧ ∀ q, l.insn = .label (some q) → ¬ picks q → s = []

/-- A body that is balanced, with lines that are told apart by their tags. -/
structure Steady (p : Pool) (cap : Nat) (expects : Line → Operands → Prop) (b : Body) : Prop where
  balanced : b.Balanced p cap expects
  distinct : (b.lines.map Line.tag).Nodup
  bound : ∀ l ∈ b.lines, l.tag < b.fresh

structure Orderly (p : Pool) (cap : Nat) (picks : UInt32 → Prop) (b : Body) : Prop extends
    Steady p cap (b.Shows picks) b where
  follows : b.lines.IsChain (b.Follows picks)

variable {p : Pool} {cap : Nat} {expects : Line → Operands → Prop} {picks : UInt32 → Prop}
  {b later : Body}

theorem shows_free (b : Body) (picks : UInt32 → Prop) (l : Line) (s : Operands)
    (no_label : ∀ q, l.insn ≠ .label q) :
    b.Shows picks l s :=
  ⟨fun q label => absurd label (no_label q), fun _ label => absurd label (no_label _)⟩

structure Edits (b later : Body) : Prop where
  edited : Edited b.lines later.lines
  distinct : (later.lines.map Line.tag).Nodup
  bound : ∀ l ∈ later.lines, l.tag < later.fresh
  rest : later = { b with lines := later.lines, fresh := later.fresh }

theorem tagged_of_distinct (distinct : (b.lines.map Line.tag).Nodup)
    (bound : ∀ l ∈ b.lines, l.tag < b.fresh) :
    Tagged b.lines b.fresh := by
  refine ⟨(List.pairwise_map.1 distinct).imp ?_, bound⟩
  intro l m different same
  exact absurd same different

namespace Steady

section Steady

variable (steady : b.Steady p cap expects)
include steady

theorem width_of_pair {front back : List Line} {m : Line} {w : Nat}
    (split : b.lines = front ++ l :: m :: back) (pushes : l.insn.pushes? = some w)
    (stores : m.insn.stores? = some v) : v.width = w := by
  obtain ⟨last, runs⟩ := steady.balanced
  rw [split] at runs
  obtain ⟨s, _, runs⟩ := Runs.append_iff.1 runs
  obtain ⟨t, ⟨_, first⟩, runs⟩ := Runs.cons_iff.1 runs
  obtain ⟨u, ⟨_, second⟩, _⟩ := Runs.cons_iff.1 runs
  have pushed :=
    (Insn.steps_push_iff first.sound pushes).1 (first.steps_of_falls (Insn.of_pushes? pushes).2.2.1)
  have stored := (Insn.steps_store_iff second.sound stores).1
    (second.steps_of_falls (Insn.of_stores? stores).2.2.1)
  exact (List.cons_eq_cons.1 (pushed.symm.trans stored)).1.symm

theorem sound (member : l ∈ b.lines) : l.insn.Sound := by
  obtain ⟨last, runs⟩ := steady.balanced
  obtain ⟨front, back, split⟩ := List.append_of_mem member
  rw [split] at runs
  obtain ⟨s, _, runs⟩ := Runs.append_iff.1 runs
  obtain ⟨t, ⟨_, here⟩, _⟩ := Runs.cons_iff.1 runs
  exact here.sound

theorem single_of_stores (member : l ∈ b.lines) (stores : l.insn.stores? = some v) :
    v.kinds.Single := by
  obtain ⟨a, access, _, rfl⟩ := Insn.exists_access_of_stores? stores
  have sound := steady.sound member
  rwa [access] at sound

theorem single_of_loads (member : l ∈ b.lines) (loads : l.insn.loads? = some v) :
    v.kinds.Single := by
  obtain ⟨a, access, _, rfl⟩ := Insn.exists_access_of_loads? loads
  have sound := steady.sound member
  rwa [access] at sound

theorem edit (free : ∀ l s, (∀ q, l.insn ≠ .label q) → expects l s) (edits : b.Edits later) :
    later.Steady p cap expects := by
  obtain ⟨last, runs⟩ := steady.balanced
  exact ⟨⟨last, edits.edited.runs free runs⟩, edits.distinct, edits.bound⟩

end Steady

end Steady

theorem Orderly.edit (orderly : b.Orderly p cap picks) (edits : b.Edits later) :
    later.Orderly p cap picks := by
  have steady := orderly.toSteady.edit (b.shows_free picks) edits
  -- A line in front of everything that asks for nothing.
  have started : ((⟨0, .op Op.pop⟩ : Line) :: b.lines).IsChain (b.Follows picks) :=
    List.isChain_cons.2
      ⟨fun x _ => .of_other rfl fun q label => by simp [Insn.op] at label, orderly.follows⟩
  have follows := (List.isChain_cons.1 (edits.edited.follows _ started)).2
  rw [edits.rest]
  exact ⟨⟨steady.balanced, steady.distinct, steady.bound⟩, follows⟩

theorem distinct_of_rewrites (rewrites : b.Rewrites later) (distinct : (b.lines.map Line.tag).Nodup)
    (constants : (later.lines.filter (·.insn.isConstant)).Sublist
      (b.lines.filter (·.insn.isConstant))) :
    (later.lines.map Line.tag).Nodup := by
  refine List.pairwise_map.2 ?_
  have among_constants : (later.lines.filter (·.insn.isConstant)).Pairwise fun l m =>
      l.tag ≠ m.tag :=
    ((List.pairwise_map.1 distinct).sublist List.filter_sublist).sublist constants
  refine (rewrites.tagged.apart.and (List.pairwise_filter.1 among_constants)).imp ?_
  rintro l m ⟨apart, different⟩ same
  exact different (apart same).1 (apart same).2 same

theorem constants_splice {lines : List Line} {replacement : Std.HashMap Nat (List Line)}
    (others : ∀ l ∈ lines, ∀ part, replacement[l.tag]? = some part →
      ∀ m ∈ part, m.insn.isConstant = false) :
    ((lines.flatMap fun l => replacement.getD l.tag [l]).filter (·.insn.isConstant)).Sublist
      (lines.filter (·.insn.isConstant)) := by
  induction lines with
  | nil => simp
  | cons l lines ih =>
    have ih := ih fun x inside => others x (List.mem_cons_of_mem _ inside)
    rw [List.flatMap_cons, List.filter_append, Std.HashMap.getD_eq_getD_getElem?]
    cases found : replacement[l.tag]? with
    | none =>
      rw [Option.getD_none, show l :: lines = [l] ++ lines from rfl, List.filter_append [l] lines]
      exact ih.append_left _
    | some part =>
      have none : part.filter (·.insn.isConstant) = [] := by
        refine List.filter_eq_nil_iff.2 fun m inside => ?_
        simp [others l List.mem_cons_self part found m inside]
      rw [Option.getD_some, none, List.nil_append]
      exact ih.trans ((List.sublist_cons_self _ _).filter _)

end Body

theorem RemoveUnused.exists_pushes?_of_isPush (push : isPush l = true) :
    ∃ w, l.insn.pushes? = some w := by
  rcases Bool.or_eq_true _ _ ▸ push with loads | constant
  · obtain ⟨v, loads⟩ := Option.isSome_iff_exists.1 loads
    exact ⟨_, Insn.pushes?_of_loads? loads⟩
  · cases insn : l.insn with
    | literal k => exact ⟨_, rfl⟩
    | constant code => exact ⟨_, rfl⟩
    | label | access | plain | jump | switch => simp [insn, Insn.isConstant] at constant

section Scans

variable {σ : Type} {b : Body} (w : Scan σ) {s : σ} {lines front back : List Line} {l m : Line}

section Lines

variable (distinct : (lines.map Line.tag).Nodup) (empty : w.table s = ∅) (none : w.before s = none)
include distinct empty none

theorem Scan.pair_of_goes (split : lines = front ++ l :: m :: back)
    (goes : w.verdict ((front ++ [l]).foldl w.visit s) m = .goes) :
    l.Pair [] m ∧ (w.table (lines.foldl w.visit s))[l.tag]? = some [] ∧
      (w.table (lines.foldl w.visit s))[m.tag]? = some [] := by
  have decides := w.decides ((front ++ [l]).foldl w.visit s) m
  rw [goes, w.before_foldl none, List.getLast?_concat] at decides
  obtain ⟨⟨_, same, push, _⟩, _, stores⟩ := decides
  cases same
  have split' : lines = (front ++ [l]) ++ m :: back := by simp [split]
  refine ⟨⟨rfl, RemoveUnused.exists_pushes?_of_isPush push, stores⟩, ?_, ?_⟩
  · rw [w.lookup_lines distinct empty none split, List.head?_cons, Option.any_some, goes]
    rfl
  · rw [w.lookup_lines distinct empty none split', goes]
    exact ite_self _

theorem Scan.certified (swaps : ∀ front l back x tag, lines = front ++ l :: back →
    w.verdict (front.foldl w.visit s) l = .becomes x → l.Swaps ⟨tag, x⟩) :
    Certified lines (w.table (lines.foldl w.visit s)) := by
  refine ⟨fun l member part found => ?_, fun l member found => ?_⟩
  all_goals
    obtain ⟨front, back, split⟩ := List.append_of_mem member
    rw [w.lookup_lines distinct empty none split] at found
  · split at found
    · exact .inl (Option.some.inj found).symm
    · cases verdict : w.verdict (front.foldl w.visit s) l <;> rw [verdict] at found <;> cases found
      · exact .inl rfl
      · exact .inr ⟨_, rfl, swaps front l back _ _ split verdict⟩
  · split at found
    next goes =>
      obtain ⟨m, next, goes⟩ := (Option.any_eq_true _ _).1 goes
      obtain ⟨back, rfl⟩ := List.head?_eq_some_iff.1 next
      obtain ⟨pair, goes_first, goes_second⟩ :=
        w.pair_of_goes distinct empty none split (Verdict.eq_goes goes)
      exact ⟨front, l, m, back, split, pair, goes_first, goes_second, .inl rfl⟩
    next =>
      cases verdict : w.verdict (front.foldl w.visit s) l <;> rw [verdict] at found <;> cases found
      have decides := w.decides (front.foldl w.visit s) l
      rw [verdict, w.before_foldl none] at decides
      obtain ⟨⟨p, last, _⟩, _⟩ := decides
      obtain ⟨front, rfl⟩ := List.getLast?_eq_some_iff.1 last
      have split' : lines = front ++ p :: l :: back := by simp [split]
      obtain ⟨pair, goes_first, goes_second⟩ := w.pair_of_goes distinct empty none split' verdict
      exact ⟨front, p, l, back, split', pair, goes_first, goes_second, .inr rfl⟩

theorem Scan.others : ∀ l ∈ lines, ∀ part, (w.table (lines.foldl w.visit s))[l.tag]? = some part →
    ∀ m ∈ part, m.insn.isConstant = false := by
  intro l member part found m inside
  obtain ⟨front, back, split⟩ := List.append_of_mem member
  have decides := w.decides (front.foldl w.visit s) l
  rw [w.lookup_lines distinct empty none split] at found
  split at found
  · cases found
    cases inside
  · cases verdict : w.verdict (front.foldl w.visit s) l <;> rw [verdict]
      at found decides <;> cases found
    · cases inside
    · cases List.mem_singleton.1 inside
      exact decides.2.2.2.2

end Lines

theorem Body.edits_scan (distinct : (b.lines.map Line.tag).Nodup)
    (bound : ∀ l ∈ b.lines, l.tag < b.fresh) (empty : w.table s = ∅) (none : w.before s = none)
    (fresh : w.fresh s = b.fresh)
    (swaps : ∀ front l back x tag, b.lines = front ++ l :: back →
      w.verdict (front.foldl w.visit s) l = .becomes x → l.Swaps ⟨tag, x⟩) :
    b.Edits
      { b.splice (w.table (b.lines.foldl w.visit s)) with
        fresh := w.fresh (b.lines.foldl w.visit s) } := by
  have tagged := tagged_of_distinct distinct bound
  have rewrites := Rewrites.of_edit tagged (fresh ▸ w.edit (fresh.symm ▸ tagged) empty none)
  exact ⟨(w.certified distinct empty none swaps).edited distinct,
    distinct_of_rewrites rewrites distinct (constants_splice (w.others distinct empty none)),
    rewrites.tagged.bound, rfl⟩

theorem Body.edits_removeUnused (distinct : (b.lines.map Line.tag).Nodup)
    (bound : ∀ l ∈ b.lines, l.tag < b.fresh) :
    b.Edits b.removeUnused := by
  refine edits_scan (RemoveUnused.scan _)
    (s := ⟨Option.none, ∅, b.fresh⟩) distinct bound rfl rfl rfl ?_
  intro front l back x tag _ becomes
  cases stores : l.insn.stores? with
  | none => simp [RemoveUnused.scan, stores] at becomes
  | some v =>
    simp only [RemoveUnused.scan, stores] at becomes
    split at becomes
    · cases becomes
    · split at becomes <;> cases becomes
      exact .inr ⟨v, stores, rfl⟩

end Scans

section PropagateCopies

open PropagateCopies

variable {p : Pool} {cap : Nat} {expects : Line → Operands → Prop} {b : Body} {l : Line}
  {v source : Local} {front back : List Line}

/-- What copies have in common: their width, and whether they have one kind only. -/
def Local.shape (v : Local) : Nat × Prop := (v.width, v.kinds.Single)

namespace Body.Steady

variable (steady : b.Steady p cap expects)
include steady

theorem shape_of_copy {m : Line} (split : b.lines = front ++ m :: l :: back)
    (loads : m.insn.loads? = some source) (stores : l.insn.stores? = some v) :
    v.shape = source.shape := by
  have target : v.kinds.Single := steady.single_of_stores (by simp [split]) stores
  have origin : source.kinds.Single := steady.single_of_loads (l := m) (by simp [split]) loads
  exact Prod.ext (steady.width_of_pair split (Insn.pushes?_of_loads? loads) stores)
    (propext (iff_of_true target origin))

theorem agrees_upto (split : b.lines = front ++ back) :
    (upto b front).known.Agrees Local.shape := by
  induction length : front.length using Nat.strongRecOn generalizing front back with
  | ind n ih =>
    rcases List.eq_nil_or_concat' front with rfl | ⟨front, l, rfl⟩
    · exact Copies.agrees_empty _
    have cut : b.lines = front ++ l :: back := by simp [split]
    rw [List.length_append, List.length_singleton] at length
    have before := ih front.length (by omega) cut rfl
    cases target : b.isTarget l with
    | true =>
      rw [upto_snoc, visit_target target]
      change (enter b (upto b front) l).known.Agrees _
      rw [← show knownAt b front l = _ from if_pos target]
      rcases knownAt_cases front target with nothing | ⟨_, earlier, j, after, parts, _, same⟩
      · rw [nothing]
        exact Copies.agrees_empty _
      · rw [same]
        have cut' : b.lines = earlier ++ j :: (after ++ l :: back) := by simp [cut, parts]
        refine ih earlier.length ?_ cut' rfl
        rw [← length, parts, List.length_append]
        omega
    | false =>
      cases stores : l.insn.stores? with
      | none =>
        rw [known_snoc stores, knownAt, if_neg (by simp [target])]
        exact before
      | some w =>
        rw [known_snoc_store target stores]
        split
        next source copied =>
          obtain ⟨m, last, loads⟩ := Option.bind_eq_some_iff.1 copied
          obtain ⟨front', neighbours⟩ := split_last cut last
          have copied := (before.copy w source).1
          rwa [← steady.shape_of_copy neighbours loads stores, Function.update_eq_self] at copied
        next =>
          have clobbered := before.clobber w w.shape
          rwa [Function.update_eq_self] at clobbered

theorem edits_propagateCopies : b.Edits b.propagateCopies := by
  refine edits_scan (scan b) (s := ⟨.empty, ∅, none, ∅, b.fresh⟩) steady.distinct steady.bound
    rfl rfl rfl ?_
  intro front l back x tag split becomes
  cases target : b.isTarget l with
  | true => simp [scan, target] at becomes
  | false =>
    cases loads : l.insn.loads? with
    | none =>
      simp only [scan, target, loads, Bool.false_eq_true, if_false] at becomes
      split at becomes <;> cases becomes
    | some v =>
      have single := steady.single_of_loads (l := l) (by simp [split]) loads
      obtain ⟨width, same⟩ := Prod.ext_iff.1 ((steady.agrees_upto split).root_eq v)
      have width : ((upto b front).known.root v).width = v.width := width
      have root : ((upto b front).known.root v).kinds.Single := same.mpr single
      simp only [scan, target, loads, Bool.false_eq_true, if_false] at becomes
      split at becomes <;> cases becomes
      exact .inl ⟨v.width, Insn.pushes?_of_loads? loads, congrArg some width, root⟩

end Body.Steady

end PropagateCopies

section InlineConstants

open InlineConstants

variable {p : Pool} {cap : Nat} {expects : Line → Operands → Prop} {b : Body}

theorem split_of_mem_zip_tail {α : Type} {xs : List α} {x y : α}
    (member : (x, y) ∈ xs.zip xs.tail) :
    ∃ front back, xs = front ++ x :: y :: back := by
  induction xs with
  | nil => cases member
  | cons z xs ih =>
    cases xs with
    | nil => cases member
    | cons z' xs =>
      rcases List.mem_cons.1 member with same | later
      · cases same
        exact ⟨[], xs, rfl⟩
      · obtain ⟨front, back, split⟩ := ih later
        exact ⟨z :: front, back, by rw [split]; rfl⟩

namespace InlineConstants

variable {b : Body} {s : InlineConstants.State} {pair : Line × Line}
  {replacement : Std.HashMap Nat (List Line)} {t : Nat}

def noted (b : Body) : InlineConstants.State := walker.walk b .start

def replaced (b : Body) : Std.HashMap Nat (List Line) :=
  (b.lines.zip b.lines.tail).foldl
    (fun replacement (value, store) => move (noted b) replacement value store) ∅

def part (b : Body) (l : Line) : List Line := (replaced b).getD l.tag [l]

def Goes (s : InlineConstants.State) (pair : Line × Line) : Prop :=
  s.single.contains pair.2.tag = true ∧ pair.1.insn.isConstant = true

theorem getElem?_move (goes : Goes s pair) (tag : Nat) :
    (move s replacement pair.1 pair.2)[tag]? =
      if s.use[pair.2.tag]? = some tag then some [pair.1]
      else if pair.2.tag = tag ∨ pair.1.tag = tag then some [] else replacement[tag]? := by
  have dropped : ((replacement.insert pair.1.tag []).insert pair.2.tag [])[tag]? =
      if pair.2.tag = tag ∨ pair.1.tag = tag then some [] else replacement[tag]? := by
    rw [Std.HashMap.getElem?_insert, Std.HashMap.getElem?_insert]
    by_cases here : pair.2.tag = tag <;> by_cases there : pair.1.tag = tag <;> simp [here, there]
  simp only [move, goes.1, goes.2, Bool.and_self, if_true]
  cases s.use[pair.2.tag]? with
  | none => simpa using dropped
  | some load => simp [Std.HashMap.getElem?_insert, dropped]

structure Placed (s : InlineConstants.State) (done : List (Line × Line))
    (replacement : Std.HashMap Nat (List Line)) : Prop where
  reason : ∀ (tag : Nat) (lines : List Line), replacement[tag]? = some lines →
    ∃ pair ∈ done, Goes s pair ∧
    ((pair.2.tag = tag ∨ pair.1.tag = tag) ∧ lines = [] ∨ s.use[pair.2.tag]? = some tag ∧
      lines = [pair.1])
  gone : ∀ pair ∈ done, Goes s pair → replacement[pair.1.tag]? = some [] ∧
    replacement[pair.2.tag]? = some [] ∧
    ∀ load, s.use[pair.2.tag]? = some load → replacement[load]?.isSome = true

theorem placed_move {done : List (Line × Line)} (placed : Placed s done replacement)
    (loads : ∀ other ∈ done ++ [pair], Goes s other → s.use[pair.2.tag]? ≠ some other.1.tag ∧
      s.use[pair.2.tag]? ≠ some other.2.tag) :
    Placed s (done ++ [pair]) (move s replacement pair.1 pair.2) := by
  by_cases goes : Goes s pair
  · refine ⟨fun tag lines found => ?_, fun other member goes' => ?_⟩
    · rw [getElem?_move goes] at found
      split at found
      next used => exact ⟨pair, by simp, goes, .inr ⟨used, (Option.some.inj found).symm⟩⟩
      next =>
        split at found
        next here => exact ⟨pair, by simp, goes, .inl ⟨here, (Option.some.inj found).symm⟩⟩
        next =>
          obtain ⟨other, member, rest⟩ := placed.reason tag lines found
          exact ⟨other, List.mem_append_left _ member, rest⟩
    · obtain ⟨not_value, not_store⟩ := loads other member goes'
      rw [getElem?_move goes, getElem?_move goes, if_neg not_value, if_neg not_store]
      rcases List.mem_append.1 member with before | here
      · obtain ⟨value, store, use⟩ := placed.gone other before goes'
        refine ⟨by rw [value, ite_self], by rw [store, ite_self], fun load used => ?_⟩
        rw [getElem?_move goes]
        split
        · rfl
        · split
          · rfl
          · exact use load used
      · cases List.mem_singleton.1 here
        refine ⟨by simp, by simp, fun load used => ?_⟩
        rw [getElem?_move goes, if_pos used]
        rfl
  · have same : move s replacement pair.1 pair.2 = replacement := by
      rw [move, if_neg (by rwa [Bool.and_eq_true])]
    rw [same]
    refine ⟨fun tag lines found => ?_, fun other member goes' => ?_⟩
    · obtain ⟨other, member, rest⟩ := placed.reason tag lines found
      exact ⟨other, List.mem_append_left _ member, rest⟩
    · rcases List.mem_append.1 member with before | here
      · exact placed.gone other before goes'
      · cases List.mem_singleton.1 here
        exact absurd goes' goes

theorem exists_pushes?_of_isConstant {x : Insn} (constant : x.isConstant = true) :
    ∃ w, x.pushes? = some w := by
  cases x with
  | literal l => exact ⟨_, rfl⟩
  | constant code => exact ⟨_, rfl⟩
  | label | access | plain | jump | switch => simp [Insn.isConstant] at constant

section Parts

variable (distinct : (b.lines.map Line.tag).Nodup)

include distinct

theorem loads_of_use (inside : l ∈ b.lines) (used : (noted b).use[t]? = some l.tag) :
    ∃ v, l.insn.loads? = some v := by
  obtain ⟨v, _, load, member, same, loads⟩ := (noted_walk b).use t l.tag used
  rw [eq_of_tag_eq distinct inside member same.symm]
  exact ⟨v, loads⟩

theorem stores_of_single (inside : l ∈ b.lines) (single : (noted b).single.contains l.tag = true) :
    ∃ v, l.insn.stores? = some v := by
  obtain ⟨store, member, same, stores⟩ := (noted_walk b).single l.tag single
  rwa [eq_of_tag_eq distinct inside member same.symm]

theorem placed_replaced : Placed (noted b) (b.lines.zip b.lines.tail) (replaced b) := by
  refine foldl_along (Placed (noted b)) ⟨by simp, by simp⟩
    fun done pair more replacement split placed => ?_
  refine placed_move placed fun other member goes => ?_
  have among : other ∈ b.lines.zip b.lines.tail := by
    rw [split]
    simpa [or_assoc] using Or.inl (List.mem_append.1 member)
  obtain ⟨front, back, cut⟩ := split_of_mem_zip_tail among
  constructor
  · intro used
    obtain ⟨v, loads⟩ := loads_of_use distinct (l := other.1) (by simp [cut]) used
    rw [(Insn.no_access_of_isConstant goes.2).1] at loads
    cases loads
  · intro used
    obtain ⟨v, loads⟩ := loads_of_use distinct (l := other.2) (by simp [cut]) used
    obtain ⟨w, stores⟩ := stores_of_single distinct (l := other.2) (by simp [cut]) goes.1
    rw [Insn.loads?_of_stores? stores] at loads
    cases loads

theorem part_cases (inside : l ∈ b.lines) :
    part b l = [l] ∨ ∃ pair ∈ b.lines.zip b.lines.tail, Goes (noted b) pair ∧
      ((pair.2 = l ∨ pair.1 = l) ∧ part b l = [] ∨ (noted b).use[pair.2.tag]? = some l.tag ∧
        part b l = [pair.1]) := by
  unfold part
  rw [Std.HashMap.getD_eq_getD_getElem?]
  cases found : (replaced b)[l.tag]? with
  | none => exact .inl rfl
  | some lines =>
    obtain ⟨pair, member, goes, reason⟩ := (placed_replaced distinct).reason l.tag lines found
    obtain ⟨front, back, split⟩ := split_of_mem_zip_tail member
    refine .inr ⟨pair, member, goes, reason.imp (fun ⟨same, nothing⟩ => ⟨?_, nothing⟩) id⟩
    exact same.imp (eq_of_tag_eq distinct (by simp [split]) inside)
      (eq_of_tag_eq distinct (by simp [split]) inside)

theorem distinct_parts : ((b.lines.flatMap (part b)).map Line.tag).Nodup := by
  have placed := placed_replaced distinct
  have origin : ∀ l ∈ b.lines, ∀ m ∈ part b l, m = l ∧ (replaced b)[l.tag]? = none ∨
      (replaced b)[m.tag]? = some [] ∧
      ∃ front store back, b.lines = front ++ m :: store :: back ∧
      (noted b).use[store.tag]? = some l.tag := by
    intro l _ m inside
    rw [part, Std.HashMap.getD_eq_getD_getElem?] at inside
    cases found : (replaced b)[l.tag]? with
    | none =>
      rw [found, Option.getD_none, List.mem_singleton] at inside
      exact .inl ⟨inside, rfl⟩
    | some lines =>
      rw [found, Option.getD_some] at inside
      obtain ⟨pair, member, goes, ⟨_, rfl⟩ | ⟨used, rfl⟩⟩ := placed.reason _ _ found
      · cases inside
      · cases List.mem_singleton.1 inside
        obtain ⟨front, back, split⟩ := split_of_mem_zip_tail member
        exact .inr ⟨(placed.gone pair member goes).1, front, pair.2, back, split, used⟩
  refine List.pairwise_map.2 (List.pairwise_flatMap.2 ⟨fun l member => ?_, ?_⟩)
  · rcases part_cases distinct member with stays | ⟨pair, _, _, ⟨_, gone⟩ | ⟨_, there⟩⟩
    · exact stays ▸ List.pairwise_singleton _ _
    · exact gone ▸ .nil
    · exact there ▸ List.pairwise_singleton _ _
  · refine (List.pairwise_map.1 distinct).imp_of_mem
      fun {l l'} member member' different m inside m' inside' same => ?_
    rcases origin l member m inside with ⟨rfl, stays⟩ | ⟨goes, front, store, back, split, used⟩
    · rcases origin l' member' m' inside' with ⟨rfl, _⟩ | ⟨goes', _⟩
      · exact different same
      · rw [← same, stays] at goes'
        cases goes'
    · rcases origin l' member' m' inside' with ⟨rfl, stays'⟩ |
        ⟨_, front', store', back', split', used'⟩
      · rw [same, stays'] at goes
        cases goes
      · -- One constant has one store, and a store has one use that it may be moved to.
        cases eq_of_tag_eq distinct (by simp [split]) (by simp [split']) same
        cases (Body.split_unique distinct split split').2
        exact different (Option.some.inj (used.symm.trans used'))

end Parts

theorem certified_replaced (steady : b.Steady p cap expects) : Certified b.lines (replaced b) := by
  have distinct := steady.distinct
  have placed := placed_replaced distinct
  refine ⟨fun l inside lines found => ?_, fun l inside found => ?_⟩
  · obtain ⟨pair, member, goes, ⟨_, rfl⟩ | ⟨used, rfl⟩⟩ := placed.reason l.tag lines found
    · exact .inl rfl
    · -- The constant was stored in the local that the line loads, so it has its width.
      obtain ⟨front, back, split⟩ := split_of_mem_zip_tail member
      obtain ⟨w, pushes⟩ := exists_pushes?_of_isConstant goes.2
      obtain ⟨v, ⟨store, among, same, stores⟩, load, among', same', loads⟩ :=
        (noted_walk b).use _ _ used
      cases eq_of_tag_eq distinct (m := pair.2) among (by simp [split]) same
      cases eq_of_tag_eq distinct among' inside same'
      refine .inr ⟨pair.1, rfl, .inl ⟨w, ?_, pushes, steady.sound (by simp [split])⟩⟩
      rw [Insn.pushes?_of_loads? loads, steady.width_of_pair split pushes stores]
  · obtain ⟨pair, member, goes, ⟨same, _⟩ | ⟨_, nothing⟩⟩ := placed.reason l.tag [] found
    · obtain ⟨value, store, _⟩ := placed.gone pair member goes
      obtain ⟨front, back, split⟩ := split_of_mem_zip_tail member
      have stores := stores_of_single distinct (l := pair.2) (by simp [split]) goes.1
      refine ⟨front, pair.1, pair.2, back, split,
        ⟨rfl, exists_pushes?_of_isConstant goes.2, stores⟩, value, store, ?_⟩
      rcases same with same | same
      · exact .inr (eq_of_tag_eq distinct inside (by simp [split]) same.symm)
      · exact .inl (eq_of_tag_eq distinct inside (by simp [split]) same.symm)
    · cases nothing

end InlineConstants

theorem Body.Steady.edits_inlineConstants (steady : b.Steady p cap expects) :
    b.Edits b.inlineConstants :=
  ⟨(certified_replaced steady).edited steady.distinct, distinct_parts steady.distinct,
    (b.rewrites_inlineConstants (tagged_of_distinct steady.distinct steady.bound)).tagged.bound,
    rfl⟩

end InlineConstants

end Restack
