import Restack.Pass.PropagateCopies
import Restack.Pass.RemoveUnused
import Restack.Proofs.Pass.Rewriting

set_option autoImplicit false

namespace Restack

open RemoveUnused (isPush)

/-- What a pass decides about a line: it stays, it goes with the line before it, or a new line takes
its place. -/
inductive Verdict where
  | stays
  | goes
  | becomes (insn : Insn)

namespace Verdict

/-- What the verdict makes of the table of replacements and of the next free tag. -/
def Decides (before : Option Line) (l : Line) (table later : Std.HashMap Nat (List Line))
    (fresh fresh' : Nat) :
    Verdict → Prop
  | stays => later = table ∧ fresh' = fresh
  | goes =>
    (∃ p, before = some p ∧ isPush p = true ∧ later = (table.insert p.tag []).insert l.tag []) ∧
      fresh' = fresh ∧
      ∃ v, l.insn.stores? = some v
  | becomes x => later = table.insert l.tag [⟨fresh, x⟩] ∧ fresh' = fresh + 1 ∧
    (∃ a, l.insn = .access a) ∧ x.targets = [] ∧
      x.isConstant = false

def isGoes : Verdict → Bool
  | goes => true
  | _ => false

theorem eq_goes {v : Verdict} (goes : v.isGoes = true) : v = .goes := by
  cases v with
  | goes => rfl
  | stays | becomes => cases goes

/-- What takes the place of a line with no other one to go with. -/
def part? (fresh : Nat) : Verdict → Option (List Line)
  | stays => none
  | goes => some []
  | becomes x => some [⟨fresh, x⟩]

end Verdict

structure Scan (σ : Type) where
  visit : σ → Line → σ
  before : σ → Option Line
  table : σ → Std.HashMap Nat (List Line)
  fresh : σ → Nat
  verdict : σ → Line → Verdict
  before_visit : ∀ s l, before (visit s l) = some l
  decides : ∀ s l, (verdict s l).Decides (before s) l (table s) (table (visit s l)) (fresh s)
    (fresh (visit s l))

theorem Insn.isMovable_of_loads? {x : Insn} {v : Local} (loads : x.loads? = some v) :
    x.isMovable = true := by
  cases x <;> simp_all [loads?, isMovable]

theorem Insn.isMovable_of_stores? {x : Insn} {v : Local} (stores : x.stores? = some v) :
    x.isMovable = true := by
  cases x <;> simp_all [stores?, isMovable]

theorem RemoveUnused.isMovable_of_isPush {l : Line} (push : isPush l = true) :
    l.insn.isMovable = true := by
  unfold isPush at push
  cases insn : l.insn <;> simp_all [Insn.loads?, Insn.isConstant, Insn.isMovable]

namespace Scan

variable {σ : Type} (w : Scan σ) {s : σ} {l : Line} {lines front back : List Line} {tag : Nat}

theorem before_foldl (none : w.before s = none) (front : List Line) :
    w.before (front.foldl w.visit s) = front.getLast? := by
  rcases List.eq_nil_or_concat' front with rfl | ⟨front, l, rfl⟩
  · exact none
  · rw [List.foldl_concat, w.before_visit, List.getLast?_concat]

theorem fresh_foldl (front : List Line) : w.fresh s ≤ w.fresh (front.foldl w.visit s) := by
  refine List.foldlRecOn (motive := fun t => w.fresh s ≤ w.fresh t) _ _ (Nat.le_refl _)
    fun t grown l _ => ?_
  have decides := w.decides t l
  cases verdict : w.verdict t l <;> rw [verdict] at decides
  · exact decides.2 ▸ grown
  · exact decides.2.1 ▸ grown
  · exact decides.2.1 ▸ Nat.le_succ_of_le grown

theorem lookup_visit (s : σ) (l : Line) : (w.table (w.visit s l))[tag]? =
    if (w.verdict s l).isGoes ∧ (w.before s).any (·.tag = tag) then some []
    else if l.tag = tag then ((w.verdict s l).part? (w.fresh s)).or (w.table s)[tag]?
      else (w.table s)[tag]? := by
  have decides := w.decides s l
  cases verdict : w.verdict s l <;> rw [verdict] at decides
  · simp [decides.1, Verdict.isGoes, Verdict.part?]
  · obtain ⟨⟨p, is_before, _, later⟩, _⟩ := decides
    by_cases here : l.tag = tag
    · simp [later, here, Verdict.part?]
    · rw [later, Std.HashMap.getElem?_insert, if_neg (by simpa using here),
        Std.HashMap.getElem?_insert]
      by_cases there : p.tag = tag <;> simp [here, there, is_before, Verdict.isGoes]
  · by_cases here : l.tag =
      tag <;> simp [decides.1, here, Verdict.isGoes, Verdict.part?, Std.HashMap.getElem?_insert]

theorem lookup_foldl (more : List Line) (away : ∀ m ∈ more, m.tag ≠ tag)
    (before : ∀ p, w.before s = some p → p.tag ≠ tag) :
    (w.table (more.foldl w.visit s))[tag]? = (w.table s)[tag]? := by
  induction more generalizing s with
  | nil => rfl
  | cons m more ih =>
    have differ := away m List.mem_cons_self
    have not_before : (w.before s).any (·.tag = tag) = false := by
      cases is_before : w.before s with
      | none => rfl
      | some p => simpa using before p is_before
    rw [List.foldl_cons, ih (fun x inside => away x (List.mem_cons_of_mem _ inside)),
      lookup_visit, not_before]
    · simp [differ]
    · intro p is_before
      rw [w.before_visit] at is_before
      cases is_before
      exact differ

section Lines

variable (distinct : (lines.map Line.tag).Nodup) (empty : w.table s = ∅) (none : w.before s = none)
include distinct empty none

/-- A line is decided about when it is visited, unless it goes with the next one. -/
theorem lookup_lines (split : lines = front ++ l :: back) :
    (w.table (lines.foldl w.visit s))[l.tag]? =
    if back.head?.any fun m => (w.verdict ((front ++ [l]).foldl w.visit s) m).isGoes then some []
    else (w.verdict (front.foldl w.visit s) l).part? (w.fresh (front.foldl w.visit s)) := by
  rw [split, List.map_append, List.map_cons, List.nodup_append, List.nodup_cons] at distinct
  obtain ⟨_, ⟨not_behind, _⟩, apart⟩ := distinct
  have ahead : ∀ m ∈ front, m.tag ≠ l.tag :=
    fun m inside => apart _ (List.mem_map_of_mem inside) _ List.mem_cons_self
  have behind : ∀ m ∈ back, m.tag ≠ l.tag :=
    fun m inside same => not_behind (same ▸ List.mem_map_of_mem inside)
  have own : (w.table ((front ++ [l]).foldl w.visit s))[l.tag]? =
      (w.verdict (front.foldl w.visit s) l).part? (w.fresh (front.foldl w.visit s)) := by
    have not_before : (w.before (front.foldl w.visit s)).any (·.tag = l.tag) = false := by
      rw [w.before_foldl none]
      cases last : front.getLast? with
      | none => rfl
      | some p => simpa using ahead p (List.mem_of_getLast? last)
    rw [List.foldl_concat, lookup_visit, not_before, w.lookup_foldl front ahead (by simp [none]),
      empty]
    simp
  cases back with
  | nil => simpa [split] using own
  | cons m back =>
    have whole : lines.foldl w.visit s =
        back.foldl w.visit (w.visit ((front ++ [l]).foldl w.visit s) m) := by
      simp [split]
    rw [whole, w.lookup_foldl back fun x inside => behind x (List.mem_cons_of_mem _ inside),
      lookup_visit, w.before_foldl none, own]
    · simp [behind m List.mem_cons_self]
    · intro p is_before
      rw [w.before_visit] at is_before
      cases is_before
      exact behind m List.mem_cons_self

end Lines

theorem edit (tagged : Tagged lines (w.fresh s)) (empty : w.table s = ∅)
    (none : w.before s = none) :
    Edit lines (w.fresh s) (w.table (lines.foldl w.visit s)) (w.fresh (lines.foldl w.visit s)) := by
  refine (List.foldlRecOn (motive := fun t => (∀ p, w.before t = some p → p ∈ lines) ∧
    Edit lines (w.fresh s) (w.table t) (w.fresh t)) _ _ ⟨by simp [none], empty ▸ .empty _ _⟩
      fun t sound l member => ?_).2
  refine ⟨fun p same => Option.some.inj ((w.before_visit t l).symm.trans same) ▸ member, ?_⟩
  have decides := w.decides t l
  cases verdict : w.verdict t l <;> rw [verdict] at decides
  · rw [decides.1, decides.2]
    exact sound.2
  · obtain ⟨⟨p, is_before, push, later⟩, fresh, v, stores⟩ := decides
    rw [later, fresh]
    exact (sound.2.drop tagged
      ⟨p, sound.1 p is_before, rfl, RemoveUnused.isMovable_of_isPush push⟩).drop tagged
      ⟨l, member, rfl, Insn.isMovable_of_stores? stores⟩
  · obtain ⟨later, fresh, ⟨a, access⟩, straight, _⟩ := decides
    rw [later, fresh]
    exact sound.2.renew_one tagged member access straight

end Scan

namespace RemoveUnused

/-- A store that nothing loads goes with a push before it, or becomes a pop. -/
def scan (used : Std.HashSet Local) : Scan State where
  visit := visit used
  before := State.before
  table := State.replacement
  fresh := State.fresh
  verdict s l :=
    match l.insn.stores? with
    | none => .stays
    | some v =>
      if used.contains v then .stays
      else if s.before.any isPush then .goes
      else .becomes (.op (if v.isWide then Op.pop2 else Op.pop))
  before_visit _ _ := rfl
  decides s l := by
    unfold visit
    cases stores : l.insn.stores? with
    | none => exact ⟨rfl, rfl⟩
    | some v =>
      dsimp only
      split
      · exact ⟨rfl, rfl⟩
      · cases pushed : s.before.filter isPush with
        | some p =>
          obtain ⟨is_before, push⟩ := Option.filter_eq_some_iff.1 pushed
          rw [is_before, Option.any_some, if_pos push]
          exact ⟨⟨p, rfl, push, rfl⟩, rfl, v, stores⟩
        | none =>
          have no_push : s.before.any isPush = false := by
            cases is_before : s.before with
            | none => rfl
            | some p => simpa [is_before] using pushed
          rw [no_push, if_neg Bool.false_ne_true]
          obtain ⟨a, access⟩ : ∃ a, l.insn = .access a := by
            cases insn : l.insn <;> simp_all [Insn.stores?]
          exact ⟨rfl, rfl, ⟨a, access⟩, rfl, rfl⟩

end RemoveUnused

theorem Copies.groupOf_find (c : Copies) (var : Local) :
    (c.find var).2.groupOf[var]? = some (c.find var).1 ∧
    ∀ (v : Local) (g : Nat), c.groupOf[v]? = some g → (c.find var).2.groupOf[v]? = some g := by
  unfold find
  split
  next g found => exact ⟨found, fun _ _ found => found⟩
  next missing =>
    refine ⟨by simp, fun v g found => ?_⟩
    dsimp only
    rw [Std.HashMap.getElem?_insert, if_neg, found]
    intro same
    rw [eq_of_beq same, found] at missing
    cases missing

namespace PropagateCopies

variable {b : Body} {s : PropagateCopies.State} {l m : Line} {v : Local}

theorem visit_target (target : b.isTarget l = true) :
    visit b s l = { enter b s l with before := some l } := by
  rw [visit, if_pos target]

theorem visit_load (straight : b.isTarget l = false) (loads : l.insn.loads? = some v) :
    visit b s l = { load s l v with before := some l } := by
  cases insn : l.insn <;> simp [Insn.loads?, insn] at loads
  simp [visit, straight, insn, loads]

theorem visit_store (straight : b.isTarget l = false) (stores : l.insn.stores? = some v) :
    visit b s l = { store s l v with before := some l } := by
  cases insn : l.insn <;> simp [Insn.stores?, insn] at stores
  simp [visit, straight, insn, stores]

theorem visit_other (straight : b.isTarget l = false) (no_load : l.insn.loads? = none)
    (no_store : l.insn.stores? = none) :
    visit b s l = { leave b s l with before := some l } := by
  cases insn : l.insn with
  | access a =>
    cases isStore : a.isStore <;> simp [Insn.loads?, Insn.stores?, insn, isStore]
      at no_load no_store
  | label | literal | constant | plain | jump | switch => simp [visit, straight, insn]

theorem leave_keeps (b : Body) (s : PropagateCopies.State) (l : Line) :
    (leave b s l).known = s.known ∧ (leave b s l).replacement = s.replacement ∧
    (leave b s l).fresh = s.fresh := by
  refine List.foldlRecOn (motive := fun t : PropagateCopies.State =>
    t.known = s.known ∧ t.replacement = s.replacement ∧ t.fresh = s.fresh) _ _ ⟨rfl, rfl, rfl⟩
      fun t same target _ => ?_
  split
  · split
    · exact same
    · exact same
  · exact same

theorem store_keeps (s : PropagateCopies.State) (l : Line) (v : Local) :
    (store s l v).arriving = s.arriving ∧ (store s l v).fresh = s.fresh := by
  obtain ⟨known, arriving, before, replacement, fresh⟩ := s
  unfold store
  dsimp only
  split <;> exact ⟨rfl, rfl⟩

/-- Whether a load and the store after it are a copy within a group. -/
def isVain (c : Copies) (l m : Line) : Bool :=
  match l.insn.loads?, m.insn.stores? with
  | some v, some w => !(c.copy w v).1
  | _, _ => false

theorem isVain_iff {c : Copies} : isVain c l m = true ↔
    ∃ v w, l.insn.loads? = some v ∧ m.insn.stores? = some w ∧ (c.copy w v).1 = false := by
  unfold isVain
  cases l.insn.loads? <;> cases m.insn.stores? <;> simp

theorem replacement_store (s : PropagateCopies.State) (stores : l.insn.stores? = some v) :
    (store s l v).replacement =
      match s.before with
      | some p => if isVain s.known p l then (s.replacement.insert p.tag []).insert l.tag []
        else s.replacement
      | none => s.replacement := by
  obtain ⟨known, arriving, before, replacement, fresh⟩ := s
  unfold store isVain
  rw [stores]
  cases before with
  | none => rfl
  | some p =>
    cases loads : p.insn.loads? with
    | none => simp [loads]
    | some source => cases new : (known.copy v source).1 <;> simp [loads, new]

/-- A load and a store that copy within a group go, and another load reads the root of its group. -/
def scan (b : Body) : Scan State where
  visit := visit b
  before := State.before
  table := State.replacement
  fresh := State.fresh
  verdict s l :=
    if b.isTarget l then .stays
    else
      match l.insn.loads? with
      | some v => if s.known.root v = v then .stays else .becomes (.load (s.known.root v))
      | none => if s.before.any (isVain s.known · l) then .goes else .stays
  before_visit _ _ := rfl
  decides s l := by
    cases target : b.isTarget l with
    | true =>
      rw [visit_target target]
      exact ⟨rfl, rfl⟩
    | false =>
      rw [if_neg Bool.false_ne_true]
      cases loads : l.insn.loads? with
      | some v =>
        rw [visit_load target loads]
        unfold load
        dsimp only
        split
        · exact ⟨rfl, rfl⟩
        · obtain ⟨a, access⟩ : ∃ a, l.insn = .access a := by
            cases insn : l.insn <;> simp_all [Insn.loads?]
          exact ⟨rfl, rfl, ⟨a, access⟩, rfl, rfl⟩
      | none =>
        cases stores : l.insn.stores? with
        | none =>
          have not_vain : s.before.any (isVain s.known · l) = false := by
            cases s.before <;> simp [isVain, stores]
          rw [visit_other target loads stores, not_vain]
          exact ⟨(leave_keeps b s l).2.1, (leave_keeps b s l).2.2⟩
        | some w =>
          rw [visit_store target stores]
          have table := replacement_store s stores
          cases is_before : s.before with
          | none =>
            rw [is_before] at table
            exact ⟨table, (store_keeps s l w).2⟩
          | some p =>
            rw [is_before] at table
            dsimp only at table
            rw [Option.any_some]
            split at table
            · next vain =>
              obtain ⟨v, _, p_loads, _⟩ := isVain_iff.1 vain
              rw [if_pos vain]
              exact ⟨⟨p, rfl, by simp [isPush, p_loads], table⟩, (store_keeps s l w).2, w, stores⟩
            · next not_vain =>
              rw [if_neg not_vain]
              exact ⟨table, (store_keeps s l w).2⟩

end PropagateCopies

end Restack
