import Mathlib.Data.List.Pairwise
import Restack.Proofs.Layout.Assembly
import Restack.Proofs.Pass.Walks

set_option autoImplicit false

namespace Restack

variable {l : Line} {first second : List Line}

theorem Line.Resized.isMovable_eq {m : Line} (resized : l.Resized m) :
    m.insn.isMovable = l.insn.isMovable := by
  cases resized <;> rfl

theorem Insn.isMovable_of_isConstant {x : Insn} (constant : x.isConstant = true) :
    x.isMovable = true := by
  cases x <;> simp_all [isConstant, isMovable]

/-- Movable lines may have become anything; all others are still there, up to the size of jumps. -/
inductive Rewritten : List Line → List Line → Prop where
  | nil : Rewritten [] []
  | keep {l m : Line} {first second : List Line} : l.Resized m → Rewritten first second →
      Rewritten (l :: first) (m :: second)
  | edit {l : Line} {first second : List Line} (part : List Line) :
      l.insn.isMovable = true → Rewritten first second →
      Rewritten (l :: first) (part ++ second)

namespace Rewritten

variable {first second third : List Line}

theorem refl (lines : List Line) : Rewritten lines lines := by
  induction lines with
  | nil => exact .nil
  | cons l lines ih => exact .keep (.same l) ih

theorem split {front back : List Line} (rewritten : Rewritten (front ++ back) third) :
    ∃ front' back', third = front' ++ back' ∧ Rewritten front front' ∧ Rewritten back back' := by
  induction front generalizing third with
  | nil => exact ⟨[], third, rfl, .nil, rewritten⟩
  | cons l front ih =>
    cases rewritten with
    | keep resized rest =>
      obtain ⟨front', back', rfl, in_front, in_back⟩ := ih rest
      exact ⟨_ :: front', back', rfl, .keep resized in_front, in_back⟩
    | edit part movable rest =>
      obtain ⟨front', back', rfl, in_front, in_back⟩ := ih rest
      exact ⟨part ++ front', back', by rw [List.append_assoc], .edit part movable in_front, in_back⟩

theorem trans (start : Rewritten first second) (next : Rewritten second third) :
    Rewritten first third := by
  induction start generalizing third with
  | nil => exact next
  | keep resized _ ih =>
    cases next with
    | keep resized' rest => exact .keep (resized.trans resized') (ih rest)
    | edit part movable rest => exact .edit part (resized.isMovable_eq ▸ movable) (ih rest)
  | edit part movable _ ih =>
    obtain ⟨part', rest, rfl, _, in_rest⟩ := next.split
    exact .edit part' movable (ih in_rest)

theorem of_resized (resized : List.Forall₂ Line.Resized first second) : Rewritten first second := by
  induction resized with
  | nil => exact .nil
  | cons head _ ih => exact .keep head ih

theorem of_flatMap {part : Line → List Line} (lines : List Line)
    (fixed : ∀ l ∈ lines, l.insn.isMovable = false → part l = [l]) :
    Rewritten lines (lines.flatMap part) := by
  induction lines with
  | nil => exact .nil
  | cons l lines ih =>
    have rest := ih fun m member => fixed m (List.mem_cons_of_mem _ member)
    rw [List.flatMap_cons]
    cases movable : l.insn.isMovable with
    | true => exact .edit (part l) movable rest
    | false =>
      rw [fixed l List.mem_cons_self movable]
      exact .keep (.same l) rest

theorem of_filter {keep : Line → Bool} (lines : List Line)
    (fixed : ∀ l ∈ lines, l.insn.isMovable = false → keep l = true) :
    Rewritten lines (lines.filter keep) := by
  induction lines with
  | nil => exact .nil
  | cons l lines ih =>
    have rest := ih fun m member => fixed m (List.mem_cons_of_mem _ member)
    cases kept : keep l with
    | true =>
      rw [List.filter_cons_of_pos kept]
      exact .keep (.same l) rest
    | false =>
      rw [List.filter_cons_of_neg (by simp [kept])]
      refine .edit [] ?_ rest
      by_contra still
      rw [fixed l List.mem_cons_self (by simpa using still)] at kept
      cases kept

end Rewritten

/-- Where the lines of one list are in another. What stays keeps its order and takes one place. -/
structure Places (place : Nat → Nat) (first second : List Line) : Prop where
  mono : ∀ i j, i ≤ j → place i ≤ place j
  inside : ∀ i, place i ≤ second.length
  kept : ∀ (i : Nat) (l : Line), first[i]? = some l → l.insn.isMovable = false →
    place (i + 1) = place i + 1 ∧ ∃ m, second[place i]? = some m ∧ l.Resized m

theorem Places.cons {place : Nat → Nat} (places : Places place first second)
    (start : place 0 = 0) (l : Line) (part : List Line)
    (fixed : l.insn.isMovable = false → ∃ m, part = [m] ∧ l.Resized m) :
    Places (fun i => if i = 0 then 0 else part.length + place (i - 1)) (l :: first)
      (part ++ second) := by
  refine ⟨fun i j le => ?_, fun i => ?_, fun i l' found still => ?_⟩
  · have step := places.mono (i - 1) (j - 1) (by omega)
    split <;> split <;> omega
  · have bound := places.inside (i - 1)
    rw [List.length_append]
    split <;> omega
  · cases i with
    | zero =>
      cases found
      obtain ⟨m, rfl, resized⟩ := fixed still
      exact ⟨by simp [start], m, rfl, resized⟩
    | succ i =>
      obtain ⟨next, m, there, resized⟩ := places.kept i l' (by simpa using found) still
      refine ⟨?_, m, ?_, resized⟩
      · simp only [Nat.add_eq_zero_iff, Nat.succ_ne_self, and_false, if_false,
          Nat.add_sub_cancel, next]
        omega
      · simp only [Nat.add_eq_zero_iff, Nat.succ_ne_self, and_false, if_false, Nat.add_sub_cancel]
        rw [List.getElem?_append_right (by omega), Nat.add_sub_cancel_left, there]

theorem Rewritten.exists_places (rewritten : Rewritten first second) :
    ∃ place, place 0 = 0 ∧ Places place first second := by
  induction rewritten with
  | nil => exact ⟨fun _ => 0, rfl, by simp, by simp, by simp⟩
  | @keep l m first second resized _ ih =>
    obtain ⟨place, start, places⟩ := ih
    exact ⟨_, rfl, places.cons start l [m] fun _ => ⟨m, rfl, resized⟩⟩
  | @edit l first second part movable _ ih =>
    obtain ⟨place, start, places⟩ := ih
    exact ⟨_, rfl, places.cons start l part fun fixed => by simp [movable] at fixed⟩

theorem Places.shift {place : Nat → Nat} (places : Places place first second)
    (prologue : List Line) :
    Places (fun i => prologue.length + place i) first (prologue ++ second) := by
  refine ⟨fun i j le => ?_, fun i => ?_, fun i l found fixed => ?_⟩
  · have := places.mono i j le
    omega
  · have := places.inside i
    rw [List.length_append]
    omega
  · obtain ⟨next, m, there, resized⟩ := places.kept i l found fixed
    refine ⟨by omega, m, ?_, resized⟩
    rw [List.getElem?_append_right (by omega), Nat.add_sub_cancel_left, there]

/-- Lines are told apart by their tags, constants perhaps excepted, and all tags are below `fresh`.
-/
structure Tagged (lines : List Line) (fresh : Nat) : Prop where
  apart : lines.Pairwise fun l m => l.tag = m.tag → l.insn.isConstant = true ∧
    m.insn.isConstant = true
  bound : ∀ l ∈ lines, l.tag < fresh

namespace Tagged

variable {lines : List Line} {fresh : Nat}

theorem eq_or_constant (tagged : Tagged lines fresh) {m : Line} (left : l ∈ lines)
    (right : m ∈ lines) (same : l.tag = m.tag) :
    l = m ∨ l.insn.isConstant = true ∧ m.insn.isConstant = true := by
  by_cases equal : l = m
  · exact .inl equal
  · have symmetric : Std.Symm fun l m : Line =>
        l.tag = m.tag → l.insn.isConstant = true ∧ m.insn.isConstant = true :=
      ⟨fun _ _ related tags => (related tags.symm).symm⟩
    exact .inr (tagged.apart.forall left right equal same)

theorem sublist (tagged : Tagged lines fresh) {fewer : List Line} (sub : fewer.Sublist lines) :
    Tagged fewer fresh :=
  ⟨tagged.apart.sublist sub, fun l member => tagged.bound l (sub.subset member)⟩

theorem tagsApart (tagged : Tagged lines fresh) : TagsApart lines :=
  tagged.apart.imp fun related same =>
    ⟨Insn.isMovable_of_isConstant (related same).1, Insn.isMovable_of_isConstant (related same).2⟩

end Tagged

theorem tagged_of_range {lines : List Line} {fresh : Nat}
    (tags : lines.map Line.tag = List.range fresh) :
    Tagged lines fresh := by
  constructor
  · have distinct : (lines.map Line.tag).Nodup := tags ▸ List.nodup_range
    refine (List.pairwise_map.1 distinct).imp ?_
    intro l m different same
    exact absurd same different
  · intro l member
    rw [← List.mem_range, ← tags]
    exact List.mem_map_of_mem member

/-- What takes the place of movable lines, by tag: constants of the body, the line itself, or new
lines with tags from `start` on. -/
structure Edit (lines : List Line) (start : Nat) (replacement : Std.HashMap Nat (List Line))
    (fresh : Nat) : Prop where
  grown : start ≤ fresh
  keyed : ∀ (tag : Nat) (part : List Line), replacement[tag]? = some part →
    ∃ l ∈ lines, l.tag = tag ∧ l.insn.isMovable = true
  origin : ∀ (tag : Nat) (part : List Line), replacement[tag]? = some part → ∀ m ∈ part,
    m ∈ lines ∧ (m.insn.isConstant = true ∨ m.tag = tag) ∨
      start ≤ m.tag ∧ m.tag < fresh ∧ m.insn.targets = [] ∧ ∃ l ∈ lines, l.tag = tag ∧
      l.insn.isConstant = false
  own : ∀ (tag tag' : Nat) (part part' : List Line), replacement[tag]? = some part →
    replacement[tag']? = some part' →
    ∀ m ∈ part, ∀ m' ∈ part', start ≤ m.tag → m.tag = m'.tag → tag = tag'
  distinct : ∀ (tag : Nat) (part : List Line), replacement[tag]? = some part →
    part.Pairwise fun l m => l.tag = m.tag → l.insn.isConstant = true ∧ m.insn.isConstant = true

namespace Edit

variable {lines : List Line} {start fresh : Nat} {replacement : Std.HashMap Nat (List Line)}

theorem empty (lines : List Line) (start : Nat) : Edit lines start ∅ start :=
  ⟨Nat.le_refl start, by simp, by simp, by simp, by simp⟩

section Edit

variable (edit : Edit lines start replacement fresh)
include edit

section

variable (tagged : Tagged lines start)
include tagged

theorem insert {tag next : Nat} {part : List Line}
    (key : ∃ l ∈ lines, l.tag = tag ∧ l.insn.isMovable = true) (le : fresh ≤ next)
    (origin : ∀ m ∈ part, m ∈ lines ∧ (m.insn.isConstant = true ∨ m.tag = tag) ∨ fresh ≤ m.tag ∧
      m.tag < next ∧ m.insn.targets = [] ∧ ∃ l ∈ lines, l.tag = tag ∧ l.insn.isConstant = false)
    (distinct : part.Pairwise fun l m => l.tag = m.tag → l.insn.isConstant = true ∧
      m.insn.isConstant = true) :
    Edit lines start (replacement.insert tag part) next := by
  have grown := edit.grown
  have lookup : ∀ (t : Nat) (p : List Line), (replacement.insert tag part)[t]? = some p →
      t = tag ∧ p = part ∨ replacement[t]? = some p :=
        fun t p found => (insert_cases found).imp id And.right
  -- A tag that is not one of the body is below `fresh` if it was there before, and not below if it
  -- is new.
  have older : ∀ (t : Nat) (p : List Line), replacement[t]? = some p → ∀ m ∈ p, m.tag < fresh := by
    intro t p found m inside
    rcases edit.origin t p found m inside with ⟨there, _⟩ | ⟨_, less, _⟩
    · have := tagged.bound m there
      omega
    · exact less
  have newer : ∀ m ∈ part, start ≤ m.tag → fresh ≤ m.tag := by
    intro m inside from_start
    rcases origin m inside with ⟨there, _⟩ | ⟨from_fresh, _⟩
    · have := tagged.bound m there
      omega
    · exact from_fresh
  refine ⟨by omega, fun t p found => ?_, fun t p found m inside => ?_,
    fun t t' p p' found found' m inside m' inside' from_start same => ?_, fun t p found => ?_⟩
  · rcases lookup t p found with ⟨rfl, _⟩ | before
    · exact key
    · exact edit.keyed t p before
  · rcases lookup t p found with ⟨rfl, rfl⟩ | before
    · rcases origin m inside with old | ⟨from_fresh, rest⟩
      · exact .inl old
      · exact .inr ⟨by omega, rest⟩
    · rcases edit.origin t p before m inside with old | ⟨from_start, less, rest⟩
      · exact .inl old
      · exact .inr ⟨from_start, by omega, rest⟩
  · rcases lookup t p found with ⟨rfl, rfl⟩ | before
    · rcases lookup t' p' found' with ⟨rfl, rfl⟩ | before'
      · rfl
      · have less := older t' p' before' m' inside'
        have le := newer m inside from_start
        omega
    · rcases lookup t' p' found' with ⟨rfl, rfl⟩ | before'
      · have less := older t p before m inside
        have le := newer m' inside' (by omega)
        omega
      · exact edit.own t t' p p' before before' m inside m' inside' from_start same
  · rcases lookup t p found with ⟨rfl, rfl⟩ | before
    · exact distinct
    · exact edit.distinct t p before

theorem drop {tag : Nat} (key : ∃ l ∈ lines, l.tag = tag ∧ l.insn.isMovable = true) :
    Edit lines start (replacement.insert tag []) fresh :=
  edit.insert tagged key (Nat.le_refl fresh) (by simp) .nil

theorem renew (member : l ∈ lines) {a : Access} (access : l.insn = .access a) {old new : List Line}
    {next : Nat} (itself : old = [] ∨ old = [l]) (ascending : new.Pairwise fun x y => x.tag < y.tag)
    (le : fresh ≤ next) (added : ∀ m ∈ new, fresh ≤ m.tag ∧ m.tag < next ∧ m.insn.targets = []) :
    Edit lines start (replacement.insert l.tag (old ++ new)) next := by
  have only : ∀ m ∈ old, m = l := by
    intro m inside
    rcases itself with rfl | rfl
    · cases inside
    · exact List.mem_singleton.1 inside
  refine edit.insert tagged ⟨l, member, rfl, by rw [access]; rfl⟩ le (fun m inside => ?_) ?_
  · rcases List.mem_append.1 inside with first | second
    · cases only m first
      exact .inl ⟨member, .inr rfl⟩
    · obtain ⟨from_fresh, less, straight⟩ := added m second
      exact .inr ⟨from_fresh, less, straight, l, member, rfl, by rw [access]; rfl⟩
  · refine List.pairwise_append.2
      ⟨?_, ascending.imp fun less same => by omega, fun x first y second same => ?_⟩
    · rcases itself with rfl | rfl
      · exact .nil
      · exact List.pairwise_singleton _ _
    · have below := tagged.bound l member
      have grown := edit.grown
      have from_fresh := (added y second).1
      rw [only x first] at same
      omega

theorem renew_one (member : l ∈ lines) {a : Access} (access : l.insn = .access a) {x : Insn}
    (straight : x.targets = []) :
    Edit lines start (replacement.insert l.tag [⟨fresh, x⟩]) (fresh + 1) := by
  have added : ∀ m ∈ [(⟨fresh, x⟩ : Line)], fresh ≤ m.tag ∧ m.tag < fresh + 1 ∧
      m.insn.targets = [] := by
    intro m inside
    cases List.mem_singleton.1 inside
    exact ⟨Nat.le_refl _, Nat.lt_succ_self _, straight⟩
  exact edit.renew tagged member access (.inl rfl) (List.pairwise_singleton _ _)
    (Nat.le_succ _) added

end

theorem origin_getD {m : Line} (member : l ∈ lines) (inside : m ∈ replacement.getD l.tag [l]) :
    m ∈ lines ∧ (m.insn.isConstant = true ∨ m.tag = l.tag) ∨
      start ≤ m.tag ∧ m.tag < fresh ∧ m.insn.targets = [] ∧
        ∃ l' ∈ lines, l'.tag = l.tag ∧ l'.insn.isConstant = false := by
  rw [Std.HashMap.getD_eq_getD_getElem?] at inside
  cases found : replacement[l.tag]? with
  | none =>
    rw [found, Option.getD_none, List.mem_singleton] at inside
    cases inside
    exact .inl ⟨member, .inr rfl⟩
  | some part =>
    rw [found, Option.getD_some] at inside
    exact edit.origin l.tag part found m inside

theorem own_getD (tagged : Tagged lines start) {l' m m' : Line} (member : l ∈ lines)
    (member' : l' ∈ lines) (inside : m ∈ replacement.getD l.tag [l])
    (inside' : m' ∈ replacement.getD l'.tag [l']) (from_start : start ≤ m.tag)
    (same : m.tag = m'.tag) : l.tag = l'.tag := by
  rw [Std.HashMap.getD_eq_getD_getElem?] at inside inside'
  cases found : replacement[l.tag]? with
  | none =>
    rw [found, Option.getD_none, List.mem_singleton] at inside
    have := tagged.bound l member
    rw [inside] at from_start
    omega
  | some part =>
    cases found' : replacement[l'.tag]? with
    | none =>
      rw [found', Option.getD_none, List.mem_singleton] at inside'
      have := tagged.bound l' member'
      rw [same, inside'] at from_start
      omega
    | some part' =>
      rw [found, Option.getD_some] at inside
      rw [found', Option.getD_some] at inside'
      exact edit.own _ _ part part' found found' m inside m' inside' from_start same

theorem tagged (tagged : Tagged lines start) :
    Tagged (lines.flatMap fun l => replacement.getD l.tag [l]) fresh := by
  have grown := edit.grown
  refine ⟨List.pairwise_flatMap.2 ⟨fun l member => ?_, ?_⟩, fun m inside => ?_⟩
  · rw [Std.HashMap.getD_eq_getD_getElem?]
    cases found : replacement[l.tag]? with
    | none => exact List.pairwise_singleton _ _
    | some part => exact edit.distinct l.tag part found
  · refine tagged.apart.imp_of_mem fun {l l'} member member' related m inside m' inside' same => ?_
    rcases edit.origin_getD member inside with ⟨there, kept⟩ |
      ⟨from_start, _, _, key, at_key, key_tag, variable_key⟩
    · rcases edit.origin_getD member' inside' with ⟨there', kept'⟩ | ⟨from_start', _⟩
      · rcases tagged.eq_or_constant there there' same with rfl | both
        · -- One line in two places: if it is no constant, both places have its tag.
          by_contra not_both
          have variable_m : m.insn.isConstant ≠ true :=
            fun constant => not_both ⟨constant, constant⟩
          have tag := kept.resolve_left variable_m
          have tag' := kept'.resolve_left variable_m
          have constant := (related (tag.symm.trans tag')).1
          rcases tagged.eq_or_constant there member tag with rfl | both
          · exact variable_m constant
          · exact variable_m both.1
        · exact both
      · have := tagged.bound m there
        omega
    · have tags := edit.own_getD tagged member member' inside inside' from_start same
      have constant := (related tags).1
      rcases tagged.eq_or_constant at_key member key_tag with rfl | both
      · simp [constant] at variable_key
      · simp [both.1] at variable_key
  · obtain ⟨l, member, inside⟩ := List.mem_flatMap.1 inside
    rcases edit.origin_getD member inside with ⟨there, _⟩ | ⟨_, less, _⟩
    · have := tagged.bound m there
      omega
    · exact less

theorem rewritten (tagged : Tagged lines start) :
    Rewritten lines (lines.flatMap fun l => replacement.getD l.tag [l]) := by
  apply Rewritten.of_flatMap
  intro l member fixed
  rw [Std.HashMap.getD_eq_getD_getElem?]
  cases found : replacement[l.tag]? with
  | none => rfl
  | some part =>
    obtain ⟨key, at_key, tag, movable⟩ := edit.keyed l.tag part found
    rcases tagged.eq_or_constant at_key member tag with rfl | both
    · simp [movable] at fixed
    · rw [Insn.isMovable_of_isConstant both.2] at fixed
      cases fixed

end Edit

end Edit

namespace Body

/-- `later` was made from `b` by passes that leave everything alone that is referred to. -/
structure Rewrites (b later : Body) : Prop where
  lines : ∃ prologue rest, later.lines = prologue ++ rest ∧ Rewritten b.lines rest
  tagged : Tagged later.lines later.fresh
  straight : ∀ l ∈ later.lines, l.insn.targets ≠ [] → l ∈ b.lines
  heads : later.heads = b.heads
  rows : later.rows = b.rows

namespace Rewrites

variable {b later last : Body}

theorem refl (tagged : Tagged b.lines b.fresh) : b.Rewrites b :=
  ⟨⟨[], b.lines, rfl, .refl _⟩, tagged, fun _ member _ => member, rfl, rfl⟩

theorem trans (first : b.Rewrites later) (second : later.Rewrites last) : b.Rewrites last := by
  obtain ⟨prologue, rest, split, rewritten⟩ := first.lines
  obtain ⟨prologue', rest', split', rewritten'⟩ := second.lines
  rw [split] at rewritten'
  obtain ⟨front, back, rfl, _, in_back⟩ := rewritten'.split
  refine ⟨⟨prologue' ++ front, back, by rw [split', List.append_assoc], rewritten.trans in_back⟩,
    second.tagged, ?_, second.heads.trans first.heads, second.rows.trans first.rows⟩
  intro l member jumps
  exact first.straight l (second.straight l member jumps) jumps

theorem of_edit {replacement : Std.HashMap Nat (List Line)} {fresh : Nat}
    (tagged : Tagged b.lines b.fresh) (edit : Edit b.lines b.fresh replacement fresh) :
    b.Rewrites { b.splice replacement with fresh } := by
  refine ⟨⟨[], _, rfl, edit.rewritten tagged⟩, edit.tagged tagged, fun m member jumps =>
    ?_, rfl, rfl⟩
  obtain ⟨l, inside, of_l⟩ := List.mem_flatMap.1 member
  rcases edit.origin_getD inside of_l with ⟨there, _⟩ | ⟨_, _, straight, _⟩
  · exact there
  · exact absurd straight jumps

end Rewrites

end Body

end Restack
