import Restack.Proofs.Pass.Simplify
import Restack.Proofs.Stack.Balance

set_option autoImplicit false

namespace Restack

section Segments

variable {α : Type} {gone : α → Prop} {segment : α → List α → α → Prop} {xs : List α}

/-- A list in parts: elements that stay, and segments of which the first and the last element go. -/
inductive Parted (gone : α → Prop) (segment : α → List α → α → Prop) : List α → Prop where
  | nil : Parted gone segment []
  | stay {x : α} {xs : List α} : ¬ gone x → Parted gone segment xs → Parted gone segment (x :: xs)
  | drop {first last : α} {mid xs : List α} :
      segment first mid last → gone first → gone last → Parted gone segment xs →
      Parted gone segment (first :: (mid ++ last :: xs))

/-- Whatever goes is at an end of a segment that goes. -/
def Owned (gone : α → Prop) (segment : α → List α → α → Prop) (xs : List α) : Prop :=
  ∀ x ∈ xs, gone x → ∃ front first mid last back, xs = front ++ first :: (mid ++ last :: back) ∧
    segment first mid last ∧ gone first ∧ gone last ∧ (x = first ∨ x = last)

/-- The first, inner and last elements of segments are of different sorts. -/
structure Segmental (segment : α → List α → α → Prop) : Prop where
  ends : ∀ {a b a' b' : α} {m m' : List α}, segment a m b → segment a' m' b' → a ≠ b'
  inner : ∀ {a b a' b' : α} {m m' : List α}, segment a m b → segment a' m' b' →
    ∀ x ∈ m, x ≠ a' ∧ x ≠ b'

theorem Segmental.inner_unique (segmental : Segmental segment) {a b b' : α}
    {m m' back back' : List α} (one : segment a m b) (other : segment a m' b')
    (same : m ++ b :: back = m' ++ b' :: back') : m = m' ∧ b = b' ∧ back = back' := by
  have inner : ∀ x ∈ m, x ≠ b' := fun x inside => (segmental.inner one other x inside).2
  have inner' : ∀ x ∈ m', x ≠ b := fun x inside => (segmental.inner other one x inside).2
  clear one other
  induction m generalizing m' with
  | nil =>
    cases m' with
    | nil =>
      cases same
      exact ⟨rfl, rfl, rfl⟩
    | cons x m' =>
      obtain ⟨first, _⟩ := List.cons_eq_cons.1 same
      exact absurd first.symm (inner' x List.mem_cons_self)
  | cons x m ih =>
    cases m' with
    | nil =>
      obtain ⟨first, _⟩ := List.cons_eq_cons.1 same
      exact absurd first (inner x List.mem_cons_self)
    | cons y m' =>
      obtain ⟨rfl, rest⟩ := List.cons_eq_cons.1 same
      obtain ⟨rfl, rfl, rfl⟩ := ih rest (fun z inside => inner z (List.mem_cons_of_mem _ inside))
        (fun z inside => inner' z (List.mem_cons_of_mem _ inside))
      exact ⟨rfl, rfl, rfl⟩

theorem Owned.tail {x : α} (owned : Owned gone segment (x :: xs)) (stays : ¬ gone x) :
    Owned gone segment xs := by
  intro y member goes
  obtain ⟨front, first, mid, last, back, split, is_segment, goes_first, rest⟩ :=
    owned y (List.mem_cons_of_mem _ member) goes
  cases front with
  | nil =>
    obtain ⟨rfl, _⟩ := List.cons_eq_cons.1 split
    exact absurd goes_first stays
  | cons z front =>
    rw [List.cons_append] at split
    obtain ⟨rfl, cut⟩ := List.cons_eq_cons.1 split
    exact ⟨front, first, mid, last, back, cut, is_segment, goes_first, rest⟩

theorem Owned.behind (segmental : Segmental segment) {first last : α} {mid : List α}
    (owned : Owned gone segment (first :: (mid ++ last :: xs)))
    (distinct : (first :: (mid ++ last :: xs)).Nodup) (is_segment : segment first mid last) :
    Owned gone segment xs := by
  intro y member goes
  have in_tail : y ∈ mid ++ last :: xs := List.mem_append_right _ (List.mem_cons_of_mem _ member)
  obtain ⟨front, first', mid', last', back, split, is_segment', rest⟩ :=
    owned y (List.mem_cons_of_mem _ in_tail) goes
  obtain ⟨not_first, distinct⟩ := List.nodup_cons.1 distinct
  have y_ne_last : y ≠ last := by
    rintro rfl
    exact (List.nodup_cons.1 (List.nodup_append.1 distinct).2.1).1 member
  cases front with
  | nil =>
    -- The other segment starts at the same place, so it is the same.
    obtain ⟨rfl, cut⟩ := List.cons_eq_cons.1 split
    obtain ⟨rfl, rfl, rfl⟩ := segmental.inner_unique is_segment is_segment' cut
    rcases rest.2.2 with rfl | rfl
    · exact absurd in_tail not_first
    · exact absurd rfl y_ne_last
  | cons z front =>
    rw [List.cons_append] at split
    obtain ⟨rfl, cut⟩ := List.cons_eq_cons.1 split
    have later : ∃ front', xs = front' ++ first' :: (mid' ++ last' :: back) := by
      rcases List.append_eq_append_iff.1 cut with ⟨more, rfl, parts⟩ | ⟨more, rfl, parts⟩
      · cases more with
        | nil =>
          obtain ⟨rfl, _⟩ := List.cons_eq_cons.1 parts
          exact absurd rfl (segmental.ends is_segment' is_segment)
        | cons x more =>
          obtain ⟨rfl, rfl⟩ := List.cons_eq_cons.1 parts
          exact ⟨more, rfl⟩
      · cases more with
        | nil =>
          obtain ⟨rfl, _⟩ := List.cons_eq_cons.1 parts
          exact absurd rfl (segmental.ends is_segment' is_segment)
        | cons x more =>
          obtain ⟨rfl, _⟩ := List.cons_eq_cons.1 parts
          exact absurd rfl (segmental.inner is_segment is_segment' _
            (List.mem_append_right _ List.mem_cons_self)).1
    obtain ⟨front', same⟩ := later
    exact ⟨front', first', mid', last', back, same, is_segment', rest⟩

theorem Owned.parted (segmental : Segmental segment) (owned : Owned gone segment xs)
    (distinct : xs.Nodup) :
    Parted gone segment xs := by
  induction length : xs.length using Nat.strongRecOn generalizing xs with
  | ind n ih =>
    cases xs with
    | nil => exact .nil
    | cons x xs =>
      by_cases goes : gone x
      · obtain ⟨front, first, mid, last, back, split, is_segment, goes_first, goes_last, which⟩ :=
          owned x List.mem_cons_self goes
        have apart := (List.nodup_cons.1 distinct).1
        cases front with
        | nil =>
          obtain ⟨rfl, rfl⟩ := List.cons_eq_cons.1 split
          refine .drop is_segment goes_first goes_last
            (ih back.length ?_ (owned.behind segmental distinct is_segment) ?_ rfl)
          · simp only [List.length_cons, List.length_append] at length
            omega
          · exact (List.nodup_cons.1 (List.nodup_append.1 (List.nodup_cons.1 distinct).2).2.1).2
        | cons z front =>
          obtain ⟨rfl, rfl⟩ := List.cons_eq_cons.1 split
          rcases which with rfl | rfl <;> simp at apart
      · refine .stay goes (ih xs.length ?_ (owned.tail goes) (List.nodup_cons.1 distinct).2 rfl)
        simp only [List.length_cons] at length
        omega

end Segments

section Lines

variable {lines : List Line} {replacement : Std.HashMap Nat (List Line)}
  {expects : Line → Operands → Prop} {cap : Nat}
variable {p : Pool}

theorem eq_of_tag_eq (distinct : (lines.map Line.tag).Nodup) {l m : Line} (left : l ∈ lines)
    (right : m ∈ lines) (same : l.tag = m.tag) : l = m :=
  List.inj_on_of_nodup_map distinct left right same

/-- `m` does the work of `l`: it pushes a value of the same width, or drops what `l` stores. -/
def Line.Swaps (l m : Line) : Prop :=
  (∃ w, l.insn.pushes? = some w ∧ m.insn.pushes? = some w ∧ m.insn.Sound) ∨
    ∃ v, l.insn.stores? = some v ∧ m.insn = .op (if v.isWide then Op.pop2 else Op.pop)

/-- A push and a store that stand together. -/
def Line.Pair (l : Line) (mid : List Line) (m : Line) : Prop :=
  mid = [] ∧ (∃ w, l.insn.pushes? = some w) ∧ ∃ v, m.insn.stores? = some v

theorem segmental_pair : Segmental Line.Pair := by
  refine ⟨?_, ?_⟩
  · rintro a b a' b' m m' ⟨_, ⟨w, pushes⟩, _⟩ ⟨_, _, v, stores⟩ rfl
    rw [(Insn.of_pushes? pushes).1] at stores
    cases stores
  · rintro a b a' b' m m' ⟨rfl, _⟩ _ x inside
    cases inside

/-- Lines in the place of others, without a difference to the stack. -/
inductive Edited : List Line → List Line → Prop where
  | nil : Edited [] []
  | keep (l : Line) {xs ys : List Line} : Edited xs ys → Edited (l :: xs) (l :: ys)
  | swap {l m : Line} {xs ys : List Line} : l.Swaps m → Edited xs ys → Edited (l :: xs) (m :: ys)
  | pair {l m : Line} {xs ys : List Line} : l.Pair [] m → Edited xs ys → Edited (l :: m :: xs) ys

/-- A replacement that edits: lines that are left out come in pairs. -/
structure Certified (lines : List Line) (replacement : Std.HashMap Nat (List Line)) : Prop where
  swaps : ∀ l ∈ lines, ∀ part, replacement[l.tag]? = some part → part = [] ∨
    ∃ m, part = [m] ∧ l.Swaps m
  pairs : ∀ l ∈ lines, replacement[l.tag]? = some [] →
    ∃ front x y back, lines = front ++ x :: y :: back ∧
    x.Pair [] y ∧ replacement[x.tag]? = some [] ∧ replacement[y.tag]? = some [] ∧ (l = x ∨ l = y)

namespace Certified

theorem edited (certified : Certified lines replacement) (distinct : (lines.map Line.tag).Nodup) :
    Edited lines (lines.flatMap fun l => replacement.getD l.tag [l]) := by
  have owned : Owned (fun l : Line => replacement[l.tag]? = some []) Line.Pair lines := by
    intro l member goes
    obtain ⟨front, x, y, back, split, pair, goes_first, goes_second, which⟩ :=
      certified.pairs l member goes
    exact ⟨front, x, [], y, back, split, pair, goes_first, goes_second, which⟩
  have parted := owned.parted segmental_pair distinct.of_map
  have swaps := certified.swaps
  clear owned distinct certified
  induction parted with
  | nil => exact .nil
  | @stay l xs stays _ ih =>
    have rest := ih (fun x inside => swaps x (List.mem_cons_of_mem _ inside))
    rw [List.flatMap_cons, Std.HashMap.getD_eq_getD_getElem?]
    cases found : replacement[l.tag]? with
    | none => exact .keep l rest
    | some part =>
      rcases swaps l List.mem_cons_self part found with rfl | ⟨m, rfl, swap⟩
      · exact absurd found stays
      · exact .swap swap rest
  | @drop l m mid xs pair goes_first goes_last _ ih =>
    obtain ⟨rfl, _⟩ := id pair
    have rest :=
      ih (fun x inside => swaps x (List.mem_cons_of_mem _ (List.mem_cons_of_mem _ inside)))
    have none {x : Line} (goes : replacement[x.tag]? = some []) :
        replacement.getD x.tag [x] = [] := by
      rw [Std.HashMap.getD_eq_getD_getElem?, goes]
      rfl
    rw [List.nil_append, List.flatMap_cons, List.flatMap_cons, none goes_first, none goes_last]
    exact .pair pair rest

end Certified

namespace Edited

variable {p : Pool} {cap : Nat} {expects : Line → Operands → Prop} {xs ys : List Line}
  {s t : Operands}

theorem runs (edited : Edited xs ys) (free : ∀ l s, (∀ q, l.insn ≠ .label q) → expects l s)
    (run : Runs (fun l s u => expects l s ∧ l.insn.Moves p cap s u) xs s t) :
    Runs (fun l s u => expects l s ∧ l.insn.Moves p cap s u) ys s t := by
  induction edited generalizing s with
  | nil => exact run
  | keep l _ ih =>
    obtain ⟨u, first, rest⟩ := Runs.cons_iff.1 run
    exact .cons first (ih rest)
  | @swap l m _ _ swaps _ ih =>
    obtain ⟨u, ⟨_, moves⟩, rest⟩ := Runs.cons_iff.1 run
    rcases swaps with ⟨w, pushes, pushes', sound⟩ | ⟨v, stores, pops⟩
    · have same := (Insn.steps_push_iff moves.sound pushes).1
        (moves.steps_of_falls (Insn.of_pushes? pushes).2.2.1)
      have unlabelled := Insn.of_pushes? pushes'
      exact .cons ⟨free m s unlabelled.2.2.2.2, .of_steps sound moves.bound
        ((Insn.steps_push_iff sound pushes').2 same) unlabelled.2.1⟩ (ih rest)
    · have same := (Insn.steps_store_iff moves.sound stores).1
        (moves.steps_of_falls (Insn.of_stores? stores).2.2.1)
      refine .cons ⟨free m s fun q label => by simp [pops, Insn.op] at label, ?_⟩ (ih rest)
      rw [pops]
      exact .of_steps trivial moves.bound (same ▸ Insn.steps_pop v u) rfl
  | @pair l m _ _ pair _ ih =>
    obtain ⟨_, ⟨w, pushes⟩, v, stores⟩ := pair
    obtain ⟨u, ⟨_, first⟩, rest⟩ := Runs.cons_iff.1 run
    obtain ⟨u', ⟨_, second⟩, rest⟩ := Runs.cons_iff.1 rest
    have pushed := (Insn.steps_push_iff first.sound pushes).1
      (first.steps_of_falls (Insn.of_pushes? pushes).2.2.1)
    have stored := (Insn.steps_store_iff second.sound stores).1
      (second.steps_of_falls (Insn.of_stores? stores).2.2.1)
    obtain ⟨_, rfl⟩ := List.cons_eq_cons.1 (pushed.symm.trans stored)
    exact ih rest

end Edited

/-- Behind a jump that is always taken there is a label that is entered from elsewhere, and a block
that picks up a value does not start with a push. -/
def Body.Follows (b : Body) (picks : UInt32 → Prop) (l m : Line) : Prop :=
  (∀ j, l.insn = .jump j → j.op = none → b.isTarget m = true ∧ ∃ q, m.insn = .label q) ∧
    ∀ q, l.insn = .label (some q) → picks q → m.insn.pushes? = none

namespace Body.Follows

variable {b : Body} {picks : UInt32 → Prop} {l m : Line}

theorem of_other (no_jump : l.insn.targets = []) (no_label : ∀ q, l.insn ≠ .label q) :
    b.Follows picks l m := by
  refine ⟨fun j jump => ?_, fun q label => absurd label (no_label _)⟩
  simp [jump, Insn.targets] at no_jump

theorem of_push {w : Nat} (follows : b.Follows picks l m) (pushes : m.insn.pushes? = some w)
    (x : Line) :
    b.Follows picks l x := by
  refine ⟨fun j jump always => ?_, fun q label picked => ?_⟩
  · obtain ⟨_, q, label⟩ := follows.1 j jump always
    exact absurd label ((Insn.of_pushes? pushes).2.2.2.2 q)
  · rw [follows.2 q label picked] at pushes
    cases pushes

end Body.Follows

theorem Edited.follows {b : Body} {picks : UInt32 → Prop} {xs ys : List Line}
    (edited : Edited xs ys) (before : Line) (chain : (before :: xs).IsChain (b.Follows picks)) :
    (before :: ys).IsChain (b.Follows picks) := by
  induction edited generalizing before with
  | nil => exact chain
  | keep l _ ih =>
    obtain ⟨follows, chain⟩ := List.isChain_cons_cons.1 chain
    exact List.isChain_cons_cons.2 ⟨follows, ih l chain⟩
  | @swap l m _ _ swaps _ ih =>
    obtain ⟨follows, chain⟩ := List.isChain_cons_cons.1 chain
    have free : ∀ x, b.Follows picks m x := by
      intro x
      rcases swaps with ⟨w, _, pushes, _⟩ | ⟨v, _, pops⟩
      · exact .of_other (Insn.of_pushes? pushes).2.1 (Insn.of_pushes? pushes).2.2.2.2
      · exact .of_other (by rw [pops]; rfl) fun q label => by simp [pops, Insn.op] at label
    refine List.isChain_cons_cons.2
      ⟨?_, ih m (List.isChain_cons.2 ⟨fun x _ => free x, (List.isChain_cons.1 chain).2⟩)⟩
    rcases swaps with ⟨w, pushes, _⟩ | ⟨v, stores, pops⟩
    · exact follows.of_push pushes m
    · refine ⟨fun j jump always => ?_, fun q _ _ => by rw [pops]; rfl⟩
      obtain ⟨_, q, label⟩ := follows.1 j jump always
      exact absurd label ((Insn.of_stores? stores).2.2.2.2 q)
  | @pair l m xs _ pair _ ih =>
    obtain ⟨_, ⟨w, pushes⟩, _⟩ := pair
    obtain ⟨follows, chain⟩ := List.isChain_cons_cons.1 chain
    obtain ⟨_, chain⟩ := List.isChain_cons_cons.1 chain
    exact ih before
      (List.isChain_cons.2 ⟨fun x _ => follows.of_push pushes x, (List.isChain_cons.1 chain).2⟩)

theorem segmental_bridge (free : Line → Prop) : Segmental (Line.Bridge free) := by
  have no_label {x : Line} {v : Local} (loads : x.insn.loads? = some v) : ∀ q, x.insn ≠ .label q :=
    (Insn.of_pushes? (Insn.pushes?_of_loads? loads)).2.2.2.2
  refine ⟨?_, ?_⟩
  · rintro a b a' b' m m' ⟨⟨v, stores, _⟩, _⟩ ⟨⟨v', _, loads⟩, _⟩ rfl
    rw [(Insn.of_pushes? (Insn.pushes?_of_loads? loads)).1] at stores
    cases stores
  · rintro a b a' b' m m' ⟨_, labels⟩ ⟨⟨v', stores, loads⟩, _⟩ x inside
    obtain ⟨⟨q, label⟩, _⟩ := labels x inside
    refine ⟨?_, ?_⟩
    · rintro rfl
      exact (Insn.of_stores? stores).2.2.2.2 q label
    · rintro rfl
      exact no_label loads q label

theorem runs_labels {labels : List Line} {s : Operands} (all : ∀ x ∈ labels, ∃ q, x.insn = .label q)
    (free : ∀ x ∈ labels, expects x s) (bound : s.slots ≤ cap) :
    Runs (fun l s u => expects l s ∧ l.insn.Moves p cap s u) labels s s := by
  induction labels with
  | nil => exact .nil s
  | cons x labels ih =>
    obtain ⟨q, label⟩ := all x List.mem_cons_self
    refine .cons ⟨free x List.mem_cons_self, ?_⟩
      (ih (fun y inside => all y (List.mem_cons_of_mem _ inside))
      fun y inside => free y (List.mem_cons_of_mem _ inside))
    rw [label]
    exact .of_steps trivial bound (Insn.steps_label q s) rfl

theorem eq_of_runs_labels {labels : List Line} {s t : Operands}
    (all : ∀ x ∈ labels, ∃ q, x.insn = .label q)
    (runs : Runs (fun l s u => expects l s ∧ l.insn.Moves p cap s u) labels s t) : t = s := by
  induction runs with
  | nil => rfl
  | @cons x labels s u t first _ ih =>
    obtain ⟨q, label⟩ := all x List.mem_cons_self
    have stays : u = s := by
      have steps := first.2.steps_of_falls (by rw [label]; rfl)
      rw [label] at steps
      exact steps.unique (Insn.steps_label q s)
    rw [ih fun y inside => all y (List.mem_cons_of_mem _ inside), stays]

theorem Parted.runs_bridges {free : Line → Prop} {gone : Line → Bool} {xs : List Line}
    {s t : Operands} (parted : Parted (fun l => gone l = true) (Line.Bridge free) xs)
    (labels : ∀ l ∈ xs, ∀ q, l.insn = .label q → gone l = false)
    (unexpected : ∀ l, free l → ∀ s, expects l s)
    (runs : Runs (fun l s u => expects l s ∧ l.insn.Moves p cap s u) xs s t) :
    Runs (fun l s u => expects l s ∧ l.insn.Moves p cap s u) (xs.filter fun l => !gone l) s t := by
  induction parted generalizing s with
  | nil => exact runs
  | @stay l xs stays _ ih =>
    obtain ⟨u, first, rest⟩ := Runs.cons_iff.1 runs
    rw [List.filter_cons_of_pos (by simpa using stays)]
    exact .cons first (ih (fun x inside => labels x (List.mem_cons_of_mem _ inside)) rest)
  | @drop l m mid xs bridge goes_first goes_last _ ih =>
    obtain ⟨⟨v, stores, loads⟩, between⟩ := bridge
    have all : ∀ x ∈ mid, ∃ q, x.insn = .label q := fun x inside => (between x inside).1
    obtain ⟨u, ⟨_, first⟩, rest⟩ := Runs.cons_iff.1 runs
    obtain ⟨u', through, rest⟩ := Runs.append_iff.1 rest
    obtain ⟨u'', ⟨_, last⟩, rest⟩ := Runs.cons_iff.1 rest
    have pushes := Insn.pushes?_of_loads? loads
    have stored := (Insn.steps_store_iff first.sound stores).1
      (first.steps_of_falls (Insn.of_stores? stores).2.2.1)
    have loaded :=
      (Insn.steps_push_iff last.sound pushes).1 (last.steps_of_falls (Insn.of_pushes? pushes).2.2.1)
    have back : u'' = s := by rw [loaded, eq_of_runs_labels all through, stored]
    subst back
    have kept : mid.filter (fun l => !gone l) = mid := by
      refine List.filter_eq_self.2 fun x inside => ?_
      obtain ⟨q, label⟩ := all x inside
      simpa using labels x (by simp [inside]) q label
    rw [List.filter_cons_of_neg (by simpa using goes_first), List.filter_append,
      List.filter_cons_of_neg (by simpa using goes_last), kept]
    refine (runs_labels all (fun x inside => unexpected x (between x inside).2 u'')
      first.bound).append (ih ?_ rest)
    exact fun x inside => labels x (by simp [inside])

end Lines

end Restack
