import Restack.Layout.Slots
import Restack.Proofs.Pass.Rewriting

set_option autoImplicit false

namespace Restack

/-- The same line up to the slot of an access and the bytes of a literal. -/
inductive Line.Recoded : Line → Line → Prop where
  | same (l : Line) : Recoded l l
  | access (tag : Nat) (a a' : Access) : Recoded ⟨tag, .access a⟩ ⟨tag, .access a'⟩
  | literal (tag : Nat) (x x' : Literal) : Recoded ⟨tag, .literal x⟩ ⟨tag, .literal x'⟩

/-- The same line up to the bytes of a literal, which do not get more. -/
inductive Line.Relit : Line → Line → Prop where
  | same (l : Line) : Relit l l
  | literal (tag : Nat) (x x' : Literal) :
      x'.code.length ≤ x.code.length → Relit ⟨tag, .literal x⟩ ⟨tag, .literal x'⟩

theorem Line.Relit.recoded {l m : Line} (relit : l.Relit m) : l.Recoded m := by
  cases relit with
  | same => exact .same l
  | literal tag x x' _ => exact .literal tag x x'

theorem Literal.length_shorten_le (l : Literal) (p : Pool) :
    (l.shorten p).1.code.length ≤ l.code.length := by
  unfold shorten
  split
  · split
    · dsimp only
      split
      next shorter => exact Nat.le_of_lt shorter
      next => exact Nat.le_refl _
    · exact Nat.le_refl _
  · exact Nat.le_refl _

section Recoded

variable {first second : List Line}

section

variable (recoded : List.Forall₂ Line.Recoded first second)
include recoded

theorem rewritten_of_recoded : Rewritten first second := by
  induction recoded with
  | nil => exact .nil
  | @cons l m first second head _ ih =>
    cases head with
    | same => exact .keep (.same l) ih
    | access tag a a' => exact .edit [_] rfl ih
    | literal tag x x' => exact .edit [_] rfl ih

theorem tagged_of_recoded {fresh : Nat} (tagged : Tagged first fresh) : Tagged second fresh := by
  have marks : second.map (fun l => (l.tag, l.insn.isConstant)) = first.map fun l =>
      (l.tag, l.insn.isConstant) := by
    induction recoded with
    | nil => rfl
    | cons head _ ih =>
      rw [List.map_cons, List.map_cons, ih ⟨(List.pairwise_cons.1 tagged.apart).2,
        fun l member => tagged.bound l (List.mem_cons_of_mem _ member)⟩]
      cases head <;> rfl
  have apart := tagged.apart
  refine ⟨?_, fun m member => ?_⟩
  · have mapped : (first.map fun l => (l.tag, l.insn.isConstant)).Pairwise
        fun x y => x.1 = y.1 → x.2 = true ∧ y.2 = true := List.pairwise_map.2 apart
    rw [← marks] at mapped
    exact List.pairwise_map.1 mapped
  · have inside : (m.tag, m.insn.isConstant) ∈ second.map fun l => (l.tag, l.insn.isConstant) :=
      List.mem_map.2 ⟨m, member, rfl⟩
    rw [marks] at inside
    obtain ⟨l, there, same⟩ := List.mem_map.1 inside
    have tag : l.tag = m.tag := congrArg Prod.fst same
    exact tag ▸ tagged.bound l there

theorem mem_of_recoded {m : Line} (member : m ∈ second) (jumps : m.insn.targets ≠ []) :
    m ∈ first := by
  obtain ⟨l, there, related⟩ := forall₂_mem_right recoded member
  cases related with
  | same => exact there
  | access tag a a' => exact absurd rfl jumps
  | literal tag x x' => exact absurd rfl jumps

end

end Recoded

namespace Body

variable {b : Body} {args : List (Option Local)}

theorem assignFrom_recoded (table : Array (Option Local)) (lines : List Line) :
    List.Forall₂ Line.Recoded lines (assignFrom table lines) := by
  refine List.forall₂_map_right_iff.2 (List.forall₂_same.2 fun l _ => ?_)
  obtain ⟨tag, insn⟩ := l
  cases insn with
  | access a =>
    dsimp only
    split
    · exact .same _
    · exact .access tag a _
  | _ => exact .same _

theorem rewrites_assignInOrder (tagged : Tagged b.lines b.fresh) : b.Rewrites b.assignInOrder := by
  have recoded : List.Forall₂ Line.Recoded b.lines b.assignInOrder.lines := by
    refine List.forall₂_map_right_iff.2 (List.forall₂_same.2 fun l _ => ?_)
    obtain ⟨tag, insn⟩ := l
    cases insn with
    | access a => exact .access tag a _
    | _ => exact .same _
  exact ⟨⟨[], _, rfl, rewritten_of_recoded recoded⟩, tagged_of_recoded recoded tagged,
    fun m member jumps => mem_of_recoded recoded member jumps, rfl, rfl⟩

theorem rewrites_assignByUse (tagged : Tagged b.lines b.fresh) : b.Rewrites b.assignByUse := by
  unfold assignByUse
  dsimp only
  split
  next n place arg _ =>
    generalize (slotTable b.args (useCounts b.lines)).swapIfInBounds n place = table
    generalize copies :
      [(⟨b.fresh, .access { var := arg, isStore := false, slot := some n.toUInt16 }⟩ : Line),
      ⟨b.fresh + 1, .store arg⟩] = copy
    have added : ∀ l ∈ copy, b.fresh ≤ l.tag ∧ l.tag < b.fresh + 2 ∧ l.insn.targets = [] := by
      subst copies
      simp [Insn.targets, Insn.store]
    have extended : Tagged (copy ++ b.lines) (b.fresh + 2) := by
      refine ⟨List.pairwise_append.2 ⟨?_, tagged.apart, fun x first y second same => ?_⟩,
        fun l member => ?_⟩
      · subst copies
        simp
      · have below := tagged.bound y second
        have above := (added x first).1
        omega
      · rcases List.mem_append.1 member with first | second
        · exact (added l first).2.1
        · have := tagged.bound l second
          omega
    have recoded := assignFrom_recoded table (copy ++ b.lines)
    obtain ⟨prologue, rest, split, _, in_rest⟩ := (rewritten_of_recoded recoded).split
    refine ⟨⟨prologue, rest, split, in_rest⟩, tagged_of_recoded recoded extended,
      fun m member jumps => ?_, rfl, rfl⟩
    rcases List.mem_append.1 (mem_of_recoded recoded member jumps) with first | second
    · exact absurd (added m first).2.2 jumps
    · exact second
  next =>
    have recoded := assignFrom_recoded (slotTable b.args (useCounts b.lines)) b.lines
    exact ⟨⟨[], _, rfl, rewritten_of_recoded recoded⟩, tagged_of_recoded recoded tagged,
      fun m member jumps => mem_of_recoded recoded member jumps, rfl, rfl⟩

theorem rewrites_assignSlots (tagged : Tagged b.lines b.fresh) (o : Options) :
    b.Rewrites (b.assignSlots o) := by
  unfold assignSlots
  split
  · exact rewrites_assignByUse tagged
  · exact rewrites_assignInOrder tagged

theorem isSome_argSlots {var : Local} (member : some var ∈ args) :
    ((argSlots args)[var]?).isSome = true := by
  obtain ⟨n, at_n⟩ := List.getElem?_of_mem member
  have listed : (some var, n) ∈ args.zipIdx := List.mem_zipIdx_iff_getElem?.2 at_n
  refine foldl_of_mem (fun slots => (slots[var]?).isSome = true) listed ?_ ?_
  · intro slots
    rw [Std.HashMap.getElem?_insert_self]
    rfl
  · rintro slots ⟨other, place⟩ there
    cases other with
    | none => exact there
    | some other =>
      rw [Std.HashMap.getElem?_insert]
      split
      · rfl
      · exact there

theorem isSome_useCounts {lines : List Line} {l : Line} {a : Access} (member : l ∈ lines)
    (access : l.insn = .access a) :
    ((useCounts lines)[a.var]?).isSome = true := by
  refine foldl_of_mem (fun counts => (counts[a.var]?).isSome = true) member ?_ ?_
  · intro counts
    simp only [access]
    rw [Std.HashMap.getElem?_insert_self]
    rfl
  · intro counts other there
    split
    · rw [Std.HashMap.getElem?_insert]
      split
      · rfl
      · exact there
    · exact there

theorem mem_slotTable {counts : Std.HashMap Local Nat} {var : Local}
    (counted : (counts[var]?).isSome = true) :
    some var ∈ slotTable args counts := by
  obtain ⟨uses, known⟩ := Option.isSome_iff_exists.1 counted
  have listed : var ∈ byUse counts := by
    apply List.mem_map.2
    refine ⟨(var, uses), ?_, rfl⟩
    rw [List.mem_mergeSort]
    exact Std.HashMap.mem_toList_iff_getElem?_eq_some.2 known
  rw [slotTable, List.mem_toArray, List.mem_append]
  by_cases argument : some var ∈ args
  · exact .inl argument
  · right
    apply List.mem_flatMap.2
    refine ⟨var, ?_, ?_⟩
    · rw [List.mem_filter]
      exact ⟨listed, by simpa using argument⟩
    · split <;> simp

theorem mem_swapIfInBounds {α : Type} {xs : Array α} {i j : Nat} {x : α} (member : x ∈ xs) :
    x ∈ xs.swapIfInBounds i j := by
  unfold Array.swapIfInBounds
  split
  · split
    · exact (Array.swap_perm _ _).mem_iff.2 member
    · exact member
  · exact member

theorem mem_of_exchange {counts : Std.HashMap Local Nat} {table : Array (Option Local)}
    {n place : Nat} {arg : Local} (exchanged : exchange? args counts table = some (n, place, arg)) :
    some arg ∈ table := by
  unfold exchange? at exchanged
  dsimp only at exchanged
  split at exchanged
  · split at exchanged
    · cases exchanged
    · obtain ⟨i, _, found⟩ := List.exists_of_findSome?_eq_some exchanged
      split at found
      next here _ =>
        split at found
        · cases found
          exact Array.mem_of_getElem? (Option.join_eq_some_iff.1 here)
        · cases found
      · cases found
  · cases exchanged

theorem slotted_assignFrom {table : Array (Option Local)} {lines : List Line}
    (known : ∀ l ∈ lines, ∀ a, l.insn = .access a → a.slot.isSome = true ∨ some a.var ∈ table) :
    ∀ m ∈ assignFrom table lines, ∀ a, m.insn = .access a → a.code?.isSome = true := by
  intro m member a access
  obtain ⟨⟨tag, insn⟩, listed, rfl⟩ := List.mem_map.1 member
  cases insn with
  | access before =>
    dsimp only at access
    split at access
    next slot =>
      cases access
      rw [Access.code?, Option.isSome_map]
      exact slot
    next unassigned =>
      cases access
      rw [Access.code?, Option.isSome_map]
      rcases known _ listed before rfl with slot | there
      · exact absurd slot unassigned
      · exact isSome_argSlots (Array.mem_toList_iff.2 there)
  | _ => cases access

theorem slotted_assignByUse (b : Body) :
    ∀ m ∈ b.assignByUse.lines, ∀ a, m.insn = .access a → a.code?.isSome = true := by
  have counted : ∀ l ∈ b.lines, ∀ a, l.insn = .access a →
      some a.var ∈ slotTable b.args (useCounts b.lines) :=
    fun l member a access => mem_slotTable (isSome_useCounts member access)
  unfold assignByUse
  dsimp only
  split
  next n place arg exchanged =>
    apply slotted_assignFrom
    intro l member a access
    rcases List.mem_append.1 member with copy | line
    · simp only [List.mem_cons, List.not_mem_nil, or_false] at copy
      rcases copy with rfl | rfl
      · cases access
        exact .inl rfl
      · cases access
        exact .inr (mem_swapIfInBounds (mem_of_exchange exchanged))
    · exact .inr (mem_swapIfInBounds (counted l line a access))
  next =>
    apply slotted_assignFrom
    exact fun l member a access => .inr (counted l member a access)

def shortenStep (walked : Array Line × Pool) (l : Line) : Array Line × Pool :=
  match l.insn with
  | .literal literal =>
    (walked.1.push { l with insn := .literal (literal.shorten walked.2).1 },
      (literal.shorten walked.2).2)
  | _ => (walked.1.push l, walked.2)

theorem shortenStep_relit (walked : Array Line × Pool) (l : Line) :
    ∃ m, (shortenStep walked l).1 = walked.1.push m ∧ l.Relit m := by
  obtain ⟨tag, insn⟩ := l
  cases insn with
  | literal x => exact ⟨_, rfl, .literal tag x _ (x.length_shorten_le walked.2)⟩
  | _ => exact ⟨_, rfl, .same _⟩

theorem foldl_shortenStep_relit (rest : List Line) (walked : Array Line × Pool) :
    ∃ done, (rest.foldl shortenStep walked).1.toList = walked.1.toList ++ done ∧
      List.Forall₂ Line.Relit rest done := by
  induction rest generalizing walked with
  | nil => exact ⟨[], by simp, .nil⟩
  | cons l rest ih =>
    obtain ⟨m, pushed, relit⟩ := shortenStep_relit walked l
    obtain ⟨more, lines_eq, related⟩ := ih (shortenStep walked l)
    refine ⟨m :: more, ?_, .cons relit related⟩
    rw [List.foldl_cons, lines_eq, pushed]
    simp

theorem shortenLiterals_relit (b : Body) (p : Pool) :
    List.Forall₂ Line.Relit b.lines (b.shortenLiterals p).1.lines := by
  have unfolded : (b.shortenLiterals p).1.lines = (b.lines.foldl shortenStep (#[], p)).1.toList :=
    rfl
  obtain ⟨done, lines_eq, related⟩ := foldl_shortenStep_relit b.lines (#[], p)
  rw [unfolded, lines_eq]
  simpa using related

theorem shortenLiterals_recoded (b : Body) (p : Pool) :
    List.Forall₂ Line.Recoded b.lines (b.shortenLiterals p).1.lines :=
  (b.shortenLiterals_relit p).imp fun _ _ relit => relit.recoded

theorem rewrites_shortenLiterals (tagged : Tagged b.lines b.fresh) (p : Pool) :
    b.Rewrites (b.shortenLiterals p).1 := by
  have recoded := b.shortenLiterals_recoded p
  exact ⟨⟨[], _, rfl, rewritten_of_recoded recoded⟩, tagged_of_recoded recoded tagged,
    fun m member jumps => mem_of_recoded recoded member jumps, rfl, rfl⟩

end Body

end Restack
