import Restack.Proofs.Pass.StackRoom
import Restack.Proofs.Selection.Entrances

set_option autoImplicit false

namespace Restack

section Runs

variable {p : Pool} {cap : Nat} {xs : List Insn} {s t : Operands}

theorem Runs.bound (runs : Runs (Insn.Moves p cap) xs s t) (fits : t.slots ≤ cap) :
    s.slots ≤ cap := by
  cases runs with
  | nil => exact fits
  | cons first _ => exact first.bound

theorem Runs.redirect {x : Insn} (runs : Runs (Insn.Moves p cap) (xs ++ [x]) s t)
    (stops : x.fallsThrough = false) (u : Operands) : Runs (Insn.Moves p cap) (xs ++ [x]) s u := by
  obtain ⟨v, front, last⟩ := Runs.append_iff.1 runs
  obtain ⟨_, moves, _⟩ := Runs.cons_iff.1 last
  exact front.append (.single (moves.redirect stops u))

theorem Insn.moves_label (q : Option UInt32) (bound : s.slots ≤ cap) :
    (Insn.label q).Moves p cap s s :=
  .of_steps trivial bound (Insn.steps_label q s) rfl

end Runs

namespace Register

variable {k : Nat}

def Code.findsAt (code : Code) (p : UInt32) : Operands :=
  ((code.instrs.find? (·.position = p)).map Instr.finds).getD []

theorem Code.findsAt_position {code : Code} (contiguous : code.Contiguous) {i : Instr}
    (member : i ∈ code.instrs) :
    code.findsAt i.position = i.finds := by
  obtain ⟨j, found⟩ : ∃ j, code.instrs.find? (·.position = i.position) = some j :=
    Option.isSome_iff_exists.1 (List.find?_isSome.2 ⟨i, member, by simp⟩)
  have same : j = i :=
    List.inj_on_of_nodup_map contiguous.nodup (List.mem_of_find?_eq_some found) member
    (by simpa using List.find?_some found)
  rw [findsAt, found, same]
  rfl

theorem Instr.slots_finds_le (i : Instr) : i.finds.slots ≤ 2 := by
  unfold Instr.finds
  split
  · cases i.resultType with
    | none => exact Nat.zero_le _
    | some d =>
      simp only [Option.toList_some, List.map_cons, List.map_nil, Operands.slots_cons,
        Operands.slots_nil, Kinds.width]
      split <;> omega
  · exact Nat.zero_le _

theorem Code.slots_findsAt_le (code : Code) (p : UInt32) : (code.findsAt p).slots ≤ 2 := by
  unfold findsAt
  cases code.instrs.find? (·.position = p) with
  | none => exact Nat.zero_le _
  | some i => exact i.slots_finds_le

def Piece.finds (code : Code) : Piece → Operands
  | .block p _ => code.findsAt p
  | .way _ _ => [1]

theorem Piece.slots_finds_le (code : Code) (x : Piece) : (x.finds code).slots ≤ 2 := by
  cases x with
  | block p _ => exact code.slots_findsAt_le p
  | way _ _ => exact Nat.le_succ 1

theorem Instr.slots_leaves_le (catalog : Catalog) (i : Instr) : (i.leaves catalog).slots ≤ 2 := by
  unfold Instr.leaves
  split
  · exact Nat.le_succ 1
  · split
    · split
      · split
        · exact Nat.zero_le _
        · simp only [Operands.slots_cons, Operands.slots_nil, Kinds.width]
          split <;> omega
      · exact Nat.zero_le _
    · exact Nat.zero_le _

theorem Site.through_anchored (s : Site) (p : UInt32) (q : Option UInt32) {rest : List Insn}
    (through : ∀ x ∈ rest.getLast?, x.fallsThrough = true) :
    ∀ l ∈ (s.anchored p (.label q :: rest)).getLast?, l.2.fallsThrough = true := by
  have of_bare {insns : List Insn}
      (ends : ∀ x ∈ insns.getLast?, x.fallsThrough = true) {first : Anchored}
      (falls : first.2.fallsThrough = true) : ∀ l ∈ (first :: bare insns).getLast?,
        l.2.fallsThrough = true := by
    intro l last
    rw [List.getLast?_cons, bare, List.getLast?_map] at last
    cases final : insns.getLast? with
    | none =>
      rw [final] at last
      cases last
      exact falls
    | some x =>
      rw [final] at last
      cases last
      exact ends x final
  rcases s.anchored_cases p q rest with same | ⟨before, middle, after, rfl, same⟩
  · rw [same]
    exact of_bare through rfl
  · have ends : ∀ x ∈ after.getLast?, x.fallsThrough = true := by
      intro x last
      refine through x ?_
      rw [Option.mem_def] at last
      rw [← List.append_assoc, List.getLast?_append, last]
      rfl
    have regrouped : s.anchored p (.label q :: (before ++ (middle ++ after))) =
        ((some (.head p), .label q) ::
          (bare before ++ (some (.start p), .label none) :: bare middle)) ++
          (some (.stop p), .label none) :: bare after := by
      rw [same]
      simp
    rw [regrouped, List.getLast?_append_of_ne_nil _ (List.cons_ne_nil _ _)]
    exact of_bare ends rfl

structure Site.Supplied (s : Site) (b : Body) : Prop where
  start : s.code.findsAt 0 = []
  free : ∀ l ∈ b.lines, ∀ q ∈ l.insn.targets, s.isMoveResult q = false
  passed : ∀ i ∈ s.code.instrs, s.code.Reachable i.position → i.family.endsFlow = false →
    s.code.findsAt i.next = if s.isMoveResult i.next then i.leaves s.catalog else []
  caught : ∀ q, s.isMoveResult q = true → s.code.Catches q → s.code.findsAt q = [1]

/-- What a line expects of the stack: entries agree, and the head of a block has what its
instruction finds. -/
def Site.Meets (s : Site) (b : Body) (l : Line) (t : Operands) : Prop :=
  b.Expects l t ∧ ∀ q, l.insn = .label (some q) → t = s.code.findsAt q

/-- The stack goes from `t` to `u` along lines, each of which is run with what it expects. -/
abbrev Site.Along (s : Site) (b : Body) (final : Pool) : List Line → Operands → Operands → Prop :=
  Runs fun l t u => s.Meets b l t ∧ l.insn.Moves final 255 t u

theorem Site.Layout.tag_eq {s : Site} {blocks : Blocks} {rows : List AnchoredRow}
    {pieces : List Piece} {b : Body} (laid : s.Layout blocks rows pieces b) {l : Line}
    (here : b.lines[k]? = some l) : l.tag = k := by
  obtain ⟨_, _, rfl⟩ := laid.anchored_of_line here
  rfl

namespace Site.Compiled

variable {s : Site} {blocks : Blocks} {rows : List AnchoredRow} {pieces : List Piece} {b : Body}
  {final : Pool} {p : UInt32}
variable {a : List Insn} {t : Operands}

section Compiled

variable (compiled : s.Compiled blocks rows pieces b final)
include compiled

theorem findsAt_eq_nil {q : UInt32} (no_pick : s.isMoveResult q = false) :
    s.code.findsAt q = [] := by
  unfold Code.findsAt
  cases found : s.code.instrs.find? (·.position = q) with
  | none => rfl
  | some i =>
    have position : i.position = q := by simpa using List.find?_some found
    have other : i.family ≠ .moveResult := by
      intro family
      have picks := (compiled.picks q).2 ⟨i, List.mem_of_find?_eq_some found, position, family⟩
      rw [no_pick] at picks
      cases picks
    simp [Instr.finds, other]

theorem head_meets (supplied : s.Supplied b) (within : s.Within pieces k (.block p a) 0) :
    s.Meets b ⟨k, .label (some p)⟩ (s.code.findsAt p) := by
  constructor
  · intro _ _ target
    by_cases row : ∃ r ∈ b.rows, r.handler = k
    · rw [Body.entryStack, if_pos row]
      obtain ⟨r, member, rfl⟩ := row
      obtain ⟨q, caught, ⟨picks, a', there⟩ | ⟨_, jumps, there⟩⟩ := compiled.row_within member
      · cases (within.unique there).1
        exact supplied.caught p picks caught
      · cases (within.unique there).1
    · rw [Body.entryStack, if_neg row]
      obtain ⟨l, member, q, leads, head⟩ := ((compiled.laid.entered k).1 target).resolve_left row
      obtain ⟨a', there⟩ := compiled.laid.head_within head
      cases (within.unique there).1
      exact compiled.findsAt_eq_nil (supplied.free l member p leads)
  · intro q label
    cases label
    rfl

theorem mark_meets {j : Nat} (within : s.Within pieces k (.block p a) j) (inner : 0 < j)
    (t : Operands) :
    s.Meets b ⟨k, .label none⟩ t := by
  constructor
  · intro _ _ target
    rcases compiled.within_of_entered target with ⟨q, c, there⟩ | ⟨q, jumps, there⟩
    · obtain ⟨_, rfl⟩ := within.unique there
      cases inner
    · cases (within.unique there).1
  · intro q label
    cases label

theorem way_meets {jumps : Bool} (within : s.Within pieces k (.way p jumps) 0) :
    s.Meets b ⟨k, .label none⟩ [1] := by
  constructor
  · intro _ _ _
    rw [Body.entryStack, if_pos (compiled.exists_row_of_way within)]
  · intro q label
    cases label

end Compiled

theorem along_bare {insns : List Insn} (unlabelled : ∀ x ∈ insns, ∀ q, x ≠ .label q) {u : Operands}
    (runs : Runs (Insn.Moves final 255) insns t u) (first : Nat) :
    s.Along b final (tagLines first (bare insns)) t u := by
  induction runs generalizing first with
  | nil t => exact .nil t
  | @cons x xs t v u moves _ ih =>
    change Runs _ (tagLines first ((none, x) :: bare xs)) t u
    rw [tagLines_cons]
    have no_label := unlabelled x List.mem_cons_self
    refine .cons
      ⟨⟨fun q label => absurd label (no_label q), fun q label => absurd label (no_label _)⟩, moves⟩
        ?_
    exact ih (fun y inside => unlabelled y (List.mem_cons_of_mem _ inside)) (first + 1)

section Compiled

variable (compiled : s.Compiled blocks rows pieces b final)
include compiled

theorem along_anchored (supplied : s.Supplied b) {rest : List Insn}
    (within : s.Within pieces k (.block p (.label (some p) :: rest)) 0)
    (unlabelled : ∀ x ∈ rest, ∀ q, x ≠ .label q) (fits : t.slots ≤ 255)
    (runs : Runs (Insn.Moves final 255) rest (s.code.findsAt p) t) :
    s.Along b final (tagLines k (s.anchored p (.label (some p) :: rest))) (s.code.findsAt p) t := by
  have head : s.Meets b ⟨k, .label (some p)⟩ (s.code.findsAt p) ∧
      (Insn.label (some p)).Moves final 255 (s.code.findsAt p) (s.code.findsAt p) :=
    ⟨compiled.head_meets supplied within, Insn.moves_label _ (runs.bound fits)⟩
  rcases s.anchored_cases p (some p) rest with same | ⟨before, middle, after, rfl, same⟩
  · rw [same, tagLines_cons]
    exact .cons head (along_bare unlabelled runs _)
  · obtain ⟨u, in_front, runs⟩ := Runs.append_iff.1 runs
    obtain ⟨v, guarded, behind⟩ := Runs.append_iff.1 runs
    have mark {j : Nat}
        (inside : j < (s.anchored p (.label (some p) :: (before ++ (middle ++ after)))).length)
          (inner : 0 < j)
        (w : Operands) : s.Meets b ⟨k + j, .label none⟩ w :=
      compiled.mark_meets (within.shift inside) inner w
    have length : (s.anchored p (.label (some p) :: (before ++ (middle ++ after)))).length =
        before.length + middle.length + after.length + 3 := by
      rw [same]
      simp only [List.length_cons, List.length_append, bare, List.length_map]
      omega
    have v_fits : v.slots ≤ 255 := behind.bound fits
    have u_fits : u.slots ≤ 255 := guarded.bound v_fits
    rw [same, tagLines_cons, tagLines_append, tagLines_cons, tagLines_append, tagLines_cons]
    have start_place : k + 1 + (bare before).length = k + (before.length + 1) := by
      rw [bare, List.length_map]
      omega
    have stop_place : k + 1 + (bare before).length + 1 + (bare middle).length =
        k + (before.length + middle.length + 2) := by
      rw [bare, bare, List.length_map, List.length_map]
      omega
    refine .cons head ((along_bare ?_ in_front _).append (.cons ⟨?_, Insn.moves_label _ u_fits⟩
      ((along_bare ?_ guarded _).append
        (.cons ⟨?_, Insn.moves_label _ v_fits⟩ (along_bare ?_ behind _)))))
    · exact fun x inside => unlabelled x (List.mem_append_left _ inside)
    · rw [start_place]
      exact mark (by omega) (by omega) u
    · exact fun x inside => unlabelled x (List.mem_append_right _ (List.mem_append_left _ inside))
    · rw [stop_place]
      exact mark (by omega) (by omega) v
    · exact fun x inside => unlabelled x (List.mem_append_right _ (List.mem_append_right _ inside))

theorem block_runs (supplied : s.Supplied b) {before after : List Piece}
    (split : pieces = before ++ .block p a :: after) :
    ∃ rest t, a = .label (some p) :: rest ∧ (∀ x ∈ rest, ∀ q, x ≠ .label q) ∧ t.slots ≤ 255 ∧
      Runs (Insn.Moves final 255) rest (s.code.findsAt p) t ∧
      ∀ y ∈ after.head?, t = y.finds s.code := by
  obtain ⟨i, member, rfl, reachable, rest, rfl, admitted, stocked⟩ :=
    compiled.stocked p a (by simp [split])
  have finds := Code.findsAt_position compiled.contiguous member
  have unlabelled : ∀ x ∈ rest, ∀ q, x ≠ .label q := fun x inside => (admitted x inside).unlabelled
  have left : (if s.isMoveResult i.next then i.leaves s.catalog else []).slots ≤ 255 := by
    split
    · exact Nat.le_trans (i.slots_leaves_le s.catalog) (by omega)
    · exact Nat.zero_le _
  have plainly := stocked.runs _ fun _ => rfl
  rw [← finds] at plainly
  cases after with
  | nil => exact ⟨rest, _, rfl, unlabelled, left, plainly, by simp⟩
  | cons y after =>
    have y_fits : (y.finds s.code).slots ≤ 255 := Nat.le_trans (y.slots_finds_le s.code) (by omega)
    refine ⟨rest, y.finds s.code, rfl, unlabelled, y_fits, ?_, by simp⟩
    by_cases goes_on : i.family.endsFlow = false
    · by_cases through : ∀ x ∈ rest.getLast?, x.fallsThrough = true
      · have next_known := compiled.contiguous.next_position member goes_on
        have state := (compiled.closed.mem_iff_reachable i.next).2
          (.flow member reachable (.next goes_on) next_known.1)
        obtain ⟨next, there⟩ := Option.isSome_iff_exists.1 state
        have chain := compiled.laid.arranged.chain
        rw [split] at chain
        have follows := (List.isChain_cons_cons.1 (List.isChain_append.1 chain).2.1).1
        obtain ⟨c, rfl⟩ := compiled.laid.next_block compiled.contiguous split follows
          (s.through_anchored _ _ through)
          member rfl goes_on there
        rw [Piece.finds, supplied.passed i member reachable goes_on]
        exact plainly
      · obtain ⟨x, stopping⟩ := not_forall.1 through
        obtain ⟨last, stops⟩ := Classical.not_imp.1 stopping
        obtain ⟨front, rfl⟩ := List.getLast?_eq_some_iff.1 last
        exact plainly.redirect (by simpa using stops) _
    · rw [finds]
      exact stocked.runs _ fun goes => absurd goes goes_on

theorem along_way {before after : List Piece} {jumps : Bool}
    (split : pieces = before ++ .way p jumps :: after) :
    ∃ t, s.Along b final
      (tagLines (before.flatMap (Piece.lines s)).length ((Piece.way p jumps).lines s)) [1] t ∧
      ∀ y ∈ after.head?, t = y.finds s.code := by
  have placed : .way p jumps ∈ pieces := by simp [split]
  have within : s.Within pieces (before.flatMap (Piece.lines s)).length (.way p jumps) 0 :=
    ⟨compiled.laid.lines_pos placed, before, after, split, rfl⟩
  have entry {insns : List Insn} (unlabelled : ∀ x ∈ insns, ∀ q, x ≠ .label q) {t : Operands}
      (runs : Runs (Insn.Moves final 255) insns [1] t) : s.Along b final
        (tagLines (before.flatMap (Piece.lines s)).length
          ((some (.dropping p), .label none) :: bare insns)) [1] t := by
    rw [tagLines_cons]
    exact .cons ⟨compiled.way_meets within, Insn.moves_label none (by decide)⟩
      (along_bare unlabelled runs _)
  have dropped : (Insn.op Op.pop).Moves final 255 [1] [] :=
    .of_turns (s := []) (Turns.of_run? fun _ => rfl : Turns 0 [Op.pop] [1] [])
      (by decide) (by decide)
  cases jumps with
  | false =>
    refine ⟨[], entry (by simp [Insn.op]) (.single dropped), fun y next => ?_⟩
    cases after with
    | nil => cases next
    | cons z after =>
      cases next
      have chain := compiled.laid.arranged.chain
      rw [split] at chain
      obtain ⟨_, _, _, no_pick⟩ := compiled.row_of_way placed
      cases (List.isChain_cons_cons.1 (List.isChain_append.1 chain).2.1).1 with
      | handler => exact (compiled.findsAt_eq_nil no_pick).symm
  | true =>
    -- The jump at the end leaves it open what comes next.
    refine ⟨(after.head?.map (Piece.finds s.code)).getD [], entry (by simp [Insn.op, Insn.goto])
      (.cons dropped (.single ?_)), fun y next => by rw [Option.mem_def.1 next]; rfl⟩
    exact ⟨trivial, Nat.zero_le _, [], rfl, fun _ => rfl, fun falls => by cases falls⟩

section

variable (supplied : s.Supplied b)
include supplied

theorem along_pieces (before after : List Piece) (split : pieces = before ++ after) :
    ∃ t, s.Along b final
      (tagLines (before.flatMap (Piece.lines s)).length (after.flatMap (Piece.lines s)))
      ((after.head?.map (Piece.finds s.code)).getD []) t := by
  induction after generalizing before with
  | nil => exact ⟨[], .nil []⟩
  | cons x after ih =>
    obtain ⟨t, along⟩ := ih (before ++ [x]) (by simp [split])
    have piece : ∃ u, s.Along b final (tagLines (before.flatMap (Piece.lines s)).length (x.lines s))
        (x.finds s.code) u ∧
        ∀ y ∈ after.head?, u = y.finds s.code := by
      cases x with
      | way p jumps => exact compiled.along_way split
      | block p a =>
        obtain ⟨rest, u, rfl, unlabelled, fits, runs, next⟩ := compiled.block_runs supplied split
        have within : s.Within pieces (before.flatMap (Piece.lines s)).length
            (.block p (.label (some p) :: rest)) 0 :=
          ⟨compiled.laid.lines_pos (by simp [split]), before, after, split, rfl⟩
        exact ⟨u, compiled.along_anchored supplied within unlabelled fits runs, next⟩
    obtain ⟨u, here, next⟩ := piece
    rw [List.flatMap_cons, tagLines_append]
    cases after with
    | nil => exact ⟨u, by simpa [tagLines] using here⟩
    | cons y after =>
      rw [next y rfl] at here
      rw [List.flatMap_append, List.flatMap_singleton, List.length_append] at along
      exact ⟨t, here.append along⟩

theorem steady : b.Steady final 255 (s.Meets b) := by
  obtain ⟨a, after, split⟩ := compiled.laid.exists_first compiled.closed
  obtain ⟨t, along⟩ := compiled.along_pieces supplied [] pieces rfl
  have start : (pieces.head?.map (Piece.finds s.code)).getD [] = [] := by
    rw [split]
    exact supplied.start
  rw [start] at along
  have distinct : (b.lines.map Line.tag).Nodup := compiled.laid.tags ▸ List.nodup_range
  exact ⟨⟨t, compiled.laid.lines_eq ▸ along⟩, distinct, compiled.laid.tagged.bound⟩

theorem orderly : b.Orderly final 255 fun q => s.isMoveResult q = true := by
  refine ⟨(compiled.steady supplied).weaken (Nat.le_refl _) fun l t meets =>
    ⟨meets.1, fun q label no_pick => ?_⟩, compiled.follows⟩
  rw [meets.2 q label]
  exact compiled.findsAt_eq_nil (by simpa using no_pick)

theorem linked : b.Linked := by
  refine ⟨fun r member => ?_, fun l member q leads tag head => ⟨?_, fun r row same => ?_⟩,
    fun l member target => ?_⟩
  · exact (compiled.laid.entered _).2 (.inl ⟨r, member, rfl⟩)
  · exact (compiled.laid.entered tag).2 (.inr ⟨l, member, q, leads, head⟩)
  · subst same
    obtain ⟨a, within⟩ := compiled.laid.head_within head
    obtain ⟨q', _, ⟨picks, a', there⟩ | ⟨_, jumps, there⟩⟩ := compiled.row_within row
    · cases (within.unique there).1
      rw [supplied.free l member q leads] at picks
      cases picks
    · cases (within.unique there).1
  · obtain ⟨q, label⟩ := compiled.named target
    obtain ⟨k, here⟩ := List.getElem?_of_mem member
    rw [compiled.laid.tag_eq here, here] at label
    exact ⟨q, by rw [Option.some.inj label]⟩

theorem stack_at_head {l : Line} {q : UInt32} (reaches : b.Reaches final k t)
    (here : b.lines[k]? = some l) (head : b.heads[q]? = some l.tag) : t = s.code.findsAt q := by
  obtain ⟨stack, stacked⟩ := (compiled.steady supplied).balanced.exists_stacked
  rw [stacked.eq_of_reaches (fun _ _ meets => meets.1) (compiled.linked supplied) reaches]
  obtain ⟨a, within⟩ := compiled.laid.head_within head
  have label := compiled.laid.line_within within (compiled.laid.first_of_block within.mem)
  rw [compiled.laid.tag_eq here] at label
  exact (stacked.each k _ label).1.2 q rfl

end

end Compiled

end Site.Compiled

end Register

end Restack
