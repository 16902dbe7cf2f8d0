import Restack.Proofs.Pass.Editing
import Restack.Proofs.Selection.BlockStacks
import Restack.Proofs.Selection.ExceptionTable

set_option autoImplicit false

namespace Restack.Register

variable {q p : UInt32} {code : Code}

section Handlers

variable {guards : List Guard} {h : Handler} {i : Instr}

theorem Instr.canThrow_of_mem_handlers (member : h ∈ i.handlers guards) : i.canThrow = true := by
  unfold Instr.handlers at member
  split at member
  · cases member
  next guarded =>
    rw [Bool.or_eq_true, not_or] at guarded
    simpa using guarded.2

theorem Instr.straight_of_canThrow (throws : i.canThrow = true) :
    i.family.isControlFlow = false := by
  unfold Instr.canThrow at throws
  cases family : i.family <;> simp_all [Family.isControlFlow, Family.canThrow]

theorem Code.exists_of_handlers {handlers : List Handler}
    (found : code.handlers[p]? = some handlers) :
    handlers ≠ [] ∧ ∃ i ∈ code.instrs, i.position = p ∧ handlers = i.handlers code.guards := by
  revert p handlers
  unfold Code.handlers
  refine List.foldlRecOn
    (motive := fun table : Std.TreeMap UInt32 (List Handler) => ∀ {p : UInt32} {handlers},
    table[p]? = some handlers → handlers ≠ [] ∧ ∃ i ∈ code.instrs, i.position = p ∧
    handlers = i.handlers code.guards)
    _ _ ?_ ?_
  · simp
  · intro table known i member p handlers found
    split at found
    · exact known found
    next some_handler =>
      rw [Std.TreeMap.getElem?_insert] at found
      split at found
      next same =>
        cases found
        exact ⟨some_handler, i, member, Std.compare_eq_iff_eq.1 same, rfl⟩
      next => exact known found

theorem Code.exists_of_mem_handlers (member : h ∈ code.handlers.getD p []) :
    ∃ i ∈ code.instrs, i.position = p ∧ h ∈ i.handlers code.guards := by
  rw [Std.TreeMap.getD_eq_getD_getElem?] at member
  cases found : code.handlers[p]? with
  | none => simp [found] at member
  | some handlers =>
    rw [found] at member
    obtain ⟨_, i, inside, position, rfl⟩ := Code.exists_of_handlers found
    exact ⟨i, inside, position, member⟩

end Handlers

def Code.Catches (code : Code) (q : UInt32) : Prop :=
  ∃ i ∈ code.instrs, code.Reachable i.position ∧ ∃ h ∈ code.handlers.getD i.position [],
    h.target = q

theorem Site.Layout.placed_of_reachable {s : Site} {blocks : Blocks} {rows : List AnchoredRow}
    {pieces : List Piece} {b : Body} {entry : Frame} (laid : s.Layout blocks rows pieces b)
    (closed : s.typing.Closed s.catalog s.code entry) (reachable : s.code.Reachable p) :
    ∃ a, blocks[p]? = some a ∧ .block p a ∈ pieces := by
  obtain ⟨i, member, rfl⟩ := reachable.hasPosition
  have state := (closed.mem_iff_reachable i.position).2 reachable
  obtain ⟨a, found⟩ := Option.isSome_iff_exists.1 (laid.selected.covered i member state)
  exact ⟨a, found, laid.piece_of_block found⟩

/-- A method that was compiled: its blocks are laid out, and its rows are those of the handlers of
its blocks. -/
structure Site.Compiled (s : Site) (blocks : Blocks) (rows : List AnchoredRow) (pieces : List Piece)
    (b : Body) (final : Pool) : Prop where
  laid : s.Layout blocks rows pieces b
  contiguous : s.code.Contiguous
  closed : s.typing.Closed s.catalog s.code
    (Frame.ofParameters s.method.slots s.code.registers.toNat)
  picks : ∀ q, s.isMoveResult q = true ↔ s.code.PicksUp q
  stocked : ∀ p a, .block p a ∈ pieces → ∃ i ∈ s.code.instrs, i.position = p ∧ s.code.Reachable p ∧
    ∃ rest, a = .label (some p) :: rest ∧ (∀ x ∈ rest, i.Admits x) ∧
      i.Stocked s.catalog final (s.isMoveResult i.next) rest
  sourced : ∀ r ∈ rows, ∃ p, s.Guarded blocks p ∧ r.start = .start p ∧ r.stop = .stop p ∧
    ∃ h ∈ s.typing.handlers.getD p [], s.handlerAnchor blocks h = .ok r.handler
  rowed : ∀ (p : UInt32) block, blocks[p]? = some block → ∀ x ∈ block, x.isPlain = true →
    ∀ h ∈ s.typing.handlers.getD p [], ∃ r ∈ rows, s.handlerAnchor blocks h = .ok r.handler

namespace Site.Compiled

variable {s : Site} {blocks : Blocks} {rows : List AnchoredRow} {pieces : List Piece} {b : Body}
  {final : Pool} {i : Instr}

theorem instr_unique (compiled : s.Compiled blocks rows pieces b final) {j : Instr}
    (first : i ∈ s.code.instrs) (second : j ∈ s.code.instrs) (same : i.position = j.position) :
    i = j :=
  List.inj_on_of_nodup_map compiled.contiguous.nodup first second same

theorem handlerAnchor_cases {h : Handler} {anchor : Anchor}
    (found : s.handlerAnchor blocks h = .ok anchor) :
    (s.isMoveResult h.target = true ∧ blocks[h.target]?.isSome ∧ anchor = .head h.target) ∨
      s.isMoveResult h.target = false ∧ anchor = .dropping h.target := by
  unfold handlerAnchor at found
  split at found
  next picks =>
    split at found
    next known =>
      exact .inl
        ⟨picks, Std.TreeMap.isSome_getElem?_eq_contains.trans known, (Except.ok.inj found).symm⟩
    next => cases found
  next no_pick => exact .inr ⟨by simpa using no_pick, (Except.ok.inj found).symm⟩

section Compiled

variable (compiled : s.Compiled blocks rows pieces b final) {k : Nat} {a : List Insn}
variable {l : Anchored} {before after : List Piece} {c : List Insn}
include compiled

theorem handler_within {r : AnchoredRow} (member : r ∈ rows) : ∃ q, s.code.Catches q ∧
      ((s.isMoveResult q = true ∧
        ∃ a, s.Within pieces (tagOf (pieces.flatMap (Piece.lines s)) r.handler) (.block q a) 0) ∨
        s.isMoveResult q = false ∧ r.handler = .dropping q ∧
          ∃ jumps, s.Within pieces (tagOf (pieces.flatMap (Piece.lines s)) r.handler)
            (.way q jumps) 0) := by
  obtain ⟨p, ⟨_, a, found, _⟩, _, _, h, inside, anchor⟩ := compiled.sourced r member
  have caught : s.code.Catches h.target := by
    obtain ⟨i, in_code, rfl, reachable, _⟩ :=
      compiled.stocked p a (compiled.laid.piece_of_block found)
    exact ⟨i, in_code, reachable, h, compiled.closed.handlers ▸ inside, rfl⟩
  refine ⟨h.target, caught, ?_⟩
  rcases handlerAnchor_cases anchor with ⟨picks, known, same⟩ | ⟨no_pick, same⟩
  · obtain ⟨a, found⟩ := Option.isSome_iff_exists.1 known
    exact .inl ⟨picks, same ▸ compiled.laid.within_tagOf_head found⟩
  · exact .inr ⟨no_pick, same, same ▸ compiled.laid.within_tagOf_dropping member same⟩

theorem row_within {r : Row} (member : r ∈ b.rows) :
    ∃ q, s.code.Catches q ∧
    ((s.isMoveResult q = true ∧ ∃ a, s.Within pieces r.handler (.block q a) 0) ∨
      s.isMoveResult q = false ∧ ∃ jumps, s.Within pieces r.handler (.way q jumps) 0) := by
  rw [compiled.laid.rows_eq] at member
  obtain ⟨r', listed, rfl⟩ := List.mem_map.1 member
  obtain ⟨q, caught, enters⟩ := compiled.handler_within listed
  exact ⟨q, caught, enters.imp_right fun ⟨no_pick, _, within⟩ => ⟨no_pick, within⟩⟩

theorem entered_of_row {r : AnchoredRow} (member : r ∈ rows) :
    b.entries.contains (tagOf (pieces.flatMap (Piece.lines s)) r.handler) = true := by
  refine (compiled.laid.entered _).2 (.inl ?_)
  rw [compiled.laid.rows_eq]
  exact ⟨_, List.mem_map_of_mem member, rfl⟩

theorem row_of_way {jumps : Bool} (placed : .way q jumps ∈ pieces) :
    ∃ r ∈ rows, r.handler = .dropping q ∧ s.isMoveResult q = false := by
  have needed : q ∈ droppingPositions rows :=
    compiled.laid.arranged.ways.subset (List.mem_filterMap.2 ⟨_, placed, rfl⟩)
  rcases (mem_foldl_dropping rows ∅ q).1 (Std.TreeMap.mem_keys.1 needed) with none |
    ⟨r, member, dropping⟩
  · simp at none
  · refine ⟨r, member, dropping, ?_⟩
    obtain ⟨_, _, _, _, h, _, anchor⟩ := compiled.sourced r member
    rcases handlerAnchor_cases anchor with ⟨_, _, same⟩ | ⟨no_pick, same⟩
    · cases same.symm.trans dropping
    · cases same.symm.trans dropping
      exact no_pick

theorem exists_row_of_way {jumps : Bool} (within : s.Within pieces k (.way q jumps) 0) :
    ∃ r ∈ b.rows, r.handler = k := by
  obtain ⟨r, member, dropping, _⟩ := compiled.row_of_way within.mem
  obtain ⟨jumps', there⟩ := compiled.laid.within_tagOf_dropping member dropping
  rw [compiled.laid.way_unique within there, compiled.laid.rows_eq]
  exact ⟨_, List.mem_map_of_mem member, by rw [AnchoredRow.tagged, dropping]⟩

theorem entered_way {jumps : Bool} (within : s.Within pieces k (.way q jumps) 0) :
    b.entries.contains k = true :=
  (compiled.laid.entered k).2 (.inl (compiled.exists_row_of_way within))

theorem within_of_entered {tag : Nat} (entered : b.entries.contains tag = true) :
    (∃ q a, s.Within pieces tag (.block q a) 0) ∨
    ∃ q jumps, s.Within pieces tag (.way q jumps) 0 := by
  rcases (compiled.laid.entered tag).1 entered with ⟨r, member, rfl⟩ | ⟨l, _, q, _, head⟩
  · obtain ⟨q, _, ⟨_, a, within⟩ | ⟨_, jumps, within⟩⟩ := compiled.row_within member
    · exact .inl ⟨q, a, within⟩
    · exact .inr ⟨q, jumps, within⟩
  · obtain ⟨a, within⟩ := compiled.laid.head_within head
    exact .inl ⟨q, a, within⟩

theorem named {tag : Nat} (entered : b.entries.contains tag = true) :
    ∃ q, b.lines[tag]? = some ⟨tag, .label q⟩ := by
  rcases compiled.within_of_entered entered with ⟨q, a, within⟩ | ⟨q, jumps, within⟩
  · exact ⟨_, compiled.laid.line_within within (compiled.laid.first_of_block within.mem)⟩
  · have first : ((Piece.way q jumps).lines s)[0]? = some (some (.dropping q), .label none) := by
      rw [Piece.lines_way]
      rfl
    exact ⟨_, compiled.laid.line_within within first⟩

theorem unguarded (member : i ∈ s.code.instrs) (control : i.family.isControlFlow = true) :
    s.typing.handlers.contains i.position = false := by
  by_contra guarded
  rw [Bool.not_eq_false, compiled.closed.handlers] at guarded
  obtain ⟨handlers, found⟩ :=
    Option.isSome_iff_exists.1 (Std.TreeMap.isSome_getElem?_eq_contains.trans guarded)
  obtain ⟨some_handler, j, inside, same, rfl⟩ := Code.exists_of_handlers found
  obtain ⟨h, caught⟩ := List.exists_mem_of_ne_nil _ some_handler
  have straight := Instr.straight_of_canThrow (Instr.canThrow_of_mem_handlers caught)
  rw [compiled.instr_unique inside member same, control] at straight
  cases straight

theorem jump_last (placed : .block p a ∈ pieces) {j : Nat} (at_j : (s.anchored p a)[j]? = some l)
    (jumps : l.2.targets ≠ []) :
    ∃ i ∈ s.code.instrs, i.position = p ∧ i.family.isControlFlow = true ∧ i.Leaves l.2 ∧
      j + 1 = (s.anchored p a).length := by
  obtain ⟨i, member, rfl, _, rest, rfl, admitted, stocked⟩ := compiled.stocked p a placed
  have inside : l.2 ∈ rest := by
    rcases s.mem_anchored _ (List.mem_of_getElem? at_j) with listed | mark
    · rcases List.mem_cons.1 listed with head | inside
      · exact absurd (by rw [head]; rfl) jumps
      · exact inside
    · exact absurd (by rw [mark]; rfl) jumps
  obtain ⟨t, target⟩ := List.exists_mem_of_ne_nil _ jumps
  have control := ((admitted _ inside).leads t target).1
  refine ⟨i, member, rfl, control, ?_⟩
  obtain ⟨front, x, rfl, straight, leaves⟩ := stocked.closes control
  rw [s.anchored_free _ _ _ (.inl (compiled.unguarded member control))] at at_j ⊢
  cases j with
  | zero =>
    cases at_j
    exact absurd rfl jumps
  | succ j =>
    rw [List.getElem?_cons_succ, bare, List.map_append] at at_j
    rcases Nat.lt_or_ge j front.length with early | late
    · rw [List.getElem?_append_left (by simpa using early)] at at_j
      have listed := (mem_bare (List.mem_of_getElem? at_j)).2
      exact absurd (straight _ listed) jumps
    · rw [List.getElem?_append_right (by simpa using late), List.length_map, List.map_singleton,
        List.getElem?_singleton] at at_j
      split at at_j
      next last =>
        cases at_j
        refine ⟨leaves, ?_⟩
        simp only [List.length_cons, bare, List.length_map, List.length_append, List.length_nil]
        omega
      next => cases at_j

theorem position_of_next {a' : List Insn}
    (split : pieces = before ++ .block p a :: .block q c :: after) (member : i ∈ s.code.instrs)
    (goes_on : i.family.endsFlow = false) (next : q = i.next)
    (placed : .block i.position a' ∈ pieces) : i.position = p := by
  obtain ⟨_, later, least⟩ := compiled.contiguous.next_position member goes_on
  rw [← next] at later least
  have ascends := compiled.laid.ascending split
  have p_lt_q : p < q := ascends.2 q c List.mem_cons_self
  rw [split, List.mem_append, List.mem_cons, List.mem_cons] at placed
  rcases placed with front | here | here | back
  · have p_known : s.code.HasPosition p := by
      obtain ⟨j, inside, position, _⟩ := compiled.laid.block (p := p) (a := a) (by simp [split])
      exact ⟨j, inside, position⟩
    exact absurd p_lt_q (UInt32.not_lt.2 (least p p_known (ascends.1 _ _ front)))
  · cases here
    rfl
  · cases here
    exact absurd later (UInt32.lt_irrefl _)
  · have cut : pieces = (before ++ [.block p a]) ++ .block q c :: after := by simp [split]
    exact absurd later (UInt32.lt_asymm ((compiled.laid.ascending cut).2 _ _ back))

theorem exists_line {rest : List Insn} (placed : .block p (.label (some p) :: rest) ∈ pieces)
    {x : Insn} (member : x ∈ rest) :
    ∃ l ∈ b.lines, l.insn = x := by
  obtain ⟨l, inside, rfl⟩ := s.exists_anchored p (List.mem_cons_of_mem (.label (some p)) member)
  have listed : l ∈ pieces.flatMap (Piece.lines s) := List.mem_flatMap.2 ⟨_, placed, inside⟩
  obtain ⟨k, found⟩ := List.getElem?_of_mem listed
  have line : b.lines[k]? = some ⟨k, l.2⟩ := by
    rw [compiled.laid.getElem?_lines, found]
    rfl
  exact ⟨_, List.mem_of_getElem? line, rfl⟩

theorem entered_of_target {l : Line} (member : l ∈ b.lines) (target : q ∈ l.insn.targets)
    (within : s.Within pieces k (.block q c) 0) : b.entries.contains k = true := by
  obtain ⟨tag, head⟩ := compiled.laid.jumps l member q target
  obtain ⟨a, there⟩ := compiled.laid.head_within head
  obtain ⟨_, first, rfl, rfl, _⟩ := compiled.laid.block_unique there within
  exact (compiled.laid.entered _).2 (.inr ⟨l, member, q, target, head⟩)

theorem row_of_caught (caught : s.code.Catches q) :
    ∃ r ∈ rows, (s.isMoveResult q = true ∧ r.handler = .head q) ∨ s.isMoveResult q = false ∧
    r.handler = .dropping q := by
  obtain ⟨i, member, reachable, h, inside, rfl⟩ := caught
  obtain ⟨a, found, placed⟩ := compiled.laid.placed_of_reachable compiled.closed reachable
  obtain ⟨j, in_code, same, _, rest, rfl, _, stocked⟩ := compiled.stocked _ _ placed
  cases compiled.instr_unique in_code member same
  have throws : i.canThrow = true := by
    obtain ⟨j, in_code, same, listed⟩ := Code.exists_of_mem_handlers inside
    cases compiled.instr_unique in_code member same
    exact Instr.canThrow_of_mem_handlers listed
  obtain ⟨x, plain_member, plain⟩ := stocked.throws throws
  rw [← compiled.closed.handlers] at inside
  obtain ⟨r, listed, anchor⟩ :=
    compiled.rowed _ _ found x (List.mem_cons_of_mem _ plain_member) plain h inside
  exact ⟨r, listed, (handlerAnchor_cases anchor).imp_left fun ⟨picks, _, same⟩ => ⟨picks, same⟩⟩

theorem no_way_between (split : pieces = before ++ .block p a :: .block q c :: after) {j : Nat}
    (within : s.Within pieces k (.block p a) j) (last : j + 1 = (s.anchored p a).length)
    (at_j : (s.anchored p a)[j]? = some l) (still : l.2.fallsThrough = false)
    (next : s.Within pieces (k + 1) (.block q c) 0) (jumps : Bool) :
    .way q jumps ∉ pieces := by
  intro placed
  cases jumps with
  | true =>
    obtain ⟨late, chain, listed⟩ := compiled.laid.arranged.settled
    rw [split] at chain
    have settled := (List.isChain_cons_cons.1 (List.isChain_append.1 chain).2.1).1
    have is_last : (s.anchored p a).getLast? = some l := by
      rw [List.getLast?_eq_getElem?, ← last, Nat.add_sub_cancel, at_j]
    exact settled l is_last still (listed q placed)
  | false =>
    obtain ⟨front, back, cut⟩ := List.append_of_mem placed
    have at_way : s.Within pieces _ (.way q false) 0 :=
      ⟨compiled.laid.lines_pos placed, front, back, cut, rfl⟩
    obtain ⟨c', at_block⟩ := compiled.laid.block_after_way at_way
    obtain ⟨_, first, here, there, _⟩ := compiled.laid.block_unique next at_block
    -- The line in front of the block would belong to both pieces.
    have in_way : s.Within pieces ((front.flatMap (Piece.lines s)).length + 0 + 1)
        (.way q false) 1 :=
      at_way.succ (by simp [Piece.lines, dropLines])
    have same_place : (front.flatMap (Piece.lines s)).length + 0 + 1 = k := by omega
    rw [same_place] at in_way
    cases (in_way.unique within).1

theorem entered_behind (split : pieces = before ++ .block p a :: .block q c :: after) {j : Nat}
    (within : s.Within pieces k (.block p a) j) (at_j : (s.anchored p a)[j]? = some l)
    (jumps : l.2.targets ≠ []) (still : l.2.fallsThrough = false)
    (next : s.Within pieces (k + 1) (.block q c) 0) : b.entries.contains (k + 1) = true := by
  obtain ⟨i, member, position, control, leaves, last⟩ := compiled.jump_last within.mem at_j jumps
  obtain ⟨_, _, _, reachable, _⟩ := compiled.stocked q c next.mem
  cases reachable with
  | entry =>
    have less : p < 0 := (compiled.laid.ascending split).2 _ _ List.mem_cons_self
    exact absurd less UInt32.not_lt_zero
  | @flow i' _ in_code reached leads _ =>
    obtain ⟨a', found, placed⟩ := compiled.laid.placed_of_reachable compiled.closed reached
    obtain ⟨i'', in_code', same, _, rest, rfl, _, stocked⟩ := compiled.stocked _ _ placed
    cases compiled.instr_unique in_code' in_code same
    -- An instruction that goes on at `q` would be the one that jumps.
    have here (goes_on : i'.family.endsFlow = false) (goes : q = i'.next) : i' = i :=
      compiled.instr_unique in_code member
        ((compiled.position_of_next split in_code goes_on goes placed).trans position.symm)
    by_cases control' : i'.family.isControlFlow = true
    · obtain ⟨front, x, rfl, _, leaves'⟩ := stocked.closes control'
      rcases leaves' q leads with target | ⟨goes_on, goes, _⟩
      · obtain ⟨m, line, rfl⟩ :=
          compiled.exists_line placed (List.mem_append_right front (List.mem_singleton_self x))
        exact compiled.entered_of_target line target next
      · rw [here goes_on goes] at leads
        rcases leaves q leads with target | ⟨_, _, through⟩
        · have line := compiled.laid.line_within within at_j
          exact compiled.entered_of_target (List.mem_of_getElem? line) target next
        · rw [still] at through
          cases through
    · obtain ⟨goes_on, goes⟩ := leads_of_straight (by simpa using control') leads
      rw [here goes_on goes] at control'
      exact absurd control control'
  | caught in_code reached handler _ =>
    obtain ⟨r, listed, ⟨_, anchor⟩ | ⟨_, anchor⟩⟩ :=
      compiled.row_of_caught ⟨_, in_code, reached, _, handler, rfl⟩
    · obtain ⟨a', at_head⟩ :=
        compiled.laid.within_tagOf_head (compiled.laid.block_of_piece next.mem)
      have entered := compiled.entered_of_row listed
      obtain ⟨_, first, tag, here, _⟩ := compiled.laid.block_unique at_head next
      rwa [anchor, tag, ← here] at entered
    · obtain ⟨jumps, at_way⟩ := compiled.laid.within_tagOf_dropping listed anchor
      exact absurd at_way.mem (compiled.no_way_between split within last at_j still next jumps)

theorem entered_behind_goto {j : Nat} {x : Piece} (within : s.Within pieces k x j)
    (at_j : (x.lines s)[j]? = some l) (jumps : l.2.targets ≠ []) (still : l.2.fallsThrough = false)
    (more : k + 1 < (pieces.flatMap (Piece.lines s)).length) :
    b.entries.contains (k + 1) = true := by
  cases x with
  | block p a =>
    obtain ⟨_, _, _, _, _, last⟩ := compiled.jump_last within.mem at_j jumps
    obtain ⟨before, y, after, split, _, next⟩ := compiled.laid.next_within within last more
    cases y with
    | block q c => exact compiled.entered_behind split within at_j jumps still next
    | way q late => exact compiled.entered_way next
  | way p late =>
    -- Only the ways at the end jump, and only ways stand behind them.
    obtain ⟨rfl, rfl⟩ : late = true ∧ j = 2 := by
      rw [Piece.lines_way] at at_j
      match j, late with
      | 0, _ | 1, _ =>
        cases at_j
        exact absurd rfl jumps
      | 2, true => exact ⟨rfl, rfl⟩
      | 2, false | _ + 3, true | _ + 3, false => cases at_j
    obtain ⟨before, y, after, split, follows, next⟩ := compiled.laid.next_within within rfl more
    cases follows with
    | ways => exact compiled.entered_way next

theorem store_of_picks (placed : .block q a ∈ pieces) (picks : s.isMoveResult q = true) :
    ∃ i ∈ s.code.instrs, i.position = q ∧
      i.family = .moveResult ∧ ∃ r d, i.resultType = some d ∧
        ((Piece.block q a).lines s)[1]? = some (none, .store ⟨r, .ofDescriptor d⟩) := by
  obtain ⟨i, member, rfl, _, rest, rfl, _, stocked⟩ := compiled.stocked q a placed
  obtain ⟨j, in_code, same, family⟩ := (compiled.picks _).1 picks
  cases compiled.instr_unique in_code member same
  obtain ⟨r, d, hinted, rfl⟩ := stocked.picks family
  refine ⟨i, member, rfl, family, r, d, hinted, ?_⟩
  rw [Piece.lines, s.anchored_free _ _ _ (.inr (by simp [Insn.isPlain, Insn.store]))]
  rfl

theorem follows : b.lines.IsChain (b.Follows fun q => s.isMoveResult q = true) := by
  refine List.isChain_iff_getElem.2 fun k more => ?_
  obtain ⟨l, there, same⟩ :=
    compiled.laid.anchored_of_line (List.getElem?_eq_getElem (Nat.lt_of_succ_lt more))
  obtain ⟨m, there', same'⟩ := compiled.laid.anchored_of_line (List.getElem?_eq_getElem more)
  obtain ⟨x, j, within, at_j⟩ := exists_within there
  rw [same, same']
  constructor
  · intro jmp jump always
    have entered := compiled.entered_behind_goto within at_j (by simp_all [Insn.targets])
      (by simp_all [Insn.fallsThrough])
      (List.getElem?_eq_some_iff.1 there').1
    obtain ⟨q, label⟩ := compiled.named entered
    rw [List.getElem?_eq_getElem more, same'] at label
    exact ⟨entered, q, congrArg Line.insn (Option.some.inj label)⟩
  · intro q label picks
    obtain ⟨rfl, a, rfl⟩ := compiled.laid.label_first within at_j label
    obtain ⟨_, _, _, _, r, d, _, second⟩ := compiled.store_of_picks within.mem picks
    have at_next := (within.shift (List.getElem?_eq_some_iff.1 second).1).getElem?
    rw [second, there'] at at_next
    cases at_next
    rfl

end Compiled

end Site.Compiled

end Restack.Register
