import Restack.Proofs.Selection.Entrances

set_option autoImplicit false

namespace Restack.Register

/-- A flat list keeps the control flow of a method, and the lines of a body are taken from it. -/
structure Site.Flat (s : Site) (blocks : Blocks) (rows : List AnchoredRow) (flat : List Anchored)
    (b : Body) : Prop where
  lines (k : Nat) : b.lines[k]? = flat[k]?.map fun l => ⟨k, l.2⟩
  heads (p : UInt32) (k : Nat) : b.heads[p]? = some k ↔
    flat[k]? = some (some (.head p), .label (some p))
  block (p : UInt32) : s.code.Reachable p →
    ∃ a k, blocks[p]? = some a ∧ b.heads[p]? = some k ∧ s.anchored p a <+: flat.drop k
  order (p q : UInt32) (a : List Insn) (k n : Nat) : blocks[p]? = some a → b.heads[p]? = some k →
    b.heads[q]? = some n →
    p < q → k + (s.anchored p a).length ≤ n
  falls (i : Instr) (a : List Insn) (k : Nat) : i ∈ s.code.instrs → i.family.endsFlow = false →
    blocks[i.position]? = some a → b.heads[i.position]? = some k →
    (∀ l ∈ (s.anchored i.position a).getLast?, l.2.fallsThrough = true) →
    b.heads[i.next]? = some (k + (s.anchored i.position a).length)
  first : b.heads[(0 : UInt32)]? = some 0
  /-- The way into a handler stands once, drops the exception and goes on at the handler, and no
  path falls into it. -/
  ways (r : AnchoredRow) (q : UInt32) : r ∈ rows → r.handler = .dropping q →
    ∃ k, (∀ n x, flat[n]? = some (some (.dropping q), x) ↔ n = k ∧ x = .label none) ∧
      flat[k + 1]? = some (none, .op Op.pop) ∧
      (b.heads[q]? = some (k + 2) ∨ flat[k + 2]? = some (none, .goto q) ∧
        ∃ n, b.heads[q]? = some n) ∧
      ∀ n stored l, b.Arrives n stored → b.lines[n]? = some l → l.insn.fallsThrough = true →
      n + 1 ≠ k

/-- Line `k` of the flat list is line `j` of the piece `x`, and the lines of the piece in front of
it fall through. -/
def Site.Passed (s : Site) (pieces : List Piece) (k : Nat) (x : Piece) (j : Nat) : Prop :=
  s.Within pieces k x j ∧ ∀ l ∈ (x.lines s).take j, l.2.fallsThrough = true

section Layout

variable {s : Site} {blocks : Blocks} {rows : List AnchoredRow} {pieces : List Piece} {b : Body}
  {entry : Frame}

namespace Site.Layout

variable (laid : s.Layout blocks rows pieces b) {a : List Insn} {k : Nat} {q : UInt32}

section Places

variable {p : UInt32}

include laid

theorem heads_iff : b.heads[p]? = some k ↔ ∃ a, s.Within pieces k (.block p a) 0 := by
  refine ⟨laid.head_within, fun ⟨a, within⟩ => ?_⟩
  obtain ⟨tag, head, there⟩ := laid.head_of_block (laid.block_of_piece within.mem)
  obtain ⟨_, first, rfl, rfl, _⟩ := laid.block_unique there within
  exact head

theorem heads_iff_label :
    b.heads[p]? = some k ↔ (pieces.flatMap (Piece.lines s))[k]? =
      some (some (.head p), .label (some p)) := by
  rw [laid.heads_iff]
  refine ⟨fun ⟨a, within⟩ => ?_, laid.within_of_head⟩
  rw [within.getElem?]
  exact laid.first_of_block within.mem

theorem prefix_of_head (within : s.Within pieces k (.block p a) 0) :
    s.anchored p a <+: (pieces.flatMap (Piece.lines s)).drop k := by
  obtain ⟨_, before, after, rfl, rfl⟩ := within
  rw [List.flatMap_append, Nat.add_zero, List.drop_left, List.flatMap_cons]
  exact List.prefix_append _ _

theorem head_le {n : Nat} (found : blocks[p]? = some a) (head : b.heads[p]? = some k)
    (other : b.heads[q]? = some n) (less : p < q) : k + (s.anchored p a).length ≤ n := by
  obtain ⟨a', within⟩ := laid.head_within head
  cases found.symm.trans (laid.block_of_piece within.mem)
  obtain ⟨_, there⟩ := laid.head_within other
  have some_line : 0 < (s.anchored p a).length := within.1
  have last : (s.anchored p a).length - 1 < (s.anchored p a).length := by omega
  have before := laid.block_lt (within.shift last) there less
  omega

end Places

section Falling

variable (contiguous : s.code.Contiguous) (closed : s.typing.Closed s.catalog s.code entry)

include laid contiguous closed

theorem goes_on {before after : List Piece} {i : Instr} (member : i ∈ s.code.instrs)
    (split : pieces = before ++ .block i.position a :: after) (on : i.family.endsFlow = false)
    (through : ∀ l ∈ (s.anchored i.position a).getLast?, l.2.fallsThrough = true) :
    ∃ c rest, after = .block i.next c :: rest := by
  obtain ⟨has_next, later, _⟩ := contiguous.next_position member on
  obtain ⟨_, _, _, frame, state, _⟩ := laid.block (p := i.position) (a := a) (by simp [split])
  have reachable : s.code.Reachable i.next :=
    .flow member (closed.reached _ (by rw [state]; rfl)) (.next on) has_next
  obtain ⟨next, known⟩ := Option.isSome_iff_exists.1 ((closed.mem_iff_reachable _).2 reachable)
  cases after with
  | nil =>
    obtain ⟨c, _, placed⟩ := laid.placed_of_reachable closed reachable
    rw [split, List.mem_append, List.mem_singleton] at placed
    rcases placed with front | same
    · exact absurd ((laid.ascending split).1 _ _ front) (UInt32.lt_asymm later)
    · rw [(Piece.block.inj same).1] at later
      exact absurd later (UInt32.lt_irrefl _)
  | cons y rest =>
    have chain := laid.arranged.chain
    rw [split] at chain
    have follows := (List.isChain_cons_cons.1 (List.isChain_append.1 chain).2.1).1
    obtain ⟨c, rfl⟩ := laid.next_block contiguous split follows through member rfl on known
    exact ⟨c, rest, rfl⟩

theorem next_head {i : Instr} (member : i ∈ s.code.instrs) (on : i.family.endsFlow = false)
    (found : blocks[i.position]? = some a) (head : b.heads[i.position]? = some k)
    (through : ∀ l ∈ (s.anchored i.position a).getLast?, l.2.fallsThrough = true) :
    b.heads[i.next]? = some (k + (s.anchored i.position a).length) := by
  obtain ⟨a', within⟩ := laid.head_within head
  cases found.symm.trans (laid.block_of_piece within.mem)
  obtain ⟨_, before, after, split, rfl⟩ := within
  obtain ⟨c, rest, rfl⟩ := laid.goes_on contiguous closed member split on through
  refine laid.heads_iff.2 ⟨c, laid.lines_pos (by simp [split]), before ++ [.block i.position a],
    rest, by simp [split], ?_⟩
  simp [Piece.lines]

theorem falls_within {j : Nat} {x : Piece} {l : Line} (passed : s.Passed pieces k x j)
    (here : b.lines[k]? = some l) (falls : l.insn.fallsThrough = true)
    (more : k + 1 < b.lines.length) :
    s.Passed pieces (k + 1) x (j + 1) ∨ ∃ q a, s.Within pieces (k + 1) (.block q a) 0 := by
  obtain ⟨within, front⟩ := passed
  have through : ∀ m ∈ (x.lines s).take (j + 1), m.2.fallsThrough = true := by
    obtain ⟨m, there, rfl⟩ := laid.anchored_of_line here
    rw [List.take_add_one, ← within.getElem?, there]
    exact List.forall_mem_append.2 ⟨front, by simpa using falls⟩
  by_cases inside : j + 1 < (x.lines s).length
  · exact .inl ⟨within.succ inside, through⟩
  · have last : j + 1 = (x.lines s).length := by
      have := within.1
      omega
    obtain ⟨_, next_line, _⟩ := laid.anchored_of_line (List.getElem?_eq_getElem more)
    obtain ⟨before, y, after, split, follows, next⟩ :=
      laid.next_within within last (List.getElem?_eq_some_iff.1 next_line).1
    rw [last, List.take_length] at through
    refine .inr ?_
    cases x with
    | block p a =>
      obtain ⟨i, member, rfl, _, _, selected⟩ := laid.block within.mem
      have passes : ∀ x ∈ a, x.fallsThrough = true := by
        obtain ⟨rest, rfl, _⟩ := selected.headed
        intro x inside
        obtain ⟨m, there, rfl⟩ := s.exists_anchored i.position inside
        exact through m there
      obtain ⟨c, rest, same⟩ := laid.goes_on contiguous closed member split (selected.passed passes)
        fun m final => through m (List.mem_of_getLast? final)
      cases same
      exact ⟨_, c, next⟩
    | way p jumps =>
      cases follows with
      | handler => exact ⟨p, _, next⟩
      | ways => cases through (none, .goto p) (by simp [Piece.lines])

variable (sourced : ∀ r ∈ rows, ∃ h, s.handlerAnchor blocks h = .ok r.handler)

include sourced

theorem passed_of_arrives {stored : List Local} (arrives : b.Arrives k stored) :
    ∃ x j, s.Passed pieces k x j := by
  have entered {k : Nat} {x : Piece} (within : s.Within pieces k x 0) :
      ∃ x j, s.Passed pieces k x j :=
    ⟨x, 0, within, by simp⟩
  induction arrives with
  | entry =>
    obtain ⟨a, after, split⟩ := laid.exists_first closed
    exact entered ⟨laid.lines_pos (by simp [split]), [], after, split, rfl⟩
  | falls _ here falls more ih =>
    obtain ⟨x, j, passed⟩ := ih
    rcases laid.falls_within contiguous closed passed here falls more with on | ⟨q, a, head⟩
    · exact ⟨x, j + 1, on⟩
    · exact entered head
  | jumps _ _ _ arrived head _ =>
    obtain ⟨_, _, rfl⟩ := laid.anchored_of_line arrived
    obtain ⟨a, within⟩ := laid.head_within head
    exact entered within
  | throws _ row _ arrived handler _ =>
    rw [laid.rows_eq] at row
    obtain ⟨r, member, rfl⟩ := List.mem_map.1 row
    obtain ⟨⟨_, x⟩, there, rfl⟩ := laid.anchored_of_line arrived
    subst handler
    cases anchor_of_tagOf there
    obtain ⟨h, anchor⟩ := sourced r member
    rcases Compiled.handlerAnchor_cases anchor with ⟨_, _, same⟩ | ⟨_, same⟩
    · rw [same] at there
      obtain ⟨a, within⟩ := laid.within_of_head there
      exact entered within
    · rw [same] at there
      obtain ⟨jumps, within⟩ := laid.within_of_dropping there
      exact entered within

theorem not_falls_into_way {n : Nat} {jumps : Bool} {stored : List Local} {l : Line}
    (way : s.Within pieces k (.way q jumps) 0) (arrives : b.Arrives n stored)
    (here : b.lines[n]? = some l) (falls : l.insn.fallsThrough = true) : n + 1 ≠ k := by
  rintro rfl
  obtain ⟨x, j, passed⟩ := laid.passed_of_arrives contiguous closed sourced arrives
  have line := laid.line_within way (List.getElem?_eq_getElem way.1)
  rcases laid.falls_within contiguous closed passed here falls (List.getElem?_eq_some_iff.1 line).1
    with on | ⟨p, a, head⟩
  · cases (on.1.unique way).2
  · cases (head.unique way).1

theorem way {r : AnchoredRow} (member : r ∈ rows) (dropping : r.handler = .dropping q) :
    ∃ k, (∀ n x, (pieces.flatMap (Piece.lines s))[n]? = some (some (.dropping q), x) ↔ n = k ∧
      x = .label none) ∧
      (pieces.flatMap (Piece.lines s))[k + 1]? = some (none, .op Op.pop) ∧
      (b.heads[q]? = some (k + 2) ∨ (pieces.flatMap (Piece.lines s))[k + 2]? =
        some (none, .goto q) ∧ ∃ n, b.heads[q]? = some n) ∧
      ∀ n stored l, b.Arrives n stored → b.lines[n]? = some l → l.insn.fallsThrough = true →
      n + 1 ≠ k := by
  obtain ⟨jumps, within⟩ := laid.within_tagOf_dropping member dropping
  refine ⟨_, fun n x => ?_, ?_, ?_, fun n stored l =>
    laid.not_falls_into_way contiguous closed sourced within⟩
  · have first := within.getElem?
    rw [Piece.lines_way] at first
    constructor
    · intro found
      obtain ⟨jumps', other⟩ := laid.within_of_dropping found
      obtain rfl := laid.way_unique other within
      cases found.symm.trans first
      exact ⟨rfl, rfl⟩
    · rintro ⟨rfl, rfl⟩
      exact first
  · rw [(within.shift (j := 1) (by simp [Piece.lines_way])).getElem?, Piece.lines_way]
    rfl
  · cases jumps with
    | false =>
      obtain ⟨a, head⟩ := laid.block_after_way within
      exact .inl (laid.heads_iff.2 ⟨a, head⟩)
    | true =>
      have last : ((Piece.way q true).lines s)[2]? = some (none, .goto q) := rfl
      have there := within.shift (List.getElem?_eq_some_iff.1 last).1
      have line := laid.line_within there last
      exact .inr
        ⟨there.getElem?.trans last, laid.jumps _ (List.mem_of_getElem? line) q
          (List.mem_singleton_self q)⟩

end Falling

end Site.Layout

end Layout

/-- **Control flow in the flat list.** Every reachable block stands in it once and as a whole, in
the order of positions, with position 0 first. A block that is fallen out of stands right before the
one where its instruction goes on. A way into a handler stands once, and no path falls into it. -/
theorem compile_keeps_flow (catalog : Catalog) (method : Method) (code : Code) (options : Options)
    (pool later : Pool) (b : Body) (contiguous : code.Contiguous)
    (done : (compile catalog method code options).run pool = (.ok b, later)) :
    ∃ s blocks middle rows, Site.ofCode catalog method code options = .ok s ∧
    s.blocks.run pool = (.ok blocks, middle) ∧
      (s.rows blocks).run middle = (.ok rows, later) ∧
      s.Flat blocks rows (s.flatten blocks (droppingPositions rows)) b := by
  obtain ⟨s, blocks, middle, rows, pieces, prepared, selected, guarded, flat, laid⟩ :=
    compile_eq_ok done
  obtain ⟨inferred, rfl, rfl, rfl, _⟩ := Site.ofCode_eq_ok prepared
  have closed := infer_closed contiguous.nodup inferred
  obtain ⟨rowsOf, table⟩ := rows_eq_ok guarded
  have sourced (r : AnchoredRow) (member : r ∈ rows) : ∃ h, s.handlerAnchor blocks h =
      .ok r.handler := by
    obtain ⟨q, inside⟩ := table.exists_rowsOf member
    obtain ⟨_, _, _, _, h, _, row⟩ := table.source inside
    exact ⟨h, row.handler⟩
  refine ⟨s, blocks, middle, rows, prepared, selected, guarded, ?_⟩
  rw [flat]
  refine ⟨laid.getElem?_lines, fun p k => laid.heads_iff_label, fun p reachable => ?_,
    fun p q a k n => laid.head_le,
    fun i a k => laid.next_head contiguous closed, ?_, fun r q =>
      laid.way contiguous closed sourced⟩
  · obtain ⟨a, found, _⟩ := laid.placed_of_reachable closed reachable
    obtain ⟨k, head, within⟩ := laid.head_of_block found
    exact ⟨a, k, found, head, laid.prefix_of_head within⟩
  · obtain ⟨a, after, split⟩ := laid.exists_first closed
    exact laid.heads_iff.2 ⟨a, laid.lines_pos (by simp [split]), [], after, split, rfl⟩

theorem sampleCode_keeps_flow :
    ∃ b later s blocks middle rows,
      (compile { types := #["[I"] } ⟨⟨"a/B", "f", ["I"], "V"⟩, 8, none⟩ sampleCode .none).run
        (.empty .simple) =
        (.ok b, later) ∧
      b.lines = (Body.ofInsns "f" sampleCodeInsns).lines ∧ b.rows = [⟨12, 14, 18, 0⟩] ∧
      Site.ofCode { types := #["[I"] } ⟨⟨"a/B", "f", ["I"], "V"⟩, 8, none⟩ sampleCode .none =
        .ok s ∧
      s.blocks.run (.empty .simple) = (.ok blocks, middle) ∧
      (s.rows blocks).run middle = (.ok rows, later) ∧
      s.Flat blocks rows (s.flatten blocks (droppingPositions rows)) b := by
  obtain ⟨b, later, ran, lines, table, _⟩ := sampleCode_compiled
  obtain ⟨s, blocks, middle, rows, prepared, selected, guarded, flat⟩ :=
    compile_keeps_flow _ _ _ _ _ _ _ sampleCode_contiguous ran
  exact ⟨b, later, s, blocks, middle, rows, ran, lines, table, prepared, selected, guarded, flat⟩

end Restack.Register
