import Restack.Proofs.Register.Inference
import Restack.Proofs.Selection.Lines

set_option autoImplicit false

namespace Restack

variable {k : Nat}

namespace Body

/-- The range of a row takes in line `k`. It opens one line before its start label. -/
def Guards (b : Body) (r : Row) (k : Nat) : Prop :=
  ∃ start stop first last, b.lines[start]? = some first ∧ first.tag = r.start ∧
    b.lines[stop]? = some last ∧
    last.tag = r.stop ∧ start ≤ k + 1 ∧ k < stop

/-- Paths of control flow from the entry to line `k`, with the locals that are stored on them. What
throws does not store. -/
inductive Arrives (b : Body) : Nat → List Local → Prop where
  | entry : Arrives b 0 []
  | falls {k : Nat} {stored : List Local} {l : Line} : Arrives b k stored → b.lines[k]? = some l →
      l.insn.fallsThrough = true → k + 1 < b.lines.length →
      Arrives b (k + 1) (l.insn.stores?.toList ++ stored)
  | jumps {k k' : Nat} {stored : List Local} {l l' : Line} {t : UInt32} :
      Arrives b k stored → b.lines[k]? = some l →
      t ∈ l.insn.targets → b.lines[k']? = some l' → b.heads[t]? = some l'.tag → Arrives b k' stored
  | throws {k k' : Nat} {stored : List Local} {r : Row} {l' : Line} :
      Arrives b k stored → r ∈ b.rows →
      b.Guards r k → b.lines[k']? = some l' → l'.tag = r.handler → Arrives b k' stored

theorem Arrives.along {b : Body} {stored : List Local} (arrives : b.Arrives k stored) (n : Nat)
    (through : ∀ l ∈ (b.lines.drop k).take n, l.insn.fallsThrough = true)
    (inside : k + n < b.lines.length) :
    b.Arrives (k + n) (((b.lines.drop k).take n).reverse.filterMap (·.insn.stores?) ++ stored) := by
  induction n with
  | zero => simpa using arrives
  | succ n ih =>
    have next : (b.lines.drop k)[n]? = some b.lines[k + n] := by
      rw [List.getElem?_drop, List.getElem?_eq_getElem (by omega)]
    rw [List.take_add_one, next] at through ⊢
    have here : b.Arrives (k + n) _ :=
      ih (fun l member => through l (List.mem_append_left _ member)) (by omega)
    have falls := here.falls (List.getElem?_eq_getElem (by omega))
      (through _ (List.mem_append_right _ (by simp))) inside
    rw [← Nat.add_assoc]
    cases stores : b.lines[k + n].insn.stores? <;> simpa [stores] using falls

end Body

namespace Register

/-- Every local that the state allows to be read is an argument or stored. -/
def Covers (args : List (Option Local)) (stored : List Local) (s : Frame) : Prop :=
  ∀ reg kind, kind ∈ Kinds.singles → (s.kindsOf reg).Has kind → some ⟨reg, kind⟩ ∈ args ∨
    ⟨reg, kind⟩ ∈ stored

namespace Covers

variable {args : List (Option Local)} {stored more : List Local} {s t : Frame}

theorem mono (covers : Covers args stored s) (larger : ∀ v ∈ stored, v ∈ more) :
    Covers args more s :=
  fun reg kind single has => (covers reg kind single has).imp_right (larger _)

theorem absorb (covers : Covers args stored s) (absorbs : t.Absorbs s) : Covers args stored t :=
  fun reg kind single has => covers reg kind single (absorbs.has has)

theorem of_kindsOf_eq (covers : Covers args stored s)
    (same : ∀ reg, t.kindsOf reg = s.kindsOf reg) :
    Covers args stored t :=
  fun reg kind single has => covers reg kind single (same reg ▸ has)

end Covers

theorem Site.covers_entry (s : Site) (stored : List Local) :
    Covers s.args stored (Frame.ofParameters s.method.slots s.code.registers.toNat) := by
  intro reg kind single has
  refine .inl ?_
  rcases Frame.kindsOf_ofParameters s.method.slots s.code.registers.toNat reg with none |
    ⟨d, n, found, rfl, kinds⟩
  · rw [none] at has
    exact absurd has (Kinds.not_has_none single)
  · rw [kinds] at has
    have some_kind : Kinds.ofDescriptor d ≠ .none :=
      fun none => Kinds.not_has_none single (none ▸ has)
    have same : kind = .ofDescriptor d := by
      rcases Kinds.ofDescriptor_cases d with one | none
      · exact Kinds.eq_of_has one single has
      · exact absurd none some_kind
    have slot : (Kinds.ofDescriptor d, n) ∈ s.method.slotKinds.zipIdx := by
      rw [Method.slotKinds, MethodRef.slotKinds, List.zipIdx_map]
      exact List.mem_map.2 ⟨(some d, n), found, rfl⟩
    refine List.mem_map.2 ⟨_, slot, ?_⟩
    simp [some_kind, same, Method.slotKinds, MethodRef.slotKinds, Method.slots]

/-- A method whose states are settled and whose moves fit them, with rows that belong to its
handlers. -/
structure Site.Typed (s : Site) (blocks : Blocks) (rows : List AnchoredRow) : Prop where
  contiguous : s.code.Contiguous
  closed : s.typing.Closed s.catalog s.code
    (Frame.ofParameters s.method.slots s.code.registers.toNat)
  fits : ∀ i ∈ s.code.instrs, ∀ frame, s.typing.states[i.position]? = some frame → i.Fits frame
  sourced : ∀ r ∈ rows, ∃ p handlers, s.typing.handlers[p]? = some handlers ∧
    ∃ h ∈ handlers, r.start = .start p ∧ r.stop = .stop p ∧ s.handlerAnchor blocks h = .ok r.handler

/-- Right before line `j` of a piece is run, the state of its position is covered, and what the
lines before it store is stored. -/
def Piece.Ready (s : Site) (stored : List Local) (j : Nat) : Piece → Prop
  | .block p insns => ∃ frame, s.typing.states[p]? = some frame ∧ Covers s.args stored frame ∧
      ∀ l ∈ (s.anchored p insns).take j, l.2.fallsThrough = true ∧ ∀ v ∈ l.2.stores?, v ∈ stored
  | .way p _ => ∀ frame, s.typing.states[p]? = some frame → Covers s.args stored frame

def Site.Stands (s : Site) (pieces : List Piece) (k : Nat) (stored : List Local) : Prop :=
  ∃ x j, s.Within pieces k x j ∧ x.Ready s stored j

section Steps

variable {s : Site} {blocks : Blocks} {rows : List AnchoredRow} {pieces : List Piece} {b : Body}
  {stored : List Local}
variable {p : UInt32} {l : Anchored}

theorem Piece.Ready.succ {x : Piece} {j : Nat} (ready : x.Ready s stored j)
    (here : (x.lines s)[j]? = some l) (through : l.2.fallsThrough = true) :
    x.Ready s (l.2.stores?.toList ++ stored) (j + 1) := by
  have larger : ∀ v ∈ stored, v ∈ l.2.stores?.toList ++ stored :=
    fun v member => List.mem_append_right _ member
  cases x with
  | block p insns =>
    obtain ⟨frame, state, covers, front⟩ := ready
    refine ⟨frame, state, covers.mono larger, fun l' member => ?_⟩
    have here : (s.anchored p insns)[j]? = some l := here
    rw [List.take_add_one, here, List.mem_append] at member
    rcases member with earlier | last
    · exact ⟨(front l' earlier).1, fun v inside => larger v ((front l' earlier).2 v inside)⟩
    · cases List.mem_singleton.1 last
      exact ⟨through, fun v inside => List.mem_append_left _ (by simpa using inside)⟩
  | way p jumps => exact fun frame state => (ready frame state).mono larger

theorem Site.Layout.stands_of_anchor (laid : s.Layout blocks rows pieces b) {anchor : Anchor}
    {x : Insn} (found : (pieces.flatMap (Piece.lines s))[k]? = some (some anchor, x))
    (leads : anchor = .head p ∨ anchor = .dropping p)
    (covered : ∀ frame, s.typing.states[p]? = some frame → Covers s.args stored frame) :
    s.Stands pieces k stored := by
  rcases laid.anchor_within found with ⟨q, a, j, within, ⟨rfl, rfl⟩ | ⟨rfl | rfl, _⟩⟩ |
    ⟨q, jumps, within, rfl⟩
  · have same : q = p := by simpa using leads
    subst same
    obtain ⟨i, _, _, frame, state, _⟩ := laid.block within.mem
    exact ⟨_, 0, within, frame, state, covered frame state, by simp⟩
  · simp at leads
  · simp at leads
  · have same : q = p := by simpa using leads
    subst same
    exact ⟨_, 0, within, covered⟩

theorem no_block_after_way {after : List Piece}
    (chain : (.way p true :: after).IsChain (Piece.Follows s)) :
    after.filterMap Piece.block? = [] := by
  induction after generalizing p with
  | nil => rfl
  | cons x after ih =>
    obtain ⟨follows, chain⟩ := List.isChain_cons_cons.1 chain
    cases follows with
    | ways => exact ih chain

theorem Site.Layout.next_block (laid : s.Layout blocks rows pieces b)
    (contiguous : s.code.Contiguous) {before after : List Piece} {insns : List Insn} {y : Piece}
    {i : Instr} {next : Frame} (split : pieces = before ++ .block p insns :: y :: after)
    (follows : (Piece.block p insns).Follows s y)
    (through : ∀ l ∈ (s.anchored p insns).getLast?, l.2.fallsThrough = true)
    (member : i ∈ s.code.instrs) (position : i.position = p) (goes_on : i.family.endsFlow = false)
    (there : s.typing.states[i.next]? = some next) :
    ∃ a, y = .block i.next a := by
  obtain ⟨has_next, later, least⟩ := contiguous.next_position member goes_on
  obtain ⟨j, at_next, j_position⟩ := has_next
  obtain ⟨target, covered⟩ := Option.isSome_iff_exists.1
    (laid.selected.covered j at_next (by rw [j_position, there]; rfl))
  rw [j_position] at covered
  -- The block is there, and it stands behind this one.
  have behind : Piece.block i.next target ∈ y :: after := by
    have placed := laid.piece_of_block covered
    rw [split, List.mem_append, List.mem_cons] at placed
    rcases placed with front | same | back
    · have smaller := (laid.ascending split).1 _ _ front
      rw [position] at later
      exact absurd smaller (UInt32.lt_asymm later)
    · cases same
      rw [position] at later
      exact absurd later (by simp)
    · exact back
  cases follows with
  | @blocks _ q _ a =>
    have p_lt : p < q := (laid.ascending split).2 q a List.mem_cons_self
    obtain ⟨j', inside, q_position, _⟩ := laid.block (p := q) (a := a) (by simp [split])
    have least_q : i.next ≤ q := least q ⟨j', inside, q_position⟩ (by rw [position]; exact p_lt)
    rcases List.mem_cons.1 behind with same | further
    · cases same
      exact ⟨target, rfl⟩
    · have cut : pieces = (before ++ [.block p insns]) ++ .block q a :: after := by simp [split]
      have q_lt : q < i.next := (laid.ascending cut).2 _ _ further
      exact absurd q_lt (by simpa using least_q)
  | way still =>
    have nonempty : 0 < (s.anchored p insns).length :=
      laid.lines_pos (x := .block p insns) (by simp [split])
    obtain ⟨l, last⟩ :=
      Option.isSome_iff_exists.1 (List.getLast?_isSome.2 (List.ne_nil_of_length_pos nonempty))
    have stops := still l last
    rw [through l last] at stops
    cases stops
  | last =>
    have chain := laid.arranged.chain
    rw [split] at chain
    have tail := (List.isChain_cons_cons.1 (List.isChain_append.1 chain).2.1).2
    have listed : (i.next, target) ∈ (.way _ true :: after).filterMap Piece.block? :=
      List.mem_filterMap.2 ⟨_, behind, rfl⟩
    rw [Piece.filterMap_block?_cons, no_block_after_way tail] at listed
    simp [Piece.block?] at listed

section

variable (typed : s.Typed blocks rows) (laid : s.Layout blocks rows pieces b)
include typed laid

theorem Site.Typed.passed_block {insns : List Insn}
    {frame : Frame} (placed : .block p insns ∈ pieces) (state : s.typing.states[p]? = some frame)
    (covers : Covers s.args stored frame)
    (ran : ∀ l ∈ s.anchored p insns, l.2.fallsThrough = true ∧ ∀ v ∈ l.2.stores?, v ∈ stored) :
    ∃ i ∈ s.code.instrs, i.position = p ∧ i.family.endsFlow = false ∧
      ∃ next, s.typing.states[i.next]? = some next ∧ Covers s.args stored next := by
  obtain ⟨i, member, rfl, frame', state', selected⟩ := laid.block placed
  cases state.symm.trans state'
  obtain ⟨rest, headed, _⟩ := selected.headed
  have lines : ∀ x ∈ insns, ∃ l ∈ s.anchored i.position insns, l.2 = x := by
    intro x inside
    rw [headed] at inside ⊢
    exact s.exists_anchored i.position inside
  have passes : ∀ x ∈ insns, x.fallsThrough = true := by
    intro x inside
    obtain ⟨l, there, rfl⟩ := lines x inside
    exact (ran l there).1
  have goes_on := selected.passed passes
  obtain ⟨edges, flowed, _⟩ := typed.closed.flowed i member frame state
  obtain ⟨fallen, falls⟩ := exists_falls flowed
  obtain ⟨has_next, _⟩ := typed.contiguous.next_position member goes_on
  obtain ⟨next, known, absorbs⟩ :=
    typed.closed.absorbs_passed member state (.next goes_on falls) has_next
  -- What the instruction has written is stored by its block.
  have covers_fallen : Covers s.args stored fallen := by
    intro reg kind single has
    rcases selected.stores (typed.fits i member frame state) passes fallen falls reg kind single has
      with old | new
    · exact covers reg kind single old
    · obtain ⟨l, there, store⟩ := lines _ new
      exact .inr ((ran l there).2 _ (by rw [store]; rfl))
  exact ⟨i, member, rfl, goes_on, next, known, covers_fallen.absorb absorbs⟩

theorem Site.Typed.stands_falls
    (stands : s.Stands pieces k stored) (here : (pieces.flatMap (Piece.lines s))[k]? = some l)
    (through : l.2.fallsThrough = true) (more : k + 1 < (pieces.flatMap (Piece.lines s)).length) :
    s.Stands pieces (k + 1) (l.2.stores?.toList ++ stored) := by
  obtain ⟨x, j, within, ready⟩ := stands
  have at_j : (x.lines s)[j]? = some l := within.getElem?.symm.trans here
  have ready' := ready.succ at_j through
  by_cases inside : j + 1 < (x.lines s).length
  · exact ⟨x, j + 1, within.succ inside, ready'⟩
  · have last : j + 1 = (x.lines s).length := by
      have := within.1
      omega
    obtain ⟨before, y, after, split, follows, next⟩ := laid.next_within within last more
    cases x with
    | block p insns =>
      obtain ⟨frame, state, covers, front⟩ := ready'
      have all : (s.anchored p insns).length ≤ j + 1 := Nat.le_of_eq last.symm
      rw [List.take_of_length_le all] at front
      obtain ⟨i, member, position, goes_on, state_next, known, covers_next⟩ :=
        typed.passed_block laid within.mem state covers front
      obtain ⟨a, rfl⟩ := laid.next_block typed.contiguous split follows
        (fun l' there => (front l' (List.mem_of_getLast? there)).1) member position goes_on known
      exact ⟨_, 0, next, state_next, known, covers_next, by simp⟩
    | way p jumps =>
      cases follows with
      | handler =>
        obtain ⟨_, _, _, frame, state, _⟩ := laid.block next.mem
        exact ⟨_, 0, next, frame, state, ready' frame state, by simp⟩
      | ways =>
        -- The last line of a way at the end is a jump, which nothing falls through.
        have jump : l = (none, .goto p) := by
          have at_last : ((Piece.way p true).lines s)[2]? = some (none, .goto p) := rfl
          have two : j = 2 := by simpa [Piece.lines, dropLines] using last
          rw [two, at_last] at at_j
          exact (Option.some.inj at_j).symm
        rw [jump] at through
        cases through

theorem Site.Typed.stands_jumps {k' : Nat} {x : Insn} {t : UInt32}
    (stands : s.Stands pieces k stored) (here : (pieces.flatMap (Piece.lines s))[k]? = some l)
    (target : t ∈ l.2.targets)
    (head : (pieces.flatMap (Piece.lines s))[k']? = some (some (.head t), x)) :
    s.Stands pieces k' stored := by
  apply laid.stands_of_anchor head (.inl rfl)
  intro next known
  obtain ⟨piece, j, within, ready⟩ := stands
  have at_j : (piece.lines s)[j]? = some l := within.getElem?.symm.trans here
  cases piece with
  | block p insns =>
    obtain ⟨frame, state, covers, _⟩ := ready
    obtain ⟨i, member, position, frame', state', selected⟩ := laid.block within.mem
    cases state.symm.trans state'
    have admits : i.Admits l.2 := by
      rcases selected.line (List.mem_of_getElem? at_j) with ⟨q, label⟩ | admits
      · simp [label, Insn.targets] at target
      · exact admits
    obtain ⟨control, leads⟩ := admits.leads t target
    have reached := (typed.closed.reached t (by rw [known]; rfl)).hasPosition
    obtain ⟨edges, flowed, _⟩ := typed.closed.flowed i member frame (by rw [position, state])
    obtain ⟨passed, passes⟩ := exists_passes flowed leads
    obtain ⟨next', known', absorbs⟩ :=
      typed.closed.absorbs_passed member (by rw [position, state]) passes reached
    cases known.symm.trans known'
    exact (covers.of_kindsOf_eq (kindsOf_passes control passes)).absorb absorbs
  | way p jumps =>
    have same : t = p := by
      rcases Piece.mem_way (List.mem_of_getElem? at_j) with other | other | goto
      · simp [other, Insn.targets] at target
      · simp [other, Insn.targets] at target
      · simpa [goto, Insn.targets, Insn.goto] using target
    rw [same] at known
    exact ready next known

/-- An exception leads to a line that is ready: its handler relies only on what held before the
instruction. -/
theorem Site.Typed.stands_throws {k' start stop : Nat} {r : AnchoredRow} {x y z : Insn}
    (member : r ∈ rows) (stands : s.Stands pieces k stored)
    (starts : (pieces.flatMap (Piece.lines s))[start]? = some (some r.start, x))
    (stops : (pieces.flatMap (Piece.lines s))[stop]? = some (some r.stop, y))
    (handles : (pieces.flatMap (Piece.lines s))[k']? = some (some r.handler, z))
    (after : start ≤ k + 1) (before : k < stop) :
    s.Stands pieces k' stored := by
  obtain ⟨p, handlers, listed, h, caught, at_start, at_stop, anchor⟩ := typed.sourced r member
  rw [at_start] at starts
  rw [at_stop] at stops
  obtain ⟨a, j, inside⟩ := laid.guarded_within starts stops after before
  obtain ⟨piece, j', within, ready⟩ := stands
  obtain ⟨rfl, rfl⟩ := inside.unique within
  obtain ⟨frame, state, covers, _⟩ := ready
  obtain ⟨i, in_code, position, _⟩ := laid.block within.mem
  have led : r.handler = .head h.target ∨ r.handler = .dropping h.target := by
    unfold handlerAnchor at anchor
    split at anchor
    · split at anchor
      · exact .inl (Except.ok.inj anchor).symm
      · cases anchor
    · exact .inr (Except.ok.inj anchor).symm
  apply laid.stands_of_anchor handles led
  intro next known
  have reached := (typed.closed.reached h.target (by rw [known]; rfl)).hasPosition
  have of_position : h ∈ s.code.handlers.getD i.position [] := by
    rw [← typed.closed.handlers, position, Std.TreeMap.getD_eq_getD_getElem?, listed]
    exact caught
  obtain ⟨next', known', absorbs⟩ :=
    typed.closed.absorbs_caught in_code (by rw [position, state]) of_position reached
  cases known.symm.trans known'
  exact covers.absorb absorbs

end

theorem Site.Layout.exists_first (laid : s.Layout blocks rows pieces b) {entry : Frame}
    (closed : s.typing.Closed s.catalog s.code entry) :
    ∃ a after, pieces = .block 0 a :: after := by
  obtain ⟨frame, state, _⟩ := closed.start
  obtain ⟨i, member, position⟩ := (closed.reached 0 (by rw [state]; rfl)).hasPosition
  obtain ⟨a, covered⟩ := Option.isSome_iff_exists.1
    (laid.selected.covered i member (by rw [position, state]; rfl))
  rw [position] at covered
  have placed := laid.piece_of_block covered
  have some_block : blocks.toList ≠ [] :=
    List.ne_nil_of_mem (Std.TreeMap.mem_toList_iff_getElem?_eq_some.2 covered)
  cases split : pieces with
  | nil => simp [split] at placed
  | cons x after =>
    obtain ⟨q, a', rfl⟩ := laid.arranged.first some_block x (by simp [split])
    -- No block stands before the one of position 0.
    rw [split] at placed
    rcases List.mem_cons.1 placed with same | later
    · cases same
      exact ⟨_, _, rfl⟩
    · have cut : pieces = [] ++ .block q a' :: after := split
      have larger := (laid.ascending cut).2 _ _ later
      exact absurd larger (by simp)

theorem Site.Typed.stands_entry (typed : s.Typed blocks rows)
    (laid : s.Layout blocks rows pieces b) :
    s.Stands pieces 0 [] := by
  obtain ⟨frame, state, absorbs⟩ := typed.closed.start
  obtain ⟨a, after, split⟩ := laid.exists_first typed.closed
  refine ⟨.block 0 a, 0, ⟨laid.lines_pos (by simp [split]), [], after, split, rfl⟩, frame, state,
    ?_, by simp⟩
  exact (s.covers_entry []).absorb absorbs

theorem Site.Typed.stands_of_arrives (typed : s.Typed blocks rows)
    (laid : s.Layout blocks rows pieces b) (arrives : b.Arrives k stored) :
    s.Stands pieces k stored := by
  induction arrives with
  | entry => exact typed.stands_entry laid
  | @falls k stored l _ here through more ih =>
    obtain ⟨anchored, there, rfl⟩ := laid.anchored_of_line here
    obtain ⟨_, after, _⟩ := laid.anchored_of_line (List.getElem?_eq_getElem more)
    exact typed.stands_falls laid ih there through (List.getElem?_eq_some_iff.1 after).1
  | jumps _ here target arrived head ih =>
    obtain ⟨anchored, there, rfl⟩ := laid.anchored_of_line here
    obtain ⟨_, _, rfl⟩ := laid.anchored_of_line arrived
    obtain ⟨x, heads⟩ := laid.head_line head
    exact typed.stands_jumps laid ih there target heads
  | throws _ row guarded arrived handler ih =>
    obtain ⟨start, stop, first, last, at_start, starts, at_stop, stops, after, before⟩ := guarded
    rw [laid.rows_eq] at row
    obtain ⟨r, member, rfl⟩ := List.mem_map.1 row
    obtain ⟨⟨_, x⟩, there, rfl⟩ := laid.anchored_of_line at_start
    obtain ⟨⟨_, y⟩, there', rfl⟩ := laid.anchored_of_line at_stop
    obtain ⟨⟨_, z⟩, there'', rfl⟩ := laid.anchored_of_line arrived
    dsimp only at starts stops handler
    subst starts stops handler
    cases anchor_of_tagOf there
    cases anchor_of_tagOf there'
    cases anchor_of_tagOf there''
    exact typed.stands_throws laid member ih there there' there'' after before

end Steps

/-- **Definite assignment.** Control flow that arrives at the head of the block of a position has
stored every local that the state of the position allows to be read, unless it is an argument. -/
theorem compile_definitely_assigned (catalog : Catalog) (method : Method) (code : Code)
    (options : Options) (pool later : Pool) (typing : Typing) (b : Body)
    (contiguous : code.Contiguous) (inferred : infer catalog method code = .ok typing)
    (fits : ∀ i ∈ code.instrs, ∀ s, typing.states[i.position]? = some s → i.Fits s)
    (done : (compile catalog method code options).run pool = (.ok b, later)) (k : Nat) (l : Line)
    (stored : List Local) (p : UInt32) (arrives : b.Arrives k stored) (here : b.lines[k]? = some l)
    (head : b.heads[p]? = some l.tag) :
    ∃ s, typing.states[p]? = some s ∧ ∀ reg kind, kind ∈ Kinds.singles → (s.kindsOf reg).Has kind →
      some ⟨reg, kind⟩ ∈ b.args ∨ ⟨reg, kind⟩ ∈ stored := by
  obtain ⟨site, blocks, middle, rows, pieces, prepared, _, guarded, _, laid⟩ := compile_eq_ok done
  obtain ⟨inferred', rfl, rfl, rfl, _⟩ := Site.ofCode_eq_ok prepared
  obtain rfl : typing = site.typing := Except.ok.inj (inferred.symm.trans inferred')
  obtain ⟨rowsOf, table⟩ := rows_eq_ok guarded
  have typed : site.Typed blocks rows := by
    refine ⟨contiguous, infer_closed contiguous.nodup inferred, fits, fun r member => ?_⟩
    obtain ⟨q, inside⟩ := table.exists_rowsOf member
    obtain ⟨_, _, handlers, listed, h, caught, row⟩ := table.source inside
    exact ⟨q, handlers, listed, h, caught, row.start, row.stop, row.handler⟩
  obtain ⟨x, j, within, ready⟩ := typed.stands_of_arrives laid arrives
  rw [laid.getElem?_lines] at here
  obtain ⟨anchored, _, rfl⟩ := Option.map_eq_some_iff.1 here
  obtain ⟨a, at_head⟩ := laid.head_within head
  obtain ⟨rfl, rfl⟩ := within.unique at_head
  obtain ⟨s, state, covers, _⟩ := ready
  exact ⟨s, state, laid.args ▸ covers⟩

def sampleCodeInsns : List Insn :=
  [.label (some 0), .literal ⟨.ofInt, 0, [3]⟩, .store ⟨0, .ofInt⟩, .literal ⟨.ofFloat, 0, [11]⟩,
    .store ⟨0, .ofFloat⟩, .constant [1], .store ⟨0, .ofRef⟩, .label (some 1), .load ⟨1, .ofInt⟩,
    .branch Op.ifeq 0, .label (some 3), .load ⟨1, .ofInt⟩, .label none, .plain [188, 10],
    .label none, .store ⟨0, .ofRef⟩, .label (some 4), .op Op.vreturn, .label none, .op Op.pop,
    .goto 4]

theorem sampleCode_compiled :
    ∃ b later,
      (compile { types := #["[I"] } ⟨⟨"a/B", "f", ["I"], "V"⟩, 8, none⟩ sampleCode .none).run
        (.empty .simple) =
        (.ok b, later) ∧
      b.lines = (Body.ofInsns "f" sampleCodeInsns).lines ∧ b.rows = [⟨12, 14, 18, 0⟩] ∧
      b.heads[(4 : UInt32)]? = some 16 := by
  have shape :
      ((compile { types := #["[I"] } ⟨⟨"a/B", "f", ["I"], "V"⟩, 8, none⟩ sampleCode .none).run
      (.empty .simple)).1.map (fun b => (b.lines, b.rows, b.heads[(4 : UInt32)]?)) =
      .ok ((Body.ofInsns "f" sampleCodeInsns).lines, [⟨12, 14, 18, 0⟩], some 16) := by cbv
  obtain ⟨b, later, ran, parts⟩ := ExceptT.exists_run_eq shape
  simp only [Prod.mk.injEq] at parts
  exact ⟨b, later, ran, parts⟩

theorem sampleCode_definitely_assigned :
    ∃ typing b later s, infer { types := #["[I"] } ⟨⟨"a/B", "f", ["I"], "V"⟩, 8, none⟩ sampleCode =
      .ok typing ∧
      (compile { types := #["[I"] } ⟨⟨"a/B", "f", ["I"], "V"⟩, 8, none⟩ sampleCode .none).run
        (.empty .simple) =
        (.ok b, later) ∧
      b.Arrives 16 [⟨0, .ofRef⟩, ⟨0, .ofFloat⟩, ⟨0, .ofInt⟩] ∧
      typing.states[(4 : UInt32)]? = some s ∧
      ∀ reg kind, kind ∈ Kinds.singles → (s.kindsOf reg).Has kind →
        some ⟨reg, kind⟩ ∈ b.args ∨
        ⟨reg, kind⟩ ∈ [(⟨0, .ofRef⟩ : Local), ⟨0, .ofFloat⟩, ⟨0, .ofInt⟩] := by
  have no_move : ∀ i ∈ sampleCode.instrs, i.family ≠ .move ∧ i.family ≠ .moveWide := by decide
  have settles : (infer { types := #["[I"] } ⟨⟨"a/B", "f", ["I"], "V"⟩, 8, none⟩ sampleCode).isOk =
      true := by cbv
  obtain ⟨typing, inferred⟩ := Except.isOk_iff.1 settles
  obtain ⟨b, later, ran, lines, rows, head⟩ := sampleCode_compiled
  -- The path goes through the allocation, out of it into the handler and from there back to the
  -- return.
  have line : ∀ n : Nat, b.lines[n]? = (Body.ofInsns "f" sampleCodeInsns).lines[n]? :=
    fun n => by rw [lines]
  have allocation : b.Arrives 13 [⟨0, .ofRef⟩, ⟨0, .ofFloat⟩, ⟨0, .ofInt⟩] := by
    have front :=
      Body.Arrives.entry.along (b := b) 13 (by rw [lines]; decide) (by rw [lines]; decide)
    rw [lines] at front
    exact front
  have guarded : b.Guards ⟨12, 14, 18, 0⟩ 13 :=
    ⟨12, 14, _, _, line 12, rfl, line 14, rfl, by decide, by decide⟩
  have handler : b.Arrives 18 [⟨0, .ofRef⟩, ⟨0, .ofFloat⟩, ⟨0, .ofInt⟩] :=
    allocation.throws (by rw [rows]; exact List.mem_singleton_self _) guarded (line 18) rfl
  have jump : b.Arrives 20 [⟨0, .ofRef⟩, ⟨0, .ofFloat⟩, ⟨0, .ofInt⟩] := by
    have way := handler.along 2 (by rw [lines]; decide) (by rw [lines]; decide)
    rw [lines] at way
    exact way
  have path : b.Arrives 16 [⟨0, .ofRef⟩, ⟨0, .ofFloat⟩, ⟨0, .ofInt⟩] :=
    jump.jumps (line 20) (List.mem_singleton_self 4) (line 16) head
  obtain ⟨s, state, assigned⟩ :=
    compile_definitely_assigned _ _ _ _ _ _ _ _ sampleCode_contiguous inferred
    (fun i member _ _ =>
      ⟨fun move => absurd move (no_move i member).1, fun move => absurd move (no_move i member).2⟩)
    ran _ _ _ _ path (line 16) head
  exact ⟨typing, b, later, s, inferred, ran, path, state, assigned⟩

end Register

end Restack
