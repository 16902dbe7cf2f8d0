import Restack.Proofs.Layout.Offsets
import Restack.Proofs.Selection.GuardedLines

set_option autoImplicit false

namespace Restack

namespace Body

/-- At a position of the code, execution goes on at the block of `target`: the block starts there,
or a jump leads to it. -/
inductive GoesOn (b : Body) (code : Bytes) (position : Nat) (target : UInt32) : Prop where
  | here : b.PlacedAt target position → GoesOn b code position target
  | jump {place : Nat} {l : Line} {j : Jump} :
      b.lines[place]? = some l → l.insn = .jump j → j.op = none →
      j.target = target → (linePositions b.lines).1[place]? = some position →
      (code.length < 2 ^ 31 → ∃ destination, b.PlacedAt target destination ∧
        Jump.Lands code position destination none) →
      GoesOn b code position target

end Body

namespace Register

variable {r : AnchoredRow} {k : Nat} {block : List Insn} {rows : List AnchoredRow}

theorem mem_foldl_dropping (rows : List AnchoredRow) (ps : Std.TreeMap UInt32 Unit) (p : UInt32) :
    p ∈ rows.foldl (fun ps r =>
        match r.handler with
        | .dropping p => ps.insert p ()
        | _ => ps) ps ↔ p ∈ ps ∨ ∃ r ∈ rows, r.handler = .dropping p := by
  induction rows generalizing ps with
  | nil => simp
  | cons r rows ih =>
    rw [List.foldl_cons, ih, List.exists_mem_cons_iff]
    cases handler : r.handler with
    | dropping q =>
      rw [Std.TreeMap.mem_insert, Std.compare_eq_iff_eq, Anchor.dropping.injEq, or_assoc,
        or_left_comm]
    | _ => simp

theorem mem_droppingPositions {p : UInt32} (member : r ∈ rows)
    (dropping : r.handler = .dropping p) :
    p ∈ droppingPositions rows :=
  Std.TreeMap.mem_keys.2 ((mem_foldl_dropping rows ∅ p).2 (.inr ⟨r, member, dropping⟩))

section Layout

variable {s : Site} {blocks : Blocks} {rows : List AnchoredRow} {pieces : List Piece} {b : Body}

section Laid

variable (laid : s.Layout blocks rows pieces b)
include laid

theorem Site.Layout.tags : b.lines.map Line.tag = List.range b.fresh := by
  have fresh : b.fresh = (pieces.flatMap (Piece.lines s)).length := by
    obtain ⟨name, entries, rfl⟩ := laid.body
    simp [resolveAnchors, Body.ofInsns]
  rw [laid.lines_eq, tagLines, List.map_map, fresh, List.range_eq_range', ← List.zipIdx_map_snd]
  rfl

theorem Site.Layout.tagged : Tagged b.lines b.fresh := tagged_of_range laid.tags

theorem Site.Layout.unsized : b.Unsized := by
  intro l member j jump
  obtain ⟨k, here⟩ := List.getElem?_of_mem member
  obtain ⟨anchored, there, rfl⟩ := laid.anchored_of_line here
  obtain ⟨piece, n, within, at_n⟩ := exists_within there
  have inside := List.mem_of_getElem? at_n
  cases piece with
  | block p a =>
    obtain ⟨i, _, _, _, _, selected⟩ := laid.block within.mem
    rcases selected.line inside with ⟨q, label⟩ | admits
    · cases label.symm.trans jump
    · exact admits.undecided j jump
  | way p jumps =>
    rcases Piece.mem_way inside with other | other | goto
    · cases other.symm.trans jump
    · cases other.symm.trans jump
    · cases goto.symm.trans jump
      rfl

theorem Site.Layout.block_after_way {p : UInt32} (within : s.Within pieces k (.way p false) 0) :
    ∃ a, s.Within pieces (k + 2) (.block p a) 0 := by
  obtain ⟨_, before, after, split, rfl⟩ := within
  cases after with
  | nil =>
    refine absurd ?_ (laid.arranged.last p)
    rw [split]
    simp
  | cons y after =>
    have chain := laid.arranged.chain
    rw [split] at chain
    have follows := (List.isChain_cons_cons.1 (List.isChain_append.1 chain).2.1).1
    cases follows with
    | @handler _ a =>
      refine ⟨a, laid.lines_pos (by simp [split]), before ++ [.way p false],
        after, by simp [split], ?_⟩
      simp [Piece.lines, dropLines]

theorem Site.Layout.within_tagOf_head {p : UInt32} (found : blocks[p]? = some block) :
    ∃ a, s.Within pieces (tagOf (pieces.flatMap (Piece.lines s)) (.head p)) (.block p a) 0 := by
  have placed := laid.piece_of_block found
  have listed : (some (.head p), .label (some p)) ∈ pieces.flatMap (Piece.lines s) :=
    List.mem_flatMap.2 ⟨_, placed, List.mem_of_getElem? (laid.first_of_block placed)⟩
  obtain ⟨x, there⟩ := exists_tagOf listed rfl
  exact laid.within_of_head there

theorem Site.Layout.within_tagOf_dropping {p : UInt32} (member : r ∈ rows)
    (dropping : r.handler = .dropping p) :
    ∃ jumps, s.Within pieces (tagOf (pieces.flatMap (Piece.lines s)) (.dropping p))
      (.way p jumps) 0 := by
  have needed := laid.arranged.ways.symm.subset (mem_droppingPositions member dropping)
  obtain ⟨way, placed, is_way⟩ := List.mem_filterMap.1 needed
  have listed : (some (.dropping p), .label none) ∈ pieces.flatMap (Piece.lines s) := by
    refine List.mem_flatMap.2 ⟨way, placed, ?_⟩
    cases way with
    | block _ _ => cases is_way
    | way q jumps =>
      cases is_way
      rw [Piece.lines_way]
      exact List.mem_cons_self
  obtain ⟨x, there⟩ := exists_tagOf listed rfl
  exact laid.within_of_dropping there

end Laid

end Layout

/-- A body that was laid out, rewritten by passes, sized and assembled; `offset` tells where its
lines are in the code. -/
structure Site.Emitted (s : Site) (blocks : Blocks) (rows : List AnchoredRow) (pieces : List Piece)
    (b final : Body) (bytes : Bytes) (offset : Nat → Nat) : Prop where
  laid : s.Layout blocks rows pieces b
  offsets : b.Offsets final offset
  heads : final.heads = b.heads
  stands : ∀ (i : Nat) (l : Line) (position : Nat) (code : Bytes), final.lines[i]? = some l →
    l.insn = .plain code →
    (linePositions final.lines).1[i]? = some position → bytes.StandsAt position code
  lands : bytes.length < 2 ^ 31 → ∀ (i : Nat) (l : Line) (position : Nat) (j : Jump),
    final.lines[i]? = some l →
    l.insn = .jump j → (linePositions final.lines).1[i]? = some position →
    ∃ destination, final.PlacedAt j.target destination ∧ Jump.Lands bytes position destination j.op

namespace Site.Emitted

variable {s : Site} {blocks : Blocks} {rows : List AnchoredRow} {pieces : List Piece}
  {b final : Body}
  {bytes : Bytes} {offset : Nat → Nat}

section Emitted

variable (emitted : s.Emitted blocks rows pieces b final bytes offset) {x : Piece} {p : UInt32}
include emitted

theorem fixed_line {j : Nat} {l : Anchored} (within : s.Within pieces k x j)
    (at_j : (x.lines s)[j]? = some l) (fixed : l.2.isMovable = false) :
    (positionByTag final.lines)[k]? = some (offset k) ∧ ∃ (place : Nat) (m : Line),
      Line.Resized ⟨k, l.2⟩ m ∧ final.lines[place]? = some m ∧
      (linePositions final.lines).1[place]? = some (offset k) ∧
      offset (k + 1) = offset k + m.insn.lengthAt (offset k) := by
  exact emitted.offsets.kept k _ (emitted.laid.line_within within at_j) fixed

theorem plain_line {j : Nat} {anchor : Option Anchor} {code : Bytes}
    (within : s.Within pieces k x j) (at_j : (x.lines s)[j]? = some (anchor, .plain code)) :
    (positionByTag final.lines)[k]? = some (offset k) ∧ offset (k + 1) = offset k + code.length ∧
      bytes.StandsAt (offset k) code := by
  obtain ⟨position, place, m, resized, there, start, next⟩ := emitted.fixed_line within at_j rfl
  cases resized
  exact ⟨position, next, emitted.stands place _ _ code there rfl start⟩

theorem label_line {j : Nat} {anchor : Option Anchor} {p : Option UInt32}
    (within : s.Within pieces k x j) (at_j : (x.lines s)[j]? = some (anchor, .label p)) :
    (positionByTag final.lines)[k]? = some (offset k) ∧ offset (k + 1) = offset k ∧
      ∃ place : Nat, final.lines[place]? = some ⟨k, .label p⟩ ∧
        (linePositions final.lines).1[place]? = some (offset k) := by
  obtain ⟨position, place, m, resized, there, start, next⟩ := emitted.fixed_line within at_j rfl
  cases resized
  exact ⟨position, next, place, there, start⟩

theorem placed_block {a : List Insn} (within : s.Within pieces k (.block p a) 0) :
    (positionByTag final.lines)[k]? = some (offset k) ∧ final.PlacedAt p (offset k) := by
  obtain ⟨position, _, place, there, start⟩ :=
    emitted.label_line within (emitted.laid.first_of_block within.mem)
  obtain ⟨tag, head, at_tag⟩ := emitted.laid.head_of_block (emitted.laid.block_of_piece within.mem)
  obtain ⟨_, base, at_k, tag_eq, _⟩ := emitted.laid.block_unique within at_tag
  have same : tag = k := by omega
  rw [same] at head
  exact ⟨position, place, _, there, emitted.heads ▸ head, start⟩

theorem range {tag : Nat} (within : s.Within pieces tag (.block p block) 0)
    (handled : s.typing.handlers.contains p = true) (throws : ∃ x ∈ block, x.isPlain = true) :
    ∃ start stop, tagOf (pieces.flatMap (Piece.lines s)) (.start p) = start ∧
      tagOf (pieces.flatMap (Piece.lines s)) (.stop p) = stop ∧
      (∃ j, s.Within pieces stop (.block p block) j) ∧
      offset tag ≤ final.positionBefore.getD start 0 ∧
      final.positionBefore.getD start 0 ≤ offset start ∧
      (positionByTag final.lines).getD stop 0 = offset stop := by
  obtain ⟨before, middle, after, _, _, _, lines, starts, stops⟩ :=
    emitted.laid.guarded_block within handled throws
  rw [Nat.add_assoc] at stops
  have starting : (s.anchored p block)[before.length + 1]? =
      some (some (.start p), .label none) := by
    simp [lines, bare]
  have stopping : (s.anchored p block)[before.length + 1 + (middle.length + 1)]? =
      some (some (.stop p), .label none) := by
    rw [lines, List.getElem?_append_right (by simp [bare])]
    simp [bare]
  have at_start := within.shift (List.getElem?_eq_some_iff.1 starting).1
  have at_stop := within.shift (List.getElem?_eq_some_iff.1 stopping).1
  have start_line : b.lines[tag + (before.length + 1)]? =
      some ⟨tag + (before.length + 1), .label none⟩ :=
    emitted.laid.line_within at_start starting
  have first_line := emitted.laid.line_within within (emitted.laid.first_of_block within.mem)
  obtain ⟨position, known, low, high⟩ :=
    emitted.offsets.before tag _ _ _ (by omega) first_line rfl start_line rfl
  obtain ⟨stop_position, _⟩ := emitted.label_line at_stop stopping
  refine ⟨_, _, starts, stops, ⟨_, at_stop⟩, ?_⟩
  rw [Std.HashMap.getD_eq_getD_getElem?, known, Std.HashMap.getD_eq_getD_getElem?, stop_position]
  exact ⟨low, high, rfl⟩

/-- A plain instruction is in the range that is guarded for its own position, and in no other. -/
theorem in_range_iff {q : UInt32} {code : Bytes} (guarded : s.Guarded blocks q)
    (plain : s.PlainLine pieces p code k) :
    final.positionBefore.getD (tagOf (pieces.flatMap (Piece.lines s)) (.start q)) 0 ≤ offset k ∧
      offset k < (positionByTag final.lines).getD
        (tagOf (pieces.flatMap (Piece.lines s)) (.stop q)) 0 ↔ q = p := by
  obtain ⟨handled, block, found, throws⟩ := guarded
  obtain ⟨tag, _, within⟩ := emitted.laid.head_of_block found
  obtain ⟨start, stop, starts, stops, ⟨j, at_stop⟩, low, high, stop_position⟩ :=
    emitted.range within handled throws
  obtain ⟨block', j', at_k, line⟩ := plain.line
  obtain ⟨_, next, _⟩ := emitted.plain_line at_k line
  have bytes_pos := plain.bytes
  rw [starts, stops, stop_position]
  constructor
  · rintro ⟨after, before⟩
    by_contra other
    rcases UInt32.lt_or_lt_of_ne other with less | more
    · -- The range stops before the block of `p`.
      have earlier := emitted.laid.block_lt at_stop at_k less
      have := emitted.offsets.mono stop k (by omega)
      omega
    · -- The range starts after the block of `p`.
      have later := emitted.laid.block_lt at_k within more
      have := emitted.offsets.mono (k + 1) tag later
      omega
  · rintro rfl
    obtain ⟨past, inside⟩ := plain.guarded handled
    rw [starts] at past
    rw [stops] at inside
    have from_start := emitted.offsets.mono start k (by omega)
    have to_stop := emitted.offsets.mono (k + 1) stop inside
    omega

theorem range_nonempty (guarded : s.Guarded blocks p) :
    final.positionBefore.getD (tagOf (pieces.flatMap (Piece.lines s)) (.start p)) 0 <
      (positionByTag final.lines).getD (tagOf (pieces.flatMap (Piece.lines s)) (.stop p)) 0 := by
  have ⟨_, block, found, x, member, is_plain⟩ := guarded
  obtain ⟨n, there⟩ := List.getElem?_of_mem member
  obtain ⟨code, rfl⟩ : ∃ code, x = .plain code := by
    cases x <;> cases is_plain
    exact ⟨_, rfl⟩
  obtain ⟨tag, head, within⟩ := emitted.laid.head_of_block found
  obtain ⟨k, _, plain⟩ := emitted.laid.plain_line head within there
  have inside := (emitted.in_range_iff guarded plain).2 rfl
  omega

theorem way {jumps : Bool} (within : s.Within pieces k (.way p jumps) 0) :
    (positionByTag final.lines)[k]? = some (offset k) ∧ bytes.StandsAt (offset k) [Op.pop] ∧
      final.GoesOn bytes (offset k + 1) p := by
  have label : ((Piece.way p jumps).lines s)[0]? = some (some (.dropping p), .label none) := by
    rw [Piece.lines_way]
    rfl
  have pop : ((Piece.way p jumps).lines s)[1]? = some (none, .plain [Op.pop]) := by
    rw [Piece.lines_way]
    rfl
  obtain ⟨position, at_pop, _⟩ := emitted.label_line within label
  have at_next := within.shift (List.getElem?_eq_some_iff.1 pop).1
  obtain ⟨_, behind, stands⟩ := emitted.plain_line at_next pop
  rw [at_pop] at behind stands
  refine ⟨position, stands, ?_⟩
  cases jumps with
  | false =>
    obtain ⟨a, at_block⟩ := emitted.laid.block_after_way within
    have placed := (emitted.placed_block at_block).2
    rw [behind] at placed
    exact .here placed
  | true =>
    have goto : ((Piece.way p true).lines s)[2]? = some (none, .goto p) := rfl
    have at_goto := within.shift (List.getElem?_eq_some_iff.1 goto).1
    obtain ⟨_, place, m, resized, there, start, _⟩ := emitted.fixed_line at_goto goto rfl
    rw [behind] at start
    obtain ⟨j, is_jump, plain, target⟩ : ∃ j, m.insn = .jump j ∧ j.op = none ∧ j.target = p := by
      cases resized <;> exact ⟨_, rfl, rfl, rfl⟩
    refine .jump there is_jump plain target start fun bounded => ?_
    have lands := emitted.lands bounded place m _ j there is_jump start
    rw [plain, target] at lands
    exact lands

theorem head_place (found : blocks[p]? = some block) :
    final.PlacedAt p
      ((positionByTag final.lines).getD (tagOf (pieces.flatMap (Piece.lines s)) (.head p)) 0) := by
  obtain ⟨a, within⟩ := emitted.laid.within_tagOf_head found
  obtain ⟨position, at_head⟩ := emitted.placed_block within
  rw [Std.HashMap.getD_eq_getD_getElem?, position]
  exact at_head

theorem dropping_place (member : r ∈ rows) (dropping : r.handler = .dropping p) :
    ∃ place, (positionByTag final.lines).getD
      (tagOf (pieces.flatMap (Piece.lines s)) (.dropping p)) 0 = place ∧
      bytes.StandsAt place [Op.pop] ∧ final.GoesOn bytes (place + 1) p := by
  obtain ⟨jumps, within⟩ := emitted.laid.within_tagOf_dropping member dropping
  obtain ⟨position, drops, goes_on⟩ := emitted.way within
  refine ⟨_, rfl, ?_⟩
  rw [Std.HashMap.getD_eq_getD_getElem?, position]
  exact ⟨drops, goes_on⟩

theorem handler_place {h : Handler} (member : r ∈ rows)
    (leads : s.handlerAnchor blocks h = .ok r.handler) :
    ∃ place, (positionByTag final.lines).getD (tagOf (pieces.flatMap (Piece.lines s)) r.handler) 0 =
      place ∧
      (s.isMoveResult h.target = true → final.PlacedAt h.target place) ∧
      (s.isMoveResult h.target = false → bytes.StandsAt place [Op.pop] ∧
        final.GoesOn bytes (place + 1) h.target) := by
  unfold handlerAnchor at leads
  cases picks : s.isMoveResult h.target with
  | true =>
    rw [picks, if_pos rfl] at leads
    split at leads
    next known =>
      obtain ⟨block, found⟩ :=
        Option.isSome_iff_exists.1 (Std.TreeMap.isSome_getElem?_eq_contains.trans known)
      have placed := emitted.head_place found
      rw [Except.ok.inj leads] at placed
      exact ⟨_, rfl, fun _ => placed, fun no => by cases no⟩
    next => cases leads
  | false =>
    rw [picks, if_neg Bool.false_ne_true] at leads
    obtain ⟨place, there, enters⟩ := emitted.dropping_place member (Except.ok.inj leads).symm
    rw [Except.ok.inj leads] at there
    exact ⟨place, there, fun no => (by cases no), fun _ => enters⟩

end Emitted

end Site.Emitted

theorem Site.Layout.emitted {s : Site} {blocks : Blocks} {pieces : List Piece}
    {b later assembled : Body} {options : Options} {bytes : Bytes} {table : List TableRow}
    (laid : s.Layout blocks rows pieces b) (rewrites : b.Rewrites later)
    (done : later.sizeJumps.emit options = (.ok (bytes, table), assembled)) :
    ∃ offset, s.Emitted blocks rows pieces b later.sizeJumps bytes offset := by
  obtain ⟨apart, offset, offsets⟩ := rewrites.exists_offsets
  have unsized := rewrites.unsized laid.unsized
  have decided : later.sizeJumps.Decided := fun l member j is_jump =>
    (sizeJumps_decided later unsized l member j is_jump).1
  obtain ⟨_, assembly, coded, _⟩ := Body.emit_eq_ok done
  refine ⟨offset, laid, offsets, rewrites.heads, fun i l position code there plain start => ?_,
    fun bounded => ?_⟩
  · obtain ⟨m, piece, _, from_l, written, stands⟩ :=
      (Body.standsAt_of_emit apart decided assembly coded).2 i l there
    rw [Body.linePositions_take there start]
    rw [from_l.straight (by rw [plain]; rfl), plain] at written
    cases written
    exact stands
  · exact (Body.faithful_of_emit apart decided
      (sizeJumps_reaching later unsized) done bounded).jumps

end Register

end Restack
