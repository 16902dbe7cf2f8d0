import Restack.Proofs.Selection.Lines

set_option autoImplicit false

namespace Restack

/-- The lines from the head of a block on, without the marks of guarded parts. -/
def Body.fromHead (b : Body) (p : UInt32) : List Line :=
  match b.heads[p]? with
  | some head => (b.lines.dropWhile (·.tag ≠ head)).filter (·.insn ≠ .label none)
  | none => []

namespace Register

def tagLines (first : Nat) (lines : List Anchored) : List Line :=
  (lines.zipIdx first).map fun (l, tag) => ⟨tag, l.2⟩

theorem tagLines_append (first : Nat) (front back : List Anchored) :
    tagLines first (front ++ back) =
      tagLines first front ++ tagLines (first + front.length) back := by
  simp only [tagLines, List.zipIdx_append, List.map_append]

theorem tagLines_cons (first : Nat) (l : Anchored) (lines : List Anchored) :
    tagLines first (l :: lines) = ⟨first, l.2⟩ :: tagLines (first + 1) lines := by
  simp only [tagLines, List.zipIdx_cons, List.map_cons]

theorem tag_lt_of_mem_tagLines {first : Nat} {lines : List Anchored} {l : Line}
    (member : l ∈ tagLines first lines) :
    l.tag < first + lines.length := by
  obtain ⟨⟨x, tag⟩, listed, rfl⟩ := List.mem_map.1 member
  exact (List.mem_zipIdx listed).2.1

theorem length_filter_tagLines (first : Nat) (lines : List Anchored) :
    ((tagLines first lines).filter (·.insn ≠ .label none)).length =
      lines.countP (·.2 ≠ .label none) := by
  induction lines generalizing first with
  | nil => rfl
  | cons l lines ih =>
    rw [tagLines_cons, List.filter_cons, List.countP_cons, ← ih (first + 1)]
    split <;> simp_all

variable {s : Site} {blocks : Blocks} {rows : List AnchoredRow} {pieces : List Piece} {b : Body}
  {p : UInt32}
variable {block : List Insn} {tag n : Nat} {x : Insn} {code : Bytes}

theorem Site.Layout.lines_eq (laid : s.Layout blocks rows pieces b) :
    b.lines = tagLines 0 (pieces.flatMap (Piece.lines s)) := by
  apply List.ext_getElem?
  intro k
  rw [laid.getElem?_lines, tagLines, List.getElem?_map, List.getElem?_zipIdx, Option.map_map]
  congr 1
  funext l
  simp

theorem Site.Layout.getElem?_fromHead (laid : s.Layout blocks rows pieces b) {a : List Insn}
    {front back : List Anchored} {l : Anchored} (head : b.heads[p]? = some tag)
    (within : s.Within pieces tag (.block p a) 0) (lines : s.anchored p a = front ++ l :: back)
    (kept : l.2 ≠ .label none) :
    (b.fromHead p)[front.countP (·.2 ≠ .label none)]? = some ⟨tag + front.length, l.2⟩ ∧
      s.Within pieces (tag + front.length) (.block p a) front.length ∧
      (s.anchored p a)[front.length]? = some l := by
  obtain ⟨positive, before, after, split, rfl⟩ := within
  rw [Nat.add_zero] at *
  have all : pieces.flatMap (Piece.lines s) = before.flatMap (Piece.lines s) ++
      (front ++ (l :: back ++ after.flatMap (Piece.lines s))) := by
    rw [split, List.flatMap_append, List.flatMap_cons]
    simp [Piece.lines, lines]
  have rest : b.lines.dropWhile (·.tag ≠ (before.flatMap (Piece.lines s)).length) =
      tagLines (before.flatMap (Piece.lines s)).length
        (front ++ (l :: back ++ after.flatMap (Piece.lines s))) := by
    rw [laid.lines_eq, all, tagLines_append, Nat.zero_add, List.dropWhile_append_of_pos]
    · have stops : ∀ lines : List Anchored, lines ≠ [] →
          (tagLines (before.flatMap (Piece.lines s)).length lines).dropWhile
            (·.tag ≠ (before.flatMap (Piece.lines s)).length) =
              tagLines (before.flatMap (Piece.lines s)).length lines := by
        intro lines nonempty
        cases lines with
        | nil => exact absurd rfl nonempty
        | cons x xs =>
          rw [tagLines_cons, List.dropWhile_cons_of_neg (by simp)]
      exact stops _ (by simp)
    · intro m member
      have less := tag_lt_of_mem_tagLines member
      simp only [ne_eq, decide_eq_true_eq]
      omega
  refine ⟨?_, ⟨?_, before, after, split, rfl⟩, by simp [lines]⟩
  · rw [Body.fromHead, head]
    dsimp only
    rw [rest, tagLines_append, List.filter_append,
      ← length_filter_tagLines (before.flatMap (Piece.lines s)).length,
      List.getElem?_append_right (Nat.le_refl _), Nat.sub_self, List.cons_append, tagLines_cons,
      List.filter_cons_of_pos (by simpa using kept)]
    rfl
  · simp [Piece.lines, lines]

theorem bare_split {insns : List Insn} (found : insns[n]? = some x) :
    Site.bare insns = Site.bare (insns.take n) ++ (none, x) :: Site.bare (insns.drop (n + 1)) := by
  obtain ⟨inside, rfl⟩ := List.getElem?_eq_some_iff.1 found
  have split : insns = insns.take n ++ insns[n] :: insns.drop (n + 1) := by
    rw [← List.drop_eq_getElem_cons inside, List.take_append_drop]
  conv_lhs => rw [split]
  simp only [Site.bare, List.map_append, List.map_cons]

theorem countP_bare {insns : List Insn} (unmarked : ∀ x ∈ insns, x ≠ .label none) :
    (Site.bare insns).countP (·.2 ≠ .label none) = insns.length := by
  rw [Site.bare, List.countP_map, List.countP_eq_length]
  intro x member
  simpa using unmarked x member

theorem Site.Layout.tagOf_eq (laid : s.Layout blocks rows pieces b) {a : List Insn}
    {front back : List Anchored} {anchor : Anchor} (within : s.Within pieces tag (.block p a) 0)
    (lines : s.anchored p a = front ++ (some anchor, x) :: back)
    (mark : anchor = .start p ∨ anchor = .stop p) (once : ∀ l ∈ front ++ back, l.1 ≠ some anchor) :
    tagOf (pieces.flatMap (Piece.lines s)) anchor = tag + front.length := by
  have listed : (some anchor, x) ∈ pieces.flatMap (Piece.lines s) :=
    List.mem_flatMap.2 ⟨_, within.mem, by simp [Piece.lines, lines]⟩
  obtain ⟨y, there⟩ := exists_tagOf listed rfl
  obtain ⟨a', j, at_mark, _⟩ := laid.within_of_mark there mark
  obtain ⟨rfl, first, place, place', _⟩ := laid.block_unique within at_mark
  have at_j : (front ++ (some anchor, x) :: back)[j]? = some (some anchor, y) := by
    rw [← lines]
    exact at_mark.getElem?.symm.trans there
  have only : j = front.length := by
    rcases Nat.lt_trichotomy j front.length with less | same | more
    · rw [List.getElem?_append_left less] at at_j
      exact absurd rfl (once _ (List.mem_append_left _ (List.mem_of_getElem? at_j)))
    · exact same
    · rw [List.getElem?_append_right (by omega),
        show j - front.length = (j - front.length - 1) + 1 by omega,
        List.getElem?_cons_succ] at at_j
      exact absurd rfl (once _ (List.mem_append_right _ (List.mem_of_getElem? at_j)))
  omega

theorem Site.Layout.guarded_block (laid : s.Layout blocks rows pieces b)
    (within : s.Within pieces tag (.block p block) 0)
    (handled : s.typing.handlers.contains p = true) (throws : ∃ x ∈ block, x.isPlain = true) :
    ∃ before middle after, block = .label (some p) :: (before ++ (middle ++ after)) ∧
      (∀ x ∈ before, x.isPlain = false) ∧ (∀ x ∈ after, x.isPlain = false) ∧
      s.anchored p block = ((some (.head p), .label (some p)) :: bare before) ++
        (some (.start p), .label none) ::
          (bare middle ++ (some (.stop p), .label none) :: bare after) ∧
      tagOf (pieces.flatMap (Piece.lines s)) (.start p) = tag + (before.length + 1) ∧
      tagOf (pieces.flatMap (Piece.lines s)) (.stop p) = tag + (before.length + 1) +
        (middle.length + 1) := by
  obtain ⟨_, rest, shape, _⟩ := laid.headed within.mem
  obtain ⟨before, middle, after, rfl, none_before, none_after, same⟩ :=
    s.anchored_guarded p (some p) rest handled (shape ▸ throws)
  rw [← shape] at same
  have unanchored : ∀ {insns : List Insn} {l : Anchored}, l ∈ bare insns → ∀ a, l.1 ≠ some a := by
    intro insns l member a anchored
    rw [(mem_bare member).1] at anchored
    cases anchored
  refine ⟨before, middle, after, shape, none_before, none_after, same, ?_, ?_⟩
  · have grouped : s.anchored p block = ((some (.head p), .label (some p)) :: bare before) ++
        (some (.start p), .label none) ::
          (bare middle ++ (some (.stop p), .label none) :: bare after) := same
    rw [laid.tagOf_eq within grouped (.inl rfl)]
    · simp [bare]
    · intro l member
      simp only [List.mem_append, List.mem_cons] at member
      rcases member with (rfl | inside) | inside | rfl | inside
      · simp
      · exact unanchored inside _
      · exact unanchored inside _
      · simp
      · exact unanchored inside _
  · have regrouped : s.anchored p block = ((some (.head p), .label (some p)) :: bare before ++
        (some (.start p), .label none) :: bare middle) ++ (some (.stop p), .label none) ::
          bare after := by
      rw [same]
      simp
    rw [laid.tagOf_eq within regrouped (.inr rfl)]
    · simp [bare]
      omega
    · intro l member
      simp only [List.mem_append, List.mem_cons] at member
      rcases member with ((rfl | inside) | rfl | inside) | inside
      · simp
      · exact unanchored inside _
      · simp
      · exact unanchored inside _
      · exact unanchored inside _

/-- Line `k` is a plain instruction of the block of `p`, and stands between the marks of the block
if there are handlers. -/
structure Site.PlainLine (s : Site) (pieces : List Piece) (p : UInt32) (code : Bytes) (k : Nat) :
    Prop where
  line : ∃ block j, s.Within pieces k (.block p block) j ∧
    (s.anchored p block)[j]? = some (none, .plain code)
  bytes : 0 < code.length
  guarded : s.typing.handlers.contains p = true →
    tagOf (pieces.flatMap (Piece.lines s)) (.start p) < k ∧
    k < tagOf (pieces.flatMap (Piece.lines s)) (.stop p)

section

variable (laid : s.Layout blocks rows pieces b)
include laid

theorem Site.Layout.of_mem_block (placed : .block p block ∈ pieces) (member : x ∈ block) :
    x ≠ .label none ∧ ∀ code, x = .plain code → 0 < code.length := by
  obtain ⟨i, rest, rfl, admitted⟩ := laid.headed placed
  rcases List.mem_cons.1 member with rfl | later
  · exact ⟨by simp, fun code same => by cases same⟩
  · exact ⟨(admitted x later).unlabelled none, fun code same =>
      List.length_pos_iff.2 ((admitted x later).bytes code same)⟩

theorem Site.Layout.plain_line_guarded (head : b.heads[p]? = some tag)
    (within : s.Within pieces tag (.block p block) 0)
    (handled : s.typing.handlers.contains p = true) (plain : block[n]? = some (.plain code)) :
    ∃ k j, (b.fromHead p)[n]? = some ⟨k, .plain code⟩ ∧ s.Within pieces k (.block p block) j ∧
      (s.anchored p block)[j]? = some (none, .plain code) ∧
      tagOf (pieces.flatMap (Piece.lines s)) (.start p) < k ∧
      k < tagOf (pieces.flatMap (Piece.lines s)) (.stop p) := by
  obtain ⟨before, middle, after, joined, none_before, none_after, lines, starts, stops⟩ :=
    laid.guarded_block within handled ⟨_, List.mem_of_getElem? plain, rfl⟩
  have unmarked : ∀ x ∈ before ++ (middle ++ after), x ≠ .label none := fun x member =>
    (laid.of_mem_block within.mem (joined ▸ List.mem_cons_of_mem _ member)).1
  have unmarked_before : ∀ x ∈ before, x ≠ .label none :=
    fun x member => unmarked x (by simp [member])
  have unmarked_middle : ∀ x ∈ middle, x ≠ .label none :=
    fun x member => unmarked x (by simp [member])
  cases n with
  | zero => simp [joined] at plain
  | succ m =>
    -- Only the middle holds plain instructions.
    rw [joined, List.getElem?_cons_succ] at plain
    have past : before.length ≤ m := by
      by_contra less
      rw [List.getElem?_append_left (by omega)] at plain
      have := none_before _ (List.mem_of_getElem? plain)
      cases this
    rw [List.getElem?_append_right past] at plain
    have inside : m - before.length < middle.length := by
      by_contra more
      rw [List.getElem?_append_right (by omega)] at plain
      have := none_after _ (List.mem_of_getElem? plain)
      cases this
    rw [List.getElem?_append_left inside] at plain
    have split : s.anchored p block = (((some (.head p), .label (some p)) :: bare before) ++
        ((some (.start p), .label none) :: bare (middle.take (m - before.length)))) ++
        (none, .plain code) ::
          (bare (middle.drop (m - before.length + 1)) ++ (some (.stop p), .label none) ::
            bare after) := by
      rw [lines, bare_split plain]
      simp
    obtain ⟨counted, there, line⟩ := laid.getElem?_fromHead head within split (by simp)
    have count :
        (((some (Anchor.head p), Insn.label (some p)) :: bare before) ++
          ((some (Anchor.start p), Insn.label none) ::
        bare (middle.take (m - before.length)))).countP (·.2 ≠ .label none) = m + 1 := by
      rw [List.countP_append, List.countP_cons, List.countP_cons, countP_bare unmarked_before,
        countP_bare fun x member => unmarked_middle x (List.mem_of_mem_take member),
        List.length_take]
      simp
      omega
    rw [count] at counted
    refine ⟨_, _, counted, there, line, ?_⟩
    rw [starts, stops]
    simp only [bare, List.length_append, List.length_cons, List.length_map, List.length_take]
    omega

theorem Site.Layout.plain_line_free (head : b.heads[p]? = some tag)
    (within : s.Within pieces tag (.block p block) 0) (free : s.typing.handlers.contains p = false)
    (plain : block[n]? = some (.plain code)) :
    ∃ k j, (b.fromHead p)[n]? = some ⟨k, .plain code⟩ ∧ s.Within pieces k (.block p block) j ∧
      (s.anchored p block)[j]? = some (none, .plain code) := by
  obtain ⟨i, rest, shape, admitted⟩ := laid.headed within.mem
  cases n with
  | zero => simp [shape] at plain
  | succ m =>
    rw [shape, List.getElem?_cons_succ] at plain
    have split : s.anchored p block = ((some (.head p), .label (some p)) :: bare (rest.take m)) ++
        (none, .plain code) :: bare (rest.drop (m + 1)) := by
      rw [shape, s.anchored_free p _ rest (.inl free), bare_split plain]
      rfl
    obtain ⟨counted, there, line⟩ := laid.getElem?_fromHead head within split (by simp)
    have count : ((some (Anchor.head p), Insn.label (some p)) :: bare (rest.take m)).countP
        (·.2 ≠ .label none) = m + 1 := by
      have bound := (List.getElem?_eq_some_iff.1 plain).1
      rw [List.countP_cons,
        countP_bare fun x member => (admitted x (List.mem_of_mem_take member)).unlabelled none,
        List.length_take]
      simp
      omega
    rw [count] at counted
    exact ⟨_, _, counted, there, line⟩

theorem Site.Layout.plain_line (head : b.heads[p]? = some tag)
    (within : s.Within pieces tag (.block p block) 0) (plain : block[n]? = some (.plain code)) :
    ∃ k, (b.fromHead p)[n]? = some ⟨k, .plain code⟩ ∧ s.PlainLine pieces p code k := by
  have bytes := (laid.of_mem_block within.mem (List.mem_of_getElem? plain)).2 code rfl
  cases handled : s.typing.handlers.contains p with
  | true =>
    obtain ⟨k, j, counted, there, line, between⟩ :=
      laid.plain_line_guarded head within handled plain
    exact ⟨k, counted, ⟨block, j, there, line⟩, bytes, fun _ => between⟩
  | false =>
    obtain ⟨k, j, counted, there, line⟩ := laid.plain_line_free head within handled plain
    exact ⟨k, counted, ⟨block, j, there, line⟩, bytes, fun yes => by rw [handled] at yes; cases yes⟩

end

end Register

end Restack
