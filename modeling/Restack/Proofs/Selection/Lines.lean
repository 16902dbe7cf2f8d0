import Restack.Proofs.Selection.Compile

set_option autoImplicit false

namespace Restack

variable {k : Nat} {j : Nat}

section Pieces

variable {α β : Type} (f : α → List β)

theorem exists_piece {pieces : List α} {y : β} (found : (pieces.flatMap f)[k]? = some y) :
    ∃ before x after j, pieces = before ++ x :: after ∧ k = (before.flatMap f).length + j ∧
    (f x)[j]? = some y := by
  induction pieces generalizing k with
  | nil => simp at found
  | cons x pieces ih =>
    rw [List.flatMap_cons] at found
    by_cases inside : k < (f x).length
    · rw [List.getElem?_append_left inside] at found
      exact ⟨[], x, pieces, k, rfl, by simp, found⟩
    · rw [List.getElem?_append_right (by omega)] at found
      obtain ⟨before, z, after, j, rfl, place, there⟩ := ih found
      refine ⟨x :: before, z, after, j, rfl, ?_, there⟩
      rw [List.flatMap_cons, List.length_append]
      omega

theorem getElem?_piece {before after : List α} {x : α} (j : Nat) (inside : j < (f x).length) :
    ((before ++ x :: after).flatMap f)[(before.flatMap f).length + j]? = (f x)[j]? := by
  rw [List.flatMap_append, List.flatMap_cons, List.getElem?_append_right (by omega),
    Nat.add_sub_cancel_left, List.getElem?_append_left inside]

theorem piece_unique {before before' after after' : List α} {x x' : α} {j' : Nat}
    (same : before ++ x :: after = before' ++ x' :: after')
    (place : (before.flatMap f).length + j = (before'.flatMap f).length + j')
    (inside : j < (f x).length) (inside' : j' < (f x').length) :
    before = before' ∧ x = x' ∧ after = after' ∧ j = j' := by
  induction before generalizing before' with
  | nil =>
    cases before' with
    | nil =>
      simp only [List.nil_append, List.cons.injEq] at same
      refine ⟨rfl, same.1, same.2, ?_⟩
      simpa using place
    | cons y before' =>
      simp only [List.nil_append, List.cons_append, List.cons.injEq] at same
      rw [List.flatMap_nil, List.flatMap_cons, List.length_append, ← same.1] at place
      simp only [List.length_nil] at place
      omega
  | cons z before ih =>
    cases before' with
    | nil =>
      simp only [List.nil_append, List.cons_append, List.cons.injEq] at same
      rw [List.flatMap_nil, List.flatMap_cons, List.length_append, same.1] at place
      simp only [List.length_nil] at place
      omega
    | cons y before' =>
      simp only [List.cons_append, List.cons.injEq] at same
      obtain ⟨rfl, same⟩ := same
      rw [List.flatMap_cons, List.flatMap_cons, List.length_append, List.length_append] at place
      obtain ⟨rfl, rfl, rfl, rfl⟩ := ih same (by omega)
      exact ⟨rfl, rfl, rfl, rfl⟩

end Pieces

theorem cut_unique {α : Type} {before before' after after' : List α} {x x' : α}
    (same : before ++ x :: after = before' ++ x' :: after') (first : x ∉ before')
    (second : x' ∉ before) :
    before = before' := by
  induction before generalizing before' with
  | nil =>
    cases before' with
    | nil => rfl
    | cons y before' =>
      cases same
      exact absurd List.mem_cons_self first
  | cons z before ih =>
    cases before' with
    | nil =>
      cases same
      exact absurd List.mem_cons_self second
    | cons y before' =>
      simp only [List.cons_append, List.cons.injEq] at same
      obtain ⟨rfl, same⟩ := same
      rw [ih same (fun inside => first (List.mem_cons_of_mem _ inside))
        (fun inside => second (List.mem_cons_of_mem _ inside))]

namespace Register

variable {p : UInt32} {l : Anchored} {s : Site} {jumps : Bool}

/-- Line `k` of the flat list is line `j` of the piece `x`. -/
def Site.Within (s : Site) (pieces : List Piece) (k : Nat) (x : Piece) (j : Nat) : Prop :=
  j < (x.lines s).length ∧ ∃ before after, pieces = before ++ x :: after ∧
    k = (before.flatMap (Piece.lines s)).length + j

namespace Site.Within

variable {s : Site} {pieces : List Piece} {k j : Nat} {x : Piece}

section

variable (within : s.Within pieces k x j)
include within

theorem mem : x ∈ pieces := by
  obtain ⟨_, before, after, rfl, _⟩ := within
  simp

theorem getElem? : (pieces.flatMap (Piece.lines s))[k]? = (x.lines s)[j]? := by
  obtain ⟨inside, before, after, rfl, rfl⟩ := within
  exact getElem?_piece _ j inside

theorem unique {x' : Piece} {j' : Nat} (other : s.Within pieces k x' j') : x = x' ∧ j = j' := by
  obtain ⟨inside, before, after, rfl, rfl⟩ := within
  obtain ⟨inside', before', after', same, place⟩ := other
  obtain ⟨_, rfl, _, rfl⟩ := piece_unique _ same place inside inside'
  exact ⟨rfl, rfl⟩

theorem succ (inside : j + 1 < (x.lines s).length) : s.Within pieces (k + 1) x (j + 1) := by
  obtain ⟨_, before, after, split, rfl⟩ := within
  exact ⟨inside, before, after, split, rfl⟩

end

theorem shift (within : s.Within pieces k x 0) (inside : j < (x.lines s).length) :
    s.Within pieces (k + j) x j := by
  obtain ⟨_, before, after, split, rfl⟩ := within
  exact ⟨inside, before, after, split, rfl⟩

end Site.Within

theorem Site.exists_within {pieces : List Piece}
    (found : (pieces.flatMap (Piece.lines s))[k]? = some l) :
    ∃ x j, s.Within pieces k x j ∧ (x.lines s)[j]? = some l := by
  obtain ⟨before, x, after, j, split, place, there⟩ := exists_piece _ found
  exact ⟨x, j, ⟨(List.getElem?_eq_some_iff.1 there).1, before, after, split, place⟩, there⟩

theorem Piece.lines_way (s : Site) (p : UInt32) (jumps : Bool) :
    (Piece.way p jumps).lines s = (some (.dropping p), .label none) :: (none, .op Op.pop) ::
      if jumps then [(none, .goto p)] else [] := by
  cases jumps <;> rfl

theorem Piece.anchor_of_way {a : Anchor} {x : Insn}
    (found : ((Piece.way p jumps).lines s)[j]? = some (some a, x)) :
    a = .dropping p ∧ j = 0 := by
  rw [Piece.lines_way] at found
  cases j with
  | zero =>
    cases found
    exact ⟨rfl, rfl⟩
  | succ j =>
    rw [List.getElem?_cons_succ] at found
    have member := List.mem_of_getElem? found
    cases jumps <;> simp at member

theorem Piece.mem_way (member : l ∈ (Piece.way p jumps).lines s) :
    l.2 = .label none ∨ l.2 = .plain [Op.pop] ∨ l.2 = .goto p := by
  rw [Piece.lines_way, List.mem_cons, List.mem_cons] at member
  rcases member with rfl | rfl | last
  · exact .inl rfl
  · exact .inr (.inl rfl)
  · cases jumps with
    | false => cases last
    | true => exact .inr (.inr (congrArg Prod.snd (List.mem_singleton.1 last)))

theorem Instr.Block.line {catalog : Catalog} {i : Instr} {frame : Frame} {a : List Insn}
    (selected : i.Block catalog frame a) (member : l ∈ s.anchored p a) :
    (∃ q, l.2 = .label q) ∨ i.Admits l.2 := by
  obtain ⟨rest, rfl, admitted⟩ := selected.headed
  rcases s.mem_anchored p member with inside | mark
  · rcases List.mem_cons.1 inside with head | inside
    · exact .inl ⟨_, head⟩
    · exact .inr (admitted _ inside)
  · exact .inl ⟨_, mark⟩

namespace Site.Layout

variable {s : Site} {blocks : Blocks} {rows : List AnchoredRow} {pieces : List Piece} {b : Body}

section Laid

variable (laid : s.Layout blocks rows pieces b) {q : UInt32} {a : List Insn} {x : Insn}
include laid

theorem block (member : .block p a ∈ pieces) :
    ∃ i ∈ s.code.instrs, i.position = p ∧ ∃ frame, s.typing.states[p]? = some frame ∧
    i.Block s.catalog frame a :=
  laid.selected.block p a (laid.block_of_piece member)

theorem headed (member : .block p a ∈ pieces) :
    ∃ (i : Instr) (rest : List Insn), a = .label (some p) :: rest ∧ ∀ x ∈ rest, i.Admits x := by
  obtain ⟨i, _, rfl, _, _, selected⟩ := laid.block member
  obtain ⟨rest, shape, admitted⟩ := selected.headed
  exact ⟨i, rest, shape, admitted⟩

theorem first_of_block (member : .block p a ∈ pieces) :
    (s.anchored p a)[0]? = some (some (.head p), .label (some p)) := by
  obtain ⟨_, rest, rfl, _⟩ := laid.headed member
  obtain ⟨tail, same, _⟩ := s.exists_anchored_tail p (some p) rest
  rw [same]
  rfl

theorem anchor_within {anchor : Anchor}
    (found : (pieces.flatMap (Piece.lines s))[k]? = some (some anchor, x)) :
    (∃ p a j, s.Within pieces k (.block p a) j ∧
      (anchor = .head p ∧ j = 0 ∨ (anchor = .start p ∨ anchor = .stop p) ∧ 0 < j)) ∨
    ∃ p jumps, s.Within pieces k (.way p jumps) 0 ∧ anchor = .dropping p := by
  obtain ⟨piece, j, within, there⟩ := exists_within found
  cases piece with
  | block p a =>
    obtain ⟨_, rest, rfl, _⟩ := laid.headed within.mem
    exact .inl ⟨p, _, j, within, s.anchor_of_anchored p there⟩
  | way p jumps =>
    obtain ⟨rfl, rfl⟩ := Piece.anchor_of_way there
    exact .inr ⟨p, jumps, within, rfl⟩

theorem within_of_head (found : (pieces.flatMap (Piece.lines s))[k]? = some (some (.head p), x)) :
    ∃ a, s.Within pieces k (.block p a) 0 := by
  rcases laid.anchor_within found with ⟨q, a, j, within, ⟨same, rfl⟩ | ⟨other | other, _⟩⟩ |
    ⟨q, jumps, _, other⟩
  · cases same
    exact ⟨a, within⟩
  · cases other
  · cases other
  · cases other

theorem within_of_mark {anchor : Anchor}
    (found : (pieces.flatMap (Piece.lines s))[k]? = some (some anchor, x))
    (mark : anchor = .start p ∨ anchor = .stop p) :
    ∃ a j, s.Within pieces k (.block p a) j ∧ 0 < j := by
  rcases laid.anchor_within found with ⟨q, a, j, within, ⟨rfl, _⟩ | ⟨same, positive⟩⟩ |
    ⟨q, jumps, _, rfl⟩
  · simp at mark
  · have same_position : q = p := by
      rcases same with rfl | rfl <;> simpa using mark
    exact ⟨a, j, same_position ▸ within, positive⟩
  · simp at mark

theorem within_of_dropping
    (found : (pieces.flatMap (Piece.lines s))[k]? = some (some (.dropping p), x)) :
    ∃ jumps, s.Within pieces k (.way p jumps) 0 := by
  rcases laid.anchor_within found with ⟨q, a, j, _, ⟨other, _⟩ | ⟨other | other, _⟩⟩ |
    ⟨q, jumps, within, same⟩
  · cases other
  · cases other
  · cases other
  · cases same
    exact ⟨jumps, within⟩

theorem line_within {x : Piece} (within : s.Within pieces k x j) (at_j : (x.lines s)[j]? = some l) :
    b.lines[k]? = some ⟨k, l.2⟩ := by
  rw [laid.getElem?_lines, within.getElem?, at_j]
  rfl

theorem lines_pos {x : Piece} (member : x ∈ pieces) : 0 < (x.lines s).length := by
  cases x with
  | block p a => exact (List.getElem?_eq_some_iff.1 (laid.first_of_block member)).1
  | way p jumps => cases jumps <;> simp [Piece.lines, dropLines]

theorem next_within {x : Piece} (within : s.Within pieces k x j) (last : j + 1 = (x.lines s).length)
    (more : k + 1 < (pieces.flatMap (Piece.lines s)).length) :
    ∃ before y after, pieces = before ++ x :: y :: after ∧ x.Follows s y ∧
    s.Within pieces (k + 1) y 0 := by
  obtain ⟨_, before, after, split, place⟩ := within
  cases after with
  | nil =>
    rw [split, List.flatMap_append, List.flatMap_singleton, List.length_append] at more
    omega
  | cons y after =>
    have chain := laid.arranged.chain
    rw [split] at chain
    have follows : x.Follows s y := (List.isChain_cons_cons.1 (List.isChain_append.1 chain).2.1).1
    have positive : 0 < (y.lines s).length := laid.lines_pos (by simp [split])
    refine ⟨before, y, after, split, follows, positive, before ++ [x], after, by simp [split], ?_⟩
    rw [List.flatMap_append, List.flatMap_singleton, List.length_append]
    omega

theorem head_within {tag : Nat} (head : b.heads[p]? = some tag) :
    ∃ a, s.Within pieces tag (.block p a) 0 := by
  obtain ⟨x, found⟩ := laid.head_line head
  exact laid.within_of_head found

theorem block_unique {k' j' : Nat} {a' : List Insn} (within : s.Within pieces k (.block p a) j)
    (other : s.Within pieces k' (.block p a') j') :
    a = a' ∧ ∃ first, k = first + j ∧ k' = first + j' ∧
    ∃ front back, pieces = front ++ .block p a :: back ∧
      first = (front.flatMap (Piece.lines s)).length := by
  obtain ⟨_, front, back, split, rfl⟩ := within
  obtain ⟨_, front', back', split', rfl⟩ := other
  have same_front : front = front' := by
    refine cut_unique (split.symm.trans split') (fun member => ?_) (fun member => ?_)
    · exact absurd ((laid.ascending split').1 p a member) (by simp)
    · exact absurd ((laid.ascending split).1 p a' member) (by simp)
  subst same_front
  have tails := List.append_cancel_left (split.symm.trans split')
  cases (List.cons.inj tails).1
  exact ⟨rfl, _, rfl, rfl, front, back, split, rfl⟩

theorem way_unique {k' : Nat} {jumps' : Bool} (within : s.Within pieces k (.way q jumps) 0)
    (other : s.Within pieces k' (.way q jumps') 0) : k = k' := by
  have distinct : (pieces.filterMap Piece.way?).Nodup :=
    laid.arranged.ways.nodup_iff.2 Std.TreeMap.nodup_keys
  have not_before {front back : List Piece} {j j' : Bool}
      (split : pieces = front ++ .way q j :: back) :
      .way q j' ∉ front := by
    intro inside
    rw [split, List.filterMap_append, List.nodup_append] at distinct
    exact distinct.2.2 q (List.mem_filterMap.2 ⟨_, inside, rfl⟩) q (by simp [Piece.way?]) rfl
  obtain ⟨_, front, back, split, rfl⟩ := within
  obtain ⟨_, front', back', split', rfl⟩ := other
  rw [cut_unique (split.symm.trans split') (not_before split') (not_before split)]

theorem label_first {x : Piece} (within : s.Within pieces k x j) (at_j : (x.lines s)[j]? = some l)
    (label : l.2 = .label (some q)) : j = 0 ∧ ∃ a, x = .block q a := by
  cases x with
  | way p late =>
    rcases Piece.mem_way (List.mem_of_getElem? at_j) with other | other |
      other <;> cases label.symm.trans other
  | block p a =>
    obtain ⟨_, rest, rfl, admitted⟩ := laid.headed within.mem
    obtain ⟨tail, same, behind⟩ := s.exists_anchored_tail p (some p) rest
    rw [Piece.lines, same] at at_j
    cases j with
    | zero =>
      cases at_j
      cases label
      exact ⟨rfl, _, rfl⟩
    | succ j =>
      rcases behind l (List.mem_of_getElem? at_j) with ⟨_, inside⟩ | rfl | rfl
      · exact absurd label ((admitted _ inside).unlabelled _)
      · cases label
      · cases label

theorem block_lt {k' j' : Nat} {a' : List Insn} (within : s.Within pieces k (.block p a) j)
    (other : s.Within pieces k' (.block q a') j') (less : p < q) : k < k' := by
  obtain ⟨inside, front, back, split, rfl⟩ := within
  obtain ⟨_, front', back', split', rfl⟩ := other
  have ascending := laid.ascending split'
  rcases List.append_eq_append_iff.1 (split.symm.trans split') with ⟨more, longer, rest⟩ |
    ⟨more, longer, rest⟩
  · cases more with
    | nil =>
      cases rest
      exact absurd less (by simp)
    | cons x more =>
      cases rest
      rw [longer, List.flatMap_append, List.flatMap_cons, List.length_append, List.length_append]
      omega
  · cases more with
    | nil =>
      cases rest
      exact absurd less (by simp)
    | cons x more =>
      cases rest
      have later := (laid.ascending split).1 q a' (by simp [longer])
      exact absurd later (UInt32.lt_asymm less)

theorem guarded_within {start stop : Nat} {y : Insn}
    (starts : (pieces.flatMap (Piece.lines s))[start]? = some (some (.start p), x))
    (stops : (pieces.flatMap (Piece.lines s))[stop]? = some (some (.stop p), y))
    (after : start ≤ k + 1) (before : k < stop) :
    ∃ a j, s.Within pieces k (.block p a) j := by
  obtain ⟨a, j, at_start, positive⟩ := laid.within_of_mark starts (.inl rfl)
  obtain ⟨a', j', at_stop, _⟩ := laid.within_of_mark stops (.inr rfl)
  obtain ⟨rfl, first, place, place', front, back, split, rfl⟩ := laid.block_unique at_start at_stop
  have inside := at_stop.1
  exact ⟨a, k - (front.flatMap (Piece.lines s)).length, by omega, front, back, split, by omega⟩

theorem head_of_block (found : blocks[p]? = some a) :
    ∃ tag, b.heads[p]? = some tag ∧ s.Within pieces tag (.block p a) 0 := by
  have placed := laid.piece_of_block found
  have member := List.mem_of_getElem? (laid.first_of_block placed)
  have known : b.heads[p]?.isSome := by
    obtain ⟨name, entries, rfl⟩ := laid.body
    exact anchorTags_isSome (List.mem_flatMap.2 ⟨_, placed, member⟩) rfl
  obtain ⟨tag, head⟩ := Option.isSome_iff_exists.1 known
  obtain ⟨a', within⟩ := laid.head_within head
  have same := laid.block_of_piece within.mem
  rw [found] at same
  cases same
  exact ⟨tag, head, within⟩

end Laid

end Site.Layout

end Register

end Restack
