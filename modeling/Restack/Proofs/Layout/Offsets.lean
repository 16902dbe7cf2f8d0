import Restack.Proofs.Layout.Slots

set_option autoImplicit false

namespace Restack

theorem endOf_take_le (lines : List Line) {i j : Nat} (le : i ≤ j) :
    endOf 0 (lines.take i) ≤ endOf 0 (lines.take j) := by
  have split : lines.take j = lines.take i ++ (lines.take j).drop i := by
    conv_lhs => rw [← List.take_append_drop i (lines.take j)]
    rw [List.take_take, Nat.min_eq_left le]
  rw [split, endOf_append]
  exact le_endOf _ _

theorem endOf_take_succ {lines : List Line} {i : Nat} {l : Line} (found : lines[i]? = some l) :
    endOf 0 (lines.take (i + 1)) =
      endOf 0 (lines.take i) + l.insn.lengthAt (endOf 0 (lines.take i)) := by
  rw [List.take_add_one, found, endOf_append]
  rfl

namespace Body

variable {positions : Std.HashMap Nat Nat} {b : Body}

theorem positionBefore_eq (b : Body) :
    b.positionBefore = tableOf (b.lines.zip (0 :: startsOf 0 b.lines)) ∅ := by
  simp only [positionBefore, linePositions_eq]
  rfl

theorem positionBefore_of_fixed {i : Nat} {l : Line} (apart : TagsApart b.lines)
    (found : b.lines[i + 1]? = some l) (fixed : l.insn.isMovable = false) :
    b.positionBefore[l.tag]? = some (endOf 0 (b.lines.take i)) := by
  have inside := (List.getElem?_eq_some_iff.1 found).1
  have previous : (0 :: startsOf 0 b.lines)[i + 1]? = some (endOf 0 (b.lines.take i)) := by
    rw [List.getElem?_cons_succ, startsOf_getElem? _ _ (by omega)]
  rw [positionBefore_eq]
  exact tableOf_zip apart found fixed previous

/-- Where the lines of `b` that stay are in the code of `final`. -/
structure Offsets (b final : Body) (offset : Nat → Nat) : Prop where
  mono : ∀ i j, i ≤ j → offset i ≤ offset j
  kept : ∀ (i : Nat) (l : Line), b.lines[i]? = some l → l.insn.isMovable = false →
    (positionByTag final.lines)[l.tag]? = some (offset i) ∧
      ∃ (place : Nat) (m : Line), l.Resized m ∧ final.lines[place]? = some m ∧
        (linePositions final.lines).1[place]? = some (offset i) ∧
        offset (i + 1) = offset i + m.insn.lengthAt (offset i)
  before : ∀ (i j : Nat) (l m : Line), i < j → b.lines[i]? = some l → l.insn.isMovable = false →
    b.lines[j]? = some m → m.insn.isMovable = false →
    ∃ position, final.positionBefore[m.tag]? = some position ∧ offset i ≤ position ∧
    position ≤ offset j

theorem offsets_of_places {final : Body} {place : Nat → Nat}
    (places : Places place b.lines final.lines) (apart : TagsApart final.lines) :
    b.Offsets final fun i => endOf 0 (final.lines.take (place i)) := by
  refine ⟨fun i j le => endOf_take_le _ (places.mono i j le), fun i l found fixed => ?_,
    fun i j l m less found fixed found' fixed' => ?_⟩
  · obtain ⟨next, m, there, resized⟩ := places.kept i l found fixed
    have tag : m.tag = l.tag := by cases resized <;> rfl
    have still : m.insn.isMovable = false := resized.isMovable_eq.trans fixed
    refine ⟨tag ▸ positionByTag_of_fixed apart there still, place i, m, resized, there, ?_, ?_⟩
    · rw [linePositions_eq, startsOf_getElem? _ _ (List.getElem?_eq_some_iff.1 there).1]
    · rw [next, endOf_take_succ there]
  · obtain ⟨next, _⟩ := places.kept i l found fixed
    obtain ⟨_, m', there, resized⟩ := places.kept j m found' fixed'
    have tag : m'.tag = m.tag := by cases resized <;> rfl
    have later := places.mono (i + 1) j less
    have positive : place j = (place j - 1) + 1 := by omega
    rw [positive] at there
    have known := positionBefore_of_fixed apart there (resized.isMovable_eq.trans fixed')
    refine ⟨_, tag ▸ known, endOf_take_le _ (by omega), endOf_take_le _ (by omega)⟩

/-- Lines that stay keep their order through passes and the sizing of jumps. -/
theorem Rewrites.exists_offsets {later : Body} (rewrites : b.Rewrites later) :
    TagsApart later.sizeJumps.lines ∧ ∃ offset, b.Offsets later.sizeJumps offset := by
  have resized := sizeJumps_resized later
  have apart := tagsApart_of_resized resized rewrites.tagged.tagsApart
  obtain ⟨prologue, rest, split, rewritten⟩ := rewrites.lines
  have sized := Rewritten.of_resized resized
  rw [split] at sized
  obtain ⟨prologue', rest', split', _, in_rest⟩ := sized.split
  obtain ⟨place, _, places⟩ := (rewritten.trans in_rest).exists_places
  have shifted := places.shift prologue'
  rw [← split'] at shifted
  exact ⟨apart, _, offsets_of_places shifted apart⟩

theorem Rewrites.unsized {later : Body} (rewrites : b.Rewrites later) (unsized : b.Unsized) :
    later.Unsized := by
  intro l member j jump
  exact unsized l (rewrites.straight l member (by simp [jump, Insn.targets])) j jump

/-- The range of a row takes up some code. A range starts with the line before its start label. -/
def isSpanned (b : Body) (r : Row) : Bool :=
  b.positionBefore.getD r.start 0 < (positionByTag b.lines).getD r.stop 0

/-- A row of the written table says where the range of a row starts and ends, where its handler is,
and what it catches. -/
structure Packs (b : Body) (r : Row) (t : TableRow) : Prop where
  start : t.start.toNat = b.positionBefore.getD r.start 0
  stop : t.stop.toNat = (positionByTag b.lines).getD r.stop 0
  handler : t.handler.toNat = (positionByTag b.lines).getD r.handler 0
  classRef : t.classRef = r.classRef

/-- A row whose range is not empty has a start, an end and a handler that can be written. -/
def RowFits (b : Body) (r : Row) : Prop :=
  b.isSpanned r = true →
    b.positionBefore.getD r.start 0 < 65536 ∧ (positionByTag b.lines).getD r.stop 0 < 65536 ∧
      (positionByTag b.lines).getD r.handler 0 < 65536

/-- The row that stands for `r` in the table, if there is one. -/
def packed (b : Body) (r : Row) : TableRow := packRow b.positionBefore (positionByTag b.lines) r

theorem RowFits.packs {r : Row} (fits : b.RowFits r) (spanned : b.isSpanned r = true) :
    b.Packs r (b.packed r) := by
  obtain ⟨start, stop, handler⟩ := fits spanned
  exact ⟨UInt16.toNat_ofNat_of_lt' start, UInt16.toNat_ofNat_of_lt' stop,
    UInt16.toNat_ofNat_of_lt' handler, rfl⟩

theorem tableRow_outcome (b : Body) (name : String) (r : Row) :
    (b.RowFits r ∧ tableRow b.positionBefore (positionByTag b.lines) name r =
      .ok (if b.isSpanned r then [b.packed r] else [])) ∨
    (¬ b.RowFits r ∧ tableRow b.positionBefore (positionByTag b.lines) name r =
      fail (.rangeTooFar name)) := by
  unfold tableRow RowFits isSpanned
  simp only [decide_eq_true_eq]
  split
  next spanned =>
    split
    next fits => exact .inl ⟨fun _ => fits, rfl⟩
    next far => exact .inr ⟨fun fits => far (fits spanned), rfl⟩
  next empty => exact .inl ⟨fun spanned => absurd spanned empty, rfl⟩

theorem tableRows_eq_ok {table : List TableRow}
    (done : b.tableRows (positionByTag b.lines) = .ok table) :
    table = (b.rows.filter b.isSpanned).map b.packed ∧ ∀ r ∈ b.rows.filter b.isSpanned,
      b.Packs r (b.packed r) := by
  obtain ⟨found, each, last⟩ := Except.bind_eq_ok.1 done
  cases last
  have related := Except.mapM_eq_ok each
  clear each done
  generalize b.rows = rows at related
  induction related with
  | nil => exact ⟨rfl, by simp⟩
  | @cons r part rows parts written _ ih =>
    obtain ⟨others, packs⟩ := ih
    rcases b.tableRow_outcome b.name r with ⟨fits, packed⟩ | ⟨_, failed⟩
    · cases written.symm.trans packed
      rw [List.flatten_cons, others, List.filter_cons]
      split
      next spanned => exact ⟨rfl, List.forall_mem_cons.2 ⟨fits.packs spanned, packs⟩⟩
      next => exact ⟨rfl, packs⟩
    · cases written.symm.trans failed

theorem sameExtent_assembleJumps {assembled : Body}
    (done : b.assembleJumps positions = (assembled, none)) :
    List.Forall₂ Line.SameExtent b.lines assembled.lines := by
  refine (assembleJumps_lines done).1.imp fun l m ⟨tag, insn⟩ => ⟨tag.symm, fun here => ?_⟩
  rcases assembleInsn_eq_ok insn with ⟨j, bytes, is_jump, _, new⟩ | ⟨s, is_switch, new⟩ | ⟨_, new⟩
  · rw [is_jump, new]
    rfl
  · rw [is_switch, new]
    rfl
  · rw [new]

theorem positionBefore_assembleJumps {assembled : Body}
    (done : b.assembleJumps positions = (assembled, none)) :
    assembled.positionBefore = b.positionBefore := by
  have alike := sameExtent_assembleJumps done
  have starts := (startsOf_congr alike 0).1
  rw [positionBefore_eq, positionBefore_eq, ← starts, tableOf_congr alike]

end Body

end Restack
