import Restack.Proofs.Execution.Conformance
import Restack.Proofs.Execution.Duplication
import Restack.Proofs.Execution.StorePruning
import Restack.Proofs.Selection.StackDiscipline

set_option autoImplicit false

namespace Restack

theorem Machine.ofWidths_copying (p : Pool) {limit : Nat} (room : Insn.headroom ≤ limit) :
    (ofWidths p limit).Copying fun x => x = 1 := by
  have reacts {x : Insn} {s t : Operands} (steps : x.Steps p s t) (heap : Unit) :
      (ofWidths p limit).react x s heap = some (.goes t heap) :=
    congrArg (Option.map _) (Insn.run?_mono steps (by omega))
  refine ⟨fun x stack heap one => ?_, fun x y stack heap one one' => ?_,
    fun code stack heap reaction below ran => ?_⟩
  · subst one
    have turns : Turns 2 [Op.dup] [1] [1, 1] := .of_run? fun _ => rfl
    exact reacts (Insn.steps_of_turns turns (by decide) stack) heap
  · subst one one'
    have turns : Turns 4 [Op.dup2] [1, 1] [1, 1, 1, 1] := .of_run? fun _ => rfl
    exact reacts (Insn.steps_of_turns turns (by decide) stack) heap
  · obtain ⟨t, ran', rfl⟩ := Option.map_eq_some_iff.1 ran
    refine congrArg (Option.map _) (Eq.trans ?_ (Insn.run?_below ran' below))
    rw [Operands.slots_append, Nat.add_assoc]

theorem Body.Orderly.empty_of_reaches {p : Pool} {cap : Nat} {picks : UInt32 → Prop} {b : Body}
    {front back : List Line} {l m : Line} {q : UInt32} {v : Local} {t : Operands}
    (orderly : b.Orderly p cap picks) (linked : b.Linked)
    (split : b.lines = front ++ l :: m :: back) (label : l.insn = .label (some q))
    (loads : m.insn.loads? = some v) (reaches : b.Reaches p front.length t) : t = [] := by
  have no_pick : ¬ picks q := by
    intro picked
    have pushes := Insn.pushes?_of_loads? loads
    rw [(orderly.follows_of_split split).2 q label picked] at pushes
    cases pushes
  obtain ⟨stack, stacked⟩ := orderly.balanced.exists_stacked
  rw [stacked.eq_of_reaches (fun _ _ shows => shows.1) linked reaches]
  exact (stacked.each front.length l (by simp [split])).1.2 q label no_pick

namespace Register

variable {s : Site} {blocks : Blocks} {rows : List AnchoredRow} {pieces : List Piece} {b : Body}
  {final : Pool} {p : UInt32} {k : Nat}

namespace Site.Layout

section Laid

variable (laid : s.Layout blocks rows pieces b)
include laid

theorem isLabel {q : Option UInt32} (here : b.lines[k]? = some ⟨k, .label q⟩) : b.IsLabel k := by
  refine ⟨laid.tagged.bound _ (List.mem_of_getElem? here), fun l member same => ⟨q, ?_⟩⟩
  obtain ⟨j, there⟩ := List.getElem?_of_mem member
  rw [← laid.tag_eq there, same, here] at there
  exact (Option.some.inj there) ▸ rfl

theorem contains_starts (tag : Nat) :
    b.starts.contains tag = true ↔ ∃ r ∈ b.rows, r.start = tag := by
  obtain ⟨name, entries, rfl⟩ := laid.body
  exact (foldl_insert_contains Row.start _ ∅ tag).trans (or_iff_right (by simp))

theorem contains_stops (tag : Nat) : b.stops.contains tag = true ↔ ∃ r ∈ b.rows, r.stop = tag := by
  obtain ⟨name, entries, rfl⟩ := laid.body
  exact (foldl_insert_contains Row.stop _ ∅ tag).trans (or_iff_right (by simp))

theorem lines_of_guarded (guarded : s.Guarded blocks p) : ∃ before inside after,
    b.lines = before ++ ⟨tagOf (pieces.flatMap (Piece.lines s)) (.start p), .label none⟩ ::
      (inside ++ ⟨tagOf (pieces.flatMap (Piece.lines s)) (.stop p), .label none⟩ :: after) ∧
    ∀ l ∈ inside, l.insn ≠ .label none := by
  obtain ⟨handled, block, found, throws⟩ := guarded
  have placed := laid.piece_of_block found
  obtain ⟨before, after, split⟩ := List.append_of_mem placed
  have within : s.Within pieces (before.flatMap (Piece.lines s)).length (.block p block) 0 :=
    ⟨laid.lines_pos placed, before, after, split, rfl⟩
  obtain ⟨outer, middle, rest, whole, _, _, lines, starts, stops⟩ :=
    laid.guarded_block within handled throws
  obtain ⟨front, fronts⟩ : ∃ front, front = before.flatMap (Piece.lines s) ++
    (some (.head p), .label (some p)) :: bare outer := ⟨_, rfl⟩
  have flat : pieces.flatMap (Piece.lines s) = front ++ (some (.start p), .label none) ::
      (bare middle ++ (some (.stop p), .label none) ::
        (bare rest ++ after.flatMap (Piece.lines s))) := by
    rw [split, List.flatMap_append, List.flatMap_cons, fronts]
    simp [Piece.lines, lines]
  have at_start : front.length = tagOf (pieces.flatMap (Piece.lines s)) (.start p) := by
    simp [starts, fronts, bare]
  have at_stop : front.length + 1 + (bare middle).length =
      tagOf (pieces.flatMap (Piece.lines s)) (.stop p) := by
    simp [stops, fronts, bare]
    omega
  rw [← at_start, ← at_stop, laid.lines_eq, flat, tagLines_append, tagLines_cons, tagLines_append,
    tagLines_cons, Nat.zero_add]
  refine ⟨_, _, _, rfl, fun l member => ?_⟩
  obtain ⟨⟨x, tag⟩, listed, rfl⟩ := List.mem_map.1 member
  have inside := (mem_bare (List.fst_mem_of_mem_zipIdx listed)).2
  exact (laid.of_mem_block placed (by simp [whole, inside])).1

end Laid

end Site.Layout

namespace Site.Compiled

section Compiled

variable (compiled : s.Compiled blocks rows pieces b final)
include compiled

theorem row_lines {r : Row} (member : r ∈ b.rows) : ∃ before inside after,
    b.lines = before ++ ⟨r.start, .label none⟩ :: (inside ++ ⟨r.stop, .label none⟩ :: after) ∧
    ∀ l ∈ inside, l.insn ≠ .label none := by
  rw [compiled.laid.rows_eq] at member
  obtain ⟨anchored, listed, rfl⟩ := List.mem_map.1 member
  obtain ⟨p, guarded, start, stop, _⟩ := compiled.sourced anchored listed
  rw [AnchoredRow.tagged, start, stop]
  exact compiled.laid.lines_of_guarded guarded

theorem addressed : b.Addressed := by
  have laid := compiled.laid
  refine ⟨laid.tags ▸ List.nodup_range, laid.tagged.bound, fun q tag head => ?_, fun r member => ?_⟩
  · obtain ⟨a, within⟩ := laid.head_within head
    exact laid.isLabel (laid.line_within within (laid.first_of_block within.mem))
  · have marked {tag : Nat} (inside : ⟨tag, .label none⟩ ∈ b.lines) : b.IsLabel tag := by
      obtain ⟨k, here⟩ := List.getElem?_of_mem inside
      obtain rfl : tag = k := laid.tag_eq here
      exact laid.isLabel here
    obtain ⟨before, inside, after, split, _⟩ := compiled.row_lines member
    obtain ⟨q, label⟩ := compiled.named ((laid.entered _).2 (.inl ⟨r, member, rfl⟩))
    exact ⟨marked (by simp [split]), marked (by simp [split]), laid.isLabel label⟩

theorem entered : b.Entered := by
  refine ⟨fun l member tag leads => ?_, fun r member => (compiled.laid.entered _).2
    (.inl ⟨r, member, rfl⟩)⟩
  obtain ⟨q, target, head⟩ := List.any_eq_true.1 leads
  exact (compiled.laid.entered tag).2 (.inr ⟨l, member, q, target, by simpa using head⟩)

theorem guarded : b.Guarded := by
  have distinct := compiled.addressed.distinct
  -- Only marks have the tags of marks.
  have unmarked {l : Line} {tag : Nat} (inside : l ∈ b.lines) (other : l.insn ≠ .label none)
      (mark : ⟨tag, .label none⟩ ∈ b.lines) : tag ≠ l.tag := by
    intro same
    exact other (eq_of_tag_eq distinct mark inside same ▸ rfl)
  refine Body.Ranged.guarded ⟨fun tag => (compiled.laid.contains_stops tag).1, fun r member => ?_⟩
    compiled.addressed
  obtain ⟨before, inside, after, split, others⟩ := compiled.row_lines member
  refine ⟨before, _, inside, _, after, split, rfl, rfl,
    (compiled.laid.contains_starts _).2 ⟨r, member, rfl⟩, fun l between => ?_⟩
  have listed : l ∈ b.lines := by simp [split, between]
  rw [Bool.eq_false_iff, Bool.eq_false_iff, ne_eq, ne_eq, compiled.laid.contains_starts,
    compiled.laid.contains_stops]
  refine ⟨fun ⟨r', member', same⟩ => ?_, fun ⟨r', member', same⟩ => ?_⟩
  all_goals
    obtain ⟨_, _, _, split', _⟩ := compiled.row_lines member'
    exact unmarked listed (others l between) (by simp [split']) same

end Compiled

end Site.Compiled

/-- **Runs of compiled bodies.** On a machine that keeps to the widths of values, no run of a
compiled body gets stuck: store and load pruning and duplication do what the body does, and nothing
else. -/
theorem compile_runs_kept {V H : Type} (catalog : Catalog) (method : Method) (raw code : Code)
    (options : Options) (pool later final : Pool) (b : Body) (regular : code.Regular catalog raw)
    (slots : ∀ d, some d ∈ method.slots → IsType d) (apart : code.CatchesNarrow catalog)
    (narrow : code.FillsNarrow catalog)
    (done : (compile catalog method code options).run pool = (.ok b, later))
    (grows : later.Grows final) (M : Machine V H) (width : V → Nat)
    (conforms : M.Conforms width final 300 b) (copying : M.Copying fun x => width x = 1)
    (handOver : HandOver) (heap : H) (locals : Local → V)
    (typed : ∀ v : Local, width (locals v) = v.width) :
    (∀ passed c, M.Run b (b.start heap locals) passed c → M.step b c = none → c.rest = []) ∧
    (∀ seen, M.Shows b Config.act? (b.start heap locals) seen ↔
      M.Shows b.pruneStoreLoads Config.act? (b.pruneStoreLoads.start heap locals) seen) ∧
    ∀ passed' d', M.Run (b.duplicate handOver)
      ((b.duplicate handOver).start heap locals) passed' d' →
      ∃ passed d, M.Run b (b.start heap locals) passed d ∧
        List.Forall₂ b.Spares (passed.filterMap (Config.deed? b.fresh))
          (passed'.filterMap (Config.deed? b.fresh)) := by
  obtain ⟨formed, decoded, contiguous, blank, linked, collects, few⟩ := regular
  have hinted := Code.hinted_link blank linked
  obtain ⟨s, blocks, rows, pieces, rfl, rfl, compiled⟩ :=
    exists_compiled formed slots contiguous decoded few hinted done grows
  have supplied := compiled.supplied formed hinted collects apart narrow
  have orderly := compiled.orderly supplied
  have sound : ∀ l ∈ b.lines, l.insn.Sound := fun l member => orderly.sound member
  have contained : b.Contained final 300 :=
    orderly.contained (fun _ _ shows => shows.1) (compiled.linked supplied) (by decide)
  have addressed := compiled.addressed
  have onPath {passed : List (Config V H)} {c : Config V H}
      (run : M.Run b (b.start heap locals) passed c) :
      b.OnPath final width c := Body.onPath_of_run conforms contained sound addressed typed run
  have ends (passed : List (Config V H)) (c : Config V H)
      (run : M.Run b (b.start heap locals) passed c)
      (stops : M.step b c = none) : c.rest = [] :=
    Body.ended_of_stuck conforms contained sound addressed typed run
      (fun l member q target => Option.isSome_iff_exists.2 (compiled.laid.jumps l member q target))
        stops
  refine ⟨ends, PruneStoreLoads.shows_iff addressed compiled.guarded compiled.entered
    fun passed c l back w run => Body.filled_of_run conforms contained sound addressed typed run,
    fun passed' d' =>
      Duplicate.exists_run_of_duplicate copying addressed compiled.entered orderly.gotosEnd
      (fun passed c l m back q v run rest label loads => ?_) (fun passed c v run thin => ?_) ends⟩
  · obtain ⟨-, ended | ⟨front, split, reaches⟩⟩ := onPath run
    · cases rest.symm.trans ended
    · rw [rest] at split
      exact List.map_eq_nil_iff.1
        (orderly.empty_of_reaches (compiled.linked supplied) split label loads reaches)
  · rw [(onPath run).typed v, Local.width, if_neg (by simp [thin])]

theorem pickedLiteral_runs_kept :
    ∃ b later, (compile { types := #["[I"] } literalMethod
        (pickedLiteralLinked [⟨0, 1, [⟨none, 2⟩]⟩] "[I") .none).run (.empty .simple) =
          (.ok b, later) ∧
      ∀ seen, (Machine.ofWidths later 300).Shows b Config.act? (b.start () Local.width) seen ↔
        (Machine.ofWidths later 300).Shows b.pruneStoreLoads Config.act?
          (b.pruneStoreLoads.start () Local.width) seen := by
  obtain ⟨b, later, ran, _⟩ := compile_pickedLiteral
  refine ⟨b, later, ran, (compile_runs_kept _ _ _ _ _ _ _ later b
    (pickedLiteralLinked_regular _ _ ⟨.array .int, by cbv⟩) literalMethod_slots
    (pickedLiteralLinked_catchesNarrow _ _) (pickedLiteralLinked_fillsNarrow _ _ (by decide)) ran
      (.refl later)
    _ id (Machine.ofWidths_conforms _ _ _) (Machine.ofWidths_copying _ (by decide)) .asListed () _
      fun _ => rfl).2.1⟩

end Register

end Restack
