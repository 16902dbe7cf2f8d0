import Restack.Proofs.Pass.Simplify
import Restack.Proofs.Register.Inference
import Restack.Proofs.Selection.EmittedLines

set_option autoImplicit false

namespace Restack

def TableRow.covers (r : TableRow) (offset : Nat) : Bool :=
  r.start.toNat ≤ offset && offset < r.stop.toNat

theorem Body.rewrites_finished {b final : Body} {options : Options} {handOver : HandOver}
    (tagged : Tagged b.lines b.fresh)
    (finished : final = (b.simplify options handOver).assignSlots options ∨
      ∃ p, final = (((b.simplify options handOver).assignSlots options).shortenLiterals p).1) :
    b.Rewrites final := by
  have simplified := Body.rewrites_simplify tagged options handOver
  have assigned := simplified.trans (Body.rewrites_assignSlots simplified.tagged options)
  rcases finished with rfl | ⟨p, rfl⟩
  · exact assigned
  · exact assigned.trans (Body.rewrites_shortenLiterals assigned.tagged p)

namespace Register

variable {p : UInt32}

def Code.PicksUp (code : Code) (p : UInt32) : Prop :=
  ∃ i ∈ code.instrs, i.position = p ∧ i.family = .moveResult

/-- Names the class that is caught and leads to the block of the handler, which picks up the
exception, or to a place that drops it first. -/
structure Handler.Packed (h : Handler) (code : Code) (pool : Pool) (final : Body) (bytes : Bytes)
    (r : TableRow) : Prop where
  all : h.className = throwable → r.classRef = 0
  named : h.className ≠ throwable → pool.HasClass r.classRef h.className
  picked : code.PicksUp h.target → final.PlacedAt h.target r.handler.toNat
  dropped : ¬ code.PicksUp h.target → bytes.StandsAt r.handler.toNat [Op.pop] ∧
    final.GoesOn bytes (r.handler.toNat + 1) h.target

theorem foldl_insert_getElem? (instrs : List Instr) (distinct : (instrs.map Instr.position).Nodup)
    (m : Std.HashMap UInt32 Instr) (p : UInt32) (i : Instr) :
    (instrs.foldl (fun m i => m.insert i.position i) m)[p]? = some i ↔
      (i ∈ instrs ∧ i.position = p) ∨ (m[p]? = some i ∧ ∀ j ∈ instrs, j.position ≠ p) := by
  induction instrs generalizing m with
  | nil => simp
  | cons j instrs ih =>
    obtain ⟨apart, rest⟩ := List.nodup_cons.1 distinct
    rw [List.foldl_cons, ih rest, Std.HashMap.getElem?_insert]
    by_cases here : j.position = p
    · have later : ∀ k ∈ instrs, k.position ≠ p := by
        intro k member same
        exact apart (List.mem_map.2 ⟨k, member, same.trans here.symm⟩)
      grind
    · grind

theorem Site.isMoveResult_iff {catalog : Catalog} {method : Method} {code : Code}
    {options : Options} {site : Site} (distinct : (code.instrs.map Instr.position).Nodup)
    (done : Site.ofCode catalog method code options = .ok site) (p : UInt32) :
    site.isMoveResult p = true ↔ code.PicksUp p := by
  obtain ⟨_, _, _, _, same⟩ := Site.ofCode_eq_ok done
  rw [isMoveResult, same, Option.any_eq_true]
  constructor
  · rintro ⟨i, found, family⟩
    rcases (foldl_insert_getElem? _ distinct ∅ p i).1 found with ⟨member, position⟩ | ⟨none, _⟩
    · exact ⟨i, member, position, by simpa using family⟩
    · simp at none
  · rintro ⟨i, member, position, family⟩
    exact ⟨i, (foldl_insert_getElem? _ distinct ∅ p i).2 (.inl ⟨member, position⟩), by
      simpa using family⟩

theorem filter_flatMap_of_nodup {α : Type} {keys : List UInt32} {rowsOf : UInt32 → List α}
    {keep : α → Bool} (distinct : keys.Nodup) (own : ∀ r ∈ rowsOf p, keep r = true)
    (others : ∀ q, q ≠ p → ∀ r ∈ rowsOf q, keep r = false) (missing : p ∉ keys → rowsOf p = []) :
    (keys.flatMap rowsOf).filter keep = rowsOf p := by
  have dropped : ∀ some_keys : List UInt32, p ∉ some_keys →
      (some_keys.flatMap rowsOf).filter keep = [] := by
    intro some_keys absent
    rw [List.filter_eq_nil_iff]
    intro r member
    obtain ⟨q, listed, inside⟩ := List.mem_flatMap.1 member
    have other : q ≠ p := fun same => absent (same ▸ listed)
    simp [others q other r inside]
  by_cases listed : p ∈ keys
  · obtain ⟨before, after, rfl⟩ := List.append_of_mem listed
    obtain ⟨_, rest, across⟩ := List.nodup_append.1 distinct
    have not_before : p ∉ before := fun inside => across p inside p List.mem_cons_self rfl
    have not_after : p ∉ after := (List.nodup_cons.1 rest).1
    rw [List.flatMap_append, List.flatMap_cons, List.filter_append, List.filter_append,
      dropped before not_before,
      dropped after not_after, List.filter_eq_self.2 own, List.nil_append, List.append_nil]
  · rw [dropped keys listed, missing listed]

namespace Site.Emitted

variable {s : Site} {blocks : Blocks} {rows : List AnchoredRow} {pieces : List Piece}
  {b final assembled : Body}
  {bytes : Bytes} {offset : Nat → Nat} {options : Options} {table : List TableRow} {pool : Pool}
  {rowsOf : UInt32 → List AnchoredRow}

section Emitted

variable (emitted : s.Emitted blocks rows pieces b final bytes offset)
include emitted

theorem table_eq (same_rows : final.rows = b.rows) (made : s.RowTable blocks pool rows rowsOf)
    (done : final.emit options = (.ok (bytes, table), assembled)) :
    table = b.rows.map final.packed ∧ ∀ r ∈ b.rows, final.Packs r (final.packed r) := by
  obtain ⟨_, assembly, _, packs⟩ := Body.emit_eq_ok done
  have positions := positionByTag_congr (Body.sameExtent_assembleJumps assembly)
  rw [Body.tableRows, Body.positionBefore_assembleJumps assembly,
    (Body.assembleJumps_lines assembly).2.1, (Body.assembleJumps_lines assembly).2.2] at packs
  have spanned : b.rows.filter final.isSpanned = b.rows := by
    rw [List.filter_eq_self, emitted.laid.rows_eq]
    intro r member
    obtain ⟨r', listed, rfl⟩ := List.mem_map.1 member
    obtain ⟨p, inside⟩ := made.exists_rowsOf listed
    obtain ⟨_, guarded, _, _, h, _, row⟩ := made.source inside
    rw [Body.isSpanned, decide_eq_true_eq, AnchoredRow.tagged, row.start, row.stop]
    exact emitted.range_nonempty guarded
  have written := Body.tableRows_eq_ok packs
  rwa [same_rows, spanned] at written

section Table

variable (fits : ∀ r ∈ b.rows, final.Packs r (final.packed r))
include fits

theorem packs_tagged {r : AnchoredRow} (member : r ∈ rows) :
    final.Packs (r.tagged (pieces.flatMap (Piece.lines s)))
      (final.packed (r.tagged (pieces.flatMap (Piece.lines s)))) := by
  apply fits
  rw [emitted.laid.rows_eq]
  exact List.mem_map_of_mem member

theorem handler_packed {code : Code} {h : Handler} {r : AnchoredRow}
    (picks : ∀ q, s.isMoveResult q = true ↔ code.PicksUp q) (member : r ∈ rows)
    (row : s.RowFor blocks pool p h r) :
    h.Packed code pool final bytes (final.packed (r.tagged (pieces.flatMap (Piece.lines s)))) := by
  obtain ⟨place, there, picked, dropped⟩ := emitted.handler_place member row.handler
  have handler := (emitted.packs_tagged fits member).handler.trans there
  rw [← handler] at picked dropped
  refine ⟨row.all, row.named, fun up => picked ((picks _).2 up), fun down => dropped ?_⟩
  rw [← Bool.not_eq_true, picks]
  exact down

variable (made : s.RowTable blocks pool rows rowsOf)
include made

theorem covers_iff {q : UInt32} {code : Bytes} {k : Nat} (plain : s.PlainLine pieces p code k)
    {r : AnchoredRow} (inside : r ∈ rowsOf q) :
    (final.packed (r.tagged (pieces.flatMap (Piece.lines s)))).covers (offset k) =
      true ↔ q = p := by
  obtain ⟨member, guarded, _, _, h, _, row⟩ := made.source inside
  have packs := emitted.packs_tagged fits member
  rw [TableRow.covers, Bool.and_eq_true, decide_eq_true_iff, decide_eq_true_iff,
    packs.start, packs.stop, AnchoredRow.tagged, row.start, row.stop]
  exact emitted.in_range_iff guarded plain

theorem filter_covers {code : Bytes} {k : Nat} (plain : s.PlainLine pieces p code k) :
    rows.filter (fun r => (final.packed (r.tagged (pieces.flatMap (Piece.lines s)))).covers
      (offset k)) = rowsOf p := by
  rw [made.flat]
  refine filter_flatMap_of_nodup Std.TreeMap.nodup_keys ?_ ?_ (made.missing p)
  · intro r inside
    exact (emitted.covers_iff fits made plain inside).2 rfl
  · intro q other r inside
    rw [← Bool.not_eq_true, emitted.covers_iff fits made plain inside]
    exact other

theorem handlers_packed {code : Code} (picks : ∀ q, s.isMoveResult q = true ↔ code.PicksUp q)
    {block : List Insn} {x : Insn} (found : blocks[p]? = some block) (member : x ∈ block)
    (plain : x.isPlain = true) :
    List.Forall₂ (fun h r => h.Packed code pool final bytes r) (s.typing.handlers.getD p [])
      ((rowsOf p).map fun r => final.packed (r.tagged (pieces.flatMap (Piece.lines s)))) := by
  rw [List.forall₂_map_right_iff]
  have each := made.each found member plain
  have listed := (List.forall₂_and_left _ _).2 ⟨fun r inside => (made.source inside).1, each.flip⟩
  refine listed.flip.imp fun h r ⟨of_rows, row⟩ => ?_
  exact emitted.handler_packed fits picks of_rows row

end Table

end Emitted

end Site.Emitted

/-- The exception table of a compiled method is faithful, whatever passes have run: the rows that
cover a plain instruction are those for the handlers of its position, in order. -/
theorem exceptionTable_faithful (catalog : Catalog) (method : Method) (code : Code)
    (options : Options) (handOver : HandOver) (pool later : Pool) (b final assembled : Body)
    (bytes : Bytes) (table : List TableRow) (contiguous : code.Contiguous)
    (compiled : (compile catalog method code options).run pool = (.ok b, later))
    (finished : final = (b.simplify options handOver).assignSlots options ∨
      ∃ p, final = (((b.simplify options handOver).assignSlots options).shortenLiterals p).1)
    (done : final.sizeJumps.emit options = (.ok (bytes, table), assembled)) :
    ∃ site blocks middle, ∃ rowsOf : UInt32 →
    List TableRow, Site.ofCode catalog method code options = .ok site ∧
      site.blocks.run pool = (.ok blocks, middle) ∧ table = code.handlers.keys.flatMap rowsOf ∧
      ∀ p, code.Reachable p → ∃ block, blocks[p]? = some block ∧
        ∀ (n : Nat) (insn : Bytes), block[n]? = some (.plain insn) →
          ∃ tag offset, (b.fromHead p)[n]? = some ⟨tag, .plain insn⟩ ∧
            (positionByTag final.sizeJumps.lines)[tag]? = some offset ∧ bytes.StandsAt offset insn ∧
            table.filter (·.covers offset) = rowsOf p ∧
            (∀ q, q ≠ p → ∀ r ∈ rowsOf q, r.covers offset = false) ∧
            List.Forall₂ (fun h r => h.Packed code later final.sizeJumps bytes r)
              (code.handlers.getD p []) (rowsOf p) := by
  obtain ⟨site, blocks, middle, rows, pieces, prepared, selected, guarded, _, laid⟩ :=
    compile_eq_ok compiled
  obtain ⟨inferred, _, _, same_code, _⟩ := Site.ofCode_eq_ok prepared
  have closed := infer_closed contiguous.nodup inferred
  have picks := Site.isMoveResult_iff contiguous.nodup prepared
  have rewrites := Body.rewrites_finished laid.tagged finished
  obtain ⟨offset, emitted⟩ := laid.emitted rewrites done
  obtain ⟨rowsOf, made⟩ := rows_eq_ok guarded
  obtain ⟨same_table, fits⟩ := emitted.table_eq rewrites.rows made done
  rw [laid.rows_eq, List.map_map] at same_table
  refine ⟨site, blocks, middle,
    fun q => (rowsOf q).map fun r => final.sizeJumps.packed
      (r.tagged (pieces.flatMap (Piece.lines site))),
    prepared, selected, ?_, fun p reachable => ?_⟩
  · rw [same_table, made.flat, List.map_flatMap, closed.handlers]
    rfl
  · obtain ⟨i, member, rfl⟩ := reachable.hasPosition
    have reached := (closed.mem_iff_reachable _).2 reachable
    obtain ⟨block, found⟩ :=
      Option.isSome_iff_exists.1 (laid.selected.covered i (same_code ▸ member) reached)
    refine ⟨block, found, fun n insn there => ?_⟩
    obtain ⟨tag, head, within⟩ := laid.head_of_block found
    obtain ⟨k, line, plain⟩ := laid.plain_line head within there
    obtain ⟨_, j, at_k, at_j⟩ := plain.line
    obtain ⟨position, _, stands⟩ := emitted.plain_line at_k at_j
    refine ⟨k, offset k, line, position, stands, ?_, fun q other r inside => ?_, ?_⟩
    · rw [same_table, List.filter_map]
      exact congrArg _ (emitted.filter_covers fits made plain)
    · obtain ⟨r', of_q, rfl⟩ := List.mem_map.1 inside
      rw [← Bool.not_eq_true, emitted.covers_iff fits made plain of_q]
      exact other
    · rw [← closed.handlers]
      exact emitted.handlers_packed fits made picks found (List.mem_of_getElem? there) rfl

def sampleOptions : Options := { Options.none with propagateCopies := true, removeUnused := true }

def sampleCodeBytes : Bytes := [26, 153, 255, 255, 26, 188, 10, 87, 177, 87, 167, 255, 254]

theorem sampleCode_exceptionTable :
    ∃ b later assembled tag offset,
      (compile { types := #["[I"] }
        ⟨⟨"a/B", "f", ["I"], "V"⟩, 8, none⟩ sampleCode sampleOptions).run (.empty .simple) =
        (.ok b, later) ∧
      ((b.simplify sampleOptions).assignSlots sampleOptions).sizeJumps.emit sampleOptions =
        (.ok (sampleCodeBytes, [⟨4, 7, 9, 0⟩]), assembled) ∧
      (b.fromHead 3)[2]? = some ⟨tag, .plain [188, 10]⟩ ∧
      (positionByTag ((b.simplify sampleOptions).assignSlots sampleOptions).sizeJumps.lines)[tag]? =
        some offset ∧
      sampleCodeBytes.StandsAt offset [188, 10] ∧ (⟨4, 7, 9, 0⟩ : TableRow).covers offset = true ∧
      Handler.Packed ⟨none, 4⟩ sampleCode later
        ((b.simplify sampleOptions).assignSlots sampleOptions).sizeJumps
        sampleCodeBytes ⟨4, 7, 9, 0⟩ := by
  have reachable : sampleCode.Reachable 3 := by
    have entry : sampleCode.Reachable 0 := .entry ⟨_, .head _, rfl⟩
    have second : sampleCode.Reachable 1 :=
      .flow (.head _) entry (.next rfl) ⟨_, .tail _ (.head _), rfl⟩
    exact .flow (.tail _ (.head _)) second (.next rfl) ⟨_, .tail _ (.tail _ (.head _)), rfl⟩
  have handlers : sampleCode.handlers.getD 3 [] = [⟨none, 4⟩] := by cbv
  have selects :
      (Site.ofCode { types := #["[I"] }
        ⟨⟨"a/B", "f", ["I"], "V"⟩, 8, none⟩ sampleCode sampleOptions).map
      (fun site => (site.blocks.run (.empty .simple)).1.map fun blocks => blocks[(3 : UInt32)]?) =
      .ok (.ok (some [.label (some 3), .load ⟨1, .ofInt⟩, .plain [188, 10],
        .store ⟨0, .ofRef⟩])) := by cbv
  have emits :
      ((compile { types := #["[I"] }
        ⟨⟨"a/B", "f", ["I"], "V"⟩, 8, none⟩ sampleCode sampleOptions).run
      (.empty .simple)).1.map
        (fun b =>
          (((b.simplify sampleOptions).assignSlots sampleOptions).sizeJumps.emit sampleOptions).1) =
      .ok (.ok (sampleCodeBytes, [⟨4, 7, 9, 0⟩])) := by cbv
  obtain ⟨b, later, ran, emitted⟩ := ExceptT.exists_run_eq emits
  obtain ⟨⟨result, assembled⟩, done⟩ : ∃ r,
    ((b.simplify sampleOptions).assignSlots sampleOptions).sizeJumps.emit
    sampleOptions = r := ⟨_, rfl⟩
  rw [done] at emitted
  obtain rfl : result = .ok (sampleCodeBytes, [⟨4, 7, 9, 0⟩]) := emitted
  obtain ⟨site, blocks, middle, rowsOf, prepared, selected, _, faithful⟩ :=
    exceptionTable_faithful _ _ _ _ .asListed _ _ _ _ _ _ _ sampleCode_contiguous ran
      (.inl rfl) done
  rw [prepared] at selects
  obtain ⟨block, found, each⟩ := faithful 3 reachable
  have allocation : block[2]? = some (.plain [188, 10]) := by
    have chosen := Except.ok.inj selects
    dsimp only at chosen
    rw [selected] at chosen
    cases found.symm.trans (Except.ok.inj chosen)
    rfl
  obtain ⟨tag, offset, line, position, stands, covering, _, packs⟩ := each 2 _ allocation
  refine ⟨b, later, assembled, tag, offset, ran, done, line, position, stands, ?_⟩
  rw [handlers, ← covering, List.filter_cons, List.filter_nil] at packs
  cases covers : (⟨4, 7, 9, 0⟩ : TableRow).covers offset with
  | true =>
    rw [covers, if_pos rfl] at packs
    cases packs with
    | cons first _ => exact ⟨rfl, first⟩
  | false =>
    rw [covers, if_neg Bool.false_ne_true] at packs
    cases packs

end Register

end Restack
