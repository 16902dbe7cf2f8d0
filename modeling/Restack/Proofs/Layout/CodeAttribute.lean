import Restack.Proofs.Bytes.Readers
import Restack.Proofs.Layout.Encodable

set_option autoImplicit false

namespace Restack

variable {table : List TableRow}

namespace TableRow

def read (bytes : Bytes) : Option (TableRow × Bytes) := do
  let (start, bytes) ← Bytes.word 2 bytes
  let (stop, bytes) ← Bytes.word 2 bytes
  let (handler, bytes) ← Bytes.word 2 bytes
  let (classRef, bytes) ← Bytes.word 2 bytes
  return (⟨start.toUInt16, stop.toUInt16, handler.toUInt16, classRef.toUInt16⟩, bytes)

theorem holds_encode (r : TableRow) : Bytes.Holds read r.encode r := by
  intro rest
  rw [encode, read]
  simp [Bytes.word_ofUInt16]

end TableRow

/-- The content of a code attribute: what it declares, its code and exception table, and how many
attributes of its own follow. -/
structure CodeContent where
  maxStack : Nat
  locals : Nat
  code : Bytes
  table : List TableRow
  attributes : Nat

namespace CodeContent

def read (bytes : Bytes) : Option (CodeContent × Bytes) := do
  let (maxStack, bytes) ← Bytes.word 2 bytes
  let (locals, bytes) ← Bytes.word 2 bytes
  let (size, bytes) ← Bytes.word 4 bytes
  let (code, bytes) ← Bytes.cut size bytes
  let (count, bytes) ← Bytes.word 2 bytes
  let (table, bytes) ← Bytes.several TableRow.read count bytes
  let (attributes, bytes) ← Bytes.word 2 bytes
  return (⟨maxStack, locals, code, table, attributes⟩, bytes)

theorem bounds_of_read {bytes rest : Bytes} {content : CodeContent}
    (found : read bytes = some (content, rest)) :
    content.code.length < 2 ^ 32 ∧ content.table.length < 2 ^ 16 := by
  obtain ⟨⟨_, _⟩, _, found⟩ := Option.bind_eq_some_iff.1 found
  obtain ⟨⟨_, _⟩, _, found⟩ := Option.bind_eq_some_iff.1 found
  obtain ⟨⟨size, _⟩, sized, found⟩ := Option.bind_eq_some_iff.1 found
  obtain ⟨⟨code, _⟩, coded, found⟩ := Option.bind_eq_some_iff.1 found
  obtain ⟨⟨count, _⟩, counted, found⟩ := Option.bind_eq_some_iff.1 found
  obtain ⟨⟨table, _⟩, listed, found⟩ := Option.bind_eq_some_iff.1 found
  obtain ⟨⟨_, _⟩, _, same⟩ := Option.bind_eq_some_iff.1 found
  cases same
  have code_size := Bytes.word_lt sized
  have table_count := Bytes.word_lt counted
  rw [(Bytes.cut_eq_some coded).1, Bytes.length_of_several listed]
  omega

theorem read_encodeAttribute (locals : UInt16) (code : Bytes) (table : List TableRow)
    (short : code.length < 2 ^ 32) :
    read (Body.encodeAttribute locals code table) = do
      let (attributes, rest) ← Bytes.word 2
        ((table.drop (table.length % 2 ^ 16)).flatMap TableRow.encode ++ Bytes.ofUInt16 0)
      return (⟨Body.maxStack.toNat, locals.toNat, code, table.take (table.length % 2 ^ 16),
        attributes⟩, rest) := by
  have size : code.length.toUInt32.toNat = code.length := by
    simp only [Nat.toUInt32_eq, UInt32.toNat_ofNat']
    omega
  have kept : (table.take (table.length % 2 ^ 16)).length = table.length.toUInt16.toNat := by
    have le := Nat.mod_le table.length (2 ^ 16)
    rw [List.length_take_of_le le, Nat.toUInt16_eq, UInt16.toNat_ofNat']
  have split : table.flatMap TableRow.encode =
      (table.take (table.length % 2 ^ 16)).flatMap TableRow.encode ++
        (table.drop (table.length % 2 ^ 16)).flatMap TableRow.encode := by
    rw [← List.flatMap_append, List.take_append_drop]
  rw [read, Body.encodeAttribute, split]
  simp only [List.append_assoc, Bytes.word_ofUInt16, Bytes.word_ofUInt32, size,
    Bytes.cut_append, ← kept,
    Bytes.several_flatMap TableRow.holds_encode, Option.bind_eq_bind, Option.bind_some]

theorem read_short {locals : UInt16} {code : Bytes} (short : code.length < 2 ^ 32)
    (few : table.length < 2 ^ 16) :
    read (Body.encodeAttribute locals code table) =
      some (⟨Body.maxStack.toNat, locals.toNat, code, table, 0⟩, []) := by
  rw [read_encodeAttribute locals code table short, Nat.mod_eq_of_lt few, List.take_length,
    List.drop_length]
  rfl

theorem read_crowded {locals : UInt16} {code : Bytes} (short : code.length < 2 ^ 32)
    (many : 2 ^ 16 ≤ table.length) :
    ∃ next rest, table[table.length % 2 ^ 16]? = some next ∧ rest ≠ [] ∧
      read (Body.encodeAttribute locals code table) =
        some (⟨Body.maxStack.toNat, locals.toNat, code, table.take (table.length % 2 ^ 16),
          next.start.toNat⟩, rest) := by
  have inside : table.length % 2 ^ 16 < table.length :=
    Nat.lt_of_lt_of_le (Nat.mod_lt _ (by decide)) many
  obtain ⟨next, at_next⟩ : ∃ next, table[table.length % 2 ^ 16]? = some next :=
    ⟨_, List.getElem?_eq_getElem inside⟩
  have more : table.drop (table.length % 2 ^ 16) =
      next :: table.drop (table.length % 2 ^ 16 + 1) := by
    rw [List.drop_eq_getElem_cons inside, (List.getElem?_eq_some_iff.1 at_next).2]
  refine ⟨next,
    Bytes.ofUInt16 next.stop ++ (Bytes.ofUInt16 next.handler ++ (Bytes.ofUInt16 next.classRef ++
      ((table.drop (table.length % 2 ^ 16 + 1)).flatMap TableRow.encode ++ Bytes.ofUInt16 0))),
    at_next, ?_, ?_⟩
  · exact List.cons_ne_nil _ _
  · rw [read_encodeAttribute locals code table short, more, List.flatMap_cons, TableRow.encode]
    simp only [List.append_assoc, Bytes.word_ofUInt16, Option.bind_eq_bind, Option.bind_some]
    rfl

end CodeContent

namespace Body

theorem packs_of_tableRows {b : Body} (done : b.tableRows (positionByTag b.lines) = .ok table) :
    List.Forall₂ b.Packs (b.rows.filter b.isSpanned) table := by
  obtain ⟨rfl, packs⟩ := tableRows_eq_ok done
  exact List.forall₂_map_right_iff.2 (List.forall₂_same.2 packs)

theorem packs_of_assemble {b after : Body} {o : Options} {content : Bytes}
    (done : b.assemble o = (.ok content, after)) :
    after.isSpanned = b.sizeJumps.isSpanned ∧
      ∃ code table, after.code = .ok code ∧
      List.Forall₂ after.Packs (b.rows.filter after.isSpanned) table ∧
        content = encodeAttribute after.locals code table := by
  obtain ⟨code, table, emitted, written⟩ := assemble_eq_ok done
  obtain ⟨_, jumps, coded, packed⟩ := emit_eq_ok emitted
  have positions := positionByTag_congr (sameExtent_assembleJumps jumps)
  have rows : after.rows = b.rows := (assembleJumps_lines jumps).2.1
  refine ⟨?_, code, table, coded, ?_, written⟩
  · funext r
    unfold isSpanned
    rw [positionBefore_assembleJumps jumps, positions]
  · rw [← rows]
    apply packs_of_tableRows
    rwa [← positions]

/-- What is assembled is read back as it is exactly if the length of the code and the number of rows
fit in their fields. With too many rows, as many are read as the written count says, the next one is
taken for the number of attributes, and bytes are left. -/
theorem assemble_read_iff (b after : Body) (o : Options) (content : Bytes)
    (done : b.assemble o = (.ok content, after)) :
    ∃ code table, after.code = .ok code ∧
    List.Forall₂ after.Packs (b.rows.filter after.isSpanned) table ∧
      (CodeContent.read content = some (⟨300, after.locals.toNat, code, table, 0⟩, []) ↔
        code.length < 2 ^ 32 ∧ table.length < 2 ^ 16) ∧
      (code.length < 2 ^ 32 → 2 ^ 16 ≤ table.length →
        ∃ next rest, table[table.length % 2 ^ 16]? = some next ∧ rest ≠ [] ∧
        CodeContent.read content =
          some (⟨300, after.locals.toNat, code, table.take (table.length % 2 ^ 16),
            next.start.toNat⟩, rest)) := by
  obtain ⟨_, code, table, coded, packs, rfl⟩ := packs_of_assemble done
  refine ⟨code, table, coded, packs, ⟨fun found => ?_, fun fits => ?_⟩, fun short many => ?_⟩
  · exact CodeContent.bounds_of_read found
  · exact CodeContent.read_short fits.1 fits.2
  · exact CodeContent.read_crowded short many

def guardedReturn (handlers : Nat) : Body :=
  { ofInsns "m" [.label (some 0), .label none, .op Op.vreturn, .label none] with
    rows := List.replicate handlers ⟨1, 3, 0, 0⟩ }

theorem guardedReturn_assembled (handlers : Nat) :
    (∃ content after, (guardedReturn handlers).assemble .all = (.ok content, after)) ∧
      ((guardedReturn handlers).rows.filter (guardedReturn handlers).sizeJumps.isSpanned).length =
        handlers := by
  -- Positions depend on the lines only, so they are those of the body without handlers.
  have start : (guardedReturn handlers).sizeJumps.positionBefore.getD 1 0 = 0 := by
    have few : (guardedReturn 0).sizeJumps.positionBefore.getD 1 0 = 0 := by cbv
    exact few
  have stop : (positionByTag (guardedReturn handlers).sizeJumps.lines).getD 3 0 = 1 := by
    have few : (positionByTag (guardedReturn 0).sizeJumps.lines).getD 3 0 = 1 := by cbv
    exact few
  have handler : (positionByTag (guardedReturn handlers).sizeJumps.lines).getD 0 0 = 0 := by
    have few : (positionByTag (guardedReturn 0).sizeJumps.lines).getD 0 0 = 0 := by cbv
    exact few
  have straight : ∀ l ∈ (guardedReturn handlers).lines, l.insn.targets = [] ∧
      ∀ a, l.insn ≠ .access a := by
    have few : ∀ l ∈ (guardedReturn 0).lines, l.insn.targets = [] ∧ ∀ a, l.insn ≠ .access a := by
      simp [guardedReturn, ofInsns, Insn.targets, Insn.op]
    exact few
  have complete : (guardedReturn handlers).Complete := by
    constructor
    · intro l member t target
      rw [(straight l member).1] at target
      cases target
    · intro l member a access
      exact absurd access ((straight l member).2 a)
  have encodable : (guardedReturn handlers).sizeJumps.Encodable := by
    refine ⟨hasForm_of_straight fun l member => (straight l member).1, ?_⟩
    intro r member _
    cases List.eq_of_mem_replicate member
    rw [start, stop, handler]
    decide
  constructor
  · rcases assemble_outcome complete with ⟨_, assembled⟩ | ⟨far, _⟩
    · exact assembled
    · exact absurd encodable far
  · rw [List.filter_eq_self.2, guardedReturn, List.length_replicate]
    intro r member
    cases List.eq_of_mem_replicate member
    rw [isSpanned, start, stop]
    rfl

theorem guardedReturn_crowded :
    ∃ content after, (guardedReturn 65536).assemble .all = (.ok content, after) ∧
      ∃ code table, after.code = .ok code ∧
        List.Forall₂ after.Packs ((guardedReturn 65536).rows.filter after.isSpanned) table ∧
        table.length = 65536 ∧
        CodeContent.read content ≠ some (⟨300, after.locals.toNat, code, table, 0⟩, []) := by
  obtain ⟨⟨content, after, done⟩, spanned⟩ := guardedReturn_assembled 65536
  obtain ⟨code, table, coded, packs, read, _⟩ := assemble_read_iff _ _ _ _ done
  have many : table.length = 65536 := by
    rw [← packs.length_eq, (packs_of_assemble done).1, spanned]
  refine ⟨content, after, done, code, table, coded, packs, many, fun found => ?_⟩
  have few := (read.1 found).2
  omega

end Body

end Restack
