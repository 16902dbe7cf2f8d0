import Restack.Proofs.Register.Linking
import Restack.Proofs.Selection.BodyStacks

set_option autoImplicit false

namespace Restack.Register

variable {i : Instr}

def Instr.Produces (i : Instr) : Prop := i.family.isInvoke = true ∨ i.family = .filledNewArray

theorem Instr.Produces.straight (produces : i.Produces) : i.family.isControlFlow = false := by
  rcases produces with invokes | filled
  · cases family : i.family <;> simp_all [Family.isControlFlow, Family.isInvoke]
  · rw [filled]
    rfl

/-- A result is picked up right behind the instruction that leaves it, and control flow gets there
in no other way than from that instruction or as an exception. -/
def Code.Collects (code : Code) : Prop :=
  ∀ i ∈ code.instrs, code.Reachable i.position → ∀ j ∈ code.instrs, j.family = .moveResult →
    i.Leads j.position → i.Produces

/-- Positions go on from one instruction to the next, hints are filled in, results are picked up
where they are left, and no call has too many arguments. -/
structure Code.Regular (code : Code) (catalog : Catalog) (raw : Code) : Prop where
  formed : catalog.WellFormed
  decoded : ∀ i ∈ code.instrs, i.family = .ofOpcode i.opcode
  contiguous : code.Contiguous
  blank : ∀ i ∈ raw.instrs, i.resultType = none
  linked : raw.link catalog = (code, none)
  collects : code.Collects
  few : ∀ i ∈ code.instrs, i.family.isInvoke = true → i.registers.length ≤ 255

/-- Where an exception is picked up, no call right in front has a result of two slots. -/
def Code.CatchesNarrow (catalog : Catalog) (code : Code) : Prop :=
  ∀ (n : Nat) (i j : Instr), code.instrs[n]? = some i → code.instrs[n + 1]? = some j →
    j.family = .moveResult →
    code.Catches j.position → i.family.isInvoke = true →
      ∀ m, i.index 0 >>= catalog.method = .ok m → m.result ≠ "J" ∧ m.result ≠ "D"

/-- No array literal that is picked up has a type of two slots. -/
def Code.FillsNarrow (catalog : Catalog) (code : Code) : Prop :=
  ∀ (n : Nat) (i j : Instr), code.instrs[n]? = some i → code.instrs[n + 1]? = some j →
    j.family = .moveResult →
    i.family = .filledNewArray → ∀ d, i.index 0 >>= catalog.type = .ok d → d ≠ "J" ∧ d ≠ "D"

section Results

variable {catalog : Catalog} {code : Code} {i j : Instr}

theorem width_ofDescriptor_eq_one {d : String} (type : IsType d) (narrow : d ≠ "J" ∧ d ≠ "D") :
    (Kinds.ofDescriptor d).width = 1 := by
  obtain ⟨t, parsed⟩ := type
  rw [Kinds.width, if_neg]
  rw [TypeDesc.isWide_ofDescriptor_iff parsed]
  exact not_or.2 narrow

theorem finds_eq_leaves (formed : catalog.WellFormed) (narrow : code.FillsNarrow catalog) {n : Nat}
    (at_n : code.instrs[n]? = some i) (at_next : code.instrs[n + 1]? = some j)
    {catches : List UInt32} (hint : resultHint catalog catches i j = .ok j.resultType)
    (picks : j.family = .moveResult) (produces : i.Produces) :
    j.finds = i.leaves catalog := by
  rw [resultHint, if_neg (not_not.2 picks)] at hint
  rw [Instr.finds, if_pos picks, Instr.leaves]
  by_cases filled : i.family = .filledNewArray
  · rw [filled, if_neg (by decide), if_pos rfl] at hint
    obtain ⟨index, at_index, rest⟩ := Except.bind_eq_ok.1 hint
    obtain ⟨d, found, last⟩ := Except.bind_eq_ok.1 rest
    rw [← Except.ok.inj last, if_pos filled]
    have one := width_ofDescriptor_eq_one (formed.type found)
      (narrow n i j at_n at_next picks filled d (Except.bind_eq_ok.2 ⟨index, at_index, found⟩))
    simp [one]
  · have invokes : i.family.isInvoke = true := produces.resolve_right filled
    rw [if_pos invokes] at hint
    obtain ⟨index, at_index, rest⟩ := Except.bind_eq_ok.1 hint
    obtain ⟨called, found, last⟩ := Except.bind_eq_ok.1 rest
    rw [← Except.ok.inj last, if_neg filled, if_pos invokes,
      Except.bind_eq_ok.2 ⟨index, at_index, found⟩]
    dsimp only
    split <;> rfl

end Results

namespace Site.Compiled

variable {s : Site} {blocks : Blocks} {rows : List AnchoredRow} {pieces : List Piece} {b : Body}
  {final : Pool}

section Compiled

variable (compiled : s.Compiled blocks rows pieces b final)
include compiled

theorem free_of_collects (collects : s.code.Collects) :
    ∀ l ∈ b.lines, ∀ q ∈ l.insn.targets, s.isMoveResult q = false := by
  intro l member q target
  obtain ⟨k, here⟩ := List.getElem?_of_mem member
  obtain ⟨anchored, there, rfl⟩ := compiled.laid.anchored_of_line here
  obtain ⟨x, j, within, at_j⟩ := exists_within there
  cases x with
  | way p jumps =>
    obtain ⟨_, _, _, no_pick⟩ := compiled.row_of_way within.mem
    rcases Piece.mem_way (List.mem_of_getElem? at_j) with other | other | goto
    · simp [other, Insn.targets] at target
    · simp [other, Insn.targets] at target
    · have same : q = p := by simpa [goto, Insn.targets, Insn.goto] using target
      exact same ▸ no_pick
  | block p a =>
    by_contra picks
    obtain ⟨j, in_code, rfl, family⟩ := (compiled.picks q).1 (by simpa using picks)
    obtain ⟨_, _, _, reachable, _⟩ := compiled.stocked p a within.mem
    obtain ⟨i, from_code, rfl, _, _, selected⟩ := compiled.laid.block within.mem
    rcases selected.line (List.mem_of_getElem? at_j) with ⟨_, label⟩ | admits
    · simp [label, Insn.targets] at target
    · obtain ⟨control, leads⟩ := admits.leads _ target
      have straight := (collects i from_code reachable j in_code family leads).straight
      rw [control] at straight
      cases straight

theorem passed_of_hinted (formed : s.catalog.WellFormed) (hinted : s.code.Hinted s.catalog)
    (collects : s.code.Collects) (narrow : s.code.FillsNarrow s.catalog)
    (member : i ∈ s.code.instrs) (reachable : s.code.Reachable i.position)
    (goes_on : i.family.endsFlow = false) :
    s.code.findsAt i.next = if s.isMoveResult i.next then i.leaves s.catalog else [] := by
  split
  next picks =>
    obtain ⟨n, at_n⟩ := List.getElem?_of_mem member
    obtain ⟨j, at_next, position⟩ := compiled.contiguous.next n i at_n goes_on
    have in_code := List.mem_of_getElem? at_next
    obtain ⟨j', in_code', same, family⟩ := (compiled.picks _).1 picks
    cases compiled.instr_unique in_code' in_code (same.trans position.symm)
    rw [← position, Code.findsAt_position compiled.contiguous in_code]
    have leads : i.Leads j.position := position ▸ .next goes_on
    exact finds_eq_leaves formed narrow at_n at_next (hinted.next n i j at_n at_next) family
      (collects i member reachable j in_code family leads)
  next no_pick => exact compiled.findsAt_eq_nil (by simpa using no_pick)

theorem caught_of_hinted (formed : s.catalog.WellFormed) (hinted : s.code.Hinted s.catalog)
    (apart : s.code.CatchesNarrow s.catalog) (narrow : s.code.FillsNarrow s.catalog) {q : UInt32}
    (picks : s.isMoveResult q = true) (caught : s.code.Catches q) : s.code.findsAt q = [1] := by
  obtain ⟨i, member, rfl, family⟩ := (compiled.picks q).1 picks
  have reachable : s.code.Reachable i.position := by
    obtain ⟨j, in_code, reached, h, inside, same⟩ := id caught
    exact same ▸ .caught in_code reached inside ⟨i, member, same.symm⟩
  obtain ⟨a, _, placed⟩ := compiled.laid.placed_of_reachable compiled.closed reachable
  obtain ⟨i', in_code, same, _, _, d, type, _⟩ := compiled.store_of_picks placed picks
  cases compiled.instr_unique in_code member same
  obtain ⟨n, at_n⟩ := List.getElem?_of_mem member
  obtain ⟨m, before, rfl, at_m, _, source⟩ := hinted.before at_n type
  rw [Code.findsAt_position compiled.contiguous member, Instr.finds, if_pos family, type]
  -- Whatever the type comes from, a value of it takes one slot, as the exception does.
  cases source with
  | call invokes found _ result =>
    obtain ⟨_, _, named⟩ := Except.bind_eq_ok.1 found
    have one := width_ofDescriptor_eq_one (formed.method named).result
      (apart m before i at_m at_n family caught invokes _ found)
    simp [result, one]
  | array filled found =>
    obtain ⟨_, _, named⟩ := Except.bind_eq_ok.1 found
    have one := width_ofDescriptor_eq_one (formed.type named)
      (narrow m before i at_m at_n family filled _ found)
    simp [one]
  | exception _ _ _ throwable =>
    rw [throwable]
    decide

theorem start_of_hinted (hinted : s.code.Hinted s.catalog) : s.code.findsAt 0 = [] := by
  by_cases picks : s.isMoveResult 0 = true
  · obtain ⟨i, member, position, family⟩ := (compiled.picks 0).1 picks
    rw [← position, Code.findsAt_position compiled.contiguous member, Instr.finds, if_pos family]
    cases type : i.resultType with
    | none => rfl
    | some d =>
      obtain ⟨n, at_n⟩ := List.getElem?_of_mem member
      obtain ⟨m, before, rfl, at_m, _⟩ := hinted.before at_n type
      obtain ⟨m_lt, rfl⟩ := List.getElem?_eq_some_iff.1 at_m
      obtain ⟨n_lt, rfl⟩ := List.getElem?_eq_some_iff.1 at_n
      have less :=
        List.pairwise_iff_getElem.1 compiled.contiguous.ascending m (m + 1) m_lt n_lt (by omega)
      rw [position] at less
      exact absurd less UInt32.not_lt_zero
  · exact compiled.findsAt_eq_nil (by simpa using picks)

theorem supplied (formed : s.catalog.WellFormed) (hinted : s.code.Hinted s.catalog)
    (collects : s.code.Collects) (apart : s.code.CatchesNarrow s.catalog)
    (narrow : s.code.FillsNarrow s.catalog) : s.Supplied b where
  start := compiled.start_of_hinted hinted
  free := compiled.free_of_collects collects
  passed _ member reachable goes_on :=
    compiled.passed_of_hinted formed hinted collects narrow member reachable goes_on
  caught _ picks caught := compiled.caught_of_hinted formed hinted apart narrow picks caught

theorem stored_at_head {k : Nat} (member : i ∈ s.code.instrs) (family : i.family = .moveResult)
    (head : b.heads[i.position]? = some k) :
    ∃ v, (b.lines[k + 1]?).map Line.insn = some (.store v) ∧ i.finds = [v.width] := by
  obtain ⟨a, within⟩ := compiled.laid.head_within head
  have picks := (compiled.picks i.position).2 ⟨i, member, rfl, family⟩
  obtain ⟨i', in_code, same, _, r, d, type, second⟩ := compiled.store_of_picks within.mem picks
  cases compiled.instr_unique in_code member same
  refine ⟨⟨r, .ofDescriptor d⟩, ?_, ?_⟩
  · rw [compiled.laid.line_within (within.shift (List.getElem?_eq_some_iff.1 second).1) second]
    rfl
  · rw [Instr.finds, if_pos family, type]
    rfl

end Compiled

end Site.Compiled

theorem exists_compiled {catalog : Catalog} {method : Method} {code : Code} {options : Options}
    {pool later final : Pool} {b : Body} (formed : catalog.WellFormed)
    (slots : ∀ d, some d ∈ method.slots → IsType d) (contiguous : code.Contiguous)
    (decoded : ∀ i ∈ code.instrs, i.family = .ofOpcode i.opcode)
    (few : ∀ i ∈ code.instrs, i.family.isInvoke = true → i.registers.length ≤ 255)
    (hinted : code.Hinted catalog)
    (done : (compile catalog method code options).run pool = (.ok b, later))
    (grows : later.Grows final) :
    ∃ (s : Site) (blocks : Blocks) (rows : List AnchoredRow) (pieces : List Piece),
      s.code = code ∧ s.catalog = catalog ∧ s.Compiled blocks rows pieces b final := by
  obtain ⟨s, blocks, middle, rows, pieces, prepared, selected, guarded, _, laid⟩ :=
    compile_eq_ok done
  obtain ⟨inferred, rfl, rfl, rfl, _⟩ := Site.ofCode_eq_ok prepared
  have closed := infer_closed contiguous.nodup inferred
  obtain ⟨rowsOf, table⟩ := rows_eq_ok guarded
  have grows_middle : middle.Grows final := (run_rows_eq_ok guarded).1.grows.trans _ _ _ grows
  refine ⟨s, blocks, rows, pieces, rfl, rfl, laid, contiguous, closed, ?_, fun p a placed => ?_,
    fun r member => ?_, fun p a found x inside plain h caught => ?_⟩
  · exact Site.isMoveResult_iff contiguous.nodup prepared
  · obtain ⟨i, member, rfl, frame, state, before, after, ran, reaches⟩ :=
      (Site.blocks_eq_ok selected).2.1 p a (laid.block_of_piece placed)
    have real : frame.Real := real_infer formed slots hinted inferred state
    obtain ⟨rest, rfl, stocked⟩ :=
      stocked_of_selectBlock formed (decoded i member) (few i member) real ran
      (reaches.grows.trans _ _ _ grows_middle)
    obtain ⟨rest', same, admitted⟩ := (block_of_selectBlock ran).headed
    cases same
    exact ⟨i, member, rfl, closed.reached _ (by rw [state]; rfl), rest, rfl, admitted, stocked⟩
  · obtain ⟨p, inside⟩ := table.exists_rowsOf member
    obtain ⟨_, known, handlers, listed, h, caught, row⟩ := table.source inside
    refine ⟨p, known, row.start, row.stop, h, ?_, row.handler⟩
    rw [Std.TreeMap.getD_eq_getD_getElem?, listed]
    exact caught
  · obtain ⟨n, at_n⟩ := List.getElem?_of_mem caught
    obtain ⟨r, at_r, row⟩ := forall₂_getElem? (table.each found inside plain) at_n
    exact ⟨r, (table.source (List.mem_of_getElem? at_r)).1, row.handler⟩

/-- **Operand stack discipline.** On every path through a compiled body each line finds on the stack
what it takes and uses no more than 300 slots, and the same holds whatever passes are run. The block
of an instruction starts with an empty stack, unless it picks up a result: then there is exactly one
value, of the width that the block stores. -/
theorem compile_stack_disciplined (catalog : Catalog) (method : Method) (raw code : Code)
    (options : Options) (pool later final : Pool) (b : Body) (regular : code.Regular catalog raw)
    (slots : ∀ d, some d ∈ method.slots → IsType d) (apart : code.CatchesNarrow catalog)
    (narrow : code.FillsNarrow catalog)
    (done : (compile catalog method code options).run pool = (.ok b, later))
    (grows : later.Grows final) :
    b.Contained final 300 ∧ (∀ o handOver, (b.simplify o handOver).Contained final 300) ∧
      ∀ (k : Nat) (t : Operands) (l : Line) (i : Instr), b.Reaches final k t →
      b.lines[k]? = some l → i ∈ code.instrs →
        b.heads[i.position]? = some l.tag → (i.family ≠ .moveResult → t = []) ∧
          (i.family = .moveResult → ∃ v, (b.lines[k + 1]?).map Line.insn = some (.store v) ∧
            t = [v.width]) := by
  obtain ⟨formed, decoded, contiguous, blank, linked, collects, few⟩ := regular
  have hinted := Code.hinted_link blank linked
  obtain ⟨s, blocks, rows, pieces, rfl, rfl, compiled⟩ :=
    exists_compiled formed slots contiguous decoded few hinted done grows
  have supplied := compiled.supplied formed hinted collects apart narrow
  have simplified (o : Options) (handOver : HandOver) :
      (b.simplify o handOver).Contained final 300 :=
    (compiled.orderly supplied).contained_simplify (compiled.linked supplied) (fun tag entered => by
      obtain ⟨q, label⟩ := compiled.named entered
      exact ⟨_, List.mem_of_getElem? label, rfl, q, rfl⟩) (by decide) o handOver
  refine ⟨simplified .none .asListed, simplified, fun k t l i reaches here member head => ?_⟩
  have found := compiled.stack_at_head supplied reaches here head
  rw [Code.findsAt_position contiguous member] at found
  refine ⟨fun other => ?_, fun family => ?_⟩
  · rw [found, Instr.finds, if_neg other]
  · obtain ⟨v, stores, width⟩ :=
      compiled.stored_at_head member family (compiled.laid.tag_eq here ▸ head)
    exact ⟨v, stores, found.trans width⟩

def pickedLiteral (guards : List Guard) : Code where
  registers := 2
  guards := guards
  instrs := [.ofOpcode 0x24 0 1 [0], .ofOpcode 0x0c 1 2 [0], .ofOpcode 0x0e 2 3 []]

def pickedLiteralLinked (guards : List Guard) (type : String) : Code :=
  { pickedLiteral guards with
    instrs :=
      [.ofOpcode 0x24 0 1 [0], { Instr.ofOpcode 0x0c 1 2 [0] with resultType := some type },
        .ofOpcode 0x0e 2 3 []] }

section PickedLiteral

variable (guards : List Guard) (type : String)

theorem pickedLiteral_blank : ∀ i ∈ (pickedLiteral guards).instrs, i.resultType = none := by
  simp [pickedLiteral, Instr.ofOpcode]

theorem pickedLiteralLinked_cases (member : i ∈ (pickedLiteralLinked guards type).instrs) :
    i = .ofOpcode 0x24 0 1 [0] ∨ i = { Instr.ofOpcode 0x0c 1 2 [0] with resultType := some type } ∨
      i = .ofOpcode 0x0e 2 3 [] := by
  simpa [pickedLiteralLinked] using member

theorem pickedLiteralLinked_contiguous : (pickedLiteralLinked guards type).Contiguous := by
  refine ⟨by simp [pickedLiteralLinked, Instr.ofOpcode], fun n i here goes_on => ?_⟩
  rcases n with _ | _ | _ | n <;> cases here
  · exact ⟨_, rfl, rfl⟩
  · exact ⟨_, rfl, rfl⟩
  · cases goes_on

theorem pickedLiteralLinked_collects : (pickedLiteralLinked guards type).Collects := by
  intro i member _ j in_code family leads
  obtain rfl : j = { Instr.ofOpcode 0x0c 1 2 [0] with resultType := some type } := by
    rcases pickedLiteralLinked_cases guards type in_code with rfl | rfl | rfl
    · cases family
    · rfl
    · cases family
  rcases pickedLiteralLinked_cases guards type member with rfl | rfl | rfl
  · exact .inr rfl
  · cases (leads_of_straight rfl leads).2
  · cases (leads_of_straight rfl leads).1

theorem pickedLiteralLinked_catchesNarrow :
    (pickedLiteralLinked guards type).CatchesNarrow { types := #[type] } := by
  intro n i j at_n _ _ _ invokes
  rcases pickedLiteralLinked_cases guards type (List.mem_of_getElem? at_n) with rfl | rfl |
    rfl <;> cases invokes

theorem pickedLiteralLinked_decoded :
    ∀ i ∈ (pickedLiteralLinked guards type).instrs, i.family = .ofOpcode i.opcode := by
  intro i member
  rcases pickedLiteralLinked_cases guards type member with rfl | rfl | rfl <;> rfl

theorem pickedLiteralLinked_few :
    ∀ i ∈ (pickedLiteralLinked guards type).instrs, i.family.isInvoke = true →
    i.registers.length ≤ 255 := by
  intro i member invokes
  rcases pickedLiteralLinked_cases guards type member with rfl | rfl | rfl <;> cases invokes

theorem pickedLiteralLinked_fillsNarrow (narrow : type ≠ "J" ∧ type ≠ "D") :
    (pickedLiteralLinked guards type).FillsNarrow { types := #[type] } := by
  intro n i j at_n _ _ filled d found
  rcases pickedLiteralLinked_cases guards type (List.mem_of_getElem? at_n) with rfl | rfl | rfl
  · cases found
    exact narrow
  · cases filled
  · cases filled

theorem wellFormed_single (formed : IsType type) : ({ types := #[type] } : Catalog).WellFormed :=
  ⟨fun d member => by simpa [List.mem_singleton.1 (by simpa using member)] using formed, by
    simp, by simp⟩

theorem pickedLiteralLinked_regular (formed : IsType type) :
    (pickedLiteralLinked guards type).Regular { types := #[type] } (pickedLiteral guards) where
  formed := wellFormed_single type formed
  decoded := pickedLiteralLinked_decoded guards type
  contiguous := pickedLiteralLinked_contiguous guards type
  blank := pickedLiteral_blank guards
  linked := rfl
  collects := pickedLiteralLinked_collects guards type
  few := pickedLiteralLinked_few guards type

end PickedLiteral

def literalMethod : Method := ⟨⟨"A", "m", [], "V"⟩, 9, none⟩

theorem literalMethod_slots : ∀ d, some d ∈ literalMethod.slots → IsType d := by
  intro d member
  cases member

theorem compile_pickedLiteral :
    ∃ b later, (compile { types := #["[I"] } literalMethod
        (pickedLiteralLinked [⟨0, 1, [⟨none, 2⟩]⟩] "[I") .none).run (.empty .simple) =
          (.ok b, later) ∧
      b.lines.take 6 = [⟨0, .label (some 0)⟩, ⟨1, .literal ⟨.ofInt, 0, [3]⟩⟩, ⟨2, .label none⟩,
        ⟨3, .plain [188, 10]⟩, ⟨4, .label none⟩, ⟨5, .label (some 1)⟩] ∧
      b.rows = [⟨2, 4, 9, 0⟩] ∧ b.heads[(1 : UInt32)]? = some 5 := by
  have shape : ((compile { types := #["[I"] } literalMethod
      (pickedLiteralLinked [⟨0, 1, [⟨none, 2⟩]⟩] "[I") .none).run (.empty .simple)).1.map
        (fun b => (b.lines.take 6, b.rows, b.heads[(1 : UInt32)]?)) =
      .ok ([⟨0, .label (some 0)⟩, ⟨1, .literal ⟨.ofInt, 0, [3]⟩⟩, ⟨2, .label none⟩,
        ⟨3, .plain [188, 10]⟩,
        ⟨4, .label none⟩, ⟨5, .label (some 1)⟩], [⟨2, 4, 9, 0⟩], some 5) := by cbv
  obtain ⟨b, later, ran, parts⟩ := ExceptT.exists_run_eq shape
  simp only [Prod.mk.injEq] at parts
  exact ⟨b, later, ran, parts⟩

theorem pickedLiteral_stack_disciplined :
    ∃ b later,
      (compile { types := #["[I"] } literalMethod
        (pickedLiteralLinked [⟨0, 1, [⟨none, 2⟩]⟩] "[I") .none).run
        (.empty .simple) = (.ok b, later) ∧ b.rows = [⟨2, 4, 9, 0⟩] ∧
      b.Contained later 300 ∧ (∀ o handOver, (b.simplify o handOver).Contained later 300) ∧
      b.Reaches later 5 [1] ∧ b.heads[(1 : UInt32)]? = some 5 ∧
      ∃ v, (b.lines[6]?).map Line.insn = some (.store v) ∧ [1] = [v.width] := by
  obtain ⟨b, later, ran, lines, rows, head⟩ := compile_pickedLiteral
  have line (n : Nat) (early : n < 6) : b.lines[n]? = (b.lines.take 6)[n]? := by
    rw [List.getElem?_take_of_lt early]
  rw [lines] at line
  have label (q : Option UInt32) (t : Operands) : (Insn.label q).run? later 300 t = some t := rfl
  have length : (Insn.literal ⟨.ofInt, 0, [3]⟩).run? later 300 [] = some [1] := rfl
  have array : (Insn.plain [188, 10]).run? later 300 [1] = some [1] := rfl
  have path : b.Reaches later 5 [1] :=
    (((((Body.Reaches.entry.falls (line 0 (by decide)) (label _ _) rfl).falls
    (line 1 (by decide)) length rfl).falls (line 2 (by decide)) (label _ _) rfl).falls
    (line 3 (by decide)) array rfl).falls (line 4 (by decide)) (label _ _) rfl)
  obtain ⟨contained, simplified, stack⟩ := compile_stack_disciplined _ _ _ _ _ _ _ later b
    (pickedLiteralLinked_regular _ _ ⟨.array .int, by cbv⟩) literalMethod_slots
    (pickedLiteralLinked_catchesNarrow _ _) (pickedLiteralLinked_fillsNarrow _ _ (by decide)) ran
      (.refl later)
  refine ⟨b, later, ran, rows, contained, simplified, path, head, ?_⟩
  exact (stack 5 [1] _ _ path (line 5 (by decide)) (.tail _ (.head _)) head).2 rfl

/-- Code with all that is asked of it, in which two slots are stored where one is found. -/
def Code.Underflows (code : Code) (catalog : Catalog) (raw : Code) : Prop :=
  code.Regular catalog raw ∧ (∀ d, some d ∈ literalMethod.slots → IsType d) ∧
    ∃ b later k, (compile catalog literalMethod code .none).run (.empty .simple) = (.ok b, later) ∧
      b.Reaches later k [1] ∧ (b.lines[k]?).map Line.insn = some (.store ⟨0, .ofLong⟩) ∧
      ¬ b.Contained later 300

theorem not_contained_of_reaches {b : Body} {p : Pool} {k : Nat} (reaches : b.Reaches p k [1])
    (stores : (b.lines[k]?).map Line.insn = some (.store ⟨0, .ofLong⟩)) : ¬ b.Contained p 300 := by
  intro contained
  obtain ⟨l, here, insn⟩ := Option.map_eq_some_iff.1 stores
  have runs := (contained k [1] l reaches here).2
  rw [insn] at runs
  cases runs

theorem wideLiteral_underflows :
    (pickedLiteralLinked [] "J").Underflows { types := #["J"] } (pickedLiteral []) := by
  have shape :
      ((compile { types := #["J"] } literalMethod (pickedLiteralLinked [] "J") .none).run
        (.empty .simple)).1.map
      (fun b => b.lines.take 5) =
      .ok [⟨0, .label (some 0)⟩, ⟨1, .literal ⟨.ofInt, 0, [3]⟩⟩, ⟨2, .plain [189, 0, 2]⟩,
        ⟨3, .label (some 1)⟩, ⟨4, .store ⟨0, .ofLong⟩⟩] := by cbv
  obtain ⟨b, later, ran, lines⟩ := ExceptT.exists_run_eq shape
  have line (n : Nat) (early : n < 5) : b.lines[n]? = (b.lines.take 5)[n]? := by
    rw [List.getElem?_take_of_lt early]
  rw [lines] at line
  have label (q : Option UInt32) (t : Operands) : (Insn.label q).run? later 300 t = some t := rfl
  have length : (Insn.literal ⟨.ofInt, 0, [3]⟩).run? later 300 [] = some [1] := rfl
  have array : (Insn.plain [189, 0, 2]).run? later 300 [1] = some [1] := rfl
  have path : b.Reaches later 4 [1] :=
    (((Body.Reaches.entry.falls (line 0 (by decide)) (label _ _) rfl).falls
      (line 1 (by decide)) length rfl).falls (line 2 (by decide)) array rfl).falls
      (line 3 (by decide)) (label _ _) rfl
  have stores : (b.lines[4]?).map Line.insn = some (.store ⟨0, .ofLong⟩) := by
    rw [line 4 (by decide)]; rfl
  exact ⟨pickedLiteralLinked_regular _ _ ⟨.long, by cbv⟩, literalMethod_slots, b, later, 4, ran,
    path, stores, not_contained_of_reaches path stores⟩

/-- A guarded call whose handler picks up the exception right behind another call, to a method that
returns a long. -/
def caughtBehindCall : Code where
  registers := 2
  guards := [⟨0, 1, [⟨none, 3⟩]⟩]
  instrs :=
    [.ofOpcode 0x71 0 1 [0], .ofOpcode 0x0e 1 2 [], .ofOpcode 0x71 2 3 [1], .ofOpcode 0x0d 3 4 [0],
    .ofOpcode 0x0e 4 5 []]

def caughtBehindCallLinked : Code :=
  { caughtBehindCall with
    instrs :=
      [.ofOpcode 0x71 0 1 [0], .ofOpcode 0x0e 1 2 [], .ofOpcode 0x71 2 3 [1],
        { Instr.ofOpcode 0x0d 3 4 [0] with resultType := some "J" }, .ofOpcode 0x0e 4 5 []] }

def twoCalls : Catalog := { methods := #[⟨"A", "f", [], "V"⟩, ⟨"A", "g", [], "J"⟩] }

theorem caughtBehindCallLinked_regular :
    caughtBehindCallLinked.Regular twoCalls caughtBehindCall where
  formed := by
    refine ⟨by simp [twoCalls], by simp [twoCalls], fun m member => ?_⟩
    have cases : m = ⟨"A", "f", [], "V"⟩ ∨ m = ⟨"A", "g", [], "J"⟩ := by
      simpa [twoCalls] using member
    rcases cases with rfl | rfl
    · exact ⟨by simp, .void, by cbv⟩
    · exact ⟨by simp, .long, by cbv⟩
  decoded := by simp [caughtBehindCallLinked, Instr.ofOpcode]
  contiguous := by
    refine ⟨by simp [caughtBehindCallLinked, Instr.ofOpcode], fun n i here goes_on => ?_⟩
    rcases n with _ | _ | _ | _ | _ | n <;> cases here
    · exact ⟨_, rfl, rfl⟩
    · cases goes_on
    · exact ⟨_, rfl, rfl⟩
    · exact ⟨_, rfl, rfl⟩
    · cases goes_on
  blank := by simp [caughtBehindCall, Instr.ofOpcode]
  linked := rfl
  collects := by
    intro i member _ j in_code family leads
    have picks : j.position = 3 := by
      simp only [caughtBehindCallLinked, List.mem_cons, List.not_mem_nil, or_false] at in_code
      rcases in_code with rfl | rfl | rfl | rfl | rfl
      all_goals first | rfl | cases family
    rw [picks] at leads
    simp only [caughtBehindCallLinked, List.mem_cons, List.not_mem_nil, or_false] at member
    rcases member with rfl | rfl | rfl | rfl | rfl
    · exact .inl rfl
    · cases (leads_of_straight rfl leads).1
    · exact .inl rfl
    · cases (leads_of_straight rfl leads).2
    · cases (leads_of_straight rfl leads).1
  few := by simp [caughtBehindCallLinked, Instr.ofOpcode]

theorem caughtBehindCall_underflows :
    caughtBehindCallLinked.Underflows twoCalls caughtBehindCall := by
  have shape :
      ((compile twoCalls literalMethod caughtBehindCallLinked .none).run (.empty .simple)).1.map
      (fun b => (b.lines.take 8, b.rows)) =
      .ok ([⟨0, .label (some 0)⟩, ⟨1, .label none⟩, ⟨2, .plain [0xb8, 0, 6]⟩, ⟨3, .label none⟩,
        ⟨4, .label (some 1)⟩,
        ⟨5, .plain [0xb1]⟩, ⟨6, .label (some 3)⟩, ⟨7, .store ⟨0, .ofLong⟩⟩], [⟨1, 3, 6, 0⟩]) := by
          cbv
  obtain ⟨b, later, ran, parts⟩ := ExceptT.exists_run_eq shape
  simp only [Prod.mk.injEq] at parts
  obtain ⟨lines, rows⟩ := parts
  have line (n : Nat) (early : n < 8) : b.lines[n]? = (b.lines.take 8)[n]? := by
    rw [List.getElem?_take_of_lt early]
  rw [lines] at line
  have guarded : b.Guards ⟨1, 3, 6, 0⟩ 0 :=
    ⟨1, 3, _, _, line 1 (by decide), rfl, line 3 (by decide), rfl, by decide, by decide⟩
  have caught : b.Reaches later 6 [1] :=
    .throws .entry (by rw [rows]; exact List.mem_singleton_self _) guarded (line 6 (by decide)) rfl
  have label : (Insn.label (some 3)).run? later 300 [1] = some [1] := rfl
  have path : b.Reaches later 7 [1] := caught.falls (line 6 (by decide)) label rfl
  have stores : (b.lines[7]?).map Line.insn = some (.store ⟨0, .ofLong⟩) := by
    rw [line 7 (by decide)]; rfl
  exact ⟨caughtBehindCallLinked_regular, literalMethod_slots, b, later, 7, ran, path, stores,
    not_contained_of_reaches path stores⟩

theorem caughtBehindCallLinked_fillsNarrow : caughtBehindCallLinked.FillsNarrow twoCalls := by
  intro n i j at_n _ _ filled
  have member := List.mem_of_getElem? at_n
  simp only [caughtBehindCallLinked, List.mem_cons, List.not_mem_nil, or_false] at member
  rcases member with rfl | rfl | rfl | rfl | rfl <;> cases filled

/-- Neither of the two conditions on what is picked up can be left out. -/
theorem wideResults_underflow :
    ((pickedLiteralLinked [] "J").CatchesNarrow { types := #["J"] } ∧
      (pickedLiteralLinked [] "J").Underflows { types := #["J"] } (pickedLiteral [])) ∧
    (caughtBehindCallLinked.FillsNarrow twoCalls ∧
      caughtBehindCallLinked.Underflows twoCalls caughtBehindCall) :=
  ⟨⟨pickedLiteralLinked_catchesNarrow _ _, wideLiteral_underflows⟩,
    caughtBehindCallLinked_fillsNarrow, caughtBehindCall_underflows⟩

end Restack.Register
