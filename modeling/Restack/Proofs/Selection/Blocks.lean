import Restack.Proofs.Register.Writes
import Restack.Proofs.Selection.Select
import Restack.Selection.Compile

set_option autoImplicit false

namespace Restack.Register

/-- The block that was selected for an instruction in a state. If it can be passed through, the
instruction goes on, and every new use of a register is stored. -/
structure Instr.Block (catalog : Catalog) (i : Instr) (s : Frame) (block : List Insn) : Prop where
  headed : ∃ rest, block = .label (some i.position) :: rest ∧ ∀ x ∈ rest, i.Admits x
  passed : (∀ x ∈ block, x.fallsThrough = true) → i.family.endsFlow = false
  stores : i.Fits s → (∀ x ∈ block, x.fallsThrough = true) → ∀ after, i.Falls catalog s after →
    ∀ reg kind, kind ∈ Kinds.singles → (after.kindsOf reg).Has kind →
      (s.kindsOf reg).Has kind ∨ .store ⟨reg, kind⟩ ∈ block

section Blocks

variable {catalog : Catalog} {result : String} {delay pickedUp : Bool} {s : Frame} {i : Instr}
  {pool later : Pool}
  {block : List Insn}
    (done : (selectBlock catalog result delay pickedUp s i).run pool = (.ok block, later))

include done

theorem run_selectBlock_eq_ok :
    ∃ last, (select catalog result pickedUp i).run ⟨s, delay, pool, #[.label (some i.position)]⟩ =
      (.ok (), last) ∧
      last.insns.toList = block ∧ last.pool = later := by
  obtain ⟨⟨outcome, last⟩, ran⟩ : ∃ r, (select catalog result pickedUp i).run
      ⟨s, delay, pool, #[.label (some i.position)]⟩ = r := ⟨_, rfl⟩
  simp only [selectBlock, ExceptT.run_mk, ran] at done
  obtain ⟨⟨⟩, rfl, same⟩ := Except.map_eq_ok.1 (within_eq_ok (congrArg Prod.fst done))
  exact ⟨last, ran, same, congrArg Prod.snd done⟩

theorem selectBlock_extends : pool.Extends later := by
  obtain ⟨last, ran, rfl, rfl⟩ := run_selectBlock_eq_ok done
  exact (select_does result pickedUp _ _ _ rfl ran).2.1

theorem block_of_selectBlock : i.Block catalog s block := by
  obtain ⟨last, ran, rfl, rfl⟩ := run_selectBlock_eq_ok done
  obtain ⟨_, _, new, added, admitted, owes⟩ := select_does result pickedUp _ _ _ rfl ran
  have shape : last.insns.toList = .label (some i.position) :: new := by simpa using added
  -- An instruction that does not fall through rules out that the block is passed.
  have stops : i.family.endsFlow = true ∨ i.ReadsNull s → ¬ ∀ x ∈ last.insns.toList,
      x.fallsThrough = true := by
    intro ends through
    obtain ⟨_, _, new', added', _, found⟩ := select_stops result pickedUp ends _ _ _ rfl ran
    obtain ⟨x, inside, still⟩ := found _ List.mem_cons_self
    rw [through x (by rw [added']; exact List.mem_append_right _ inside)] at still
    cases still
  refine ⟨⟨new, shape, admitted⟩, fun through => ?_,
    fun fits through after falls reg kind single has => ?_⟩
  · by_contra ends
    exact stops (.inl (by simpa using ends)) through
  · cases falls with
    | written transferred =>
      obtain ⟨target, found, extended⟩ :=
        extends_transfer fits (fun null => stops (.inr null) through) transferred
      rcases extended reg kind single has with before | ⟨rfl, view⟩
      · exact .inl before
      · refine .inr ?_
        obtain ⟨x, inside, rfl⟩ := owes (· = .store ⟨reg, kind⟩) (by
          simp only [owed, found, Except.toOption, Option.toList_some, List.flatMap_cons,
            List.flatMap_nil, List.append_nil]
          exact List.mem_map.2 ⟨kind, view, rfl⟩)
        rw [shape]
        exact List.mem_cons_of_mem _ inside
    | kept _ _ => exact .inl has
    | passed _ states =>
      rw [(kindsOf_branchStates states reg).2] at has
      exact .inl has

end Blocks

namespace Site

/-- Blocks are there for the instructions of a list that have a state, and for nothing else. -/
structure Selected (s : Site) (instrs : List Instr) (blocks : Blocks) : Prop where
  block : ∀ (p : UInt32) (block : List Insn), blocks[p]? = some block →
    ∃ i ∈ instrs, i.position = p ∧
    ∃ frame, s.typing.states[p]? = some frame ∧ i.Block s.catalog frame block
  covered : ∀ i ∈ instrs, s.typing.states[i.position]?.isSome → blocks[i.position]?.isSome

/-- Where the block of a position comes from, while blocks are selected in a pool that becomes
`pool`. -/
def Chosen (s : Site) (instrs : List Instr) (blocks : Blocks) (pool : Pool) : Prop :=
  ∀ (p : UInt32) (block : List Insn), blocks[p]? = some block → ∃ i ∈ instrs, i.position = p ∧
    ∃ frame, s.typing.states[p]? = some frame ∧ ∃ before after,
      (selectBlock s.catalog s.method.id.result s.delay (s.isMoveResult i.next) frame i).run
        before = (.ok block, after) ∧
        after.Extends pool

variable {s : Site} {instrs : List Instr} {blocks later : Blocks} {pool pool' : Pool}

theorem Chosen.kept (chosen : s.Chosen instrs blocks pool) (grown : pool.Extends pool')
    (i : Instr) :
    s.Chosen (instrs ++ [i]) blocks pool' := by
  intro p block found
  obtain ⟨j, inside, position, frame, state, before, after, ran, reaches⟩ := chosen p block found
  exact ⟨j, List.mem_append_left _ inside, position, frame, state, before, after, ran,
    reaches.trans grown⟩

theorem addBlock_eq_ok {i : Instr} (done : (s.addBlock blocks i).run pool = (.ok later, pool')) :
    pool.Extends pool' ∧ (s.Chosen instrs blocks pool → s.Chosen (instrs ++ [i]) later pool') ∧
      (∀ p : UInt32, blocks[p]?.isSome → later[p]?.isSome) ∧
      (s.typing.states[i.position]?.isSome → later[i.position]?.isSome) := by
  unfold addBlock at done
  cases state : s.typing.states[i.position]? with
  | none =>
    rw [state] at done
    cases done
    exact ⟨.refl _, fun chosen => chosen.kept (.refl _) i, fun p there => there,
      fun reached => by cases reached⟩
  | some frame =>
    rw [state] at done
    obtain ⟨block, middle, ran, last⟩ := ExceptT.run_bind_eq_ok.1 done
    cases last
    have grown := selectBlock_extends ran
    refine ⟨grown, fun chosen p block' found => ?_, fun p there => ?_, fun _ => by simp⟩
    · rw [Std.TreeMap.getElem?_insert] at found
      split at found
      next same =>
        cases found
        cases Std.compare_eq_iff_eq.1 same
        exact ⟨i, by simp, rfl, frame, state, pool, _, ran, .refl _⟩
      next => exact chosen.kept grown i p block' found
    · rw [Std.TreeMap.getElem?_insert]
      split
      · rfl
      · exact there

theorem addBlocks_eq_ok (more : List Instr) :
    ∀ {instrs : List Instr} {blocks : Blocks} {pool : Pool},
    s.Chosen instrs blocks pool → (more.foldlM s.addBlock blocks).run pool = (.ok later, pool') →
      pool.Extends pool' ∧ s.Chosen (instrs ++ more) later pool' ∧
      (∀ p : UInt32, blocks[p]?.isSome → later[p]?.isSome) ∧
        ∀ i ∈ more, s.typing.states[i.position]?.isSome → later[i.position]?.isSome := by
  induction more with
  | nil =>
    intro instrs blocks pool chosen done
    cases done
    exact ⟨.refl _, by simpa using chosen, fun _ there => there, by simp⟩
  | cons i more ih =>
    intro instrs blocks pool chosen done
    rw [List.foldlM_cons] at done
    obtain ⟨middle, pool'', first, rest⟩ := ExceptT.run_bind_eq_ok.1 done
    obtain ⟨grown, step, old, new⟩ := addBlock_eq_ok first
    obtain ⟨grown', chosen', old', new'⟩ := ih (step chosen) rest
    rw [List.append_assoc] at chosen'
    refine ⟨grown.trans grown', chosen', fun p there => old' p (old p there),
      fun j member reached => ?_⟩
    rcases List.mem_cons.1 member with rfl | inside
    · exact old' _ (new reached)
    · exact new' j inside reached

theorem blocks_eq_ok (done : s.blocks.run pool = (.ok blocks, pool')) :
    pool.Extends pool' ∧ s.Chosen s.code.instrs blocks pool' ∧ s.Selected s.code.instrs blocks := by
  have start : s.Chosen [] ∅ pool := fun p block found => by simp at found
  obtain ⟨grown, chosen, _, covered⟩ := addBlocks_eq_ok s.code.instrs start done
  refine ⟨grown, chosen, fun p block found => ?_, covered⟩
  obtain ⟨i, inside, position, frame, state, _, _, ran, _⟩ := chosen p block found
  exact ⟨i, inside, position, frame, state, block_of_selectBlock ran⟩

end Site

end Restack.Register
