import Mathlib.Algebra.Order.BigOperators.Group.List
import Restack.Proofs.Layout.CodeAttribute
import Restack.Proofs.Pool.Room

set_option autoImplicit false

namespace Restack

variable {o : Options} {l m : Line}

theorem Jump.length_encode_le {j : Jump} {offset : Int} {bytes : Bytes}
    (written : j.encode offset = .ok bytes) :
    bytes.length ≤ j.maxLength := by
  obtain ⟨op, target, size, code⟩ := j
  cases op with
  | none => cases size <;> (cases written; exact Nat.le_refl _)
  | some op =>
    cases size with
    | short =>
      cases written
      exact Nat.le_refl _
    | undecided | long =>
      simp only [encode] at written
      split at written
      · cases written
        exact Nat.le_refl _
      · cases written

theorem Switch.length_encode_le (s : Switch) (position : Nat) (offset : UInt32 → Int) :
    (s.encode position offset).length ≤ s.maxLength := by
  rw [s.encode_length, maxLength, padding]
  omega

namespace Line

theorem Relit.maxLength_le (relit : l.Relit m) : m.insn.maxLength ≤ l.insn.maxLength := by
  cases relit with
  | same => exact Nat.le_refl _
  | literal _ _ _ shorter => exact shorter

theorem Resized.maxLength_le (resized : l.Resized m)
    (undecided : ∀ j, l.insn = .jump j → j.size = .undecided) :
    m.insn.maxLength ≤ l.insn.maxLength := by
  cases resized with
  | same => exact Nat.le_refl _
  | jump tag j size =>
    have short : Jump.shortLength ≤ j.longLength := by
      unfold Jump.longLength
      split <;> decide
    have most : j.maxLength = j.longLength := by simp [Jump.maxLength, undecided j rfl]
    simp only [Insn.maxLength, Insn.code?]
    cases j.code with
    | some code => exact Nat.le_refl _
    | none =>
      dsimp only
      rw [most, Jump.maxLength]
      split
      · exact short
      · exact Nat.le_refl _

end Line

namespace Body

variable {b later assembled : Body} {code : Bytes}

def Unassembled (b : Body) : Prop := ∀ l ∈ b.lines, l.insn.targets ≠ [] → l.insn.code? = none

theorem maxLength_eq (b : Body) : b.maxLength = (b.lines.map (·.insn.maxLength)).sum := by
  rw [maxLength, ← List.foldl_map, List.sum_eq_foldl]

theorem maxLength_le_of_forall₂
    (shorter : List.Forall₂ (fun l m => m.insn.maxLength ≤ l.insn.maxLength) b.lines later.lines) :
    later.maxLength ≤ b.maxLength := by
  rw [maxLength_eq, maxLength_eq]
  refine List.Forall₂.sum_le_sum ?_
  rw [List.forall₂_map_left_iff, List.forall₂_map_right_iff]
  exact shorter.flip

theorem Relit.refl (b : Body) : b.Relit b := ⟨List.forall₂_same.2 fun l _ => .same l, rfl⟩

section Relit

variable (relit : b.Relit later)
include relit

theorem Relit.maxLength_le : later.maxLength ≤ b.maxLength :=
  maxLength_le_of_forall₂ (relit.lines.imp fun _ _ same => same.maxLength_le)

theorem Relit.unsized (unsized : b.Unsized) : later.Unsized := by
  intro m member j is_jump
  obtain ⟨l, there, same⟩ := forall₂_mem_right relit.lines member
  cases same with
  | same => exact unsized _ there j is_jump
  | literal => cases is_jump

theorem Relit.unassembled (unassembled : b.Unassembled) : later.Unassembled := by
  intro m member jumps
  obtain ⟨l, there, same⟩ := forall₂_mem_right relit.lines member
  cases same with
  | same => exact unassembled _ there jumps
  | literal => exact absurd rfl jumps

end Relit

theorem maxLength_sizeJumps_le (unsized : b.Unsized) : b.sizeJumps.maxLength ≤ b.maxLength := by
  apply maxLength_le_of_forall₂
  have known := (List.forall₂_and_left _ _).2 ⟨unsized, sizeJumps_resized b⟩
  exact known.imp fun l m both => both.2.maxLength_le both.1

theorem unassembled_sizeJumps (unassembled : b.Unassembled) : b.sizeJumps.Unassembled := by
  intro m member jumps
  obtain ⟨l, there, resized⟩ := forall₂_mem_right (sizeJumps_resized b) member
  cases resized with
  | same => exact unassembled _ there jumps
  | jump tag j size => exact (unassembled _ there (List.cons_ne_nil _ _) : j.code = none)

theorem length_piece_le {positions : Std.HashMap Nat Nat} (from_l : b.AssembledFrom positions l m)
    (blank : l.insn.targets ≠ [] → l.insn.code? = none) {piece : Bytes}
    (bytes : m.insn.code? = some piece ∨ (m.insn.code? = none ∧ !m.insn.targets.isEmpty)) :
    piece.length ≤ l.insn.maxLength := by
  rcases assembleInsn_eq_ok from_l.2 with ⟨j, written, is_jump, encoded, new⟩ |
    ⟨s, is_switch, new⟩ | ⟨straight, new⟩
  · rw [is_jump] at blank ⊢
    rw [new] at bytes
    rcases bytes with known | ⟨none, -⟩
    · cases known
      simp only [Insn.maxLength, blank (List.cons_ne_nil _ _)]
      exact Jump.length_encode_le encoded
    · cases none
  · rw [is_switch] at blank ⊢
    rw [new] at bytes
    rcases bytes with known | ⟨none, -⟩
    · cases known
      simp only [Insn.maxLength, blank (targets_switch_ne_nil s)]
      exact s.length_encode_le _ _
    · cases none
  · rw [new] at bytes
    rcases bytes with known | ⟨-, jumps⟩
    · simp only [Insn.maxLength, known]
      exact Nat.le_refl _
    · rw [straight] at jumps
      cases jumps

theorem length_code_le {positions : Std.HashMap Nat Nat} (unassembled : b.Unassembled)
    (jumps : b.assembleJumps positions = (assembled, none)) (coded : assembled.code = .ok code) :
    code.length ≤ b.maxLength := by
  obtain ⟨pieces, rfl, each⟩ := code_eq_ok coded
  have known := (List.forall₂_and_left _ _).2 ⟨unassembled, (assembleJumps_lines jumps).1⟩
  rw [List.length_flatten, maxLength_eq]
  refine List.Forall₂.sum_le_sum ?_
  rw [List.forall₂_map_left_iff, List.forall₂_map_right_iff]
  refine ((forall₂_comp known each).imp ?_).flip
  rintro l piece ⟨m, ⟨blank, from_l⟩, bytes⟩
  exact length_piece_le from_l blank bytes

variable {positions : Std.HashMap Nat Nat} {f : Fault}

theorem cause_of_checkTargets (failed : b.checkTargets positions = .error f) :
    ∃ target, f.cause = .unplacedTarget target := by
  obtain ⟨l, _, failed⟩ := Except.forM_eq_error failed
  obtain ⟨target, _, failed⟩ := Except.forM_eq_error failed
  rcases Except.bind_eq_error.1 failed with failed | ⟨_, _, ended⟩
  · unfold targetPosition at failed
    split at failed
    · cases failed
    · cases failed
      exact ⟨target, rfl⟩
  · cases ended

theorem cause_of_code (failed : b.code = .error f) : ∃ v isStore, f.cause = .noSlot v isStore := by
  rcases Except.bind_eq_error.1 failed with failed | ⟨_, _, ended⟩
  · rcases Except.mapM_outcome _ b.lines with ⟨-, pieces, all⟩ | ⟨l, _, g, missing, stopped⟩
    · cases all.symm.trans failed
    · cases stopped.symm.trans failed
      split at missing
      · cases missing
      next a _ =>
        cases missing
        exact ⟨_, _, rfl⟩
      · cases missing
  · cases ended

theorem length_of_emit_too_long {name : String} {n : Nat} (failed : b.emit o = (.error f, later))
    (cause : f.cause = .codeTooLong name n) : name = b.name ∧ codeLimit < n ∧ ∃ code assembled,
      b.assembleJumps (positionByTag b.lines) = (assembled, none) ∧ assembled.code = .ok code ∧
      code.length = n := by
  simp only [emit] at failed
  split at failed
  next g unplaced =>
    cases failed
    obtain ⟨_, other⟩ := cause_of_checkTargets unplaced
    cases other.symm.trans cause
  next =>
    rcases b.assembleJumps_outcome (positionByTag b.lines) with ⟨-, assembled, jumps⟩ |
      ⟨-, assembled, op, formless⟩
    · rw [jumps] at failed
      obtain ⟨final, rfl⟩ := Prod.mk.inj failed
      rcases Except.bind_eq_error.1 final with uncoded | ⟨code, coded, final⟩
      · obtain ⟨_, _, other⟩ := cause_of_code uncoded
        cases other.symm.trans cause
      · split at final
        next long =>
          cases final
          cases cause
          rw [Bool.and_eq_true, decide_eq_true_eq] at long
          exact ⟨(assembleJumps_lines jumps).2.2, long.1, code, assembled, jumps, coded, rfl⟩
        next =>
          rcases tableRows_outcome jumps with ⟨-, table, packed⟩ | ⟨-, far⟩
          · rw [packed] at final
            cases final
          · rw [far] at final
            cases final
            cases cause
    · rw [formless] at failed
      cases failed
      cases cause

/-- What is assembled for a body, in the form `m` with its literals in place, stays within its bound
and is too long only if the bound is. -/
structure Bounds (o : Options) (b m : Body) : Prop where
  name : m.name = b.name
  written : ∀ content after, m.assemble o = (.ok content, after) →
    ∃ code table, content = encodeAttribute after.locals code table ∧ code.length ≤ b.maxLength
  refused : ∀ f after, m.assemble o = (.error f, after) → ∀ name n, f.cause = .codeTooLong name n →
    name = b.name ∧ n ≤ b.maxLength ∧ 65536 ≤ n

theorem bounds_of_relit (relit : b.Relit later) (same : later.name = b.name) (unsized : b.Unsized)
    (unassembled : b.Unassembled) : b.Bounds o later := by
  have within {positions : Std.HashMap Nat Nat} {code : Bytes} {assembled : Body}
      (jumps : later.sizeJumps.assembleJumps positions = (assembled, none))
        (coded : assembled.code = .ok code) :
      code.length ≤ b.maxLength :=
    calc code.length ≤ later.sizeJumps.maxLength :=
          length_code_le (unassembled_sizeJumps (relit.unassembled unassembled)) jumps coded
      _ ≤ later.maxLength := maxLength_sizeJumps_le (relit.unsized unsized)
      _ ≤ b.maxLength := relit.maxLength_le
  refine ⟨same, fun content after done => ?_, fun f after failed name n cause => ?_⟩
  · obtain ⟨code, table, emitted, written⟩ := assemble_eq_ok done
    obtain ⟨_, jumps, coded, _⟩ := emit_eq_ok emitted
    exact ⟨code, table, written, within jumps coded⟩
  · unfold assemble at failed
    rcases emitted : later.sizeJumps.emit o with ⟨result, assembled⟩
    rw [emitted] at failed
    cases result with
    | ok written => cases failed
    | error g =>
      cases failed
      obtain ⟨named, long, code, last, jumps, coded, rfl⟩ := length_of_emit_too_long emitted cause
      exact ⟨named.trans same, within jumps coded, long⟩

end Body

theorem finish_cases (p : Pool) (bodies : List Body) (o : Options) (handOver : HandOver) :
    (∃ f q, finish p bodies o handOver = (.error f, bodies, q) ∧ f.cause = .poolFull) ∨
    ∃ placed q, finish p bodies o handOver =
      ((assembleAll o placed #[] #[]).1, (assembleAll o placed #[] #[]).2, q) ∧
      List.Forall₂ (fun b m => b.Relit m ∧ m.name = b.name) bodies placed := by
  unfold finish
  split
  next f q refused =>
    refine .inl ⟨f, q, rfl, ?_⟩
    split at refused
    · cases refused
    · have asks : PoolM.Asks p.texts (PoolM.utf8 codeName) _ :=
        PoolM.asks_utf8 (by rw [length_encode_codeName]; decide)
      rcases Nat.lt_or_ge p.space (p.need [.utf8 (p.texts.encode codeName)]) with full | room
      · obtain ⟨g, r, failed, cause⟩ := asks.refused p rfl full
        cases failed.symm.trans refused
        exact cause
      · obtain ⟨index, r, done, -⟩ := asks.granted p rfl room
        cases done.symm.trans refused
  next index q _ =>
    right
    by_cases delay : o.delayLiterals = true
    · simp only [delay, if_true]
      refine ⟨_, _, rfl, (placeLiterals_shortened q bodies handOver).1.imp ?_⟩
      rintro b m shortened
      have relit := shortened.relit
      obtain ⟨_, rfl, -⟩ := shortened
      exact ⟨relit, rfl⟩
    · simp only [delay, Bool.false_eq_true, if_false]
      exact ⟨_, _, rfl, List.forall₂_same.2 fun b _ => ⟨.refl b, rfl⟩⟩

/-- The code of each method is no longer than the bound taken before literals were placed and jumps
sized, so it is refused for its length only if its bound was over the limit. -/
theorem finish_within_maxLength (p : Pool) (bodies : List Body) (o : Options) (handOver : HandOver)
    (unsized : ∀ b ∈ bodies, b.Unsized) (unassembled : ∀ b ∈ bodies, b.Unassembled) :
    ((∃ f q, finish p bodies o handOver = (.error f, bodies, q) ∧ f.cause = .poolFull) ∨
      ∃ placed q, finish p bodies o handOver =
        ((assembleAll o placed #[] #[]).1, (assembleAll o placed #[] #[]).2, q) ∧
        List.Forall₂ (Body.Bounds o) bodies placed) ∧
    (∀ contents, (finish p bodies o handOver).1 = .ok contents →
      List.Forall₂ (fun b content => ∃ locals code table,
      content = Body.encodeAttribute locals code table ∧ code.length ≤ b.maxLength)
        bodies contents) ∧
    ∀ f, (finish p bodies o handOver).1 = .error f → ∀ name n, f.cause = .codeTooLong name n →
      ∃ b ∈ bodies, b.name = name ∧ n ≤ b.maxLength ∧ 65536 ≤ n := by
  rcases finish_cases p bodies o handOver with ⟨f, q, refused, cause⟩ | ⟨placed, q, finished, relit⟩
  · refine ⟨.inl ⟨f, q, refused, cause⟩, fun contents done => ?_, fun g failed name n long => ?_⟩
    · rw [refused] at done
      cases done
    · rw [refused] at failed
      cases failed
      cases cause.symm.trans long
  · have bounds : List.Forall₂ (Body.Bounds o) bodies placed := by
      have known :=
        (List.forall₂_and_left _ _).2 ⟨unassembled, (List.forall₂_and_left _ _).2 ⟨unsized, relit⟩⟩
      exact known.imp fun b m all => Body.bounds_of_relit all.2.2.1 all.2.2.2 all.2.1 all.1
    refine ⟨.inr ⟨placed, q, finished, bounds⟩, fun contents done => ?_,
      fun f failed name n long => ?_⟩
    · rw [finished] at done
      obtain ⟨more, rfl, each⟩ := assembleAll_eq_ok (Prod.ext done rfl)
      refine (forall₂_comp bounds each).imp ?_
      rintro b content ⟨m, within, after, assembled⟩
      obtain ⟨code, table, same, short⟩ := within.written content after assembled
      exact ⟨after.locals, code, table, same, short⟩
    · rw [finished] at failed
      rcases assembleAll_cases o placed #[] #[] with ⟨_, _, done, _⟩ |
        ⟨m, member, g, after, stopped, _, _, ended, same⟩
      · rw [done] at failed
        cases failed
      · rw [ended] at failed
        cases failed
        obtain ⟨b, inside, within⟩ := forall₂_mem_right bounds member
        obtain ⟨rfl, short, over_limit⟩ := within.refused g after stopped name n (same ▸ long)
        exact ⟨b, inside, rfl, short, over_limit⟩

namespace Body

def padded (load pad : Bytes) : Body :=
  ofInsns "padded" [.literal ⟨.ofInt, 100000, load⟩, .plain pad, Insn.op 0xac]

theorem maxLength_padded (load pad : Bytes) :
    (padded load pad).maxLength = load.length + pad.length + 1 := by
  simp [padded, maxLength, ofInsns, Insn.maxLength, Insn.code?, Insn.op]

theorem unsized_padded (load pad : Bytes) : (padded load pad).Unsized := by
  simp [Unsized, padded, ofInsns, Insn.op]

theorem unassembled_padded (load pad : Bytes) : (padded load pad).Unassembled := by
  simp [Unassembled, padded, ofInsns, Insn.op, Insn.targets]

theorem assemble_padded {load pad : Bytes} (short : (load ++ (pad ++ [0xac])).length ≤ codeLimit) :
    (padded load pad).assemble o =
      (.ok (encodeAttribute 0 (load ++ (pad ++ [0xac])) []), padded load pad) := by
  have sized : (padded load pad).sizeJumps = padded load pad := by cbv
  have targets : (padded load pad).checkTargets (positionByTag (padded load pad).lines) =
      .ok () := by
    cbv
  have jumps : (padded load pad).assembleJumps (positionByTag (padded load pad).lines) =
      (padded load pad, none) := by cbv
  have code : (padded load pad).code = .ok (load ++ (pad ++ [0xac])) := by cbv
  have final : (padded load pad).finalCode (positionByTag (padded load pad).lines) o =
      .ok (load ++ (pad ++ [0xac]), []) := by
    rw [finalCode, code]
    simp only [bind, Except.bind, Nat.not_lt.2 short, decide_false, Bool.false_and,
      Bool.false_eq_true, if_false]
    rfl
  simp only [assemble, sized, emit, targets, jumps, final]
  rfl

end Body

def Options.delaying : Options := { Options.none with delayLiterals := true }

/-- A literal that moves to the pool saves seven bytes, which is what brings the code below the
limit. -/
theorem finish_padded (pad : Bytes) (long : 65526 ≤ pad.length) (short : pad.length ≤ 65532) :
    (finish (Pool.empty .split) [Body.padded (Computed.int 100000) pad, Body.sampleLoop]
      .delaying).1 =
      .ok [Body.encodeAttribute 0 ([0x12, 1] ++ (pad ++ [0xac])) [],
        Body.encodeAttribute 0 Body.sampleLoopCode []] := by
  have over_limit : (Body.padded (Computed.int 100000) pad).maxLength ≥ 65536 := by
    have nine : (Computed.int 100000).length = 9 := by cbv
    rw [Body.maxLength_padded]
    omega
  have within_limit : ¬ Body.sampleLoop.maxLength ≥ 65536 := by cbv
  have placed : (placeLiterals ((PoolM.utf8 codeName).run (Pool.empty .split)).2
      [Body.padded (Computed.int 100000) pad, Body.sampleLoop]).1 =
        [Body.padded [0x12, 1] pad, Body.sampleLoop] := by
    simp only [placeLiterals, List.filter_cons, over_limit, within_limit]
    cbv
  have fits : ([0x12, 1] ++ (pad ++ [0xac])).length ≤ Body.codeLimit := by
    simp only [List.length_append, List.length_cons, List.length_nil, Body.codeLimit]
    omega
  obtain ⟨q, named⟩ : ∃ q, (PoolM.utf8 codeName).run (Pool.empty .split) = (.ok 65534, q) :=
    ⟨_, Prod.ext (by cbv) rfl⟩
  obtain ⟨after, loop⟩ : ∃ after, Body.sampleLoop.assemble .delaying =
      (.ok (Body.encodeAttribute 0 Body.sampleLoopCode []), after) := ⟨_, Prod.ext (by cbv) rfl⟩
  rw [named] at placed
  have delay : Options.delaying.delayLiterals = true := rfl
  simp only [finish, List.isEmpty_cons, Bool.false_eq_true, if_false, named, delay, if_true, placed,
    assembleAll,
    Body.assemble_padded fits, loop, List.push_toArray, List.nil_append, List.cons_append]

theorem padded_within_maxLength :
    ∃ contents, (finish (Pool.empty .split)
        [Body.padded (Computed.int 100000) (List.replicate 65530 0), Body.sampleLoop] .delaying).1 =
          .ok contents ∧
      contents = [Body.encodeAttribute 0 ([0x12, 1] ++ (List.replicate 65530 0 ++ [0xac])) [],
        Body.encodeAttribute 0 Body.sampleLoopCode []] ∧
      List.Forall₂ (fun most content => ∃ locals code table,
        content = Body.encodeAttribute locals code table ∧ code.length ≤ most) [65540, 44]
          contents := by
  have unsized : Body.sampleLoop.Unsized := by
    simp +contextual [Body.Unsized, Body.sampleLoop, Body.ofInsns, Insn.branch, Insn.goto, Insn.op]
  have unassembled : Body.sampleLoop.Unassembled := by
    simp +contextual [Body.Unassembled, Body.sampleLoop, Body.ofInsns, Insn.branch,
      Insn.goto, Insn.op, Insn.targets, Insn.code?]
  have written := finish_padded (List.replicate 65530 0) (by rw [List.length_replicate]; decide)
    (by rw [List.length_replicate]; decide)
  have most : [65540, 44] =
      [Body.padded (Computed.int 100000) (List.replicate 65530 0), Body.sampleLoop].map
        (·.maxLength) := by
    have nine : (Computed.int 100000).length = 9 := by cbv
    have loop : Body.sampleLoop.maxLength = 44 := by cbv
    rw [List.map_cons, List.map_singleton, Body.maxLength_padded, nine, List.length_replicate, loop]
  obtain ⟨-, within, -⟩ := finish_within_maxLength (Pool.empty .split) _ .delaying .asListed
    (List.forall_mem_cons.2 ⟨Body.unsized_padded _ _, List.forall_mem_singleton.2 unsized⟩)
    (List.forall_mem_cons.2 ⟨Body.unassembled_padded _ _, List.forall_mem_singleton.2 unassembled⟩)
  refine ⟨_, written, rfl, ?_⟩
  rw [most, List.forall₂_map_left_iff]
  exact within _ written

end Restack
