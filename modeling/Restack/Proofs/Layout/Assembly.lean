import Mathlib
import Restack.Layout.Assembly
import Restack.Proofs.Layout.JumpSizes
import Restack.Proofs.Stack.Jump
import Restack.Proofs.Stack.Switch

-- All of the library: its unfolding lemmas evaluate the sample below, and those of modules further
-- on.
set_option autoImplicit false

namespace Restack

variable {l : Line} {i : Nat} {lines : List Line}

/-- Instructions that nothing refers to; passes may move, drop and replace them. -/
def Insn.isMovable : Insn → Bool
  | .access _ | .literal _ | .constant _ => true
  | _ => false

/-- Of two lines with one tag, nothing refers to either. -/
def TagsApart (lines : List Line) : Prop :=
  lines.Pairwise fun l m => l.tag = m.tag → l.insn.isMovable = true ∧ m.insn.isMovable = true

theorem tagsApart_of_nodup (distinct : (lines.map Line.tag).Nodup) : TagsApart lines := by
  rw [List.Nodup, List.pairwise_map] at distinct
  exact distinct.imp fun different same => absurd same different

theorem TagsApart.after {before after : List Line} (apart : TagsApart (before ++ l :: after))
    (fixed : l.insn.isMovable = false) :
    ∀ m ∈ after, m.tag ≠ l.tag := by
  intro m member same
  have pair := (List.pairwise_cons.1 (List.pairwise_append.1 apart).2.1).1 m member same.symm
  rw [fixed] at pair
  cases pair.1

theorem tableOf_zip {places : List Nat} {place : Nat} (apart : TagsApart lines)
    (found : lines[i]? = some l) (fixed : l.insn.isMovable = false)
    (there : places[i]? = some place) :
    (tableOf (lines.zip places) ∅)[l.tag]? = some place := by
  obtain ⟨inside, rfl⟩ := List.getElem?_eq_some_iff.1 found
  obtain ⟨inside', rfl⟩ := List.getElem?_eq_some_iff.1 there
  have split : lines = lines.take i ++ lines[i] :: lines.drop (i + 1) := by
    rw [← List.drop_eq_getElem_cons inside, List.take_append_drop]
  have split' : places = places.take i ++ places[i] :: places.drop (i + 1) := by
    rw [← List.drop_eq_getElem_cons inside', List.take_append_drop]
  have zipped : lines.zip places = (lines.take i).zip (places.take i) ++
      (lines[i], places[i]) :: (lines.drop (i + 1)).zip (places.drop (i + 1)) := by
    conv_lhs => rw [split, split']
    rw [List.zip_append (by simp; omega), List.zip_cons_cons]
  rw [zipped]
  have last := TagsApart.after (split ▸ apart) fixed
  exact tableOf_last _ _ _ _ _ fun entry member => last entry.1 (List.of_mem_zip member).1

theorem positionByTag_of_fixed (apart : TagsApart lines) (found : lines[i]? = some l)
    (fixed : l.insn.isMovable = false) :
    (positionByTag lines)[l.tag]? = some (endOf 0 (lines.take i)) := by
  rw [positionByTag_eq]
  exact tableOf_zip apart found fixed
    (startsOf_getElem? lines i (List.getElem?_eq_some_iff.1 found).1)

namespace Body

variable {b assembled : Body} {code : Bytes} {positions : Std.HashMap Nat Nat} {target : UInt32}

/-- The line that heads the block of `target` starts at `position`. -/
def PlacedAt (b : Body) (target : UInt32) (position : Nat) : Prop :=
  ∃ (i : Nat) (l : Line), b.lines[i]? = some l ∧ b.heads[target]? = some l.tag ∧
    (linePositions b.lines).1[i]? = some position

theorem targetPosition_eq_ok {place : Nat} (found : b.targetPosition positions target = .ok place) :
    ∃ head, b.heads[target]? = some head ∧ positions[head]? = some place := by
  unfold targetPosition at found
  split at found
  next _ there =>
    cases found
    exact Option.bind_eq_some_iff.1 there
  next => cases found

theorem placed_of_checkTargets (checked : b.checkTargets (positionByTag b.lines) = .ok ())
    (member : l ∈ b.lines) (is_target : target ∈ l.insn.targets) :
    ∃ place, b.targetPosition (positionByTag b.lines) target = .ok place ∧ b.PlacedAt target place ∧
      place ≤ endOf 0 b.lines := by
  have line := Except.forM_eq_ok (Except.forM_eq_ok checked l member) target is_target
  obtain ⟨place, found, _⟩ := Except.bind_eq_ok.1 line
  obtain ⟨head, is_head, there⟩ := targetPosition_eq_ok found
  obtain ⟨before, m, after, lines, tag, position⟩ := exists_of_positionByTag there
  refine ⟨place, found, ⟨before.length, m, by simp [lines], tag ▸ is_head, ?_⟩, ?_⟩
  · rw [lines, linePositions_getElem?, position]
  · rw [lines, endOf_append, position]
    exact le_endOf _ _

def placeOf (b : Body) (positions : Std.HashMap Nat Nat) (target : UInt32) : Nat :=
  (b.targetPosition positions target).toOption.getD 0

theorem distance_eq (b : Body) (positions : Std.HashMap Nat Nat) (tag : Nat) (target : UInt32) :
    distance b.heads positions tag target = (b.placeOf positions target : Int) -
      (positions.getD tag 0 : Nat) := by
  unfold distance placeOf targetPosition
  split <;> rename_i found <;> simp [found, Except.toOption, fail]

def AssembledFrom (b : Body) (positions : Std.HashMap Nat Nat) (l m : Line) : Prop :=
  m.tag = l.tag ∧ assembleInsn (positions.getD l.tag 0) (b.placeOf positions) l.insn = .ok m.insn

def assembleStep (b : Body) (positions : Std.HashMap Nat Nat) (walked : Array Line × Option Fault)
    (l : Line) :
    Array Line × Option Fault :=
  match walked.2 with
  | some f => (walked.1.push l, some f)
  | none =>
    match assembleInsn (positions.getD l.tag 0) (b.placeOf positions) l.insn with
    | .ok insn => (walked.1.push { l with insn }, none)
    | .error f => (walked.1.push l, some f)

section

variable (b positions)

theorem foldl_assembleStep_fault (rest : List Line) (lines : Array Line)
    (f : Fault) : (rest.foldl (b.assembleStep positions) (lines, some f)).2 = some f := by
  induction rest generalizing lines with
  | nil => rfl
  | cons l rest ih => exact ih _

theorem foldl_assembleStep_cases (rest : List Line) (lines : Array Line) :
    (∃ done : List Line, rest.foldl (b.assembleStep positions) (lines, none) =
      (lines ++ done, none) ∧
      List.Forall₂ (b.AssembledFrom positions) rest done) ∨
    ∃ l ∈ rest, ∃ f, assembleInsn (positions.getD l.tag 0) (b.placeOf positions) l.insn = .error f ∧
      (rest.foldl (b.assembleStep positions) (lines, none)).2 = some f := by
  induction rest generalizing lines with
  | nil => exact .inl ⟨[], by simp, .nil⟩
  | cons l rest ih =>
    rw [List.foldl_cons]
    cases insn : assembleInsn (positions.getD l.tag 0) (b.placeOf positions) l.insn with
    | error f =>
      refine .inr ⟨l, List.mem_cons_self, f, insn, ?_⟩
      simp only [assembleStep, insn]
      exact foldl_assembleStep_fault b positions rest _ f
    | ok new =>
      have stepped : b.assembleStep positions (lines, none) l =
          (lines.push { l with insn := new }, none) := by
        simp only [assembleStep, insn]
      rw [stepped]
      rcases ih (lines.push { l with insn := new }) with ⟨more, all, related⟩ | ⟨m, member, stopped⟩
      · exact .inl ⟨{ l with insn := new } :: more, by simp [all], .cons ⟨rfl, insn⟩ related⟩
      · exact .inr ⟨m, List.mem_cons_of_mem l member, stopped⟩

theorem assembleJumps_cases :
    (∃ lines, b.assembleJumps positions = ({ b with lines }, none) ∧
      List.Forall₂ (b.AssembledFrom positions) b.lines lines) ∨
    ∃ l ∈ b.lines, ∃ f, assembleInsn (positions.getD l.tag 0) (b.placeOf positions) l.insn =
      .error f ∧
      ∃ stuck, b.assembleJumps positions = (stuck, some f) := by
  have unfolded : b.assembleJumps positions =
      ({ b with lines := (b.lines.foldl (b.assembleStep positions) (#[], none)).1.toList },
        (b.lines.foldl (b.assembleStep positions) (#[], none)).2) := rfl
  rw [unfolded]
  rcases foldl_assembleStep_cases b positions b.lines #[] with ⟨lines, all, related⟩ |
    ⟨l, member, f, failed, stopped⟩
  · rw [all]
    exact .inl ⟨lines, by simp, related⟩
  · rw [stopped]
    exact .inr ⟨l, member, f, failed, _, rfl⟩

end

theorem assembleJumps_lines (done : b.assembleJumps positions = (assembled, none)) :
    List.Forall₂ (b.AssembledFrom positions) b.lines assembled.lines ∧
      assembled.rows = b.rows ∧ assembled.name = b.name := by
  rcases b.assembleJumps_cases positions with ⟨lines, all, related⟩ | ⟨_, _, _, _, _, stopped⟩
  · cases all.symm.trans done
    exact ⟨related, rfl, rfl⟩
  · cases stopped.symm.trans done

theorem code_eq_ok (done : b.code = .ok code) :
    ∃ pieces : List Bytes, code = pieces.flatten ∧
      List.Forall₂
        (fun l piece => l.insn.code? = some piece ∨ (l.insn.code? = none ∧ !l.insn.targets.isEmpty))
        b.lines pieces := by
  obtain ⟨pieces, each, last⟩ := Except.bind_eq_ok.1 done
  cases last
  refine ⟨pieces, rfl, (Except.mapM_eq_ok each).imp fun l piece line => ?_⟩
  split at line
  next bytes known =>
    cases line
    exact Or.inl known
  next => cases line
  next missing not_access =>
    refine Or.inr ⟨missing, ?_⟩
    cases insn : l.insn with
    | access a => exact absurd insn (not_access a)
    | jump j => rfl
    | switch s =>
      have member : s.default ∈ s.targets := (s.mem_targets_iff s.default).2 (Or.inl rfl)
      show (!s.targets.isEmpty) = true
      simpa using List.ne_nil_of_mem member
    | _ => simp [insn, Insn.code?] at missing

theorem targets_switch_ne_nil (s : Switch) : (Insn.switch s).targets ≠ [] :=
  List.ne_nil_of_mem ((s.mem_targets_iff s.default).2 (Or.inl rfl))

theorem assembleInsn_eq_ok {position : Nat} {placeOf : UInt32 → Nat} {insn new : Insn}
    (done : assembleInsn position placeOf insn = .ok new) :
    (∃ j bytes, insn = .jump j ∧ j.encode ((placeOf j.target : Int) - position) = .ok bytes ∧
      new = .jump { j with code := some bytes }) ∨
    (∃ s, insn = .switch s ∧
      new = .switch (s.assemble position fun t => (placeOf t : Int) - position)) ∨
    (insn.targets = [] ∧ new = insn) := by
  cases insn with
  | jump j =>
    obtain ⟨k, assembled, last⟩ := Except.bind_eq_ok.1 done
    obtain ⟨bytes, written, coded⟩ := Except.bind_eq_ok.1 assembled
    cases coded
    cases last
    exact Or.inl ⟨j, bytes, rfl, written, rfl⟩
  | switch s =>
    cases done
    exact Or.inr (Or.inl ⟨s, rfl, rfl⟩)
  | label _ => cases done; exact Or.inr (Or.inr ⟨rfl, rfl⟩)
  | access _ => cases done; exact Or.inr (Or.inr ⟨rfl, rfl⟩)
  | literal _ => cases done; exact Or.inr (Or.inr ⟨rfl, rfl⟩)
  | constant _ => cases done; exact Or.inr (Or.inr ⟨rfl, rfl⟩)
  | plain _ => cases done; exact Or.inr (Or.inr ⟨rfl, rfl⟩)

theorem emit_eq_ok {o : Options} {rows : List TableRow}
    (done : b.emit o = (.ok (code, rows), assembled)) :
    b.checkTargets (positionByTag b.lines) = .ok () ∧ b.assembleJumps (positionByTag b.lines) =
      (assembled, none) ∧
    assembled.code = .ok code ∧ assembled.tableRows (positionByTag b.lines) = .ok rows := by
  simp only [emit] at done
  split at done
  next => cases done
  next checked =>
    split at done
    next => cases done
    next last jumps =>
      rw [Prod.mk.injEq] at done
      obtain ⟨final, rfl⟩ := done
      obtain ⟨bytes, coded, rest⟩ := Except.bind_eq_ok.1 final
      split at rest
      · cases rest
      · obtain ⟨table, packed, last⟩ := Except.bind_eq_ok.1 rest
        cases last
        exact ⟨checked, jumps, coded, packed⟩

theorem assemble_eq_ok {o : Options} {content : Bytes}
    (done : b.assemble o = (.ok content, assembled)) :
    ∃ code rows, b.sizeJumps.emit o = (.ok (code, rows), assembled) ∧
    content = encodeAttribute assembled.locals code rows := by
  unfold assemble at done
  rcases emitted : b.sizeJumps.emit o with ⟨result, last⟩
  rw [emitted, Prod.mk.injEq] at done
  obtain ⟨outcome, rfl⟩ := done
  obtain ⟨⟨code, rows⟩, rfl, written⟩ := Except.map_eq_ok.1 outcome
  exact ⟨code, rows, rfl, written.symm⟩

def Decided (b : Body) : Prop := ∀ l ∈ b.lines, ∀ j, l.insn = .jump j → j.size ≠ .undecided

theorem own_position (apart : TagsApart b.lines) (found : b.lines[i]? = some l)
    (jumps : l.insn.targets ≠ []) :
    (positionByTag b.lines).getD l.tag 0 = endOf 0 (b.lines.take i) := by
  have fixed : l.insn.isMovable = false := by
    cases insn : l.insn <;> simp_all [Insn.isMovable, Insn.targets]
  rw [Std.HashMap.getD_eq_getD_getElem?, positionByTag_of_fixed apart found fixed, Option.getD_some]

theorem assembled_length (apart : TagsApart b.lines) (decided : b.Decided) {m : Line}
    {piece : Bytes} (found : b.lines[i]? = some l)
    (from_l : b.AssembledFrom (positionByTag b.lines) l m) (bytes : m.insn.code? = some piece) :
    piece.length = l.insn.lengthAt (endOf 0 (b.lines.take i)) := by
  rcases assembleInsn_eq_ok from_l.2 with ⟨j, written, is_jump, encoded, new⟩ |
    ⟨s, is_switch, new⟩ | ⟨plain, new⟩
  · rw [new] at bytes
    cases bytes
    rw [is_jump]
    exact Jump.encode_length encoded (decided l (List.mem_of_getElem? found) j is_jump)
  · have target : l.insn.targets ≠ [] := by
      rw [is_switch]
      exact targets_switch_ne_nil s
    rw [new] at bytes
    cases bytes
    rw [s.encode_length, own_position apart found target, is_switch]
    rfl
  · rw [new] at bytes
    cases insn : l.insn with
    | jump j => simp [insn, Insn.targets] at plain
    | switch s =>
      rw [insn] at plain
      exact absurd plain (targets_switch_ne_nil s)
    | _ => rw [insn] at bytes; simp [Insn.lengthAt, bytes]

theorem standsAt_of_emit (apart : TagsApart b.lines) (decided : b.Decided)
    (jumps : b.assembleJumps (positionByTag b.lines) = (assembled, none))
    (coded : assembled.code = .ok code) :
    code.length = endOf 0 b.lines ∧
    ∀ (i : Nat) (l : Line), b.lines[i]? = some l → ∃ m piece, assembled.lines[i]? = some m ∧
      b.AssembledFrom (positionByTag b.lines) l m ∧ m.insn.code? = some piece ∧
      code.StandsAt (endOf 0 (b.lines.take i)) piece := by
  have related := (assembleJumps_lines jumps).1
  obtain ⟨pieces, rfl, known⟩ := code_eq_ok coded
  have each : ∀ (i : Nat) (l : Line), b.lines[i]? = some l →
      ∃ m piece, assembled.lines[i]? = some m ∧ pieces[i]? = some piece ∧
      b.AssembledFrom (positionByTag b.lines) l m ∧ m.insn.code? = some piece := by
    intro i l found
    obtain ⟨m, there, from_l⟩ := forall₂_getElem? related found
    obtain ⟨piece, here, bytes | ⟨missing, jump⟩⟩ := forall₂_getElem? known there
    · exact ⟨m, piece, there, here, from_l, bytes⟩
    · -- Jumps and switches have their bytes by now.
      rcases assembleInsn_eq_ok from_l.2 with ⟨j, bytes, _, _, new⟩ | ⟨s, _, new⟩ | ⟨plain, new⟩
      · rw [new] at missing
        cases missing
      · rw [new] at missing
        cases missing
      · rw [new, plain] at jump
        cases jump
  have prefixes : ∀ i, i ≤ b.lines.length →
      (pieces.take i).flatten.length = endOf 0 (b.lines.take i) := by
    intro i
    induction i with
    | zero => simp
    | succ i ih =>
      intro within
      have found : b.lines[i]? = some b.lines[i] := List.getElem?_eq_getElem (by omega)
      obtain ⟨m, piece, _, here, from_l, bytes⟩ := each i _ found
      have length := assembled_length apart decided found from_l bytes
      rw [List.take_add_one, List.take_add_one, found, here, List.flatten_append,
        List.length_append, ih (by omega), endOf_append]
      simp [length]
  have total : pieces.length = b.lines.length := by rw [← known.length_eq, ← related.length_eq]
  refine ⟨?_, fun i l found => ?_⟩
  · have whole := prefixes b.lines.length (Nat.le_refl _)
    rwa [List.take_length, ← total, List.take_length] at whole
  · obtain ⟨m, piece, there, here, from_l, bytes⟩ := each i l found
    obtain ⟨inside, rfl⟩ := List.getElem?_eq_some_iff.1 here
    refine ⟨m, pieces[i], there, from_l, bytes, (pieces.take i).flatten,
      (pieces.drop (i + 1)).flatten, ?_, ?_⟩
    · rw [← List.flatten_cons, ← List.drop_eq_getElem_cons inside, ← List.flatten_append,
        List.take_append_drop]
    · exact prefixes i (by omega)

/-- The code agrees with the layout of its body: it is as long, the bytes of each line stand at its
position, and jumps and switches lead to the heads of the blocks of their targets. -/
structure Faithful (b assembled : Body) (code : Bytes) : Prop where
  length : code.length = (linePositions b.lines).2
  bytes : ∀ (i : Nat) (l : Line) (position : Nat), b.lines[i]? = some l →
    (linePositions b.lines).1[i]? = some position →
    ∃ m piece, assembled.lines[i]? = some m ∧ m.tag = l.tag ∧
    (l.insn.targets = [] → m.insn = l.insn) ∧
      m.insn.code? = some piece ∧ code.StandsAt position piece
  jumps : ∀ (i : Nat) (l : Line) (position : Nat) (j : Jump), b.lines[i]? = some l →
    l.insn = .jump j →
    (linePositions b.lines).1[i]? = some position →
    ∃ destination, b.PlacedAt j.target destination ∧ Jump.Lands code position destination j.op
  switches : ∀ (i : Nat) (l : Line) (position : Nat) (s : Switch), b.lines[i]? = some l →
    l.insn = .switch s →
    (linePositions b.lines).1[i]? = some position → s.Dispatches code position b.PlacedAt

theorem linePositions_take {lines : List Line} {position : Nat} (found : lines[i]? = some l)
    (start : (linePositions lines).1[i]? = some position) : position = endOf 0 (lines.take i) := by
  have inside := (List.getElem?_eq_some_iff.1 found).1
  rw [linePositions_eq, startsOf_getElem? lines i inside, Option.some.injEq] at start
  exact start.symm

theorem placeOf_of_checkTargets (checked : b.checkTargets (positionByTag b.lines) = .ok ())
    (member : l ∈ b.lines) (is_target : target ∈ l.insn.targets) :
    b.PlacedAt target (b.placeOf (positionByTag b.lines) target) ∧
      b.placeOf (positionByTag b.lines) target ≤ endOf 0 b.lines := by
  obtain ⟨place, found, there, within⟩ := placed_of_checkTargets checked member is_target
  have same : b.placeOf (positionByTag b.lines) target = place := by
    simp [placeOf, found, Except.toOption]
  rw [same]
  exact ⟨there, within⟩

namespace AssembledFrom

variable {b : Body} {positions : Std.HashMap Nat Nat} {l m : Line}

section

variable (from_l : b.AssembledFrom positions l m)
include from_l

theorem straight (none : l.insn.targets = []) : m.insn = l.insn := by
  rcases assembleInsn_eq_ok from_l.2 with ⟨j, _, is_jump, _, _⟩ | ⟨s, is_switch, _⟩ | ⟨_, same⟩
  · rw [is_jump] at none
    cases none
  · rw [is_switch] at none
    exact absurd none (targets_switch_ne_nil s)
  · exact same

theorem jump {j : Jump} (is_jump : l.insn = .jump j) :
    ∃ written, j.encode ((b.placeOf positions j.target : Int) - positions.getD l.tag 0) =
      .ok written ∧
      m.insn.code? = some written := by
  rcases assembleInsn_eq_ok from_l.2 with ⟨k, written, same, encoded, new⟩ |
    ⟨s, is_switch, _⟩ | ⟨plain, _⟩
  · cases same.symm.trans is_jump
    refine ⟨written, encoded, ?_⟩
    rw [new]
    rfl
  · cases is_switch.symm.trans is_jump
  · rw [is_jump] at plain
    cases plain

theorem switch {s : Switch} (is_switch : l.insn = .switch s) :
    m.insn = .switch (s.assemble (positions.getD l.tag 0) fun t =>
      (b.placeOf positions t : Int) - positions.getD l.tag 0) := by
  rcases assembleInsn_eq_ok from_l.2 with ⟨j, _, is_jump, _, _⟩ | ⟨t, same, new⟩ | ⟨plain, _⟩
  · cases is_jump.symm.trans is_switch
  · cases same.symm.trans is_switch
    exact new
  · rw [is_switch] at plain
    exact absurd plain (targets_switch_ne_nil s)

end

end AssembledFrom

theorem faithful_of_emit {o : Options} {rows : List TableRow} (apart : TagsApart b.lines)
    (decided : b.Decided) (reaching : b.Reaching) (done : b.emit o = (.ok (code, rows), assembled))
    (bounded : code.length < 2 ^ 31) :
    b.Faithful assembled code := by
  obtain ⟨checked, assembly, coded, _⟩ := emit_eq_ok done
  obtain ⟨total, stands⟩ := standsAt_of_emit apart decided assembly coded
  have placed : ∀ l ∈ b.lines, ∀ target ∈ l.insn.targets,
      b.PlacedAt target (b.placeOf (positionByTag b.lines) target) ∧
        b.placeOf (positionByTag b.lines) target ≤ code.length := by
    intro l member target is_target
    rw [total]
    exact placeOf_of_checkTargets checked member is_target
  refine ⟨by rw [total, linePositions_eq], ?_, ?_, ?_⟩
  · intro i l position found start
    obtain ⟨m, piece, there, from_l, bytes, here⟩ := stands i l found
    rw [linePositions_take found start]
    exact ⟨m, piece, there, from_l.1, from_l.straight, bytes, here⟩
  · intro i l position j found is_jump start
    have member := List.mem_of_getElem? found
    obtain ⟨m, piece, _, from_l, bytes, here⟩ := stands i l found
    obtain ⟨there, within⟩ := placed l member j.target (by simp [is_jump, Insn.targets])
    obtain ⟨written, encoded, same⟩ := from_l.jump is_jump
    cases bytes.symm.trans same
    have near := reaching l member j is_jump
    rw [distance_eq] at near
    rw [linePositions_take found start]
    rw [← own_position apart found (by simp [is_jump, Insn.targets])] at here ⊢
    exact ⟨_, there,
      Jump.encode_lands encoded (decided l member j is_jump) near here within bounded⟩
  · intro i l position s found is_switch start
    have member := List.mem_of_getElem? found
    obtain ⟨m, piece, _, from_l, bytes, here⟩ := stands i l found
    rw [from_l.switch is_switch] at bytes
    cases bytes
    rw [linePositions_take found start]
    rw [← own_position apart found (is_switch ▸ targets_switch_ne_nil s)] at here ⊢
    refine s.encode_dispatches here (fun t known => placed l member t ?_) bounded
    rw [is_switch]
    exact (s.mem_targets_iff t).2 known

theorem tagsApart_of_resized {first second : List Line}
    (resized : List.Forall₂ Line.Resized first second) (apart : TagsApart first) :
    TagsApart second := by
  have kept : ∀ {l m : Line}, Line.Resized l m → m.tag = l.tag ∧
      m.insn.isMovable = l.insn.isMovable := by
    intro l m same
    cases same <;> exact ⟨rfl, rfl⟩
  induction resized with
  | nil => exact .nil
  | @cons l m first second head rest ih =>
    obtain ⟨others, tail⟩ := List.pairwise_cons.1 apart
    refine List.pairwise_cons.2 ⟨fun n member => ?_, ih tail⟩
    obtain ⟨i, inside, rfl⟩ := List.mem_iff_getElem.1 member
    obtain ⟨n, found, line⟩ := forall₂_getElem? rest.flip (List.getElem?_eq_getElem inside)
    have pair := others n (List.mem_of_getElem? found)
    rw [(kept head).1, (kept head).2, (kept line).1, (kept line).2]
    exact pair

/-- Sizing the jumps of a body and assembling it gives code that agrees with its layout. -/
theorem sizeJumps_emit_faithful (b assembled : Body) (o : Options) (code : Bytes)
    (rows : List TableRow) (distinct : (b.lines.map Line.tag).Nodup) (initial : b.Unsized)
    (done : b.sizeJumps.emit o = (.ok (code, rows), assembled)) (bounded : code.length < 2 ^ 31) :
    List.Forall₂ Line.Resized b.lines b.sizeJumps.lines ∧ b.sizeJumps.Faithful assembled code := by
  have resized := sizeJumps_resized b
  refine ⟨resized, faithful_of_emit ?_ ?_ ?_ done bounded⟩
  · exact tagsApart_of_resized resized (tagsApart_of_nodup distinct)
  · exact fun l member j is_jump => (sizeJumps_decided b initial l member j is_jump).1
  · exact sizeJumps_reaching b initial

def sampleLoop : Body :=
  let load : Insn := .access { var := ⟨0, .ofInt⟩, isStore := false, slot := some 0 }
  { ofInsns "loop" [.label (some 0), load,
    .switch { default := 7, cases := .ofPairs [(2, 0), (4, 7), (3, 5)] },
      .label (some 5), load, .branch Op.ifeq 0, .goto 5, .label (some 7), .op Op.vreturn] with
    heads := (∅ : Std.HashMap UInt32 Nat).insert 0 0 |>.insert 5 3 |>.insert 7 7 }

def sampleLoopCode : Bytes :=
  [0x1a, 0xaa, 0, 0, 0, 0, 0, 34, 0, 0, 0, 2, 0, 0, 0, 4, 0xff, 0xff, 0xff, 0xff, 0, 0, 0, 27,
    0, 0, 0, 34, 0x1a, 0x99, 0xff, 0xe3, 0xa7, 0xff, 0xfc, 0xb1]

theorem sampleLoop_faithful :
    ∃ assembled, sampleLoop.sizeJumps.emit .none = (.ok (sampleLoopCode, []), assembled) ∧
      List.Forall₂ Line.Resized sampleLoop.lines sampleLoop.sizeJumps.lines ∧
      sampleLoop.sizeJumps.Faithful assembled sampleLoopCode := by
  have initial : sampleLoop.Unsized := by
    intro l member j is_jump
    have undecided : ∀ l ∈ sampleLoop.lines, l.insn = .branch Op.ifeq 0 ∨ l.insn = .goto 5 ∨
        ∀ j, l.insn ≠ .jump j := by
      simp [sampleLoop, ofInsns, Insn.branch, Insn.goto, Insn.op]
    rcases undecided l member with at_branch | at_goto | other
    · cases at_branch.symm.trans is_jump
      rfl
    · cases at_goto.symm.trans is_jump
      rfl
    · exact absurd is_jump (other j)
  have written : (sampleLoop.sizeJumps.emit .none).1 = .ok (sampleLoopCode, []) := by cbv
  have done : sampleLoop.sizeJumps.emit .none =
      (.ok (sampleLoopCode, []), (sampleLoop.sizeJumps.emit .none).2) :=
    Prod.ext written rfl
  exact ⟨_, done, sizeJumps_emit_faithful _ _ _ _ _ (by decide) initial done (by decide)⟩

end Body

end Restack
