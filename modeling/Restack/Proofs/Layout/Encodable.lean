import Restack.Proofs.Layout.Offsets
import Restack.Proofs.Layout.Placement

set_option autoImplicit false

namespace Restack

variable {o : Options} {bodies : List Body}

def Cause.isOutOfReach : Cause → Bool
  | .noInverse _ | .rangeTooFar _ => true
  | _ => false

namespace Jump

/-- A conditional jump that is not short is written by means of the opposite one. -/
def HasForm (j : Jump) : Prop :=
  ∀ op, j.op = some op → j.size ≠ .short → (Op.opposite? op).isSome = true

theorem encode_outcome (j : Jump) (offset : Int) :
    (j.HasForm ∧ ∃ bytes, j.encode offset = .ok bytes) ∨
      (¬ j.HasForm ∧ ∃ op, j.encode offset = fail (.noInverse op)) := by
  obtain ⟨op, target, size, code⟩ := j
  cases op with
  | none =>
    refine .inl ⟨?_, ?_⟩
    · intro op some_op
      cases some_op
    · cases size <;> exact ⟨_, rfl⟩
  | some op =>
    by_cases short : size = .short
    · subst short
      exact .inl ⟨fun _ _ long => absurd rfl long, _, rfl⟩
    · cases opposite : Op.opposite? op with
      | some inverse =>
        refine .inl ⟨?_, ?_⟩
        · intro x same _
          cases same
          rw [opposite]
          rfl
        · cases size <;> simp_all [encode]
      | none =>
        refine .inr ⟨?_, op, ?_⟩
        · intro form
          have known := form op rfl short
          rw [opposite] at known
          cases known
        · cases size <;> simp_all [encode]

end Jump

def Insn.HasForm (x : Insn) : Prop := ∀ j, x = .jump j → j.HasForm

/-- The two lines agree on all that a body can lack. -/
structure Line.Alike (l m : Line) : Prop where
  tag : m.tag = l.tag
  targets : m.insn.targets = l.insn.targets
  access : ∀ a, m.insn = .access a ↔ l.insn = .access a

namespace Line

theorem Alike.symm {l m : Line} (alike : l.Alike m) : m.Alike l :=
  ⟨alike.tag.symm, alike.targets.symm, fun a => (alike.access a).symm⟩

theorem Resized.alike {l m : Line} (resized : l.Resized m) : l.Alike m := by
  cases resized with
  | same => exact ⟨rfl, rfl, fun a => Iff.rfl⟩
  | jump => exact ⟨rfl, rfl, fun a => by simp⟩

theorem Relit.alike {l m : Line} (relit : l.Relit m) : l.Alike m := by
  cases relit with
  | same => exact ⟨rfl, rfl, fun a => Iff.rfl⟩
  | literal => exact ⟨rfl, rfl, fun a => by simp⟩

end Line

namespace Body

variable {b : Body} {later : Body}

/-- Every target is there, and every access has its slot. -/
structure Complete (b : Body) : Prop where
  targets : ∀ l ∈ b.lines, ∀ t ∈ l.insn.targets, ∃ m ∈ b.lines, b.heads[t]? = some m.tag
  slots : ∀ l ∈ b.lines, ∀ a, l.insn = .access a → a.code?.isSome = true

theorem Complete.of_alike (complete : b.Complete) (heads : later.heads = b.heads)
    (alike : List.Forall₂ Line.Alike b.lines later.lines) : later.Complete := by
  constructor
  · intro m member t target
    obtain ⟨l, there, same⟩ := forall₂_mem_right alike member
    rw [same.targets] at target
    obtain ⟨head, inside, found⟩ := complete.targets l there t target
    obtain ⟨i, at_i⟩ := List.getElem?_of_mem inside
    obtain ⟨head', at_i', same'⟩ := forall₂_getElem? alike at_i
    refine ⟨head', List.mem_of_getElem? at_i', ?_⟩
    rw [heads, found, same'.tag]
  · intro m member a access
    obtain ⟨l, there, same⟩ := forall₂_mem_right alike member
    exact complete.slots l there a ((same.access a).1 access)

theorem complete_sizeJumps (b : Body) : b.sizeJumps.Complete ↔ b.Complete := by
  have alike := (sizeJumps_resized b).imp fun _ _ resized => resized.alike
  constructor
  · intro complete
    exact complete.of_alike rfl (alike.flip.imp fun _ _ same => same.symm)
  · intro complete
    exact complete.of_alike rfl alike

theorem Relit.complete (relit : b.Relit later) (complete : b.Complete) : later.Complete :=
  complete.of_alike relit.heads (relit.lines.imp fun _ _ same => same.alike)

/-- Nothing in a body whose jumps are sized is out of reach. -/
structure Encodable (b : Body) : Prop where
  jumps : ∀ l ∈ b.lines, l.insn.HasForm
  rows : ∀ r ∈ b.rows, b.RowFits r

theorem hasForm_of_straight (straight : ∀ l ∈ b.lines, l.insn.targets = []) :
    ∀ l ∈ b.sizeJumps.lines, l.insn.HasForm := by
  intro m member j is_jump
  obtain ⟨l, there, resized⟩ := forall₂_mem_right (sizeJumps_resized b) member
  have none := resized.alike.targets.trans (straight l there)
  rw [is_jump] at none
  cases none

theorem encodable_of_straight (straight : ∀ l ∈ b.lines, l.insn.targets = [])
    (unguarded : b.rows = []) :
    b.sizeJumps.Encodable := by
  refine ⟨hasForm_of_straight straight, ?_⟩
  intro r member
  have rows : b.sizeJumps.rows = b.rows := rfl
  rw [rows, unguarded] at member
  cases member

theorem assembleInsn_outcome (position : Nat) (placeOf : UInt32 → Nat) (insn : Insn) :
    (insn.HasForm ∧ ∃ new, assembleInsn position placeOf insn = .ok new) ∨
      (¬ insn.HasForm ∧ ∃ op, assembleInsn position placeOf insn = fail (.noInverse op)) := by
  cases insn with
  | jump j =>
    rcases j.encode_outcome ((placeOf j.target : Int) - position) with ⟨form, bytes, done⟩ |
      ⟨formless, op, failed⟩
    · refine .inl ⟨?_, .jump { j with code := some bytes }, ?_⟩
      · rintro _ ⟨⟩
        exact form
      · simp only [assembleInsn, Jump.assemble, done]
        rfl
    · refine .inr ⟨fun form => formless (form j rfl), op, ?_⟩
      simp only [assembleInsn, Jump.assemble, failed]
      rfl
  | _ =>
    refine .inl ⟨?_, _, rfl⟩
    rintro j ⟨⟩

theorem assembleJumps_outcome (b : Body) (positions : Std.HashMap Nat Nat) :
    ((∀ l ∈ b.lines, l.insn.HasForm) ∧ ∃ assembled, b.assembleJumps positions = (assembled, none)) ∨
      ((¬ ∀ l ∈ b.lines, l.insn.HasForm) ∧
        ∃ assembled op, b.assembleJumps positions =
          (assembled, some (.ofCause (.noInverse op)))) := by
  have outcome (l : Line) :=
    assembleInsn_outcome (positions.getD l.tag 0) (b.placeOf positions) l.insn
  rcases b.assembleJumps_cases positions with ⟨lines, all, related⟩ |
    ⟨l, member, f, failed, stuck, stopped⟩
  · refine .inl ⟨fun l member => ?_, _, all⟩
    obtain ⟨m, _, _, done⟩ := forall₂_mem_right related.flip member
    rcases outcome l with ⟨form, _⟩ | ⟨_, op, failed⟩
    · exact form
    · cases done.symm.trans failed
  · rcases outcome l with ⟨_, _, done⟩ | ⟨formless, op, failed'⟩
    · cases failed.symm.trans done
    · cases failed.symm.trans failed'
      exact .inr ⟨fun forms => formless (forms l member), stuck, op, stopped⟩

theorem tableRows_outcome {assembled : Body}
    (done : b.assembleJumps (positionByTag b.lines) = (assembled, none)) :
    ((∀ r ∈ b.rows, b.RowFits r) ∧ ∃ table, assembled.tableRows (positionByTag b.lines) =
      .ok table) ∨
      ((¬ ∀ r ∈ b.rows, b.RowFits r) ∧
        assembled.tableRows (positionByTag b.lines) = fail (.rangeTooFar assembled.name)) := by
  obtain ⟨_, rows, _⟩ := assembleJumps_lines done
  rw [tableRows, positionBefore_assembleJumps done, rows]
  rcases Except.mapM_outcome
    (tableRow b.positionBefore (positionByTag b.lines) assembled.name) b.rows with
    ⟨each, found, all⟩ | ⟨r, member, e, failed, stopped⟩
  · rw [all]
    refine .inl ⟨?_, _, rfl⟩
    intro r member
    rcases b.tableRow_outcome assembled.name r with ⟨fits, _⟩ | ⟨_, failed⟩
    · exact fits
    · obtain ⟨part, packed⟩ := each r member
      cases packed.symm.trans failed
  · rw [stopped]
    rcases b.tableRow_outcome assembled.name r with ⟨_, packed⟩ | ⟨far, failed'⟩
    · cases packed.symm.trans failed
    · cases failed.symm.trans failed'
      exact .inr ⟨fun fits => far (fits r member), rfl⟩

theorem code_of_slots (slots : ∀ l ∈ b.lines, ∀ a, l.insn = .access a → a.code?.isSome = true) :
    ∃ code, b.code = .ok code := by
  unfold code
  rcases Except.mapM_outcome _ b.lines with ⟨_, pieces, all⟩ | ⟨l, member, e, failed, _⟩
  · rw [all]
    exact ⟨_, rfl⟩
  · split at failed
    · cases failed
    next missing is_access =>
      have slot := slots l member _ is_access
      rw [is_access] at missing
      rw [show Access.code? _ = none from missing] at slot
      cases slot
    · cases failed

theorem checkTargets_of_complete (complete : b.Complete) :
    b.checkTargets (positionByTag b.lines) = .ok () := by
  apply Except.forM_of_forall
  intro l member
  apply Except.forM_of_forall
  intro t target
  obtain ⟨m, inside, head⟩ := complete.targets l member t target
  obtain ⟨position, there⟩ := Option.isSome_iff_exists.1 (isSome_positionByTag inside)
  apply Except.bind_eq_ok.2
  refine ⟨position, ?_, rfl⟩
  rw [targetPosition, head, Option.bind_some, there]

theorem finalCode_all {positions : Std.HashMap Nat Nat} {code : Bytes} (coded : b.code = .ok code) :
    b.finalCode positions .all = (b.tableRows positions).map fun rows => (code, rows) := by
  have unlimited : (code.length > codeLimit && !Options.all.isAll) = false := Bool.and_false _
  unfold finalCode
  rw [coded]
  dsimp only [bind, Except.bind]
  rw [unlimited]
  cases b.tableRows positions <;> rfl

theorem emit_outcome (complete : b.Complete) :
    (b.Encodable ∧ ∃ written later, b.emit .all = (.ok written, later)) ∨
      (¬ b.Encodable ∧ ∃ f later, b.emit .all = (.error f, later) ∧
        f.cause.isOutOfReach = true) := by
  have checked := checkTargets_of_complete complete
  simp only [emit, checked]
  rcases b.assembleJumps_outcome (positionByTag b.lines) with ⟨forms, assembled, done⟩ |
    ⟨formless, assembled, op, failed⟩
  · simp only [done]
    have slots : ∀ m ∈ assembled.lines, ∀ a, m.insn = .access a → a.code?.isSome = true := by
      intro m member a access
      obtain ⟨l, there, from_l⟩ := forall₂_mem_right (assembleJumps_lines done).1 member
      apply complete.slots l there a
      rcases assembleInsn_eq_ok from_l.2 with ⟨j, _, _, _, new⟩ | ⟨s, _, new⟩ | ⟨_, new⟩
      · cases new.symm.trans access
      · cases new.symm.trans access
      · exact new.symm.trans access
    obtain ⟨code, coded⟩ := code_of_slots slots
    rw [finalCode_all coded]
    rcases tableRows_outcome done with ⟨fits, table, packed⟩ | ⟨far, failed⟩
    · rw [packed]
      exact .inl ⟨⟨forms, fits⟩, _, _, rfl⟩
    · rw [failed]
      exact .inr ⟨fun encodable => far encodable.rows, _, _, rfl, rfl⟩
  · simp only [failed]
    exact .inr ⟨fun encodable => formless encodable.jumps, _, _, rfl, rfl⟩

theorem complete_of_emit {code : Bytes} {rows : List TableRow}
    (done : b.emit o = (.ok (code, rows), later)) :
    b.Complete := by
  obtain ⟨checked, assembly, coded, _⟩ := emit_eq_ok done
  constructor
  · intro l member t target
    obtain ⟨_, _, ⟨i, m, there, head, _⟩, _⟩ := placed_of_checkTargets checked member target
    exact ⟨m, List.mem_of_getElem? there, head⟩
  · intro l member a access
    obtain ⟨i, at_i⟩ := List.getElem?_of_mem member
    obtain ⟨m, there, from_l⟩ := forall₂_getElem? (assembleJumps_lines assembly).1 at_i
    have same : m.insn = .access a := (from_l.straight (by rw [access]; rfl)).trans access
    obtain ⟨_, _, pieces⟩ := code_eq_ok coded
    obtain ⟨piece, _, known | ⟨_, jumps⟩⟩ := forall₂_getElem? pieces there
    · rw [same] at known
      exact Option.isSome_iff_exists.2 ⟨piece, known⟩
    · rw [same] at jumps
      cases jumps

theorem assemble_outcome (complete : b.Complete) :
    (b.sizeJumps.Encodable ∧ ∃ content later, b.assemble .all = (.ok content, later)) ∨
      (¬ b.sizeJumps.Encodable ∧ ∃ f later, b.assemble .all = (.error f, later) ∧
        f.cause.isOutOfReach = true) := by
  unfold assemble
  rcases emit_outcome (b.complete_sizeJumps.2 complete) with ⟨encodable, written, later, done⟩ |
    ⟨far, f, later, failed, cause⟩
  · rw [done]
    exact .inl ⟨encodable, _, later, rfl⟩
  · rw [failed]
    exact .inr ⟨far, f, later, rfl, cause⟩

theorem complete_of_assemble {content : Bytes} (done : b.assemble o = (.ok content, later)) :
    b.Complete := by
  obtain ⟨code, rows, emitted, _⟩ := assemble_eq_ok done
  exact b.complete_sizeJumps.1 (complete_of_emit emitted)

end Body

theorem assembleAll_cases (o : Options) (bodies : List Body) (written : Array Bytes)
    (done : Array Body) :
    (∃ more later, assembleAll o bodies written done = (.ok (written.toList ++ more), later) ∧
      List.Forall₂ (fun b content => ∃ after, b.assemble o = (.ok content, after)) bodies more) ∨
    ∃ b ∈ bodies, ∃ g after, b.assemble o = (.error g, after) ∧
      ∃ f later, assembleAll o bodies written done = (.error f, later) ∧ f.cause = g.cause := by
  induction bodies generalizing written done with
  | nil => exact .inl ⟨[], done.toList, by simp [assembleAll], .nil⟩
  | cons b bodies ih =>
    unfold assembleAll
    rcases assembled : b.assemble o with ⟨g | content, last⟩
    · exact .inr ⟨b, List.mem_cons_self, g, last, assembled, _, _, rfl, rfl⟩
    · rcases ih (written.push content) (done.push last) with ⟨more, later, all, others⟩ |
        ⟨c, member, stopped⟩
      · refine .inl ⟨content :: more, later, ?_, .cons ⟨last, assembled⟩ others⟩
        simpa using all
      · exact .inr ⟨c, List.mem_cons_of_mem b member, stopped⟩

theorem assembleAll_outcome (bodies : List Body) (complete : ∀ b ∈ bodies, b.Complete)
    (written : Array Bytes) (done : Array Body) :
    ((∀ b ∈ bodies, b.sizeJumps.Encodable) ∧ ∃ contents later,
      assembleAll .all bodies written done = (.ok contents, later) ∧
        contents.length = written.size + bodies.length) ∨
      ((¬ ∀ b ∈ bodies, b.sizeJumps.Encodable) ∧ ∃ f later, assembleAll .all bodies written done =
        (.error f, later) ∧
        f.cause.isOutOfReach = true) := by
  rcases assembleAll_cases .all bodies written done with
    ⟨more, later, all, each⟩ | ⟨b, member, g, after, stopped, f, later, failed, cause⟩
  · refine .inl ⟨fun b member => ?_, _, later, all, by simp [each.length_eq]⟩
    obtain ⟨content, _, after, assembled⟩ := forall₂_mem_right each.flip member
    rcases Body.assemble_outcome (complete b member) with ⟨encodable, _⟩ | ⟨_, f, last, failed, _⟩
    · exact encodable
    · cases assembled.symm.trans failed
  · rcases Body.assemble_outcome (complete b member) with ⟨_, content, last, assembled⟩ |
      ⟨far, h, last, failed', out⟩
    · cases stopped.symm.trans assembled
    · cases stopped.symm.trans failed'
      exact .inr ⟨fun encodable => far (encodable b member), f, later, failed, cause ▸ out⟩

theorem assembleAll_eq_ok {later : List Body} {written : Array Bytes} {done : Array Body}
    {contents : List Bytes} (all : assembleAll o bodies written done = (.ok contents, later)) :
    ∃ more, contents = written.toList ++ more ∧
      List.Forall₂ (fun b content => ∃ after, b.assemble o = (.ok content, after)) bodies more := by
  rcases assembleAll_cases o bodies written done with ⟨more, _, same, each⟩ |
    ⟨_, _, _, _, _, _, _, failed, _⟩
  · cases all.symm.trans same
    exact ⟨more, rfl, each⟩
  · cases all.symm.trans failed

theorem complete_of_assembleAll {later : List Body} {written : Array Bytes} {done : Array Body}
    {contents : List Bytes} (all : assembleAll o bodies written done = (.ok contents, later)) :
    (∀ b ∈ bodies, b.Complete) ∧ contents.length = written.size + bodies.length := by
  obtain ⟨more, contents_eq, each⟩ := assembleAll_eq_ok all
  constructor
  · intro b member
    obtain ⟨i, inside, rfl⟩ := List.getElem_of_mem member
    obtain ⟨after, assembled⟩ := each.get inside (each.length_eq ▸ inside)
    exact Body.complete_of_assemble assembled
  · rw [contents_eq, List.length_append, Array.length_toList, each.length_eq]

theorem complete_placeLiterals (p : Pool) (handOver : HandOver)
    (complete : ∀ b ∈ bodies, b.Complete) :
    ∀ b ∈ (placeLiterals p bodies handOver).1, b.Complete := by
  intro later member
  obtain ⟨b, inside, relit⟩ := forall₂_mem_right (placeLiterals_spec p bodies handOver).1 member
  exact relit.complete (complete b inside)

end Restack
