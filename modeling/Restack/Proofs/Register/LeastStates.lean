import Mathlib.Data.Option.Basic
import Restack.Proofs.Register.GuardCoverage
import Restack.Proofs.Register.Termination

set_option autoImplicit false

namespace Restack.Register

/-- States for some positions that meet what the entry and every edge ask for, wherever there is an
instruction. -/
structure Code.Solution (catalog : Catalog) (method : Method) (code : Code)
    (family : UInt32 → Option Frame) : Prop where
  entry : ∃ s, family 0 = some s ∧ s.Absorbs (Frame.ofParameters method.slots code.registers.toNat)
  passed : ∀ i ∈ code.instrs, ∀ s, family i.position = some s → ∀ q t, i.Passes catalog s q t →
    code.HasPosition q →
    ∃ y, family q = some y ∧ y.Absorbs t
  caught : ∀ i ∈ code.instrs, ∀ s, family i.position = some s →
    ∀ h ∈ code.handlers.getD i.position [],
    code.HasPosition h.target → ∃ y, family h.target = some y ∧ y.Absorbs s

/-- Wherever the first family has a state, the second has one that absorbs it. -/
def FamilyBelow (family other : UInt32 → Option Frame) : Prop :=
  ∀ q s, family q = some s → ∃ t, other q = some t ∧ t.Absorbs s

/-- The inferred states are a solution, and below every other one. -/
structure Typing.IsLeastSolution (catalog : Catalog) (method : Method) (code : Code)
    (typing : Typing) : Prop where
  solves : code.Solution catalog method (typing.states[·]?)
  least : ∀ other, code.Solution catalog method other → FamilyBelow (typing.states[·]?) other

/-- The same states, register by register, at the same positions, and the same handlers. -/
structure Typing.Agrees (a b : Typing) : Prop where
  states : ∀ q : UInt32, Option.Rel (fun s t => s.same t = true) a.states[q]? b.states[q]?
  handlers : ∀ q : UInt32, a.handlers[q]? = b.handlers[q]?

section Monotone

variable {catalog : Catalog} {handlers : List Handler} {i : Instr} {s y : Frame}
  {edges : List (UInt32 × Frame)}

/-- Where less is known, an instruction leads to the same places, with less known there. -/
theorem flows_mono (no_read : i.family ≠ .arrayGet) (above : y.Absorbs s)
    (done : flows catalog handlers i s = .ok edges) :
    ∃ edges', flows catalog handlers i y = .ok edges' ∧
      ∀ q t, (q, t) ∈ edges → ∃ t', (q, t') ∈ edges' ∧ t'.Absorbs t := by
  obtain ⟨outcome, _, same⟩ := flows_uniform catalog handlers i s
  have here := same s fun read => absurd read no_read
  have there := same y fun read => absurd read no_read
  obtain ⟨ways, succeeded, rfl⟩ := Except.map_eq_ok.1 (here.symm.trans done)
  rw [succeeded] at there
  refine ⟨rendered y ways, there, fun q t member => ?_⟩
  obtain ⟨way, inside, edge⟩ := List.mem_map.1 member
  cases edge
  refine ⟨y.write way.2, List.mem_map.2 ⟨way, inside, rfl⟩, ?_⟩
  rw [Frame.absorbs_iff_facts] at above ⊢
  exact Frame.write_mono above way.2

theorem flows_fails (no_read : i.family ≠ .arrayGet) {e : Fault}
    (failed : flows catalog handlers i s = .error e) (y : Frame) :
    flows catalog handlers i y = .error e := by
  obtain ⟨outcome, _, same⟩ := flows_uniform catalog handlers i s
  have here := same s fun read => absurd read no_read
  rw [same y fun read => absurd read no_read]
  cases outcome with
  | error e' =>
    cases here.symm.trans failed
    rfl
  | ok ways => cases here.symm.trans failed

end Monotone

section Below

variable {catalog : Catalog} {method : Method} {code : Code} {family : UInt32 → Option Frame}

theorem FamilyBelow.absorb {p : Progress} (below : FamilyBelow (p.states[·]?) family)
    {positions : Std.HashSet UInt32} {edge : UInt32 × Frame}
    (known : positions.contains edge.1 = true → ∃ t, family edge.1 = some t ∧ t.Absorbs edge.2) :
    FamilyBelow ((p.absorb positions edge).states[·]?) family := by
  obtain ⟨target, s⟩ := edge
  have inserted (u : Frame) (covered : ∃ t, family target = some t ∧ t.Absorbs u) :
      FamilyBelow ((p.states.insert target u)[·]?) family := by
    intro q v here
    dsimp only at here
    rw [Progress.lookup_insert] at here
    split at here
    next same =>
      cases here
      exact same ▸ covered
    next => exact below q v here
  rcases p.absorb_cases positions target s with ⟨same, _⟩ |
    ⟨inside, u, same, ⟨_, rfl⟩ | ⟨old, found, merged⟩⟩
  all_goals rw [same]
  · exact below
  · exact inserted u (known inside)
  · obtain ⟨t, there, above⟩ := known inside
    obtain ⟨t', there', above'⟩ := below target old found
    cases there.symm.trans there'
    exact inserted u ⟨t, there, Frame.eq_join_of_merge? merged ▸ Frame.Absorbs.join above' above⟩

/-- What is found on the way, in whatever order, stays below every solution. -/
theorem Inference.Reaches.familyBelow (no_reads : ∀ i ∈ code.instrs, i.family ≠ .arrayGet)
    (solves : code.Solution catalog method family) {p : Progress}
    (reached : (ofCode catalog code).Reaches (.start method code) p) :
    FamilyBelow (p.states[·]?) family := by
  induction reached with
  | refl =>
    intro q s here
    dsimp only at here
    rw [Progress.lookup_start] at here
    split at here
    next zero =>
      cases here
      exact zero ▸ solves.entry
    next => cases here
  | @visit middle later i _ member visited ih =>
    rcases visit_eq_ok visited with ⟨_, rfl⟩ | ⟨_, edges, rfl, found⟩
    · exact ih
    · refine List.foldlRecOn
        (motive := fun p : Progress => FamilyBelow (p.states[·]?) family) _ _ ih
        fun p below edge inside => below.absorb fun has => ?_
      rcases found with ⟨_, rfl⟩ | ⟨s, found, flowed⟩
      · cases inside
      · obtain ⟨y, there, above⟩ := ih _ s found
        obtain ⟨edges', flowed', covers⟩ := flows_mono (no_reads i member) above flowed
        obtain ⟨t', edge', higher⟩ := covers edge.1 edge.2 inside
        have target := (positions_ofCode catalog code edge.1).1 has
        rcases (mem_flows_iff flowed' _ _).1 edge' with passes | ⟨same, h, caught, leads⟩
        · obtain ⟨z, at_target, above'⟩ := solves.passed i member y there _ _ passes target
          exact ⟨z, at_target, above'.trans higher⟩
        · rw [← leads] at target ⊢
          obtain ⟨z, at_target, above'⟩ := solves.caught i member y there h caught target
          exact ⟨z, at_target, above'.trans (same ▸ higher)⟩

end Below

section Order

variable {catalog : Catalog} {method : Method} {code : Code} {instrs : List Instr} {typing : Typing}
variable {family : UInt32 → Option Frame}

theorem Typing.Closed.solution
    (closed : typing.Closed catalog code (Frame.ofParameters method.slots code.registers.toNat)) :
    code.Solution catalog method (typing.states[·]?) where
  entry := closed.start
  passed _ member _ here _ _ passes exists_there :=
    closed.absorbs_passed member here passes exists_there
  caught _ member _ here _ caught exists_there :=
    closed.absorbs_caught member here caught exists_there

theorem infer_isLeastSolution (distinct : (code.instrs.map Instr.position).Nodup)
    (no_reads : ∀ i ∈ code.instrs, i.family ≠ .arrayGet)
    (done : infer catalog method code = .ok typing) :
    typing.IsLeastSolution catalog method code := by
  refine ⟨(infer_closed distinct done).solution, fun other solves => ?_⟩
  obtain ⟨_, settled, reached, _, rfl⟩ := infer_reaches done
  exact reached.familyBelow no_reads solves

theorem infer_succeeds (no_reads : ∀ i ∈ code.instrs, i.family ≠ .arrayGet)
    (entry : code.HasPosition 0) (solves : code.Solution catalog method family)
    (flowed : ∀ i ∈ code.instrs, ∀ s, family i.position = some s →
      ∃ edges, flows catalog (code.handlers.getD i.position []) i s = .ok edges) :
    ∃ typing, infer catalog method code = .ok typing := by
  obtain ⟨_, _, outcome, ends, same⟩ := infer_eq_ends catalog method code entry
  cases outcome with
  | ok settled => exact ⟨_, same⟩
  | error e =>
    obtain ⟨p, reached, i, member, failed⟩ := ends.exists_failed .refl rfl
    unfold Inference.visit at failed
    split at failed
    · split at failed
      next s found =>
        cases flow : flows catalog (code.handlers.getD i.position []) i s with
        | ok edges =>
          change flows catalog (code.handlers.getD i.position []) i s >>= _ = _ at failed
          rw [flow] at failed
          cases failed
        | error e =>
          obtain ⟨y, there, _⟩ := reached.familyBelow no_reads solves _ s found
          obtain ⟨edges, done⟩ := flowed i member y there
          cases (flows_fails (no_reads i member) flow y).symm.trans done
      next => cases failed
    · cases failed

theorem hasPosition_perm (perm : instrs.Perm code.instrs) {q : UInt32} :
    ({ code with instrs } : Code).HasPosition q ↔ code.HasPosition q := by
  simp only [Code.HasPosition, perm.mem_iff]

theorem handlers_perm (perm : instrs.Perm code.instrs)
    (distinct : (code.instrs.map Instr.position).Nodup) (q : UInt32) :
    ({ code with instrs } : Code).handlers[q]? = code.handlers[q]? := by
  rw [Code.getElem?_handlers, Code.getElem?_handlers]
  have found := perm.filter fun i => i.position = q ∧ i.handlers code.guards ≠ []
  have apart :
      ((code.instrs.filter fun i => i.position = q ∧ i.handlers code.guards ≠ []).map
        Instr.position).Nodup :=
    distinct.sublist (List.filter_sublist.map _)
  have here : ∀ i ∈ code.instrs.filter fun i => i.position = q ∧ i.handlers code.guards ≠ [],
      i.position = q := by
    intro i member
    simpa using (of_decide_eq_true (List.mem_filter.1 member).2).1
  generalize code.instrs.filter (fun i => i.position = q ∧ i.handlers code.guards ≠ []) =
    those at found apart here
  match those with
  | [] => rw [List.perm_nil.1 found]
  | [i] => rw [List.perm_singleton.1 found]
  | i :: j :: rest =>
    have same := (here i (by simp)).trans (here j (by simp)).symm
    simp [same] at apart

theorem Code.Solution.perm (perm : instrs.Perm code.instrs)
    (distinct : (code.instrs.map Instr.position).Nodup) :
    ({ code with instrs } : Code).Solution catalog method family ↔
    code.Solution catalog method family := by
  have handlers (q : UInt32) : ({ code with instrs } : Code).handlers.getD q [] =
      code.handlers.getD q [] := by
    rw [Std.TreeMap.getD_eq_getD_getElem?, Std.TreeMap.getD_eq_getD_getElem?,
      handlers_perm perm distinct]
  constructor
  · rintro ⟨entry, passed, caught⟩
    simp only [perm.mem_iff, hasPosition_perm perm, handlers] at passed caught
    exact ⟨entry, passed, caught⟩
  · rintro ⟨entry, passed, caught⟩
    refine ⟨entry, ?_, ?_⟩
    · simpa only [perm.mem_iff, hasPosition_perm perm] using passed
    · simpa only [perm.mem_iff, hasPosition_perm perm, handlers] using caught

theorem infer_perm_ok (perm : instrs.Perm code.instrs)
    (distinct : (code.instrs.map Instr.position).Nodup)
    (no_reads : ∀ i ∈ code.instrs, i.family ≠ .arrayGet)
    (done : infer catalog method code = .ok typing) :
    ∃ typing', infer catalog method { code with instrs } = .ok typing' := by
  have closed := infer_closed distinct done
  refine infer_succeeds (fun i member => no_reads i (perm.mem_iff.1 member))
    ((hasPosition_perm perm).2 (infer_reaches done).1)
      ((Code.Solution.perm perm distinct).2 closed.solution)
    fun i member s here => ?_
  obtain ⟨edges, flowed, _⟩ := closed.flowed i (perm.mem_iff.1 member) s here
  rw [Std.TreeMap.getD_eq_getD_getElem?, handlers_perm perm distinct,
    ← Std.TreeMap.getD_eq_getD_getElem?]
  exact ⟨edges, flowed⟩

theorem FamilyBelow.rel {other : UInt32 → Option Frame} (below : FamilyBelow family other)
    (above : FamilyBelow other family) (q : UInt32) :
    Option.Rel (fun s t => s.same t = true) (family q) (other q) := by
  cases here : family q with
  | none =>
    cases there : other q with
    | none => exact .none
    | some t =>
      obtain ⟨s, found, _⟩ := above q t there
      cases here.symm.trans found
  | some s =>
    obtain ⟨t, there, higher⟩ := below q s here
    obtain ⟨s', again, under⟩ := above q t there
    cases here.symm.trans again
    rw [there]
    exact .some (under.antisymm higher)

end Order

/-- With one instruction at each position and no reads from arrays, inference over the instructions
in any order fails if it fails in the given one, and otherwise finds the same states and handlers.
The states are the least family that meets what the entry and the edges ask for. -/
theorem infer_order_independent (catalog : Catalog) (method : Method) (code : Code)
    (instrs : List Instr) (perm : instrs.Perm code.instrs)
    (distinct : (code.instrs.map Instr.position).Nodup)
    (no_reads : ∀ i ∈ code.instrs, i.family ≠ .arrayGet) :
    (∃ e e', infer catalog method code = .error e ∧ infer catalog method { code with instrs } =
      .error e') ∨
      ∃ typing typing', infer catalog method code = .ok typing ∧
      infer catalog method { code with instrs } = .ok typing' ∧
        typing.Agrees typing' ∧ typing.IsLeastSolution catalog method code := by
  have distinct' : (instrs.map Instr.position).Nodup := (perm.map _).nodup_iff.2 distinct
  have no_reads' : ∀ i ∈ instrs, i.family ≠ .arrayGet :=
    fun i member => no_reads i (perm.mem_iff.1 member)
  cases first : infer catalog method code with
  | error e =>
    cases second : infer catalog method { code with instrs } with
    | error e' => exact .inl ⟨e, e', rfl, rfl⟩
    | ok typing' =>
      obtain ⟨typing, done⟩ := infer_perm_ok perm.symm distinct' no_reads' second
      cases first.symm.trans done
  | ok typing =>
    obtain ⟨typing', second⟩ := infer_perm_ok perm distinct no_reads first
    have least := infer_isLeastSolution distinct no_reads first
    have least' := infer_isLeastSolution distinct' no_reads' second
    have below := least.least _ ((Code.Solution.perm perm distinct).1 least'.solves)
    have above := least'.least _ ((Code.Solution.perm perm distinct).2 least.solves)
    refine .inr ⟨typing, typing', rfl, second, ⟨below.rel above, fun q => ?_⟩, least⟩
    rw [(infer_closed distinct first).handlers, (infer_closed distinct' second).handlers,
      handlers_perm perm distinct]

theorem sampleCode_order_independent :
    ∃ typing typing',
      infer { types := #["[I"] } ⟨⟨"a/B", "f", ["I"], "V"⟩, 8, none⟩ sampleCode = .ok typing ∧
      infer { types := #["[I"] } ⟨⟨"a/B", "f", ["I"], "V"⟩, 8, none⟩
        { sampleCode with instrs := sampleCode.instrs.reverse } = .ok typing' ∧
      typing.Agrees typing' ∧
      typing.IsLeastSolution { types := #["[I"] }
        ⟨⟨"a/B", "f", ["I"], "V"⟩, 8, none⟩ sampleCode := by
  have settles : (infer { types := #["[I"] } ⟨⟨"a/B", "f", ["I"], "V"⟩, 8, none⟩ sampleCode).isOk =
      true := by cbv
  rcases infer_order_independent { types := #["[I"] } ⟨⟨"a/B", "f", ["I"], "V"⟩, 8, none⟩ sampleCode
    sampleCode.instrs.reverse (List.reverse_perm _) (by decide) (by decide) with
      ⟨e, _, failed, _⟩ | agree
  · rw [failed] at settles
    cases settles
  · exact agree

end Restack.Register
