import Mathlib.Data.Finset.Card
import Restack.Proofs.Register.Inference
import Restack.Proofs.Register.Writes

set_option autoImplicit false

namespace Restack.Register

variable {code : Code}

namespace Progress

/-- How often the state of a position has changed at least; the first state counts. -/
def level (limit : Nat) (p : Progress) (q : UInt32) : Nat :=
  match p.states[q]? with
  | some s => s.rank limit + 1
  | none => 0

theorem level_le (limit : Nat) (p : Progress) (q : UInt32) : p.level limit q ≤ 8 * limit + 1 := by
  unfold level
  split
  next s _ => exact Nat.succ_le_succ (s.rank_le limit)
  next => exact Nat.zero_le _

/-- The state of a position is new, or has given something up for good. -/
structure Moved (limit : Nat) (p later : Progress) (q : UInt32) : Prop where
  climbs : p.level limit q < later.level limit q
  above : ∀ s t, p.states[q]? = some s → later.states[q]? = some t → s.facts < t.facts

namespace Moved

variable {limit : Nat} {p middle later : Progress} {q : UInt32}

theorem trans (first : Moved limit p middle q) (second : Moved limit middle later q) :
    Moved limit p later q := by
  refine ⟨first.climbs.trans second.climbs, fun s u here there => ?_⟩
  cases between : middle.states[q]? with
  | none =>
    have climbs := first.climbs
    simp [level, between] at climbs
  | some t => exact (first.above s t here between).trans (second.above t u between there)

theorem congr_left (moved : Moved limit middle later q) (same : middle.states[q]? = p.states[q]?) :
    Moved limit p later q := by
  refine ⟨?_, fun s t here => moved.above s t (same.trans here)⟩
  have climbs := moved.climbs
  unfold level at climbs ⊢
  rwa [← same]

theorem congr_right (moved : Moved limit p middle q) (same : later.states[q]? = middle.states[q]?) :
    Moved limit p later q := by
  refine ⟨?_, fun s t here there => moved.above s t here (same.symm.trans there)⟩
  have climbs := moved.climbs
  unfold level at climbs ⊢
  rwa [same]

end Moved

/-- Each position has kept its state and is not newly marked, or it has an instruction and its state
has moved. -/
def Climbs (limit : Nat) (positions : Std.HashSet UInt32) (p later : Progress) : Prop :=
  ∀ q, (later.states[q]? = p.states[q]? ∧
    (later.pending.contains q = true → p.pending.contains q = true)) ∨
    positions.contains q = true ∧ Moved limit p later q

section Climbing

variable {limit : Nat} {positions : Std.HashSet UInt32} {p middle later : Progress}

theorem Climbs.refl (p : Progress) : Climbs limit positions p p := fun _ => .inl ⟨rfl, id⟩

theorem Climbs.trans (first : Climbs limit positions p middle)
    (second : Climbs limit positions middle later) :
    Climbs limit positions p later := by
  intro q
  rcases first q with ⟨same, marks⟩ | ⟨inside, moved⟩
  · rcases second q with ⟨same', marks'⟩ | ⟨inside, moved⟩
    · exact .inl ⟨same'.trans same, fun marked => marks (marks' marked)⟩
    · exact .inr ⟨inside, moved.congr_left same⟩
  · rcases second q with ⟨same, _⟩ | ⟨_, moved'⟩
    · exact .inr ⟨inside, moved.congr_right same⟩
    · exact .inr ⟨inside, moved.trans moved'⟩

theorem climbs_insert {q : UInt32} {t : Frame} (inside : positions.contains q = true)
    (moved : Moved limit p ⟨p.states.insert q t, p.pending.insert q⟩ q) :
    Climbs limit positions p ⟨p.states.insert q t, p.pending.insert q⟩ := by
  intro r
  by_cases same : q = r
  · subst same
    exact .inr ⟨inside, moved⟩
  · refine .inl ⟨?_, fun marked => ?_⟩
    · rw [lookup_insert, if_neg same]
    · simpa [same] using marked

theorem absorb_climbs (all : p.All (Frame.Within limit)) {edge : UInt32 × Frame}
    (within : edge.2.Within limit) :
    Climbs limit positions p (p.absorb positions edge) := by
  obtain ⟨q, s⟩ := edge
  rcases p.absorb_cases positions q s with ⟨same, _⟩ |
    ⟨inside, t, same, ⟨found, rfl⟩ | ⟨old, found, merged⟩⟩
  all_goals rw [same]
  · exact .refl p
  · refine climbs_insert inside ⟨?_, fun s' t here => ?_⟩
    · simp [level, found]
    · cases found.symm.trans here
  · have less := Frame.lt_of_merge? merged
    have joined_within : t.Within limit :=
      Frame.eq_join_of_merge? merged ▸ (all q old found).join within
    refine climbs_insert inside ⟨?_, fun s' t here there => ?_⟩
    · have climbs := Frame.rank_lt (all q old found) joined_within less
      simp only [level, found, lookup_insert, if_true]
      omega
    · rw [lookup_insert, if_pos rfl] at there
      cases there
      cases found.symm.trans here
      exact less

theorem foldl_absorb_climbs (all : p.All (Frame.Within limit)) {edges : List (UInt32 × Frame)}
    (within : ∀ edge ∈ edges, edge.2.Within limit) :
    (edges.foldl (absorb positions) p).All (Frame.Within limit) ∧
      Climbs limit positions p (edges.foldl (absorb positions) p) := by
  refine List.foldlRecOn (motive := fun later => Progress.All (Frame.Within limit) later ∧
    Climbs limit positions p later)
    _ _ ⟨all, .refl p⟩ fun later ⟨known, climbs⟩ edge inside => ?_
  exact ⟨known.absorb (fun _ _ left right => left.join right) positions (within edge inside),
    climbs.trans (absorb_climbs known (within edge inside))⟩

end Climbing

end Progress

theorem within_flows {limit : Nat} {s : Frame} (within : s.Within limit) (room : 2 ^ 31 < limit)
    {catalog : Catalog} {handlers : List Handler} {i : Instr} {edges : List (UInt32 × Frame)}
    (done : flows catalog handlers i s = .ok edges) :
    ∀ edge ∈ edges, edge.2.Within limit := by
  obtain ⟨outcome, _, same⟩ := flows_uniform catalog handlers i s
  rw [same s fun _ => rfl] at done
  obtain ⟨ways, _, rfl⟩ := Except.map_eq_ok.1 done
  intro edge member
  obtain ⟨way, _, rfl⟩ := List.mem_map.1 member
  exact within.write room way.2

namespace Inference

theorem visit_climbs {inf : Inference} {limit : Nat} (room : 2 ^ 31 < limit) {p later : Progress}
    {i : Instr} (all : p.All (Frame.Within limit)) (done : inf.visit p i = .ok later) :
    later.All (Frame.Within limit) ∧ ∀ q,
      (later.states[q]? = p.states[q]? ∧
        (later.pending.contains q = true → p.pending.contains q = true ∧ q ≠ i.position)) ∨
      inf.positions.contains q = true ∧ Progress.Moved limit p later q := by
  rcases visit_eq_ok done with ⟨idle, rfl⟩ | ⟨_, edges, rfl, found⟩
  · refine ⟨all, fun q => .inl ⟨rfl, fun marked => ⟨marked, fun same => ?_⟩⟩⟩
    rw [← same, marked] at idle
    cases idle
  · have within : ∀ edge ∈ edges, edge.2.Within limit := by
      rcases found with ⟨_, rfl⟩ | ⟨s, found, flowed⟩
      · simp
      · exact within_flows (all _ s found) room flowed
    have unmarked :
        Progress.All (Frame.Within limit) { p with pending := p.pending.erase i.position } := all
    obtain ⟨known, climbs⟩ := Progress.foldl_absorb_climbs unmarked within
    refine ⟨known, fun q => ?_⟩
    rcases climbs q with ⟨same, marks⟩ | ⟨inside, moved⟩
    · refine .inl ⟨same, fun marked => ?_⟩
      have kept := marks marked
      rw [Std.TreeSet.contains_erase, Bool.and_eq_true] at kept
      refine ⟨kept.2, fun same => ?_⟩
      simp [same] at kept
    · exact .inr ⟨inside, moved.congr_left rfl⟩

/-- The loop with no bound: sweeps until nothing is pending or a visit fails, with the number of
sweeps. -/
inductive Ends (inf : Inference) : Nat → Progress → Except Fault Progress → Prop where
  | settled {p : Progress} : p.pending.isEmpty = true → Ends inf 0 p (.ok p)
  | failed {p : Progress} {e : Fault} :
      p.pending.isEmpty = false → inf.sweep p = .error e → Ends inf 1 p (.error e)
  | again {p next : Progress} {sweeps : Nat} {outcome : Except Fault Progress} :
      p.pending.isEmpty = false →
      inf.sweep p = .ok next → Ends inf sweeps next outcome → Ends inf (sweeps + 1) p outcome

theorem Ends.exists_failed {inf : Inference} {start p : Progress} {sweeps : Nat}
    {outcome : Except Fault Progress} (ends : inf.Ends sweeps p outcome)
    (reached : inf.Reaches start p) {e : Fault} (fails : outcome = .error e) :
    ∃ middle, inf.Reaches start middle ∧ ∃ i ∈ inf.instrs, inf.visit middle i = .error e := by
  induction ends with
  | settled => cases fails
  | failed _ swept =>
    cases fails
    exact (reaches_foldlM (fun _ => id) reached).2 _ swept
  | again _ swept _ ih => exact ih ((reaches_foldlM (fun _ => id) reached).1 _ swept) fails

end Inference

def Code.places (code : Code) : Finset UInt32 := (code.instrs.map Instr.position).toFinset

theorem Code.mem_places {q : UInt32} : q ∈ code.places ↔ code.HasPosition q := by
  simp [places, HasPosition]

def Progress.total (limit : Nat) (code : Code) (p : Progress) : Nat :=
  ∑ q ∈ code.places, p.level limit q

theorem Progress.total_le (limit : Nat) (code : Code) (p : Progress) :
    p.total limit code ≤ code.instrs.length * (8 * limit + 1) := by
  have each := Finset.sum_le_sum fun q (_ : q ∈ code.places) => p.level_le limit q
  rw [Finset.sum_const, Nat.nsmul_eq_mul] at each
  refine each.trans (Nat.mul_le_mul_right _ ?_)
  exact (List.toFinset_card_le _).trans (List.length_map ..).le

namespace Inference

section Rounds

variable {catalog : Catalog} {code : Code} {limit : Nat} {p later : Progress}

/-- What holds between visits: no register counts from the limit on, and what is pending has an
instruction. -/
structure Bounded (limit : Nat) (code : Code) (p : Progress) : Prop where
  within : p.All (Frame.Within limit)
  marked : ∀ q, p.pending.contains q = true → code.HasPosition q

section

variable (room : 2 ^ 31 < limit) (bounded : Bounded limit code p)
include room bounded

theorem visit_total {i : Instr}
    (done : (ofCode catalog code).visit p i = .ok later) : Bounded limit code later ∧
      p.total limit code ≤ later.total limit code ∧ (p.total limit code = later.total limit code →
        ∀ q, later.pending.contains q = true → p.pending.contains q = true ∧ q ≠ i.position) := by
  obtain ⟨all, each⟩ := visit_climbs room bounded.within done
  have level_mono (q : UInt32) : p.level limit q ≤ later.level limit q := by
    rcases each q with ⟨same, _⟩ | ⟨_, moved⟩
    · simp only [Progress.level, same, le_refl]
    · exact moved.climbs.le
  refine ⟨⟨all, fun q marked => ?_⟩, Finset.sum_le_sum fun q _ => level_mono q,
    fun equal q marked => ?_⟩
  · rcases each q with ⟨_, marks⟩ | ⟨inside, _⟩
    · exact bounded.marked q (marks marked).1
    · exact (positions_ofCode catalog code q).1 inside
  · rcases each q with ⟨_, marks⟩ | ⟨inside, moved⟩
    · exact marks marked
    · have placed := Code.mem_places.2 ((positions_ofCode catalog code q).1 inside)
      have less := Finset.sum_lt_sum (fun q _ => level_mono q) ⟨q, placed, moved.climbs⟩
      exact absurd equal less.ne

theorem foldlM_total {instrs : List Instr}
    (done : instrs.foldlM (ofCode catalog code).visit p = .ok later) : Bounded limit code later ∧
      p.total limit code ≤ later.total limit code ∧ (p.total limit code = later.total limit code →
        ∀ q, later.pending.contains q = true → p.pending.contains q = true ∧
        ∀ i ∈ instrs, q ≠ i.position) := by
  induction instrs generalizing p with
  | nil =>
    cases done
    exact ⟨bounded, le_refl _, fun _ q marked => ⟨marked, by simp⟩⟩
  | cons i instrs ih =>
    rw [List.foldlM_cons] at done
    obtain ⟨next, visited, rest⟩ := Except.bind_eq_ok.1 done
    obtain ⟨bounded', less, still⟩ := visit_total room bounded visited
    obtain ⟨bounded'', less', still'⟩ := ih bounded' rest
    refine ⟨bounded'', less.trans less', fun equal q marked => ?_⟩
    obtain ⟨middle, others⟩ := still' (by omega) q marked
    obtain ⟨first, this⟩ := still (by omega) q middle
    exact ⟨first, List.forall_mem_cons.2 ⟨this, others⟩⟩

theorem sweep_total (done : (ofCode catalog code).sweep p = .ok later) :
    Bounded limit code later ∧
    (later.pending.isEmpty = true ∨ p.total limit code < later.total limit code) := by
  obtain ⟨bounded', less, still⟩ := foldlM_total room bounded done
  refine ⟨bounded', ?_⟩
  rcases less.lt_or_eq with strict | equal
  · exact .inr strict
  · refine .inl (Std.TreeSet.isEmpty_iff_forall_contains.2 fun q => ?_)
    by_contra marked
    rw [Bool.not_eq_false] at marked
    obtain ⟨before, nowhere⟩ := still equal q marked
    obtain ⟨i, member, here⟩ := bounded.marked q before
    exact nowhere i member here.symm

theorem settle_ends {rounds : Nat}
    (enough : code.instrs.length * (8 * limit + 1) < rounds + p.total limit code) :
    ∃ sweeps ≤ rounds, (ofCode catalog code).Ends sweeps p
      ((ofCode catalog code).settle rounds p) := by
  induction rounds generalizing p with
  | zero =>
    have := p.total_le limit code
    omega
  | succ rounds ih =>
    unfold settle
    split
    next empty => exact ⟨0, Nat.zero_le _, .settled empty⟩
    next more =>
      rw [Bool.not_eq_true] at more
      cases swept : (ofCode catalog code).sweep p with
      | error e => exact ⟨1, by omega, .failed more swept⟩
      | ok next =>
        obtain ⟨bounded', empty | climbs⟩ := sweep_total room bounded swept
        · refine ⟨1, by omega, .again more swept ?_⟩
          have finished : (ofCode catalog code).settle rounds next = .ok next := by
            unfold settle
            rw [if_pos empty]
          simp only [bind, Except.bind, finished]
          exact .settled empty
        · obtain ⟨sweeps, few, ends⟩ := ih bounded' (by omega)
          exact ⟨sweeps + 1, by omega, .again more swept ends⟩

end

end Rounds

end Inference

theorem registerLimit_room (method : Method) : 2 ^ 31 < registerLimit method := by
  unfold registerLimit
  omega

theorem Progress.start_within (method : Method) (code : Code) :
    (Progress.start method code).All (Frame.Within (registerLimit method)) := by
  intro q s here
  have few := code.registers.toNat_lt
  rw [Progress.lookup_start] at here
  split at here
  · cases here
    apply Frame.within_ofParameters
    unfold registerLimit
    omega
  · cases here

theorem Inference.Reaches.within {catalog : Catalog} {method : Method} {p : Progress}
    (reached : (ofCode catalog code).Reaches (.start method code) p) :
    p.All (Frame.Within (registerLimit method)) := by
  induction reached with
  | refl => exact Progress.start_within method code
  | visit _ _ visited ih => exact (visit_climbs (registerLimit_room method) ih visited).1

theorem infer_of_no_entry (catalog : Catalog) (method : Method) (no_entry : ¬ code.HasPosition 0) :
    infer catalog method code = fail .noEntry := by
  have absent : (Inference.ofCode catalog code).positions.contains 0 = false := by
    rw [← Bool.not_eq_true, Inference.positions_ofCode]
    exact no_entry
  simp only [infer, absent]
  rfl

theorem infer_eq_ends (catalog : Catalog) (method : Method) (code : Code)
    (entry : code.HasPosition 0) :
    ∃ sweeps ≤ roundLimit method code, ∃ outcome, (Inference.ofCode catalog code).Ends sweeps
      (.start method code) outcome ∧
      infer catalog method code = outcome.map fun p => ⟨p.states, code.handlers⟩ := by
  have bounded : Inference.Bounded (registerLimit method) code (.start method code) := by
    refine ⟨Progress.start_within method code, fun q marked => ?_⟩
    have zero : 0 = q := by simpa [Progress.start] using marked
    exact zero ▸ entry
  obtain ⟨sweeps, few, ends⟩ : ∃ sweeps ≤ roundLimit method code,
    (Inference.ofCode catalog code).Ends sweeps _ _ :=
    Inference.settle_ends (registerLimit_room method) bounded (by unfold roundLimit; omega)
  refine ⟨sweeps, few, _, ends, ?_⟩
  have known : (Inference.ofCode catalog code).positions.contains 0 = true :=
    (Inference.positions_ofCode catalog code 0).2 entry
  simp only [infer, known, if_true]
  rfl

/-- Inference ends for all code. Without an entry it refuses; otherwise unbounded sweeps come to a
fault or leave nothing pending, and that is the answer. Whatever the order of visits, a position is
newly marked only if its state has strictly moved up, which happens at most `8 * registerLimit
method + 1` times. -/
theorem infer_terminates (catalog : Catalog) (method : Method) (code : Code) :
    ((¬ code.HasPosition 0 ∧ infer catalog method code = fail .noEntry) ∨
      code.HasPosition 0 ∧ ∃ sweeps ≤ roundLimit method code, ∃ outcome,
        (Inference.ofCode catalog code).Ends sweeps (.start method code) outcome ∧
        infer catalog method code = outcome.map fun p => ⟨p.states, code.handlers⟩) ∧
    ∀ p, (Inference.ofCode catalog code).Reaches (.start method code) p →
    ∀ i ∈ code.instrs, ∀ later,
      (Inference.ofCode catalog code).visit p i = .ok later → ∀ q,
        (later.states[q]? = p.states[q]? ∧
          (later.pending.contains q = true → p.pending.contains q = true ∧ q ≠ i.position)) ∨
        p.Moved (registerLimit method) later q ∧ later.level (registerLimit method) q ≤
          8 * registerLimit method + 1 := by
  refine ⟨?_, fun p reached i _ later visited q => ?_⟩
  · by_cases entry : code.HasPosition 0
    · exact .inr ⟨entry, infer_eq_ends catalog method code entry⟩
    · exact .inl ⟨entry, infer_of_no_entry catalog method entry⟩
  · rcases (Inference.visit_climbs (registerLimit_room method) reached.within visited).2 q with
      kept | ⟨_, moved⟩
    · exact .inl kept
    · exact .inr ⟨moved, later.level_le _ q⟩

end Restack.Register
