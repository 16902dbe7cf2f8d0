import Mathlib
import Restack.Proofs.Frame
import Restack.Proofs.Register.Flow

-- All of the library: its unfolding lemmas evaluate the sample below, and those of modules further
-- on.
set_option autoImplicit false

/-!
Inference ends in a state for every reachable position that absorbs whatever any instruction passes
on to it. The invariant is about the positions that are not pending: what they pass on has been
absorbed already, and since states only ever absorb more, it stays absorbed while other positions
are visited.
-/

namespace Restack.Register

theorem foldl_insert_contains {α κ : Type} [BEq κ] [LawfulBEq κ] [Hashable κ] (key : α → κ)
    (xs : List α) (set : Std.HashSet κ) (k : κ) :
    (xs.foldl (fun keys x => keys.insert (key x)) set).contains k = true ↔
      set.contains k = true ∨ ∃ x ∈ xs, key x = k := by
  induction xs generalizing set with
  | nil => simp
  | cons x xs ih => simp [ih, or_assoc, or_left_comm]

theorem Inference.positions_ofCode (catalog : Catalog) (code : Code) (p : UInt32) :
    (Inference.ofCode catalog code).positions.contains p = true ↔ code.HasPosition p := by
  rw [ofCode, foldl_insert_contains Instr.position]
  simp [Code.HasPosition]

namespace Progress

def start (method : Method) (code : Code) : Progress :=
  ⟨(∅ : Std.TreeMap UInt32 Frame).insert 0 (Frame.ofParameters method.slots code.registers.toNat),
    (∅ : Std.TreeSet UInt32).insert 0⟩

/-- `later` may have absorbed more than `p`; every position whose state is new or has changed is
pending. -/
structure Grows (p later : Progress) : Prop where
  absorbs : ∀ (q : UInt32) (s : Frame), p.states[q]? = some s →
    ∃ t : Frame, later.states[q]? = some t ∧ t.Absorbs s
  changed : ∀ q : UInt32, later.states[q]? = p.states[q]? ∨ later.pending.contains q = true
  pending : ∀ q, p.pending.contains q = true → later.pending.contains q = true

namespace Grows

theorem refl (p : Progress) : Grows p p :=
  ⟨fun _ s here => ⟨s, here, .refl s⟩, fun _ => .inl rfl, fun _ inside => inside⟩

theorem trans {a b c : Progress} (first : Grows a b) (second : Grows b c) : Grows a c := by
  refine ⟨fun q s here => ?_, fun q => ?_, fun q inside =>
    second.pending q (first.pending q inside)⟩
  · obtain ⟨t, there, above⟩ := first.absorbs q s here
    obtain ⟨u, beyond, above'⟩ := second.absorbs q t there
    exact ⟨u, beyond, above'.trans above⟩
  · rcases second.changed q with same | pending
    · rcases first.changed q with same' | pending'
      · exact .inl (same.trans same')
      · exact .inr (second.pending q pending')
    · exact .inr pending

end Grows

theorem lookup_insert (states : Std.TreeMap UInt32 Frame) (q r : UInt32) (t : Frame) :
    (states.insert q t)[r]? = if q = r then some t else states[r]? := by
  rw [Std.TreeMap.getElem?_insert]
  simp

theorem grows_insert (p : Progress) (q : UInt32) (t : Frame)
    (above : ∀ s, p.states[q]? = some s → t.Absorbs s) :
    Grows p ⟨p.states.insert q t, p.pending.insert q⟩ := by
  refine ⟨fun r s here => ?_, fun r => ?_, fun r inside => ?_⟩
  · by_cases same : q = r
    · subst same
      refine ⟨t, ?_, above s here⟩
      rw [lookup_insert, if_pos rfl]
    · refine ⟨s, ?_, .refl s⟩
      rw [lookup_insert, if_neg same]
      exact here
  · by_cases same : q = r
    · exact .inr (by simp [same])
    · refine .inl ?_
      rw [lookup_insert, if_neg same]
  · simp [inside]

/-- What came in on edges with one of the `targets`: nothing else got a state, and nothing else was
marked. -/
structure Adds (targets : List UInt32) (positions : Std.HashSet UInt32) (p later : Progress) :
    Prop where
  known : ∀ q : UInt32, later.states[q]?.isSome → p.states[q]?.isSome ∨ q ∈ targets ∧
    positions.contains q = true
  marked : ∀ q : UInt32, later.pending.contains q = true → p.pending.contains q = true ∨
    later.states[q]?.isSome

section

variable (positions : Std.HashSet UInt32) (p : Progress) (q : UInt32)

theorem adds_insert (t : Frame) (inside : positions.contains q = true) :
    Adds [q] positions p ⟨p.states.insert q t, p.pending.insert q⟩ := by
  refine ⟨fun r known => ?_, fun r marked => ?_⟩
  · rw [lookup_insert] at known
    by_cases same : q = r
    · subst same
      exact .inr ⟨List.mem_singleton_self _, inside⟩
    · rw [if_neg same] at known
      exact .inl known
  · rw [lookup_insert]
    by_cases same : q = r
    · exact .inr (by simp [same])
    · refine .inl ?_
      simpa [same] using marked

theorem absorb_cases (s : Frame) :
    (p.absorb positions (q, s) = p ∧
      (positions.contains q = true → ∃ old : Frame, p.states[q]? = some old ∧ old.Absorbs s)) ∨
    positions.contains q = true ∧
    ∃ t, p.absorb positions (q, s) = ⟨p.states.insert q t, p.pending.insert q⟩ ∧
      (p.states[q]? = none ∧ t = s ∨ ∃ old, p.states[q]? = some old ∧ old.merge? s = some t) := by
  simp only [absorb]
  split
  next inside =>
    split
    next old found =>
      split
      next joined merged => exact .inr ⟨inside, joined, rfl, .inr ⟨old, found, merged⟩⟩
      next covered => exact .inl ⟨rfl, fun _ => ⟨old, found, covered⟩⟩
    next found => exact .inr ⟨inside, s, rfl, .inl ⟨found, rfl⟩⟩
  next outside => exact .inl ⟨rfl, fun inside => absurd inside outside⟩

theorem absorb_spec (s : Frame) :
    Grows p (p.absorb positions (q, s)) ∧ Adds [q] positions p (p.absorb positions (q, s)) ∧
      (positions.contains q = true → ∃ t : Frame, (p.absorb positions (q, s)).states[q]? = some t ∧
        t.Absorbs s) := by
  have written (t : Frame) : (p.states.insert q t)[q]? = some t := by rw [lookup_insert, if_pos rfl]
  rcases absorb_cases positions p q s with ⟨same, covered⟩ |
    ⟨inside, t, same, ⟨found, rfl⟩ | ⟨old, found, merged⟩⟩
  all_goals rw [same]
  · exact ⟨.refl p, ⟨fun _ known => .inl known, fun _ marked => .inl marked⟩, covered⟩
  · exact ⟨grows_insert p q t (by simp [found]), adds_insert positions p q t inside,
      fun _ => ⟨t, written t, .refl t⟩⟩
  · cases Frame.eq_join_of_merge? merged
    refine ⟨grows_insert p q _ fun before here => ?_, adds_insert positions p q _ inside,
      fun _ => ⟨_, written _, Frame.join_absorbs_right old s⟩⟩
    cases found.symm.trans here
    exact Frame.join_absorbs_left old s

end

theorem foldl_absorb_spec (positions : Std.HashSet UInt32) (edges : List (UInt32 × Frame))
    (p : Progress) :
    Grows p (edges.foldl (absorb positions) p) ∧
      Adds (edges.map Prod.fst) positions p (edges.foldl (absorb positions) p) ∧
      ∀ q s, (q, s) ∈ edges → positions.contains q = true →
        ∃ t : Frame, (edges.foldl (absorb positions) p).states[q]? = some t ∧ t.Absorbs s := by
  induction edges generalizing p with
  | nil => exact ⟨.refl p, ⟨fun _ known => .inl known, fun _ marked => .inl marked⟩, by simp⟩
  | cons edge edges ih =>
    obtain ⟨q, s⟩ := edge
    obtain ⟨grows, adds, absorbed⟩ := absorb_spec positions p q s
    obtain ⟨grows', adds', absorbed'⟩ := ih (p.absorb positions (q, s))
    refine ⟨grows.trans grows', ⟨fun r known => ?_, fun r marked => ?_⟩,
      fun r t member inside => ?_⟩
    · rcases adds'.known r known with before | ⟨target, inside⟩
      · rcases adds.known r before with first | ⟨target, inside⟩
        · exact .inl first
        · exact .inr ⟨by simpa using .inl (List.mem_singleton.1 target), inside⟩
      · exact .inr ⟨List.mem_cons_of_mem _ target, inside⟩
    · rcases adds'.marked r marked with before | known
      · rcases adds.marked r before with first | known
        · exact .inl first
        · obtain ⟨u, here⟩ := Option.isSome_iff_exists.1 known
          obtain ⟨v, there, _⟩ := grows'.absorbs r u here
          exact .inr (by simp only [List.foldl_cons, there, Option.isSome_some])
      · exact .inr known
    · rcases List.mem_cons.1 member with first | later
      · cases first
        obtain ⟨u, here, above⟩ := absorbed inside
        obtain ⟨v, there, above'⟩ := grows'.absorbs q u here
        exact ⟨v, there, above'.trans above⟩
      · exact absorbed' r t later inside

end Progress

variable {catalog : Catalog} {method : Method} {code : Code} {i : Instr} {entry s : Frame}

/-- Only reachable positions have a state, and what a position that is not pending passes on is
absorbed wherever it leads. -/
structure Progress.Sound (catalog : Catalog) (code : Code) (entry : Frame) (p : Progress) :
    Prop where
  reached : ∀ q : UInt32, p.states[q]?.isSome → code.Reachable q
  marked : ∀ q : UInt32, p.pending.contains q = true → p.states[q]?.isSome
  start : ∃ s : Frame, p.states[(0 : UInt32)]? = some s ∧ s.Absorbs entry
  clean : ∀ i ∈ code.instrs, p.pending.contains i.position = false →
    ∀ s, p.states[i.position]? = some s →
    ∃ edges, flows catalog (code.handlers.getD i.position []) i s = .ok edges ∧
      ∀ q t, (q, t) ∈ edges → code.HasPosition q → ∃ y : Frame, p.states[q]? = some y ∧ y.Absorbs t

theorem Code.Reachable.of_flows {edges : List (UInt32 × Frame)} (member : i ∈ code.instrs)
    (reached : code.Reachable i.position)
    (done : flows catalog (code.handlers.getD i.position []) i s = .ok edges) {q : UInt32}
    {t : Frame} (edge : (q, t) ∈ edges) (exists_there : code.HasPosition q) : code.Reachable q := by
  rcases (mem_flows_iff done q t).1 edge with passes | ⟨_, h, inside, rfl⟩
  · exact .flow member reached passes.leads exists_there
  · exact .caught member reached inside exists_there

namespace Progress

theorem lookup_start (method : Method) (code : Code) (q : UInt32) : (start method code).states[q]? =
    if 0 = q then some (Frame.ofParameters method.slots code.registers.toNat) else none := by
  simp [start, lookup_insert]

theorem sound_start (has_start : code.HasPosition 0) :
    (start method code).Sound catalog code
      (Frame.ofParameters method.slots code.registers.toNat) := by
  refine ⟨fun q known => ?_, fun q marked => ?_, ⟨_, lookup_start method code 0, .refl _⟩,
    fun i _ clean s here => ?_⟩
  · rw [lookup_start] at known
    by_cases zero : 0 = q
    · exact zero ▸ .entry has_start
    · simp [zero] at known
  · have zero : 0 = q := by simpa [start] using marked
    simp [lookup_start, zero]
  · rw [lookup_start] at here
    have other : ¬ 0 = i.position := by simpa [start] using clean
    simp [other] at here

end Progress

namespace Inference

variable {inf : Inference} {first p later : Progress}

theorem visit_eq_ok (done : inf.visit p i = .ok later) :
    (p.pending.contains i.position = false ∧ later = p) ∨ p.pending.contains i.position = true ∧
    ∃ edges,
      later = edges.foldl
        (Progress.absorb inf.positions) { p with pending := p.pending.erase i.position } ∧
      (p.states[i.position]? = none ∧ edges = [] ∨ ∃ s, p.states[i.position]? = some s ∧
        flows inf.catalog (inf.handlers.getD i.position []) i s = .ok edges) := by
  unfold visit at done
  split at done
  next pending =>
    split at done
    next s found =>
      obtain ⟨edges, flowed, last⟩ := Except.bind_eq_ok.1 done
      cases last
      exact .inr ⟨pending, edges, rfl, .inr ⟨s, found, flowed⟩⟩
    next found =>
      cases done
      exact .inr ⟨pending, [], rfl, .inl ⟨found, rfl⟩⟩
  next idle =>
    cases done
    exact .inl ⟨Bool.not_eq_true _ ▸ idle, rfl⟩

/-- The progress that can be made by visits in some order. -/
inductive Reaches (inf : Inference) (p : Progress) : Progress → Prop where
  | refl : Reaches inf p p
  | visit {middle later : Progress} {i : Instr} : Reaches inf p middle → i ∈ inf.instrs →
      inf.visit middle i = .ok later → Reaches inf p later

theorem reaches_foldlM {instrs : List Instr} (inside : ∀ i ∈ instrs, i ∈ inf.instrs)
    (reached : inf.Reaches first p) :
    (∀ later, instrs.foldlM inf.visit p = .ok later → inf.Reaches first later) ∧
      ∀ e, instrs.foldlM inf.visit p = .error e →
        ∃ middle, inf.Reaches first middle ∧ ∃ i ∈ inf.instrs, inf.visit middle i = .error e := by
  induction instrs generalizing p with
  | nil =>
    constructor
    · intro later done
      cases done
      exact reached
    · intro e failed
      cases failed
  | cons i instrs ih =>
    rw [List.foldlM_cons]
    have here := inside i List.mem_cons_self
    cases visited : inf.visit p i with
    | error e =>
      constructor
      · intro later done
        cases done
      · intro e failed
        cases failed
        exact ⟨p, reached, i, here, visited⟩
    | ok next =>
      exact ih (fun j member => inside j (List.mem_cons_of_mem _ member))
        (.visit reached here visited)

theorem settle_reaches {rounds : Nat} (reached : inf.Reaches first p)
    (done : inf.settle rounds p = .ok later) :
    inf.Reaches first later ∧ later.pending.isEmpty = true := by
  induction rounds generalizing p with
  | zero =>
    unfold settle at done
    split at done
    next finished =>
      cases done
      exact ⟨reached, finished⟩
    next => cases done
  | succ rounds ih =>
    unfold settle at done
    split at done
    next finished =>
      cases done
      exact ⟨reached, finished⟩
    next =>
      obtain ⟨next, swept, rest⟩ := Except.bind_eq_ok.1 done
      exact ih ((reaches_foldlM (fun _ => id) reached).1 next swept) rest

end Inference

theorem infer_reaches {typing : Typing} (done : infer catalog method code = .ok typing) :
    code.HasPosition 0 ∧ ∃ p, (Inference.ofCode catalog code).Reaches (.start method code) p ∧
    p.pending.isEmpty = true ∧
      typing = ⟨p.states, code.handlers⟩ := by
  unfold infer at done
  dsimp only at done
  split at done
  next has_start =>
    obtain ⟨settled, ran, last⟩ := Except.bind_eq_ok.1 done
    cases last
    obtain ⟨reached, finished⟩ := Inference.settle_reaches .refl ran
    exact ⟨(Inference.positions_ofCode catalog code 0).1 has_start, settled, reached, finished, rfl⟩
  next => cases done

/-- One visit keeps the invariant. The position visited is clean afterwards unless it was fed by
itself. -/
theorem Inference.visit_sound {p later : Progress}
    (distinct : (code.instrs.map Instr.position).Nodup) (member : i ∈ code.instrs)
    (sound : p.Sound catalog code entry) (done : (ofCode catalog code).visit p i = .ok later) :
    later.Sound catalog code entry := by
  rcases visit_eq_ok done with ⟨_, rfl⟩ | ⟨pending, edges, rfl, ⟨none, _⟩ | ⟨s, here, flowed⟩⟩
  · exact sound
  · have known := sound.marked _ pending
    simp [none] at known
  · have reached : code.Reachable i.position := sound.reached _ (by simp [here])
    obtain ⟨grows, adds, absorbed⟩ :=
      Progress.foldl_absorb_spec (ofCode catalog code).positions edges
      { p with pending := p.pending.erase i.position }
    refine ⟨fun q known => ?_, fun q marked => ?_, ?_, fun j inside clean t there => ?_⟩
    · rcases adds.known q known with before | ⟨target, exists_there⟩
      · exact sound.reached q before
      · obtain ⟨⟨q', t⟩, edge, rfl⟩ := List.mem_map.1 target
        exact .of_flows member reached flowed edge
          ((positions_ofCode catalog code _).1 exists_there)
    · rcases adds.marked q marked with before | known
      · have still : p.pending.contains q = true := by
          rw [Std.TreeSet.contains_erase, Bool.and_eq_true] at before
          exact before.2
        obtain ⟨u, at_q⟩ := Option.isSome_iff_exists.1 (sound.marked q still)
        obtain ⟨v, at_q', _⟩ := grows.absorbs q u at_q
        rw [at_q']
        rfl
      · exact known
    · obtain ⟨u, at_zero, above⟩ := sound.start
      obtain ⟨v, at_zero', above'⟩ := grows.absorbs 0 u at_zero
      exact ⟨v, at_zero', above'.trans above⟩
    · -- A clean position has kept its state, since changing it would have marked it.
      have unchanged : p.states[j.position]? = some t := by
        rcases grows.changed j.position with same | marked
        · exact same ▸ there
        · exact absurd marked (by simp [clean])
      by_cases same : j.position = i.position
      · cases List.inj_on_of_nodup_map distinct inside member same
        cases here.symm.trans unchanged
        exact ⟨edges, flowed, fun q u edge exists_there =>
          absorbed q u edge ((positions_ofCode catalog code q).2 exists_there)⟩
      · have clean_before : p.pending.contains j.position = false := by
          by_contra marked
          have kept := grows.pending j.position (by simpa [Ne.symm same] using marked)
          exact absurd kept (by simp [clean])
        obtain ⟨edges', flowed', absorbed'⟩ := sound.clean j inside clean_before t unchanged
        refine ⟨edges', flowed', fun q u edge exists_there => ?_⟩
        obtain ⟨y, at_q, above⟩ := absorbed' q u edge exists_there
        obtain ⟨z, at_q', above'⟩ := grows.absorbs q y at_q
        exact ⟨z, at_q', above'.trans above⟩

theorem Inference.Reaches.sound {p : Progress} (distinct : (code.instrs.map Instr.position).Nodup)
    (has_start : code.HasPosition 0)
    (reached : (ofCode catalog code).Reaches (.start method code) p) :
    p.Sound catalog code (Frame.ofParameters method.slots code.registers.toNat) := by
  induction reached with
  | refl => exact Progress.sound_start has_start
  | visit _ member visited ih => exact visit_sound distinct member ih visited

/-- Once inference has settled, every position with a state passes it on to states that absorb it.
-/
structure Typing.Closed (catalog : Catalog) (code : Code) (entry : Frame) (typing : Typing) :
    Prop where
  reached : ∀ q : UInt32, typing.states[q]?.isSome → code.Reachable q
  start : ∃ s : Frame, typing.states[(0 : UInt32)]? = some s ∧ s.Absorbs entry
  flowed : ∀ i ∈ code.instrs, ∀ s, typing.states[i.position]? = some s →
    ∃ edges, flows catalog (code.handlers.getD i.position []) i s = .ok edges ∧
      ∀ q t, (q, t) ∈ edges → code.HasPosition q → ∃ y : Frame, typing.states[q]? = some y ∧
      y.Absorbs t
  handlers : typing.handlers = code.handlers

theorem infer_closed {typing : Typing} (distinct : (code.instrs.map Instr.position).Nodup)
    (done : infer catalog method code = .ok typing) :
    typing.Closed catalog code (Frame.ofParameters method.slots code.registers.toNat) := by
  obtain ⟨has_start, settled, reached, empty, rfl⟩ := infer_reaches done
  have sound := reached.sound distinct has_start
  refine ⟨sound.reached, sound.start, fun i member s here => sound.clean i member ?_ s here, rfl⟩
  exact Std.TreeSet.isEmpty_iff_forall_contains.1 empty i.position

namespace Typing.Closed

variable {entry : Frame} {typing : Typing}

section

variable (closed : typing.Closed catalog code entry)
include closed

theorem mem_iff_reachable (q : UInt32) : typing.states[q]?.isSome ↔ code.Reachable q := by
  refine ⟨closed.reached q, fun reachable => ?_⟩
  induction reachable with
  | entry _ =>
    obtain ⟨s, here, _⟩ := closed.start
    simp [here]
  | flow member _ leads exists_there ih =>
    obtain ⟨s, here⟩ := Option.isSome_iff_exists.1 ih
    obtain ⟨edges, done, absorbed⟩ := closed.flowed _ member s here
    obtain ⟨t, passes⟩ := exists_passes done leads
    obtain ⟨y, there, _⟩ := absorbed _ t ((mem_flows_iff done _ t).2 (.inl passes)) exists_there
    simp [there]
  | caught member _ caught exists_there ih =>
    obtain ⟨s, here⟩ := Option.isSome_iff_exists.1 ih
    obtain ⟨edges, done, absorbed⟩ := closed.flowed _ member s here
    obtain ⟨y, there, _⟩ :=
      absorbed _ s ((mem_flows_iff done _ s).2 (.inr ⟨rfl, _, caught, rfl⟩)) exists_there
    simp [there]

theorem absorbs_passed {t : Frame} {q : UInt32} (member : i ∈ code.instrs)
    (here : typing.states[i.position]? = some s) (passes : i.Passes catalog s q t)
    (exists_there : code.HasPosition q) :
    ∃ y : Frame, typing.states[q]? = some y ∧ y.Absorbs t := by
  obtain ⟨edges, done, absorbed⟩ := closed.flowed i member s here
  exact absorbed q t ((mem_flows_iff done q t).2 (.inl passes)) exists_there

theorem absorbs_caught {h : Handler} (member : i ∈ code.instrs)
    (here : typing.states[i.position]? = some s) (caught : h ∈ code.handlers.getD i.position [])
    (exists_there : code.HasPosition h.target) :
    ∃ y : Frame, typing.states[h.target]? = some y ∧ y.Absorbs s := by
  obtain ⟨edges, done, absorbed⟩ := closed.flowed i member s here
  exact absorbed h.target s ((mem_flows_iff done _ s).2 (.inr ⟨rfl, h, caught, rfl⟩)) exists_there

end

end Typing.Closed

/-- States for exactly the reachable positions, above the entry state and closed under all edges. -/
structure Typing.IsPostFixpoint (catalog : Catalog) (method : Method) (code : Code)
    (typing : Typing) : Prop where
  reachable : ∀ p : UInt32, p ∈ typing.states ↔ code.Reachable p
  start : ∃ s : Frame, typing.states[(0 : UInt32)]? = some s ∧
    s.Absorbs (Frame.ofParameters method.slots code.registers.toNat)
  defined : ∀ i ∈ code.instrs, ∀ s, typing.states[i.position]? = some s → ∀ q, i.Leads q →
    ∃ t, i.Passes catalog s q t
  passed : ∀ i ∈ code.instrs, ∀ s, typing.states[i.position]? = some s →
    ∀ q t, i.Passes catalog s q t →
    code.HasPosition q → ∃ y : Frame, typing.states[q]? = some y ∧ y.Absorbs t
  caught : ∀ i ∈ code.instrs, ∀ s, typing.states[i.position]? = some s →
    ∀ h ∈ code.handlers.getD i.position [],
    code.HasPosition h.target → ∃ y : Frame, typing.states[h.target]? = some y ∧ y.Absorbs s

theorem infer_isPostFixpoint (catalog : Catalog) (method : Method) (code : Code) (typing : Typing)
    (distinct : (code.instrs.map Instr.position).Nodup)
    (done : infer catalog method code = .ok typing) :
    typing.IsPostFixpoint catalog method code := by
  have closed := infer_closed distinct done
  refine ⟨fun p => ?_, closed.start, fun i member s here q leads => ?_, ?_, ?_⟩
  · rw [← closed.mem_iff_reachable p, Std.TreeMap.isSome_getElem?_iff_mem]
  · obtain ⟨edges, flowed, _⟩ := closed.flowed i member s here
    exact exists_passes flowed leads
  · exact fun i member s here q t passes exists_there =>
      closed.absorbs_passed member here passes exists_there
  · exact fun i member s here h caught exists_there =>
      closed.absorbs_caught member here caught exists_there

section Invariant

variable {P : Frame → Prop}

def Progress.All (P : Frame → Prop) (p : Progress) : Prop :=
  ∀ (q : UInt32) (s : Frame), p.states[q]? = some s → P s

theorem Progress.All.absorb {p : Progress} (all : p.All P) (joins : ∀ s t, P s → P t → P (s.join t))
    (positions : Std.HashSet UInt32) {edge : UInt32 × Frame} (holds : P edge.2) :
    (p.absorb positions edge).All P := by
  have inserted : ∀ t, P t →
      Progress.All P ⟨p.states.insert edge.1 t, p.pending.insert edge.1⟩ := by
    intro t good q s here
    rw [Progress.lookup_insert] at here
    split at here
    · cases here
      exact good
    · exact all q s here
  obtain ⟨target, s⟩ := edge
  rcases p.absorb_cases positions target s with ⟨same, _⟩ |
    ⟨_, t, same, ⟨_, rfl⟩ | ⟨old, found, merged⟩⟩
  all_goals rw [same]
  · exact all
  · exact inserted _ holds
  · rw [Frame.eq_join_of_merge? merged]
    exact inserted _ (joins _ _ (all _ old found) holds)

/-- What holds on entry and is kept by joins and by every way out of an instruction holds of all
states that are inferred. -/
theorem infer_all {typing : Typing} (joins : ∀ s t, P s → P t → P (s.join t))
    (flowed : ∀ i ∈ code.instrs, ∀ s t q, P s → i.Passes catalog s q t → P t)
    (start : P (Frame.ofParameters method.slots code.registers.toNat))
    (done : infer catalog method code = .ok typing) (q : UInt32) (state : Frame)
    (here : typing.states[q]? = some state) : P state := by
  obtain ⟨_, settled, reached, _, rfl⟩ := infer_reaches done
  have all (p : Progress)
      (reached : (Inference.ofCode catalog code).Reaches (.start method code) p) : p.All P := by
    induction reached with
    | refl =>
      intro q s known
      rw [Progress.lookup_start] at known
      split at known
      · cases known
        exact start
      · cases known
    | @visit middle later i _ member visited all =>
      rcases Inference.visit_eq_ok visited with ⟨_, rfl⟩ | ⟨_, edges, rfl, found⟩
      · exact all
      · refine List.foldlRecOn (motive := Progress.All P) _ _ all fun p known edge inside =>
          known.absorb joins _ ?_
        rcases found with ⟨_, rfl⟩ | ⟨s, found, flow⟩
        · cases inside
        · rcases (mem_flows_iff flow edge.1 edge.2).1 inside with passes | ⟨same, _⟩
          · exact flowed i member s edge.2 edge.1 (all _ s found) passes
          · exact same ▸ all _ s found
  exact all settled reached q state here

end Invariant

def sampleCode : Code where
  registers := 2
  guards := [⟨3, 4, [⟨none, 4⟩]⟩]
  instrs :=
    [.ofOpcode 0x12 0 1 [0, 0], { Instr.ofOpcode 0x38 1 3 [1, 0] with casts := some ⟨0, [1]⟩ },
    .ofOpcode 0x23 3 4 [0, 1, 0], .ofOpcode 0x0e 4 5 []]

theorem sampleCode_contiguous : sampleCode.Contiguous := by
  refine ⟨by decide, fun n i here goes_on => ?_⟩
  match n with
  | 0 | 1 | 2 =>
    cases here
    exact ⟨_, rfl, rfl⟩
  | 3 =>
    cases here
    cases goes_on
  | n + 4 => cases here

theorem sampleCode_isPostFixpoint :
    ∃ typing, infer { types := #["[I"] } ⟨⟨"a/B", "f", ["I"], "V"⟩, 8, none⟩ sampleCode =
      .ok typing ∧
      typing.IsPostFixpoint { types := #["[I"] }
        ⟨⟨"a/B", "f", ["I"], "V"⟩, 8, none⟩ sampleCode := by
  have settles : (infer { types := #["[I"] } ⟨⟨"a/B", "f", ["I"], "V"⟩, 8, none⟩ sampleCode).isOk =
      true := by cbv
  obtain ⟨typing, done⟩ := Except.isOk_iff.1 settles
  exact ⟨typing, done, infer_isPostFixpoint _ _ _ _ (by decide) done⟩

end Restack.Register
