import Mathlib.Order.Basic
import Restack.Proofs.Frame.Facts
import Restack.Proofs.Register.ArrayTypes
import Restack.Proofs.Register.Transfer

set_option autoImplicit false

namespace Restack

/-- Where the value that is written to a register comes from. -/
inductive Source where
  | fresh (kinds : Kinds) (array : ArrayView)
  | copy (register : Nat)
  | cast (array : ArrayView)
  /-- The register itself, known to hold an instance of a type that it may not have been declared
  with. -/
  | hinted (array : ArrayView)

namespace Source

def value (s : Frame) (target : Nat) : Source → Fact
  | .fresh kinds array => ⟨kinds, array, false⟩
  | .copy r => s.facts r
  | .cast array => ⟨.ofRef, (s.arrayOf target).narrow array, false⟩
  | .hinted array => ⟨s.kindsOf target, (s.arrayOf target).narrow array, true⟩

theorem value_mono {s t : Frame} (below : s.facts ≤ t.facts) (target : Nat) (source : Source) :
    source.value s target ≤ source.value t target := by
  obtain ⟨kinds, array, _⟩ := Fact.le_iff.1 (below target)
  cases source with
  | fresh kinds array => exact le_refl _
  | copy r => exact below r
  | cast array' => exact Fact.le_iff.2 ⟨Kinds.inter_self _, ArrayView.narrow_mono array array', rfl⟩
  | hinted array' => exact Fact.le_iff.2 ⟨kinds, ArrayView.narrow_mono array array', rfl⟩

end Source

/-- Registers with what is written to them, in order. Operands are signed, and the upper half of a
pair is one further. -/
structure Writes where
  list : List (Nat × Source)
  bounded : ∀ w ∈ list, w.1 ≤ 2 ^ 31

namespace Frame

/-- The state after all writes; all values are from the state before. -/
def write (s : Frame) (ws : Writes) : Frame :=
  ws.list.foldl (fun t w =>
    t.assign w.1 (w.2.value s w.1).kinds (w.2.value s w.1).array (w.2.value s w.1).taint) s

theorem facts_write (s : Frame) (ws : Writes) :
    (s.write ws).facts = ws.list.foldl
      (fun f w => Function.update f w.1 (w.2.value s w.1)) s.facts := by
  have folded : ∀ (list : List (Nat × Source)) (t : Frame),
      (list.foldl (fun t w => t.assign w.1 (w.2.value s w.1).kinds (w.2.value s w.1).array
        (w.2.value s w.1).taint) t).facts =
        list.foldl (fun f w => Function.update f w.1 (w.2.value s w.1)) t.facts := by
    intro list
    induction list with
    | nil => exact fun _ => rfl
    | cons w list ih =>
      intro t
      rw [List.foldl_cons, List.foldl_cons, ih, facts_assign]
  exact folded ws.list s

theorem facts_write_cases (s : Frame) (ws : Writes) (reg : Nat) :
    (s.write ws).facts reg = s.facts reg ∨
    ∃ w ∈ ws.list, w.1 = reg ∧ (s.write ws).facts reg = w.2.value s w.1 := by
  rw [facts_write]
  refine List.foldlRecOn (motive := fun f : Nat → Fact => f reg = s.facts reg ∨
    ∃ w ∈ ws.list, w.1 = reg ∧ f reg = w.2.value s w.1) _ _ (.inl rfl) fun f known w member => ?_
  by_cases same : reg = w.1
  · exact .inr ⟨w, member, same.symm, by rw [same, Function.update_self]⟩
  · rw [Function.update_of_ne same]
    exact known

theorem Real.write {s : Frame} (real : s.Real) {ws : Writes}
    (known : ∀ w ∈ ws.list, (w.2.value s w.1).array.Real) :
    (s.write ws).Real := by
  intro reg
  change ((s.write ws).facts reg).array.Real
  rcases s.facts_write_cases ws reg with same | ⟨w, member, _, same⟩
  · rw [same]
    exact real reg
  · rw [same]
    exact known w member

theorem write_mono {s t : Frame} (below : s.facts ≤ t.facts) (ws : Writes) :
    (s.write ws).facts ≤ (t.write ws).facts := by
  have folded : ∀ (list : List (Nat × Source)) (f g : Nat → Fact), f ≤ g →
      list.foldl (fun f w => Function.update f w.1 (w.2.value s w.1)) f ≤
        list.foldl (fun f w => Function.update f w.1 (w.2.value t w.1)) g := by
    intro list
    induction list with
    | nil => exact fun _ _ less => less
    | cons w list ih =>
      intro f g less
      exact ih _ _ (update_le_update_iff.2 ⟨w.2.value_mono below w.1, fun r _ => less r⟩)
  rw [facts_write, facts_write]
  exact folded ws.list _ _ below

theorem Within.write {limit : Nat} {s : Frame} (within : s.Within limit) (room : 2 ^ 31 < limit)
    (ws : Writes) :
    (s.write ws).Within limit := by
  intro reg high
  rw [facts_write]
  refine List.foldlRecOn (motive := fun f : Nat → Fact => f reg = .blank) _ _ (within reg high)
    fun f blank w member => ?_
  have low := ws.bounded w member
  rw [Function.update_of_ne (by omega)]
  exact blank

end Frame

def Writes.none : Writes := ⟨[], by simp⟩

def Writes.one (r : Nat) (low : r < 2 ^ 31) (source : Source) : Writes :=
  ⟨[(r, source)], by simpa using Nat.le_of_lt low⟩

def Writes.pair (r : Nat) (low : r < 2 ^ 31) (source upper : Source) : Writes :=
  ⟨[(r, source), (r + 1, upper)], by simp; omega⟩

def Writes.wide (r : Nat) (low : r < 2 ^ 31) (kinds : Kinds) : Writes :=
  .pair r low (.fresh kinds .unknown) (.fresh .none .unknown)

def Writes.result (r : Nat) (low : r < 2 ^ 31) (kinds : Kinds) : Writes :=
  if kinds.isWide then .wide r low kinds else .one r low (.fresh kinds .unknown)

def Writes.described (r : Nat) (low : r < 2 ^ 31) (descriptor : String) : Writes :=
  if (Kinds.ofDescriptor descriptor).isWide then .wide r low (.ofDescriptor descriptor)
  else .one r low (.fresh (.ofDescriptor descriptor) (.ofDescriptor descriptor))

theorem Frame.assignResult_eq_write (s : Frame) (r : Nat) (low : r < 2 ^ 31) (kinds : Kinds) :
    (if kinds.isWide then s.assignWide r kinds else s.assignPlain r kinds) =
      s.write (.result r low kinds) := by
  unfold Writes.result
  split <;> rfl

theorem Frame.assignDescriptor_eq_write (s : Frame) (r : Nat) (low : r < 2 ^ 31)
    (descriptor : String) :
    s.assignDescriptor r descriptor = s.write (.described r low descriptor) := by
  unfold Frame.assignDescriptor Writes.described
  dsimp only
  split <;> rfl

@[simp] theorem Frame.write_none (s : Frame) : s.write .none = s := rfl

def Writes.Hints (catalog : Register.Catalog) (ws : Writes) : Prop :=
  ∀ w ∈ ws.list, ∃ index d, catalog.type index = .ok d ∧ w.2 = .hinted (.ofDescriptor d)

namespace Writes.Hints

variable {catalog : Register.Catalog} {ws : Writes}

theorem kindsOf (hints : ws.Hints catalog) (s : Frame) (reg : Nat) :
    (s.write ws).kindsOf reg = s.kindsOf reg := by
  change ((s.write ws).facts reg).kinds = _
  rcases s.facts_write_cases ws reg with same | ⟨w, member, rfl, same⟩
  · rw [same]
    rfl
  · obtain ⟨_, _, _, hinted⟩ := hints w member
    rw [same, hinted]
    rfl

theorem real (hints : ws.Hints catalog) {s : Frame} (formed : catalog.WellFormed) (real : s.Real) :
    (s.write ws).Real := by
  refine real.write fun w member => ?_
  obtain ⟨_, _, at_type, hinted⟩ := hints w member
  rw [hinted]
  exact (real w.1).narrow (ArrayView.real_ofDescriptor (formed.type at_type))

end Writes.Hints

namespace Register

/-- Does the same in all the states of a class: it fails with the same fault, or its result is made
from the same description, of which something is known. -/
def Uniform {α β : Type} (render : Frame → α → β) (among : Frame → Prop) (known : α → Prop)
    (f : Frame → Except Fault β) :
    Prop :=
  ∃ outcome : Except Fault α, (∀ a, outcome = .ok a → known a) ∧ ∀ s, among s →
    f s = outcome.map (render s)

namespace Uniform

variable {α β γ : Type} {render : Frame → α → β} {among : Frame → Prop} {known : α → Prop}

theorem fails (e : Fault) : Uniform render among known fun _ => .error e :=
  ⟨.error e, fun _ same => (by cases same), fun _ _ => rfl⟩

theorem gives (a : α) (fact : known a) {f : Frame → β} (same : ∀ s, among s → f s = render s a) :
    Uniform render among known fun s => .ok (f s) := by
  refine ⟨.ok a, fun b here => ?_, fun s member => congrArg Except.ok (same s member)⟩
  cases here
  exact fact

theorem single {f : Frame → Except Fault β} (base : Frame) (only : ∀ s, among s → s = base)
    (shown : (∃ e, f base = .error e) ∨ ∃ a, known a ∧ f base = .ok (render base a)) :
    Uniform render among known f := by
  rcases shown with ⟨e, failed⟩ | ⟨a, fact, done⟩
  · exact ⟨.error e, fun _ same => (by cases same),
      fun s member => by rw [only s member, failed]; rfl⟩
  · refine ⟨.ok a, fun b same => ?_, fun s member => by rw [only s member, done]; rfl⟩
    cases same
    exact fact

theorem after {x : Except Fault γ} {f : γ → Frame → Except Fault β}
    (each : ∀ c, x = .ok c → Uniform render among known (f c)) :
    Uniform render among known fun s => x >>= fun c => f c s := by
  cases x with
  | error e => exact fails e
  | ok c => exact each c rfl

theorem bind {α' β' : Type} {render' : Frame → α' → β'} {known' : α' → Prop}
    {f : Frame → Except Fault β} {g : Frame → β → Except Fault β'}
    (first : Uniform render among known f)
    (second : ∀ a, known a → Uniform render' among known' fun s => g s (render s a)) :
    Uniform render' among known' fun s => f s >>= g s := by
  obtain ⟨outcome, fact, same⟩ := first
  cases outcome with
  | error e =>
    refine ⟨.error e, fun _ other => (by cases other), fun s member => ?_⟩
    dsimp only
    rw [same s member]
    rfl
  | ok a =>
    obtain ⟨outcome', fact', same'⟩ := second a (fact a rfl)
    refine ⟨outcome', fact', fun s member => ?_⟩
    dsimp only
    rw [same s member, ← same' s member]
    rfl

end Uniform

variable {catalog : Catalog} {i : Instr} {among : Frame → Prop}

theorem Instr.reg_lt {n r : Nat} (found : i.reg n = .ok r) : r < 2 ^ 31 := by
  obtain ⟨v, _, rest⟩ := Except.bind_eq_ok.1 found
  have upper := v.toInt_lt
  split at rest
  · cases rest
  · cases rest
    simp only [Int32.toNatClampNeg]
    omega

/-- What an instruction writes in a state: its target gets the kinds that `views` lists, the upper
half of a pair gets none, and arrays have descriptors that can be read. -/
structure Instr.Written (catalog : Catalog) (i : Instr) (s : Frame) (ws : Writes) : Prop where
  viewed : ∃ r, i.reg 0 = .ok r ∧
    (i.Fits s → ¬ i.ReadsNull s → ∀ w ∈ ws.list, ∀ kind ∈ Kinds.singles,
    (w.2.value s w.1).kinds.Has kind → w.1 = r ∧ kind ∈ views catalog i s)
  real : catalog.WellFormed → i.Hinted → s.Real → ∀ w ∈ ws.list, (w.2.value s w.1).array.Real

section Written

variable {s : Frame} {r : Nat} {kinds : Kinds} (found : i.reg 0 = .ok r)

theorem written_one (source : Source)
    (covered : i.Fits s → ¬ i.ReadsNull s → ∀ kind ∈ Kinds.singles,
      (source.value s r).kinds.Has kind → kind ∈ views catalog i s)
    (real : catalog.WellFormed → i.Hinted → s.Real → (source.value s r).array.Real) :
    i.Written catalog s (.one r (Instr.reg_lt found) source) := by
  refine ⟨⟨r, found, fun fits reads w member kind single has => ?_⟩,
    fun formed hinted known w member => ?_⟩
  · cases List.mem_singleton.1 member
    exact ⟨rfl, covered fits reads kind single has⟩
  · cases List.mem_singleton.1 member
    exact real formed hinted known

theorem written_pair (source upper : Source)
    (covered : i.Fits s → ∀ kind ∈ Kinds.singles, (source.value s r).kinds.Has kind →
      kind ∈ views catalog i s)
    (unused : i.Fits s → (upper.value s (r + 1)).kinds = .none)
    (real : s.Real → (source.value s r).array.Real ∧ (upper.value s (r + 1)).array.Real) :
    i.Written catalog s (.pair r (Instr.reg_lt found) source upper) := by
  refine ⟨⟨r, found, fun fits _ w member kind single has => ?_⟩, fun _ _ known => ?_⟩
  · rcases List.mem_pair.1 member with rfl | rfl
    · exact ⟨rfl, covered fits kind single has⟩
    · rw [unused fits] at has
      exact absurd has (Kinds.not_has_none single)
  · exact List.forall_mem_cons.2 ⟨(real known).1, List.forall_mem_singleton.2 (real known).2⟩

theorem covered_of_views (shown : views catalog i s = [kinds])
    (one : kinds ∈ Kinds.singles ∨ kinds = .none) :
    ∀ kind ∈ Kinds.singles, kinds.Has kind → kind ∈ views catalog i s := by
  intro kind single has
  rw [shown, List.mem_singleton]
  rcases one with one | rfl
  · exact Kinds.eq_of_has one single has
  · exact absurd has (Kinds.not_has_none single)

theorem written_plain (kinds : Kinds) (shown : views catalog i s = [kinds])
    (one : kinds ∈ Kinds.singles ∨ kinds = .none) :
    i.Written catalog s (.one r (Instr.reg_lt found) (.fresh kinds .unknown)) :=
  written_one found _ (fun _ _ => covered_of_views shown one) fun _ _ _ => ArrayView.real_unknown

theorem written_wide (kinds : Kinds)
    (covered : ∀ kind ∈ Kinds.singles, kinds.Has kind → kind ∈ views catalog i s) :
    i.Written catalog s (.wide r (Instr.reg_lt found) kinds) :=
  written_pair found _ _ (fun _ => covered) (fun _ => rfl) fun _ =>
    ⟨ArrayView.real_unknown, ArrayView.real_unknown⟩

theorem written_result (shown : views catalog i s = [kinds]) (one : kinds ∈ Kinds.singles) :
    i.Written catalog s (.result r (Instr.reg_lt found) kinds) := by
  unfold Writes.result
  split
  · exact written_wide found kinds (covered_of_views shown (.inl one))
  · exact written_plain found kinds shown (.inl one)

theorem written_described {d : String} (shown : views catalog i s = [.ofDescriptor d])
    (type : catalog.WellFormed → i.Hinted → IsType d) :
    i.Written catalog s (.described r (Instr.reg_lt found) d) := by
  have covered := covered_of_views shown (Kinds.ofDescriptor_cases d)
  unfold Writes.described
  split
  · exact written_wide found _ covered
  · exact written_one found _ (fun _ _ => covered) fun formed hinted _ =>
      ArrayView.real_ofDescriptor (type formed hinted)

theorem covered_of_meets {source : Nat} (candidates : List Kinds)
    (shown : views catalog i s = candidates.filter fun k => (s.kindsOf source).meets k)
    (others : ∀ kind ∈ Kinds.singles, kind ∈ candidates ∨ ¬ (s.kindsOf source).Has kind) :
    ∀ kind ∈ Kinds.singles, (s.kindsOf source).Has kind → kind ∈ views catalog i s := by
  intro kind single has
  rw [shown, List.mem_filter]
  exact ⟨(others kind single).resolve_right (not_not_intro has),
    (Kinds.meets_iff_has _ single).2 has⟩

theorem written_move (family : i.family = .move) {source : Nat} (at_source : i.reg 1 = .ok source) :
    i.Written catalog s (.one r (Instr.reg_lt found) (.copy source)) := by
  refine written_one found _ (fun fits _ => covered_of_meets [.ofInt, .ofRef, .ofFloat] ?_ ?_)
    fun _ _ real => real source
  · simp [views, family, at_source, Except.toOption]
  · obtain ⟨no_long, no_double⟩ := fits.narrow family source at_source
    simp [Kinds.singles, Kinds.Has, Kinds.inter, Kinds.ofLong, Kinds.ofDouble, no_long, no_double]

theorem written_moveWide (family : i.family = .moveWide) {source : Nat}
    (at_source : i.reg 1 = .ok source) :
    i.Written catalog s (.pair r (Instr.reg_lt found) (.copy source) (.copy (source + 1))) := by
  refine written_pair found _ _ (fun fits => covered_of_meets [.ofLong, .ofDouble] ?_ ?_)
    (fun fits => (fits.wide family source at_source).2) fun real => ⟨real source, real (source + 1)⟩
  · simp [views, family, at_source, Except.toOption]
  · obtain ⟨⟨no_int, no_float, no_ref⟩, _⟩ := fits.wide family source at_source
    simp [Kinds.singles, Kinds.Has, Kinds.inter, Kinds.ofInt, Kinds.ofFloat, Kinds.ofRef, no_int,
      no_float, no_ref]

theorem written_element (family : i.family = .arrayGet) {array : Nat} {element : Kinds × ArrayView}
    (at_array : i.reg 1 = .ok array) (at_element : (s.arrayOf array).element = .ok element) :
    i.Written catalog s (.one r (Instr.reg_lt found) (.fresh element.1 element.2)) := by
  have shown : views catalog i s = [element.1] := by
    simp [views, family, at_array, at_element, Except.bind, Except.toOption]
  have one : element.1 ∈ Kinds.singles ∨ element.1 = .none := by
    unfold ArrayView.element at at_element
    split at at_element
    · cases at_element
    · cases at_element
      exact .inl (by simp [Kinds.singles])
    · split at at_element
      · cases at_element
        exact Kinds.ofDescriptor_cases _
      · cases at_element
  exact written_one found _ (fun _ _ => covered_of_views shown one) fun _ _ real =>
    ((real array).element at_element).1

end Written

theorem Uniform.writes {base : Frame} {ws : Writes} (written : i.Written catalog base ws)
    {f : Frame → Frame} (same : ∀ s, among s → f s = s.write ws) :
    Uniform (fun s => Option.map s.write) among (fun w => ∀ ws ∈ w, i.Written catalog base ws)
      fun s => .ok (some (f s)) := by
  refine .gives (some ws) (fun ws' here => ?_) fun s member => congrArg some (same s member)
  cases here
  exact written

/-- The state that an instruction leaves is written in the same way whatever the state before,
except that a read from an array depends on the array. -/
theorem transfer_uniform (catalog : Catalog) (i : Instr) (base : Frame) :
    Uniform (fun s => Option.map s.write) (fun s => i.family = .arrayGet → s = base)
      (fun w => ∀ ws ∈ w, i.Written catalog base ws) (transfer catalog i) := by
  unfold transfer
  cases family : i.family with
  | constString | constClass | newInstance =>
    exact .after fun r found =>
      .writes (written_plain found .ofRef (by simp [views, family]) (.inl (by decide)))
        fun s _ => rfl
  | instanceOf | arrayLength | compare | binaryLiteral =>
    exact .after fun r found =>
      .writes (written_plain found .ofInt (by simp [views, family]) (.inl (by decide)))
        fun s _ => rfl
  | move =>
    exact .after fun source at_source => .after fun r found =>
      .writes (written_move found family at_source) fun s _ => rfl
  | moveWide =>
    exact .after fun source at_source => .after fun r found =>
      .writes (written_moveWide found family at_source) fun s _ => rfl
  | moveResult =>
    cases resultType : i.resultType with
    | none => exact .fails _
    | some d =>
      exact .after fun r found => .writes
        (written_described found (by simp [views, family, resultType]) fun _ hinted =>
          hinted d resultType)
        fun s _ => Frame.assignDescriptor_eq_write s r (Instr.reg_lt found) d
  | const32 =>
    refine .after fun value at_value => .after fun r found => ?_
    have shown : views catalog i base = if value = 0 then [.ofInt, .ofFloat, .ofRef]
        else [.ofInt, .ofFloat] := by
      simp [views, family, at_value, Except.toOption]
    by_cases zero : value = 0
    · rw [if_pos zero] at shown
      refine .writes
        (written_one found (.fresh .zero .null) (fun _ _ => ?_) fun _ _ _ => ArrayView.real_null)
        fun s _ => by rw [if_pos zero]; rfl
      simp only [shown, Source.value]
      decide
    · rw [if_neg zero] at shown
      refine .writes (written_one found (.fresh .narrow .unknown) (fun _ _ => ?_) fun _ _ _ =>
        ArrayView.real_unknown)
        fun s _ => by rw [if_neg zero]; rfl
      simp only [shown, Source.value]
      decide
  | const64 =>
    refine .after fun r found => .writes (written_wide found .wide ?_) fun s _ => rfl
    rw [show views catalog i base = [.ofLong, .ofDouble] by simp [views, family]]
    decide
  | checkCast =>
    have covered := covered_of_views (show views catalog i base = [.ofRef] by simp [views, family])
      (.inl (by decide))
    exact .after fun r found => .after fun index _ => .after fun d at_type =>
      .writes (written_one found (.cast (.ofDescriptor d)) (fun _ _ => covered) fun formed _ real =>
        (real r).narrow (ArrayView.real_ofDescriptor (formed.type at_type))) fun s _ => rfl
  | newArray =>
    have covered := covered_of_views (show views catalog i base = [.ofRef] by simp [views, family])
      (.inl (by decide))
    exact .after fun index _ => .after fun d at_type => .after fun r found =>
      .writes (written_one found (.fresh .ofRef (.ofDescriptor d)) (fun _ _ => covered)
        fun formed _ _ =>
        ArrayView.real_ofDescriptor (formed.type at_type)) fun s _ => rfl
  | arrayGet =>
    refine .after fun array at_array => .single base (fun s member => member rfl) ?_
    have wrote {ws : Writes} (written : i.Written catalog base ws) :
        ∀ ws' ∈ some ws, i.Written catalog base ws' := by
      intro ws' here
      cases here
      exact written
    dsimp only
    split
    next null =>
      cases found : i.reg 0 with
      | error e => exact .inl ⟨e, rfl⟩
      | ok r =>
        refine .inr ⟨some _, wrote (written_one found (.fresh .all .null) (fun _ reads => ?_)
          fun _ _ _ => ArrayView.real_null), rfl⟩
        exact absurd ⟨family, array, at_array, null⟩ reads
    next =>
      cases at_element : (base.arrayOf array).element with
      | error e => exact .inl ⟨e, rfl⟩
      | ok element =>
        cases found : i.reg 0 with
        | error e => exact .inl ⟨e, rfl⟩
        | ok r => exact .inr ⟨some _, wrote (written_element found family at_array at_element), rfl⟩
  | instanceGet | staticGet =>
    refine .after fun r found => .after fun index at_index => .after fun field at_field =>
      .writes (written_described found ?_ fun formed _ => (formed.field at_field).isType)
        fun s _ => Frame.assignDescriptor_eq_write s r (Instr.reg_lt found) field.descriptor
    simp [views, family, at_index, at_field, Except.toOption, bind, Except.bind]
  | unary =>
    cases operation : UnaryOp.ofOpcode? i.opcode with
    | none => exact .fails _
    | some op =>
      exact .after fun r found => .writes
        (written_result found (by simp [views, family, operation])
          (UnaryOp.result_single operation))
        fun s _ => Frame.assignResult_eq_write s r (Instr.reg_lt found) op.result
  | binary =>
    cases operation : BinaryOp.ofOpcode? i.opcode with
    | none => exact .fails _
    | some op =>
      exact .after fun r found => .writes
        (written_result found (by simp [views, family, operation]) (BinaryOp.left_single operation))
        fun s _ => Frame.assignResult_eq_write s r (Instr.reg_lt found) op.left
  | _ => exact .gives none (by simp) fun s _ => rfl

theorem narrowed_uniform (catalog : Catalog) (hint : CastHint) (among : Frame → Prop) :
    Uniform Frame.write among (Writes.Hints catalog) (narrowed catalog hint) := by
  refine .after fun d at_type => ?_
  have bounded : ∀ w ∈ hint.registers.map fun r => (r.toNat, Source.hinted (.ofDescriptor d)),
      w.1 ≤ 2 ^ 31 := by
    intro w member
    obtain ⟨r, _, rfl⟩ := List.mem_map.1 member
    have low := r.toNat_lt
    dsimp only
    omega
  refine .gives ⟨_, bounded⟩ (fun w member => ?_) fun s _ => ?_
  · obtain ⟨r, _, rfl⟩ := List.mem_map.1 member
    exact ⟨hint.typeIndex, d, at_type, rfl⟩
  · simp only [Frame.write, List.foldl_map]
    rfl

theorem branchStates_uniform (catalog : Catalog) (i : Instr) (among : Frame → Prop) :
    Uniform (fun s (ws : Writes × Writes) => (s.write ws.1, s.write ws.2)) among
      (fun ws => ws.1.Hints catalog ∧ ws.2.Hints catalog) (branchStates catalog i) := by
  have nothing : Writes.none.Hints catalog := fun _ member => by cases member
  unfold branchStates
  cases i.casts with
  | none => exact .gives (.none, .none) ⟨nothing, nothing⟩ fun s _ => rfl
  | some hint =>
    refine (narrowed_uniform catalog hint among).bind fun ws hints => ?_
    by_cases nonzero : i.opcode = 0x39
    · exact .gives (ws, .none) ⟨hints, nothing⟩ fun s _ => by rw [if_pos nonzero]; rfl
    · exact .gives (.none, ws) ⟨nothing, hints⟩ fun s _ => by rw [if_neg nonzero]; rfl

def rendered (s : Frame) (ways : List (UInt32 × Writes)) : List (UInt32 × Frame) :=
  ways.map fun way => (way.1, s.write way.2)

theorem branches_uniform (catalog : Catalog) (i : Instr) (among : Frame → Prop) :
    Uniform (fun s (ways : List (UInt32 × Writes) × Writes) => (rendered s ways.1, s.write ways.2))
      among (fun _ => True)
      (branches catalog i) := by
  refine (branchStates_uniform catalog i among).bind fun ws _ => ?_
  have jump (n : Nat) : Uniform
      (fun s (ways : List (UInt32 × Writes) × Writes) => (rendered s ways.1, s.write ways.2)) among
      (fun _ => True) fun s => do return ([(← i.target n, s.write ws.1)], s.write ws.2) :=
    .after fun q _ => .gives ([(q, ws.1)], ws.2) trivial fun s _ => rfl
  dsimp only
  split
  · exact jump 0
  · exact jump 2
  · exact jump 1
  · refine .after fun cases _ => .gives (cases.pairs.map fun case => (case.2, .none), ws.2) trivial
      fun s _ => ?_
    simp [rendered]

theorem flows_uniform (catalog : Catalog) (handlers : List Handler) (i : Instr) (base : Frame) :
    Uniform rendered (fun s => i.family = .arrayGet → s = base) (fun _ => True)
      (flows catalog handlers i) := by
  have ended (jumps : List (UInt32 × Writes)) (ws : Writes) :
      Uniform rendered (fun s => i.family = .arrayGet → s = base) (fun _ => True) fun s =>
        .ok (rendered s jumps ++ (if i.family.endsFlow then [] else [(i.next, s.write ws)]) ++
          handlers.map fun h => (h.target, s)) := by
    refine .gives (jumps ++ (if i.family.endsFlow then [] else [(i.next, ws)]) ++
      handlers.map fun h => (h.target, .none)) trivial fun s _ => ?_
    simp only [rendered, List.map_append, List.map_map]
    split <;> rfl
  refine (transfer_uniform catalog i base).bind fun written _ => ?_
  cases written with
  | some ws => exact ended [] ws
  | none =>
    dsimp only [Option.map_none]
    split
    · exact (branches_uniform catalog i _).bind fun ways _ => ended ways.1 ways.2
    · exact ended [] .none

section States

variable {s t taken passed : Frame} {q : UInt32}

theorem transfer_eq_ok (done : transfer catalog i s = .ok (some t)) :
    ∃ ws, t = s.write ws ∧ i.Written catalog s ws := by
  obtain ⟨outcome, known, same⟩ := transfer_uniform catalog i s
  rw [same s fun _ => rfl] at done
  obtain ⟨written, rfl, shown⟩ := Except.map_eq_ok.1 done
  obtain ⟨ws, rfl, rfl⟩ := Option.map_eq_some_iff.1 shown
  exact ⟨ws, rfl, known _ rfl ws rfl⟩

theorem branchStates_eq_ok (done : branchStates catalog i s = .ok (taken, passed)) :
    ∃ ws ws', taken = s.write ws ∧ passed = s.write ws' ∧ ws.Hints catalog ∧ ws'.Hints catalog := by
  obtain ⟨outcome, known, same⟩ := branchStates_uniform catalog i fun _ => True
  rw [same s trivial] at done
  obtain ⟨ws, rfl, shown⟩ := Except.map_eq_ok.1 done
  cases shown
  exact ⟨ws.1, ws.2, rfl, rfl, known ws rfl⟩

/-- Every use that `after` allows was allowed before, or is a use of `target` as one of the `views`.
-/
def Extends (before after : Frame) (target : Nat) (views : List Kinds) : Prop :=
  ∀ reg kind, kind ∈ Kinds.singles → (after.kindsOf reg).Has kind →
    (before.kindsOf reg).Has kind ∨ reg = target ∧ kind ∈ views

theorem extends_transfer (fits : i.Fits s) (reads : ¬ i.ReadsNull s)
    (written : transfer catalog i s = .ok (some t)) :
    ∃ target, i.reg 0 = .ok target ∧ Extends s t target (views catalog i s) := by
  obtain ⟨ws, rfl, ⟨r, found, viewed⟩, _⟩ := transfer_eq_ok written
  refine ⟨r, found, fun reg kind single has => ?_⟩
  change ((s.write ws).facts reg).kinds.Has kind at has
  rcases s.facts_write_cases ws reg with same | ⟨w, member, rfl, same⟩
  · rw [same] at has
    exact .inl has
  · rw [same] at has
    exact .inr (viewed fits reads w member kind single has)

theorem kindsOf_branchStates (done : branchStates catalog i s = .ok (taken, passed)) (reg : Nat) :
    taken.kindsOf reg = s.kindsOf reg ∧ passed.kindsOf reg = s.kindsOf reg := by
  obtain ⟨ws, ws', rfl, rfl, hints, hints'⟩ := branchStates_eq_ok done
  exact ⟨hints.kindsOf s reg, hints'.kindsOf s reg⟩

theorem kindsOf_passes (control : i.family.isControlFlow = true) (passes : i.Passes catalog s q t)
    (reg : Nat) :
    t.kindsOf reg = s.kindsOf reg := by
  cases passes with
  | next _ falls =>
    cases falls with
    | written transferred =>
      rw [transfer_controlFlow control] at transferred
      cases transferred
    | kept _ straight => simp [control] at straight
    | passed _ states => exact (kindsOf_branchStates states reg).2
  | branch branches =>
    cases branches with
    | jump _ _ states => exact (kindsOf_branchStates states reg).1
    | case _ _ _ => rfl

theorem real_passes (formed : catalog.WellFormed) (hinted : i.Hinted) (real : s.Real)
    (passes : i.Passes catalog s q t) :
    t.Real := by
  have branched {taken passed : Frame} (states : branchStates catalog i s = .ok (taken, passed)) :
      taken.Real ∧ passed.Real := by
    obtain ⟨ws, ws', rfl, rfl, hints, hints'⟩ := branchStates_eq_ok states
    exact ⟨hints.real formed real, hints'.real formed real⟩
  cases passes with
  | next _ falls =>
    cases falls with
    | written transferred =>
      obtain ⟨ws, rfl, written⟩ := transfer_eq_ok transferred
      exact real.write (written.real formed hinted real)
    | kept _ _ => exact real
    | passed _ states => exact (branched states).2
  | branch branches =>
    cases branches with
    | jump _ _ states => exact (branched states).1
    | case _ _ _ => exact real

end States

end Register

end Restack
