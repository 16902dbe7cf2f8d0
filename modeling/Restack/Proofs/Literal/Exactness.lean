import Mathlib.Data.List.Infix
import Restack.Proofs.Literal.Reals

set_option autoImplicit false

namespace Restack

variable {v : Number}

/-- A finite number besides zero that the format has. -/
def FloatFormat.Holds (f : FloatFormat) (d : Datum) : Prop :=
  ∃ q : ℚ, d = .finite q ∧ q ≠ 0 ∧ f.Represents q

namespace Datum

def isSpecial : Datum → Bool
  | .finite _ => false
  | _ => true

theorem isSpecial_neg (d : Datum) : d.neg.isSpecial = d.isSpecial := by
  cases d <;> rfl

end Datum

def FloatFormat.ofWidth : (wide : Bool) → FloatFormat
  | false => .single
  | true => .double

namespace Number

def real : (wide : Bool) → Datum → Number
  | false, d => .float d
  | true, d => .double d

def isInteger : Number → Bool
  | .int _ | .long _ => true
  | .float _ | .double _ => false

/-- Floats and doubles are among the finite numbers of their formats. -/
def InFormat : Number → Prop
  | .int _ | .long _ => True
  | .float d => FloatFormat.single.Holds d
  | .double d => FloatFormat.double.Holds d

def isSpecial : Number → Bool
  | .int _ | .long _ => false
  | .float d | .double d => d.isSpecial

theorem inFormat_real {wide : Bool} {d : Datum} :
    (real wide d).InFormat ↔ (FloatFormat.ofWidth wide).Holds d := by
  cases wide <;> exact Iff.rfl

theorem isSpecial_real {wide : Bool} {d : Datum} :
    (real wide d).isSpecial = true ↔ d.isSpecial = true := by
  cases wide <;> exact Iff.rfl

theorem inFormat_of_isInteger (integer : v.isInteger = true) : v.InFormat := by
  cases v with
  | int | long => trivial
  | float | double => cases integer

theorem isSpecial_of_isInteger (integer : v.isInteger = true) : v.isSpecial = false := by
  cases v with
  | int | long => rfl
  | float | double => cases integer

theorem not_inFormat_of_isSpecial (special : v.isSpecial = true) : ¬ v.InFormat := by
  rintro inside
  cases v with
  | int | long => cases special
  | float | double =>
    obtain ⟨q, rfl, -⟩ := inside
    cases special

end Number

namespace FloatFormat

variable {f : FloatFormat} {d : Datum}

theorem Represents.neg {q : ℚ} (represents : f.Represents q) : f.Represents (-q) := by
  obtain ⟨m, e, rfl, digits, lower, upper⟩ := represents
  refine ⟨-m, e, ?_, by rwa [Int.natAbs_neg], lower, upper⟩
  rw [Int.cast_neg, neg_mul]

theorem Holds.neg (holds : f.Holds d) : f.Holds d.neg := by
  obtain ⟨q, rfl, nonzero, represents⟩ := holds
  exact ⟨-q, rfl, neg_ne_zero.2 nonzero, represents.neg⟩

theorem holds_one (standard : f.Standard) : f.Holds (.finite 1) := by
  have := standard.upper
  exact ⟨1, rfl, one_ne_zero, 1,
    0, by simp, Nat.one_lt_two_pow (Nat.succ_ne_zero _), standard.lower, by omega⟩

theorem holds_datum (wide : 1 < f.exponentBits) (bits : Nat) :
    f.Holds (f.datum bits) ∨ (f.datum bits).isSpecial = true := by
  by_cases field : f.exponentField bits = 2 ^ f.exponentBits - 1
  · right
    unfold datum
    rw [Nat.one_shiftLeft, if_pos field]
    split <;> rfl
  · by_cases zero : f.significand bits = 0
    · right
      have number : f.isNaN bits = false := by simp [isNaN, Nat.one_shiftLeft, field]
      simp [datum, number, Nat.one_shiftLeft, field, zero, Datum.isSpecial]
    · have regular : f.Regular bits := ⟨field, zero⟩
      have fits := regular.fits wide
      exact .inl ⟨_, regular.datum_eq, fits.ne_zero, fits.represents⟩

end FloatFormat

namespace Rounding

variable {R : Rounding} {p : Pool} {f : FloatFormat} {op : UInt8} {operands : Bytes}
  {s t : List Number}

open Classical in
/-- Answers with a NaN to what a format lacks. -/
noncomputable def strict : Rounding where
  round f q := if q ≠ 0 ∧ f.Represents q then .finite q else .nan
  exact f q nonzero represents := by rw [if_pos ⟨nonzero, represents⟩]

theorem strict_round (R : Rounding) (f : FloatFormat) (q : ℚ) :
    f.Holds (strict.round f q) ∧ R.round f q = strict.round f q ∨
    (strict.round f q).isSpecial = true := by
  by_cases inside : q ≠ 0 ∧ f.Represents q
  · have value : strict.round f q = .finite q := if_pos inside
    exact .inl ⟨⟨q, value, inside⟩, by rw [value, R.exact f q inside.1 inside.2]⟩
  · exact .inr (by rw [show strict.round f q = .nan from if_neg inside]; rfl)

theorem strict_ofInt (R : Rounding) (f : FloatFormat) (n : Int) :
    f.Holds (strict.ofInt f n) ∧ R.ofInt f n = strict.ofInt f n ∨
    (strict.ofInt f n).isSpecial = true := by
  unfold ofInt
  split
  · exact .inr rfl
  · exact strict_round R f n

theorem mul_isSpecial {a b : Datum} (special : a.isSpecial = true ∨ b.isSpecial = true) :
    (R.mul f a b).isSpecial = true := by
  cases a <;> cases b <;> simp_all [mul, Datum.isSpecial]

theorem div_isSpecial {a b : Datum} (special : a.isSpecial = true ∨ b.isSpecial = true) :
    (R.div f a b).isSpecial = true := by
  cases a <;> cases b <;> simp_all [div, Datum.isSpecial]

theorem pushed?_inFormat (pushed : pushed? p op operands = some v) :
    v.InFormat ∨ v.isSpecial = true := by
  have pooled {wide : Bool} {index : UInt16} (found : p.number? wide index = some v) : v.InFormat ∨
      v.isSpecial = true := by
    obtain ⟨e, -, number⟩ := Option.bind_eq_some_iff.1 (Option.filter_eq_some_iff.1 found).1
    cases e <;> cases number
    · exact .inl trivial
    · exact FloatFormat.holds_datum (by decide) _
    · exact .inl trivial
    · exact FloatFormat.holds_datum (by decide) _
  unfold pushed? at pushed
  -- The nine opcodes that push a fixed number come first; they are put off until the loads are
  -- done.
  iterate 9
    split at pushed
    rotate_left
  split at pushed
  · exact pooled pushed
  split at pushed
  · exact pooled pushed
  all_goals cases pushed
  any_goals first | exact .inl trivial | exact .inr rfl
  · exact .inl (FloatFormat.holds_one FloatFormat.standard_single)
  · exact .inl (FloatFormat.holds_one FloatFormat.standard_double)

/-- What an instruction can make of a stack, as far as that depends on the rounding. -/
inductive Acts : List Number → (Rounding → List Number) → Prop where
  | push {v : Number} (known : v.InFormat ∨ v.isSpecial = true) (s : List Number) :
      Acts s fun _ => v :: s
  | copy {s t : List Number} (same : ∀ v, v ∈ t ↔ v ∈ s) : Acts s fun _ => t
  | integer (front : List Number) {w : Number} (takes : ∀ v ∈ front, v.isInteger = true)
      (puts : w.isInteger = true) (s : List Number) : Acts (front ++ s) fun _ => w :: s
  | convert {v : Number} (takes : v.isInteger = true) (wide : Bool) (n : Int) (s : List Number) :
      Acts (v :: s) fun R => .real wide (R.ofInt (.ofWidth wide) n) :: s
  | negate (wide : Bool) (d : Datum) (s : List Number) :
      Acts (.real wide d :: s) fun _ => .real wide d.neg :: s
  | multiply (wide : Bool) (a b : Datum) (s : List Number) :
      Acts (.real wide b :: .real wide a :: s) fun R => .real wide (R.mul (.ofWidth wide) a b) :: s
  | divide (wide : Bool) (a b : Datum) (s : List Number) :
      Acts (.real wide b :: .real wide a :: s) fun R => .real wide (R.div (.ofWidth wide) a b) :: s

theorem doubled?_acts (done : doubled? s = some t) :
    Acts s (fun _ => t) ∧ ∀ below : List Number, doubled? (s ++ below) = some (t ++ below) := by
  cases s with
  | nil => cases done
  | cons v s =>
    simp only [doubled?] at done
    split at done
    next wide =>
      cases done
      exact ⟨.copy (by simp), fun below => by simp [doubled?, wide]⟩
    next narrow =>
      split at done
      next u s =>
        split at done
        · cases done
        next narrow' =>
          cases done
          refine ⟨.copy fun w => ?_, fun below => by simp [doubled?, narrow, narrow']⟩
          simp only [List.mem_cons]
          tauto
      next => cases done

theorem unary?_acts {w : Number} (made : R.unary? op v = some w) (s : List Number) :
    ∃ result : Rounding → Number, Acts (v :: s) (fun R' => result R' :: s) ∧ result R = w ∧
      ∀ R' : Rounding, R'.unary? op v = some (result R') := by
  cases v with
  | int x =>
    simp only [unary?] at made ⊢
    split_ifs at made ⊢ <;> cases made
    iterate 3 exact ⟨_, .integer [.int x] (by simp [Number.isInteger]) rfl s, rfl, fun _ => rfl⟩
    · exact ⟨_, .convert rfl false _ s, rfl, fun _ => rfl⟩
    · exact ⟨_, .convert rfl true _ s, rfl, fun _ => rfl⟩
  | long x =>
    simp only [unary?] at made ⊢
    split_ifs at made ⊢ <;> cases made
    · exact ⟨_, .convert rfl false _ s, rfl, fun _ => rfl⟩
    · exact ⟨_, .convert rfl true _ s, rfl, fun _ => rfl⟩
  | float d =>
    simp only [unary?] at made ⊢
    split_ifs at made ⊢
    cases made
    exact ⟨_, .negate false d s, rfl, fun _ => rfl⟩
  | double d =>
    simp only [unary?] at made ⊢
    split_ifs at made ⊢
    cases made
    exact ⟨_, .negate true d s, rfl, fun _ => rfl⟩

theorem unary?_eq_none {R' : Rounding} (stuck : R.unary? op v = none) : R'.unary? op v = none := by
  by_contra works
  obtain ⟨w, made⟩ := Option.ne_none_iff_exists'.1 works
  obtain ⟨result, -, -, alike⟩ := unary?_acts made []
  cases (alike R).symm.trans stuck

theorem binary?_acts {u w : Number} (made : R.binary? op u v = some w) (s : List Number) :
    ∃ result : Rounding → Number, Acts (v :: u :: s) (fun R' => result R' :: s) ∧ result R = w ∧
      ∀ R' : Rounding, R'.binary? op u v = some (result R') := by
  have whole {x y w : Number} (first : x.isInteger = true) (second : y.isInteger = true)
      (puts : w.isInteger = true) :
      Acts (y :: x :: s) fun _ => w :: s :=
    .integer [y, x] (by simp [first, second]) puts s
  unfold binary? at made
  split at made
  case h_6 => cases made
  all_goals simp only [binary?]
  all_goals split_ifs at made ⊢ <;> cases made
  iterate 6 exact ⟨_, whole rfl rfl rfl, rfl, fun _ => rfl⟩
  · exact ⟨_, .multiply false _ _ s, rfl, fun _ => rfl⟩
  · exact ⟨_, .divide false _ _ s, rfl, fun _ => rfl⟩
  · exact ⟨_, .multiply true _ _ s, rfl, fun _ => rfl⟩
  · exact ⟨_, .divide true _ _ s, rfl, fun _ => rfl⟩

theorem step?_acts (done : R.step? p op operands s = some t) :
    ∃ result : Rounding → List Number, Acts s result ∧ result R = t ∧
      ∀ (R' : Rounding) (below : List Number), R'.step? p op operands (s ++ below) =
        some (result R' ++ below) := by
  unfold step? at done ⊢
  split at done
  next load =>
    obtain ⟨v, pushed, rfl⟩ := Option.map_eq_some_iff.1 done
    refine ⟨_, .push (pushed?_inFormat pushed) s, rfl, fun R' below => ?_⟩
    rw [if_pos load, pushed]
    rfl
  next not_load =>
    simp only [if_neg not_load]
    split at done
    next copies =>
      obtain ⟨acts, above⟩ := doubled?_acts done
      refine ⟨_, acts, rfl, fun R' below => ?_⟩
      rw [if_pos copies, above]
    next not_copy =>
      simp only [if_neg not_copy]
      cases s with
      | nil => cases done
      | cons v s =>
        simp only [worked?] at done
        split at done
        next w made =>
          cases done
          obtain ⟨result, acts, rfl, alike⟩ := unary?_acts made s
          refine ⟨_, acts, rfl, fun R' below => ?_⟩
          simp only [List.cons_append, worked?, alike]
        next stuck =>
          split at done
          next u s =>
            obtain ⟨w, made, rfl⟩ := Option.map_eq_some_iff.1 done
            obtain ⟨result, acts, rfl, alike⟩ := binary?_acts made s
            refine ⟨_, acts, rfl, fun R' below => ?_⟩
            simp only [List.cons_append, worked?, unary?_eq_none stuck, alike, Option.map_some]
          next => cases done

theorem Acts.strictly {result : Rounding → List Number} (acts : Acts s result)
    (inside : ∀ v ∈ s, v.InFormat) :
    (∀ v ∈ result strict, v.InFormat) ∧ (∀ R : Rounding, result R = result strict) ∨
      ∃ v ∈ result strict, v.isSpecial = true := by
  have real (wide : Bool) (d : Rounding → Datum) {s : List Number} (inside : ∀ v ∈ s, v.InFormat)
      (rounded : ∀ R : Rounding, (FloatFormat.ofWidth wide).Holds (d strict) ∧ d R = d strict ∨
        (d strict).isSpecial = true) :
      (∀ v ∈ Number.real wide (d strict) :: s, v.InFormat) ∧
          (∀ R : Rounding, Number.real wide (d R) :: s = .real wide (d strict) :: s) ∨
        ∃ v ∈ Number.real wide (d strict) :: s, v.isSpecial = true := by
    by_cases special : (d strict).isSpecial = true
    · exact .inr ⟨_, List.mem_cons_self, Number.isSpecial_real.2 special⟩
    · have agrees (R : Rounding) := (rounded R).resolve_right special
      refine .inl ⟨List.forall_mem_cons.2 ⟨Number.inFormat_real.2 (agrees strict).1, inside⟩,
        fun R => ?_⟩
      rw [(agrees R).2]
  cases acts with
  | push known =>
    rcases known with regular | special
    · exact .inl ⟨List.forall_mem_cons.2 ⟨regular, inside⟩, fun _ => rfl⟩
    · exact .inr ⟨_, List.mem_cons_self, special⟩
  | copy same => exact .inl ⟨fun v there => inside v ((same v).1 there), fun _ => rfl⟩
  | integer _ takes puts s =>
    have others : ∀ v ∈ s, v.InFormat := fun v there => inside v (List.mem_append_right _ there)
    exact .inl ⟨List.forall_mem_cons.2 ⟨Number.inFormat_of_isInteger puts, others⟩, fun _ => rfl⟩
  | convert takes wide n s =>
    exact real wide (·.ofInt _ n) (List.forall_mem_cons.1 inside).2 fun R => strict_ofInt R _ n
  | negate wide d s =>
    obtain ⟨first, others⟩ := List.forall_mem_cons.1 inside
    have holds := (Number.inFormat_real.1 first).neg
    exact .inl ⟨List.forall_mem_cons.2 ⟨Number.inFormat_real.2 holds, others⟩, fun _ => rfl⟩
  | multiply wide a b s | divide wide a b s =>
    obtain ⟨first, rest⟩ := List.forall_mem_cons.1 inside
    obtain ⟨second, others⟩ := List.forall_mem_cons.1 rest
    obtain ⟨y, rfl, -⟩ := Number.inFormat_real.1 first
    obtain ⟨x, rfl, -⟩ := Number.inFormat_real.1 second
    exact real wide (·.round _ _) others fun R => strict_round R _ _

theorem Acts.special {result : Rounding → List Number} (acts : Acts s result) (R : Rounding)
    (there : ∃ v ∈ s, v.isSpecial = true) : ∃ v ∈ result R, v.isSpecial = true := by
  obtain ⟨v, member, special⟩ := there
  have below {w : Number} {s : List Number} (member : v ∈ s) : ∃ v ∈ w :: s, v.isSpecial = true :=
    ⟨v, List.mem_cons_of_mem _ member, special⟩
  have replaced {wide : Bool} {d : Datum} {s : List Number} (special : d.isSpecial = true) :
      ∃ v ∈ Number.real wide d :: s, v.isSpecial = true :=
    ⟨_, List.mem_cons_self, Number.isSpecial_real.2 special⟩
  cases acts with
  | push => exact below member
  | copy same => exact ⟨v, (same v).2 member, special⟩
  | integer _ takes puts s =>
    rcases List.mem_append.1 member with front | back
    · rw [Number.isSpecial_of_isInteger (takes v front)] at special
      cases special
    · exact below back
  | convert takes wide n s =>
    rcases List.mem_cons.1 member with rfl | back
    · rw [Number.isSpecial_of_isInteger takes] at special
      cases special
    · exact below back
  | negate wide d s =>
    rcases List.mem_cons.1 member with rfl | back
    · exact replaced (d.isSpecial_neg.trans (Number.isSpecial_real.1 special))
    · exact below back
  | multiply wide a b s =>
    simp only [List.mem_cons] at member
    rcases member with rfl | rfl | back
    · exact replaced (mul_isSpecial (.inr (Number.isSpecial_real.1 special)))
    · exact replaced (mul_isSpecial (.inl (Number.isSpecial_real.1 special)))
    · exact below back
  | divide wide a b s =>
    simp only [List.mem_cons] at member
    rcases member with rfl | rfl | back
    · exact replaced (div_isSpecial (.inr (Number.isSpecial_real.1 special)))
    · exact replaced (div_isSpecial (.inl (Number.isSpecial_real.1 special)))
    · exact below back

variable {skip : Nat} {code front back : Bytes}

theorem special_of_run? (ran : R.run? p skip code s = some t)
    (there : ∃ v ∈ s, v.isSpecial = true) :
    ∃ v ∈ t, v.isSpecial = true := by
  fun_induction run? R p skip code s with
  | case1 =>
    cases ran
    exact there
  | case2 => cases ran
  | case3 skip _ code s ih => exact ih ran there
  | case4 op code s ih =>
    obtain ⟨u, stepped, rest⟩ := Option.bind_eq_some_iff.1 ran
    obtain ⟨result, acts, rfl, -⟩ := step?_acts stepped
    exact ih _ rest (acts.special R there)

/-- A strict run that ends without a special number is the run under every rounding. -/
theorem run?_of_strict (ran : strict.run? p skip code s = some t) (inside : ∀ v ∈ s, v.InFormat)
    (clean : ¬ ∃ v ∈ t, v.isSpecial = true) :
    (∀ v ∈ t, v.InFormat) ∧
      ∀ (R : Rounding) (below : List Number), R.run? p skip code (s ++ below) =
        some (t ++ below) := by
  fun_induction run? Rounding.strict p skip code s with
  | case1 =>
    cases ran
    exact ⟨inside, fun _ _ => rfl⟩
  | case2 => cases ran
  | case3 skip _ code s ih => exact ih ran inside
  | case4 op code s ih =>
    obtain ⟨u, stepped, rest⟩ := Option.bind_eq_some_iff.1 ran
    obtain ⟨result, acts, rfl, above⟩ := step?_acts stepped
    rcases acts.strictly inside with ⟨next, alike⟩ | special
    · obtain ⟨last, runs⟩ := ih _ rest next
      refine ⟨last, fun R below => ?_⟩
      rw [run?, above R below, alike R, Option.bind_some]
      exact runs R below
    · exact absurd (special_of_run? rest special) clean

theorem run?_split {R' : Rounding} {s' t' : List Number}
    (whole : R.run? p skip (front ++ back) s = some t) (ends : R'.run? p skip front s' = some t') :
    ∃ u, R.run? p skip front s = some u ∧ R.run? p 0 back u = some t := by
  fun_induction run? R' p skip front s' generalizing s with
  | case1 => exact ⟨s, rfl, whole⟩
  | case2 => cases ends
  | case3 skip _ code s' ih => exact ih whole ends
  | case4 op code s' ih =>
    obtain ⟨u', -, rest'⟩ := Option.bind_eq_some_iff.1 ends
    rw [List.cons_append, run?] at whole
    obtain ⟨u, stepped, rest⟩ := Option.bind_eq_some_iff.1 whole
    rw [List.take_append_of_le_length (skip_le rest')] at stepped
    obtain ⟨v, runs, last⟩ := ih u' rest rest'
    exact ⟨v, by rw [run?, stepped, Option.bind_some, runs], last⟩

end Rounding

/-- The code puts a number on top of any stack, and makes only finite numbers of the formats on the
way, so that it does not matter how one rounds. -/
structure RunsExactly (p : Pool) (code : Bytes) (v : Number) : Prop where
  result : ∀ s : List Number, Rounding.rational.run? p 0 code s = some (v :: s)
  between : ∀ (front : Bytes) (s t : List Number), front <+: code →
    Rounding.rational.run? p 0 front s = some t →
    ∃ made, t = made ++ s ∧ ∀ w ∈ made, w.InFormat
  rounding : ∀ (R : Rounding) (front : Bytes) (s : List Number), front <+: code →
    R.run? p 0 front s = Rounding.rational.run? p 0 front s

theorem runsExactly_of_strict {p : Pool} {code : Bytes}
    (ran : Rounding.strict.run? p 0 code [] = some [v]) (inside : v.InFormat) :
    RunsExactly p code v := by
  have clean : ¬ ∃ w ∈ [v], w.isSpecial = true := by
    rintro ⟨w, member, special⟩
    cases List.mem_singleton.1 member
    exact Number.not_inFormat_of_isSpecial special inside
  have stops {R : Rounding} {front : Bytes} {s t : List Number} (part : front <+: code)
      (stopped : R.run? p 0 front s = some t) : ∃ made, t = made ++ s ∧ (∀ w ∈ made, w.InFormat) ∧
        ∀ R' : Rounding, R'.run? p 0 front s = some (made ++ s) := by
    obtain ⟨back, rfl⟩ := part
    obtain ⟨made, first, rest⟩ := Rounding.run?_split ran stopped
    have unspoiled : ¬ ∃ w ∈ made, w.isSpecial = true :=
      fun special => clean (Rounding.special_of_run? rest special)
    obtain ⟨regular, runs⟩ := Rounding.run?_of_strict first (by simp) unspoiled
    exact ⟨made, Option.some.inj (stopped.symm.trans (runs R s)), regular, fun R' => runs R' s⟩
  constructor
  · exact fun s => (Rounding.run?_of_strict ran (by simp) clean).2 Rounding.rational s
  · intro front s t part stopped
    obtain ⟨made, same, regular, -⟩ := stops part stopped
    exact ⟨made, same, regular⟩
  · intro R front s part
    refine Option.ext fun t => ⟨fun stopped => ?_, fun stopped => ?_⟩
    all_goals
      obtain ⟨made, rfl, -, runs⟩ := stops part stopped
      exact runs _

namespace FloatFormat

theorem Regular.not_isNaN {f : FloatFormat} {bits : Nat} (regular : f.Regular bits) :
    f.isNaN bits = false := by
  simp [isNaN, Nat.one_shiftLeft, regular.field]

theorem Regular.holds {f : FloatFormat} {bits : Nat} (regular : f.Regular bits)
    (wide : 1 < f.exponentBits) :
    f.Holds (.finite (f.signed bits * 2 ^ f.exponent bits)) :=
  ⟨_, rfl, (regular.fits wide).ne_zero, (regular.fits wide).represents⟩

end FloatFormat

namespace Computed

/-- The code for a finite number besides zero, subnormal ones included, makes exactly that number
out of numbers of the format: an integer times a power of two. Patterns with a short code are those
in the tables. -/
theorem reals_computed_exactly (p : Pool) :
    (∀ bits : UInt32, FloatFormat.single.Regular bits.toNat → RunsExactly p (float bits)
      (.float (.finite
        (FloatFormat.single.signed bits.toNat * 2 ^ FloatFormat.single.exponent bits.toNat)))) ∧
    (∀ bits : UInt64, FloatFormat.double.Regular bits.toNat → RunsExactly p (double bits)
      (.double (.finite
        (FloatFormat.double.signed bits.toNat * 2 ^ FloatFormat.double.exponent bits.toNat)))) ∧
    (∀ bits : UInt32, Short.tables.floats[bits.toNat]? = Short.float? bits) ∧
    ∀ bits : UInt64, Short.tables.doubles[bits.toNat]? = Short.double? bits := by
  refine ⟨?_, ?_, Short.getElem?_floats, Short.getElem?_doubles⟩
  · intro bits regular
    have number : ¬ FloatFormat.single.isNaN bits.toNat = true := by simp [regular.not_isNaN]
    have yields := yields_float (R := .strict) (p := p) fun isNaN => absurd isNaN number
    rw [regular.datum_eq] at yields
    exact runsExactly_of_strict (yields []) (regular.holds (by decide))
  · intro bits regular
    have number : ¬ FloatFormat.double.isNaN bits.toNat = true := by simp [regular.not_isNaN]
    have yields := yields_double (R := .strict) (p := p) fun isNaN => absurd isNaN number
    rw [regular.datum_eq] at yields
    exact runsExactly_of_strict (yields []) (regular.holds (by decide))

theorem least_reals_computed_exactly : FloatFormat.single.Regular 1 ∧ FloatFormat.double.Regular 1 ∧
    RunsExactly (Pool.empty .split) (float 1) (.float (.finite ((1 : Int) * 2 ^ (-149 : Int)))) ∧
    RunsExactly (Pool.empty .split) (double 1)
      (.double (.finite ((1 : Int) * 2 ^ (-1074 : Int)))) := by
  have single : FloatFormat.single.Regular 1 := ⟨by decide, by decide⟩
  have double : FloatFormat.double.Regular 1 := ⟨by decide, by decide⟩
  obtain ⟨floats, doubles, -⟩ := reals_computed_exactly (Pool.empty .split)
  exact ⟨single, double, floats 1 single, doubles 1 double⟩

end Computed

end Restack
