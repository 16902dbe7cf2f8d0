import Mathlib.Algebra.BigOperators.Ring.List
import Restack.Proofs.Literal.Integers

set_option autoImplicit false

namespace Restack

variable {R : Rounding} {p : Pool} {f : FloatFormat}

namespace Rounding

theorem round_of_fits {m e : Int} (fits : f.Fits m e) :
    R.round f (m * 2 ^ e) = .finite (m * 2 ^ e) :=
  R.exact f _ fits.ne_zero fits.represents

theorem ofInt_of_fits {n m e : Int} (fits : f.Fits m e) (same : (n : ℚ) = m * 2 ^ e) :
    R.ofInt f n = .finite (m * 2 ^ e) := by
  have nonzero : n ≠ 0 := by
    rintro rfl
    exact fits.ne_zero (by rw [← same, Int.cast_zero])
  rw [ofInt, if_neg nonzero, same, round_of_fits fits]

end Rounding

namespace Short

structure FloatOps.Computes (ops : FloatOps) (R : Rounding) (p : Pool) (f : FloatFormat)
    (num : Datum → Number) : Prop where
  zero : Yields R p [ops.zero] [] [num (.zero false)]
  one : Yields R p [ops.one] [] [num (.finite 1)]
  ofInt : ∀ x : Int32, Yields R p [ops.ofInt] [.int x] [num (R.ofInt f x.toInt)]
  ofLong : ∀ x : Int64, Yields R p [ops.ofLong] [.long x] [num (R.ofInt f x.toInt)]
  neg : ∀ d : Datum, Yields R p [ops.neg] [num d] [num d.neg]
  mul : ∀ a b : Datum, Yields R p [ops.mul] [num b, num a] [num (R.mul f a b)]
  div : ∀ a b : Datum, Yields R p [ops.div] [num b, num a] [num (R.div f a b)]

theorem computes_singleOps : singleOps.Computes R p .single .float :=
  ⟨fun _ => rfl, fun _ => rfl, fun _ _ => rfl, fun _ _ => rfl, fun _ _ => rfl, fun _ _ _ => rfl,
    fun _ _ _ => rfl⟩

theorem computes_doubleOps : doubleOps.Computes R p .double .double :=
  ⟨fun _ => rfl, fun _ => rfl, fun _ _ => rfl, fun _ _ => rfl, fun _ _ => rfl, fun _ _ _ => rfl,
    fun _ _ _ => rfl⟩

variable {ops : FloatOps} {num : Datum → Number} {bits : Nat} {code : Bytes}

theorem yields_real? (computes : ops.Computes R p f num) (standard : f.Standard)
    (small : bits < 2 * f.signBit) (canonical : f.isNaN bits = true → bits = f.nan)
    (short : real? f ops bits = some code) :
    Yields R p code [] [num (f.datum bits)] := by
  have zero_above (d : Datum) : Yields R p [ops.zero] [num d] [num (.zero false), num d] :=
    computes.zero.below [num d]
  unfold real? at short
  split_ifs at short with zero negative_zero nan infinite negative_infinite
  on_goal 6 =>
    have regular :=
      FloatFormat.regular_of_ne small canonical zero negative_zero nan infinite negative_infinite
    rw [regular.datum_eq]
    split at short
    next whole =>
      cases short
      rw [← FloatFormat.integer?_eq_some whole, Int.cast_one]
      exact computes.one
    next x _ whole =>
      have same := FloatFormat.integer?_eq_some whole
      obtain ⟨tiny, found, rfl, value⟩ := converted?_eq_some short
      have converts := computes.ofInt (.ofInt x)
      rw [value, Rounding.ofInt_of_fits (regular.fits standard.wide) same] at converts
      exact (yields_tiny? found).append converts
    next => cases short
  all_goals cases short
  · rw [zero, standard.zero]
    exact computes.zero
  · rw [negative_zero, standard.negative_zero]
    exact computes.zero.append (computes.neg _)
  · rw [nan, standard.nan]
    exact computes.zero.append ((zero_above _).append (computes.div _ _))
  · rw [infinite, standard.infinity]
    exact computes.one.append ((zero_above _).append (computes.div _ _))
  · rw [negative_infinite, standard.negative_infinity]
    exact computes.one.append ((computes.neg _).append ((zero_above _).append (computes.div _ _)))

theorem regular_of_real?_eq_none (small : bits < 2 * f.signBit)
    (canonical : f.isNaN bits = true → bits = f.nan) (long : real? f ops bits = none) :
    f.Regular bits := by
  unfold real? at long
  split_ifs at long with zero negative_zero nan infinite negative_infinite
  exact FloatFormat.regular_of_ne small canonical zero negative_zero nan infinite negative_infinite

end Short

namespace Computed

open Short (FloatOps)

variable {ops : FloatOps} {num : Datum → Number} {op : UInt8} {unit m e : Int} {n : Nat}

/-- The opcode multiplies by a number if `unit` is `1`, and divides by it if `unit` is `-1`. -/
def Scales (R : Rounding) (p : Pool) (f : FloatFormat) (num : Datum → Number) (op : UInt8)
    (unit : Int) : Prop :=
  ∀ a b : ℚ, Yields R p [op] [num (.finite b), num (.finite a)] [num (R.round f (a * b ^ unit))]

theorem scales_mul (computes : ops.Computes R p f num) : Scales R p f num ops.mul 1 := by
  intro a b
  rw [zpow_one]
  exact computes.mul (.finite a) (.finite b)

theorem scales_div (computes : ops.Computes R p f num) : Scales R p f num ops.div (-1) := by
  intro a b
  rw [zpow_neg_one, ← div_eq_mul_inv]
  exact computes.div (.finite a) (.finite b)

theorem mul_zpow_two (m e k unit : Int) :
    (m * 2 ^ e * (2 ^ k) ^ unit : ℚ) = m * 2 ^ (e + unit * k) := by
  rw [← zpow_mul, mul_assoc, ← zpow_add₀ two_ne_zero, Int.mul_comm k unit]

theorem fits_power (standard : f.Standard) (le : n ≤ 63) {m : Int} (one : m.natAbs = 1) :
    f.Fits m n where
  nonzero := by
    rintro rfl
    cases one
  digits := by
    rw [one]
    exact Nat.one_lt_two_pow (Nat.succ_ne_zero _)
  lower := by
    have := standard.lower
    omega
  upper := by
    have := standard.upper
    omega

theorem toInt_shiftLeft (less : n < 63) :
    ((1 : Int64) <<< (Int32.ofNat n).toInt64).toInt = 2 ^ n := by
  have each : ∀ k : Fin 63, ((1 : Int64) <<< (Int32.ofNat k).toInt64).toInt = 2 ^ k.val := by
    decide +kernel
  exact each ⟨n, less⟩

theorem yields_scale (computes : ops.Computes R p f num) (standard : f.Standard)
    (scales : Scales R p f num op unit) (less : n < 63) (fits : f.Fits m (e + unit * n)) :
    Yields R p (scale n ops.ofLong op) [num (.finite (m * 2 ^ e))]
      [num (.finite (m * 2 ^ (e + unit * n)))] := by
  unfold scale
  split
  next zero =>
    rw [zero, Int.natCast_zero, Int.mul_zero, Int.add_zero]
    exact .nil _
  next =>
    have one : Yields R p [Op.lconst1] [] [.long 1] := fun _ => rfl
    have shift (y : Int32) :
        Yields R p [Op.lshl] [.int y, .long 1] [.long ((1 : Int64) <<< y.toInt64)] := fun _ => rfl
    have power : R.ofInt f (2 ^ n) = .finite (2 ^ (n : Int)) := by
      have small := fits_power standard (Nat.le_of_lt less) (m := 1) rfl
      rw [Rounding.ofInt_of_fits small (by simp), Int.cast_one, one_mul]
    have converts := computes.ofLong ((1 : Int64) <<< (Int32.ofNat n).toInt64)
    rw [toInt_shiftLeft less, power] at converts
    have factor :=
      ((one.append ((yields_int (.ofNat n)).below [.long 1])).append (shift _)).append converts
    have scaled := scales (m * 2 ^ e) (2 ^ (n : Int))
    rw [mul_zpow_two, Rounding.round_of_fits fits] at scaled
    have whole := (factor.below [num (.finite (m * 2 ^ e))]).append scaled
    simpa only [List.append_assoc, List.cons_append, List.nil_append] using whole

theorem yields_sign (computes : ops.Computes R p f num) (standard : f.Standard) :
    Yields R p [Op.lconst1, Op.iconstM1, Op.lshl, ops.ofLong] []
      [num (.finite ((-1 : Int) * 2 ^ (63 : Int)))] := by
  have shift : Yields R p [Op.lconst1, Op.iconstM1, Op.lshl] [] [.long (-9223372036854775808)] :=
    fun _ => rfl
  have value : R.ofInt f (-9223372036854775808 : Int64).toInt =
      .finite ((-1 : Int) * 2 ^ (63 : Int)) :=
    Rounding.ofInt_of_fits (fits_power standard (Nat.le_refl 63) rfl)
      (by norm_num [show (-9223372036854775808 : Int64).toInt = -9223372036854775808 from rfl])
  have converts := computes.ofLong (-9223372036854775808)
  rw [value] at converts
  exact shift.append converts

theorem neg_zpow_unit (either : unit = 1 ∨ unit = -1) (e : Int) :
    (((-1 : Int) * 2 ^ e : ℚ)) ^ unit = (-1 : Int) * 2 ^ (unit * e) := by
  rcases either with rfl | rfl
  · rw [zpow_one, Int.one_mul]
  · rw [zpow_neg_one, Int.neg_one_mul, zpow_neg, mul_inv]
    norm_num

theorem signFlipped_succ (m : Int) (n : Nat) : signFlipped m (n + 1) = signFlipped (-m) n := by
  unfold signFlipped
  split <;> split <;> omega

theorem yields_factors (computes : ops.Computes R p f num) (standard : f.Standard)
    (scales : Scales R p f num op unit) (either : unit = 1 ∨ unit = -1) (first : f.Fits m e)
    (last : f.Fits m (e + unit * 63 * n)) :
    Yields R p (List.replicate n [Op.lconst1, Op.iconstM1, Op.lshl, ops.ofLong, op]).flatten
      [num (.finite (m * 2 ^ e))]
      [num (.finite (signFlipped m n * 2 ^ (e + unit * 63 * n)))] := by
  induction n generalizing m e with
  | zero =>
    rw [Int.natCast_zero, Int.mul_zero, Int.add_zero]
    exact .nil _
  | succ n ih =>
    have next : f.Fits (-m) (e + unit * 63) := by
      refine (first.between last ?_ ?_).neg <;> rcases either with rfl | rfl <;> omega
    have scaled := scales (m * 2 ^ e) ((-1 : Int) * 2 ^ (63 : Int))
    have value : (m * 2 ^ e * ((-1 : Int) * 2 ^ (unit * 63)) : ℚ) =
        (-m : Int) * 2 ^ (e + unit * 63) := by
      rw [zpow_add₀ two_ne_zero]
      push_cast
      ring
    rw [neg_zpow_unit either, value, Rounding.round_of_fits next] at scaled
    have factor := ((yields_sign computes standard).below [num (.finite (m * 2 ^ e))]).append scaled
    have exponent : e + unit * 63 * (n + 1 : Nat) = e + unit * 63 + unit * 63 * n := by
      push_cast
      ring
    rw [exponent] at last ⊢
    rw [List.replicate_succ, List.flatten_cons, signFlipped_succ]
    exact factor.append (ih next last.neg)

theorem signFlipped_signFlipped (m : Int) (n : Nat) : signFlipped (signFlipped m n) n = m := by
  unfold signFlipped
  split <;> omega

theorem fits_signFlipped (fits : f.Fits m e) (n : Nat) : f.Fits (signFlipped m n) e := by
  unfold signFlipped
  split
  · exact fits.neg
  · exact fits

theorem yields_scaled (computes : ops.Computes R p f num) (standard : f.Standard)
    (scales : Scales R p f num op unit) (either : unit = 1 ∨ unit = -1)
    (direction : e = unit * e.natAbs) (fits : f.Fits m e) {start powers : Bytes}
    (starts : f.Fits (signFlipped m (e.natAbs / 63)) 0 →
      Yields R p start [] [num (.finite (signFlipped m (e.natAbs / 63) * 2 ^ (0 : Int)))])
    (raises : ∀ k : Int, f.Fits k 0 → f.Fits k (0 + unit * 63 * (e.natAbs / 63 : Nat)) →
      Yields R p powers [num (.finite (k * 2 ^ (0 : Int)))]
        [num (.finite
          (signFlipped k (e.natAbs / 63) * 2 ^ (0 + unit * 63 * (e.natAbs / 63 : Nat))))]) :
    Yields R p (start ++ powers ++ scale (e.natAbs % 63) ops.ofLong op) []
      [num (.finite (m * 2 ^ e))] := by
  have whole : f.Fits m 0 :=
    ⟨fits.nonzero, fits.digits, standard.lower, by have := standard.upper; omega⟩
  have exponent : 0 + unit * 63 * (e.natAbs / 63 : Nat) + unit * (e.natAbs % 63 : Nat) = e := by
    rcases either with rfl | rfl <;> omega
  have middle : f.Fits m (0 + unit * 63 * (e.natAbs / 63 : Nat)) := by
    refine whole.between fits ?_ ?_ <;> rcases either with rfl | rfl <;> omega
  have started := starts (fits_signFlipped whole _)
  have raised := raises _ (fits_signFlipped whole (e.natAbs / 63)) (fits_signFlipped middle _)
  rw [signFlipped_signFlipped] at raised
  have scaled := yields_scale (e := 0 + unit * 63 * (e.natAbs / 63 : Nat)) computes standard scales
    (Nat.mod_lt e.natAbs (by decide)) (by rwa [exponent])
  rw [exponent] at scaled
  exact (started.append raised).append scaled

theorem yields_float {bits : UInt32}
    (canonical : FloatFormat.single.isNaN bits.toNat = true → bits.toNat = FloatFormat.single.nan) :
    Yields R p (float bits) [] [.float (FloatFormat.single.datum bits.toNat)] := by
  have standard := FloatFormat.standard_single
  have computes : Short.singleOps.Computes R p .single .float := Short.computes_singleOps
  have small : bits.toNat < 2 * FloatFormat.single.signBit := bits.toNat_lt
  unfold float
  split
  next code short => exact Short.yields_real? computes standard small canonical short
  next long =>
    have regular := Short.regular_of_real?_eq_none small canonical long
    have fits := regular.fits standard.wide
    have starts {k : Int} (inside : FloatFormat.single.Fits k 0) :
        Yields R p (int (.ofInt k) ++ [Op.i2f]) [] [.float (.finite (k * 2 ^ (0 : Int)))] := by
      have digits : k.natAbs < 16777216 := inside.digits
      have value : (Int32.ofInt k).toInt = k := Int32.toInt_ofInt_of_le (by omega) (by omega)
      have converts := computes.ofInt (.ofInt k)
      rw [value, Rounding.ofInt_of_fits inside (by simp)] at converts
      exact (yields_int (.ofInt k)).append converts
    rw [regular.datum_eq]
    dsimp only
    split
    next negative =>
      refine yields_scaled computes standard (scales_div computes) (.inr rfl) (by omega) fits starts
        fun _ =>
        yields_factors computes standard (scales_div computes) (.inr rfl)
    next positive =>
      refine yields_scaled computes standard (scales_mul computes) (.inl rfl) (by omega) fits starts
        fun _ =>
        yields_factors computes standard (scales_mul computes) (.inl rfl)

/-- The powers of two that add up to `n`, the largest first. -/
def binaryParts (n : Nat) : List Nat :=
  if n / 2 = 0 then [1] else (binaryParts (n / 2)).map (2 * ·) ++ if n % 2 = 1 then [1] else []
termination_by n

theorem binaryParts_sum (pos : 0 < n) : (binaryParts n).sum = n := by
  induction n using Nat.strongRecOn with
  | ind n ih =>
    rw [binaryParts]
    split
    · simp
      omega
    · have half := ih (n / 2) (by omega) (by omega)
      rw [List.sum_append, List.sum_map_mul_left, List.map_id', half]
      split <;> simp <;> omega

theorem binaryParts_length (pos : 0 < n) : (binaryParts n).length = oneBits n := by
  induction n using Nat.strongRecOn with
  | ind n ih =>
    rw [binaryParts, oneBits_of_pos (by omega)]
    split
    next last =>
      rw [last, oneBits, if_pos rfl]
      simp
      omega
    next =>
      have half := ih (n / 2) (by omega) (by omega)
      rw [List.length_append, List.length_map, half]
      split <;> simp <;> omega

theorem yields_squares {b : ℚ} {top j : Nat}
    (exact : ∀ i ≤ top, R.round .double (b ^ i) = .finite (b ^ i)) (pos : 0 < n)
    (le : j * n ≤ top) : Yields R p (squares n) [.double (.finite (b ^ j))]
      ((binaryParts n).map fun k => .double (.finite (b ^ (j * k)))) := by
  induction n using Nat.strongRecOn generalizing j with
  | ind n ih =>
    unfold squares
    rw [binaryParts]
    split
    next => simpa using Yields.nil _
    next more =>
      have half : j * 2 * (n / 2) ≤ j * n := by
        rw [Nat.mul_assoc]
        exact Nat.mul_le_mul_left j (by omega)
      have two : j * 2 ≤ j * n := Nat.mul_le_mul_left j (by omega)
      have rest := ih (n / 2) (by omega) (by omega) (half.trans le)
      have square : R.mul .double (.finite (b ^ j)) (.finite (b ^ j)) = .finite (b ^ (j * 2)) := by
        rw [← exact (j * 2) (two.trans le), pow_mul, pow_two]
        rfl
      have product : Yields R p [Op.dmul] [.double (.finite (b ^ j)), .double (.finite (b ^ j))]
          [.double (.finite (b ^ (j * 2)))] := by
        rw [← square]
        exact Short.computes_doubleOps.mul _ _
      have copy (v : Datum) : Yields R p [Op.dup2] [.double v] [.double v, .double v] :=
        fun _ => rfl
      have again : ((binaryParts (n / 2)).map (2 * ·)).map
          (fun k => Number.double (.finite (b ^ (j * k)))) =
          (binaryParts (n / 2)).map fun k => .double (.finite (b ^ (j * 2 * k))) := by
        simp only [List.map_map, Function.comp_def, Nat.mul_assoc]
      split
      next odd =>
        -- A copy of the power stays below the squares of it.
        rw [List.map_append, again]
        have squared := ((copy (.finite (b ^ j))).append product).below [.double (.finite (b ^ j))]
        have kept := (copy (.finite (b ^ j))).append squared
        simpa using kept.append (rest.below [.double (.finite (b ^ j))])
      next =>
        rw [List.append_nil, again]
        exact ((copy _).append product).append rest

theorem yields_products {b q : ℚ} {top : Nat}
    (exact : ∀ i ≤ top, R.round .double (b ^ i) = .finite (b ^ i)) (k : Nat) (ks : List Nat)
    (le : (k :: ks).sum ≤ top)
    (last : R.round .double (q * b ^ (k :: ks).sum) = .finite (q * b ^ (k :: ks).sum)) :
    Yields R p (List.replicate (ks.length + 1) Op.dmul)
      ((k :: ks).map (fun i => .double (.finite (b ^ i))) ++ [.double (.finite q)])
      [.double (.finite (q * b ^ (k :: ks).sum))] := by
  have product (x y : ℚ) :
      Yields R p [Op.dmul] [.double (.finite y), .double (.finite x)]
        [.double (R.round .double (x * y))] :=
    Short.computes_doubleOps.mul (.finite x) (.finite y)
  induction ks generalizing k with
  | nil =>
    have whole := product q (b ^ k)
    simp only [List.sum_cons, List.sum_nil, Nat.add_zero] at last ⊢
    rw [last] at whole
    exact whole
  | cons i ks ih =>
    have first := product (b ^ i) (b ^ k)
    have sum : ((i + k) :: ks).sum = (k :: i :: ks).sum := by
      simp only [List.sum_cons]
      omega
    have inside : i + k ≤ top := by
      simp only [List.sum_cons] at le
      omega
    rw [← pow_add, exact _ inside] at first
    rw [← sum] at le last ⊢
    rw [List.length_cons, List.replicate_succ]
    exact (first.below _).append (ih (i + k) le last)

theorem cast_signFlipped (m : Int) (n : Nat) : (signFlipped m n : ℚ) = m * (-1) ^ n := by
  unfold signFlipped
  split
  next odd => rw [Odd.neg_one_pow (Nat.odd_iff.2 odd), Int.cast_neg, mul_neg_one]
  next even => rw [Even.neg_one_pow (Nat.even_iff.2 (by omega)), mul_one]

theorem pow_base (unit m : Int) (i : Nat) :
    (m * ((-1 : Int) * 2 ^ (unit * 63)) ^ i : ℚ) = signFlipped m i * 2 ^ (0 + unit * 63 * i) := by
  rw [cast_signFlipped, mul_pow, ← zpow_natCast (2 ^ (unit * 63)), ← zpow_mul, Int.zero_add,
    ← mul_assoc, Int.cast_neg, Int.cast_one]

theorem yields_power {base : Bytes} (either : unit = 1 ∨ unit = -1)
    (makes : Yields R p base [] [.double (.finite ((-1 : Int) * 2 ^ (unit * 63)))])
    (first : FloatFormat.double.Fits m 0) (last : FloatFormat.double.Fits m (0 + unit * 63 * n)) :
    Yields R p (if n = 0 then [] else base ++ squares n ++ List.replicate (oneBits n) Op.dmul)
      [.double (.finite (m * 2 ^ (0 : Int)))]
        [.double (.finite (signFlipped m n * 2 ^ (0 + unit * 63 * n)))] := by
  split
  next zero =>
    subst zero
    rw [Int.natCast_zero, Int.mul_zero, Int.add_zero]
    exact .nil _
  next nonzero =>
    have pos := Nat.pos_of_ne_zero nonzero
    generalize based : ((-1 : Int) * 2 ^ (unit * 63) : ℚ) = b at makes
    have power (m : Int) (i : Nat) : m * b ^ i = signFlipped m i * 2 ^ (0 + unit * 63 * i) := by
      rw [← based, pow_base]
    have exact : ∀ i ≤ n, R.round .double (b ^ i) = .finite (b ^ i) := by
      intro i le
      have one (e : Int) (inside : FloatFormat.double.Fits m e) : FloatFormat.double.Fits 1 e :=
        ⟨by decide, by decide, inside.lower, inside.upper⟩
      have inside : FloatFormat.double.Fits 1 (0 + unit * 63 * i) := by
        refine (one _ first).between (one _ last) ?_ ?_ <;> rcases either with rfl | rfl <;> omega
      have value := power 1 i
      rw [Int.cast_one, one_mul] at value
      rw [value]
      exact Rounding.round_of_fits (fits_signFlipped inside i)
    have squared := yields_squares (p := p) (j := 1) exact pos (by omega)
    have length := binaryParts_length pos
    have sum := binaryParts_sum pos
    rw [pow_one] at squared
    simp only [Nat.one_mul] at squared
    match parts : binaryParts n with
    | [] =>
      rw [parts, List.sum_nil] at sum
      omega
    | k :: ks =>
      rw [parts] at squared length sum
      have whole : (m * 2 ^ (0 : Int) : ℚ) * b ^ (k :: ks).sum =
          signFlipped m n * 2 ^ (0 + unit * 63 * n) := by
        rw [zpow_zero, mul_one, sum, power]
      have multiplied := yields_products (p := p) exact k ks (by omega) (q := m * 2 ^ (0 : Int))
        (by rw [whole]; exact Rounding.round_of_fits (fits_signFlipped last n))
      rw [whole, ← List.length_cons, length] at multiplied
      exact ((makes.below _).append (squared.below _)).append multiplied

theorem yields_double {bits : UInt64}
    (canonical : FloatFormat.double.isNaN bits.toNat = true → bits.toNat = FloatFormat.double.nan) :
    Yields R p (double bits) [] [.double (FloatFormat.double.datum bits.toNat)] := by
  have standard := FloatFormat.standard_double
  have computes : Short.doubleOps.Computes R p .double .double := Short.computes_doubleOps
  have small : bits.toNat < 2 * FloatFormat.double.signBit := bits.toNat_lt
  unfold double
  split
  next code short => exact Short.yields_real? computes standard small canonical short
  next long =>
    have regular := Short.regular_of_real?_eq_none small canonical long
    have fits := regular.fits standard.wide
    have starts {k : Int} (inside : FloatFormat.double.Fits k 0) :
        Yields R p
          (Computed.long (.ofInt k) ++ [Op.l2d]) [] [.double (.finite (k * 2 ^ (0 : Int)))] := by
      have digits : k.natAbs < 9007199254740992 := inside.digits
      have value : (Int64.ofInt k).toInt = k := Int64.toInt_ofInt_of_le (by omega) (by omega)
      have converts := computes.ofLong (.ofInt k)
      rw [value, Rounding.ofInt_of_fits inside (by simp)] at converts
      exact (yields_long (.ofInt k)).append converts
    have sign := yields_sign computes standard
    rw [regular.datum_eq]
    dsimp only
    by_cases negative : FloatFormat.double.exponent bits.toNat < 0
    · rw [if_pos negative, if_pos negative]
      refine yields_scaled computes standard (scales_div computes) (.inr rfl) (by omega) fits starts
        fun _ =>
        yields_power (.inr rfl) ?_
      have reciprocal := scales_div computes 1 ((-1 : Int) * 2 ^ (63 : Int))
      have inside : FloatFormat.double.Fits (-1) (-1 * 63) :=
        ⟨by decide, by decide, by decide, by decide⟩
      rw [neg_zpow_unit (.inr rfl), one_mul, Rounding.round_of_fits inside] at reciprocal
      exact (computes.one.append (sign.below [.double (.finite 1)])).append reciprocal
    · rw [if_neg negative, if_neg negative]
      refine yields_scaled computes standard (scales_mul computes) (.inl rfl) (by omega) fits starts
        fun _ =>
        yields_power (.inl rfl) sign

end Computed

end Restack
