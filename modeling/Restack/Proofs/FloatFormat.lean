import Mathlib.Algebra.Order.Field.Rat
import Mathlib.Tactic.FieldSimp
import Mathlib.Tactic.NormNum
import Mathlib.Tactic.Ring
import Restack.FloatFormat

set_option autoImplicit false

namespace Restack

inductive Datum where
  | nan
  | infinite (negative : Bool)
  | zero (negative : Bool)
  | finite (q : ℚ)
deriving DecidableEq, Repr

namespace Datum

def isNegative : Datum → Bool
  | .nan => false
  | .infinite negative | .zero negative => negative
  | .finite q => q < 0

def neg : Datum → Datum
  | .nan => .nan
  | .infinite negative => .infinite !negative
  | .zero negative => .zero !negative
  | .finite q => .finite (-q)

end Datum

namespace FloatFormat

def datum (f : FloatFormat) (bits : Nat) : Datum :=
  if f.isNaN bits then .nan
  else if f.exponentField bits = (1 <<< f.exponentBits) - 1 then .infinite (f.isNegative bits)
  else if f.significand bits = 0 then .zero (f.isNegative bits)
  else .finite (f.signed bits * 2 ^ f.exponent bits)

/-- The least exponent of an integer significand, which all subnormal numbers have. -/
def minExponent (f : FloatFormat) : Int := 1 - (f.bias + f.fractionBits : Nat)

def maxExponent (f : FloatFormat) : Int := f.bias - f.fractionBits

/-- The format has a finite pattern for the number. -/
def Represents (f : FloatFormat) (q : ℚ) : Prop :=
  ∃ m e : Int, q = m * 2 ^ e ∧ m.natAbs < 2 ^ (f.fractionBits + 1) ∧ f.minExponent ≤ e ∧
    e ≤ f.maxExponent

variable {f : FloatFormat} {bits : Nat}

theorem fields_eq (small : bits < 2 * f.signBit) :
    bits = (if f.isNegative bits then f.signBit else 0) + f.exponentField bits *
      2 ^ f.fractionBits + f.fraction bits := by
  unfold signBit at small
  unfold isNegative signBit exponentField fraction
  simp only [Nat.one_shiftLeft, decide_eq_true_eq] at small ⊢
  have low := Nat.div_add_mod bits (2 ^ f.fractionBits)
  have middle := Nat.div_add_mod (bits / 2 ^ f.fractionBits) (2 ^ f.exponentBits)
  rw [Nat.div_div_eq_div_mul, ← Nat.pow_add] at middle
  have sign : bits / 2 ^ (f.fractionBits + f.exponentBits) < 2 :=
    Nat.div_lt_of_lt_mul (by rwa [Nat.mul_comm])
  rw [← middle, Nat.mul_add, ← Nat.mul_assoc, ← Nat.pow_add,
    Nat.mul_comm (2 ^ f.fractionBits) (_ % _)] at low
  generalize bits / 2 ^ (f.fractionBits + f.exponentBits) = s at low sign ⊢
  rcases (show s = 0 ∨ s = 1 by omega) with rfl | rfl
  · rw [if_neg (by decide)]
    omega
  · rw [if_pos (by decide)]
    omega

section

variable (f bits)

theorem fraction_lt : f.fraction bits < 2 ^ f.fractionBits := by
  rw [fraction, Nat.one_shiftLeft]
  exact Nat.mod_lt _ (Nat.two_pow_pos _)

theorem exponentField_lt : f.exponentField bits < 2 ^ f.exponentBits := by
  rw [exponentField, Nat.one_shiftLeft, Nat.one_shiftLeft]
  exact Nat.mod_lt _ (Nat.two_pow_pos _)

theorem significand_lt : f.significand bits < 2 ^ (f.fractionBits + 1) := by
  have less := f.fraction_lt bits
  rw [significand, Nat.pow_succ, Nat.one_shiftLeft]
  split <;> omega

theorem natAbs_signed : (f.signed bits).natAbs = f.significand bits := by
  unfold signed
  split <;> simp

theorem minExponent_le : f.minExponent ≤ f.exponent bits := by
  unfold minExponent exponent
  omega

end

structure Regular (f : FloatFormat) (bits : Nat) : Prop where
  field : f.exponentField bits ≠ 2 ^ f.exponentBits - 1
  significand : f.significand bits ≠ 0

theorem regular_of_ne (small : bits < 2 * f.signBit)
    (canonical : f.isNaN bits = true → bits = f.nan) (zero : bits ≠ 0)
    (negative_zero : bits ≠ f.signBit) (nan : bits ≠ f.nan) (infinite : bits ≠ f.infinity)
    (negative_infinite : bits ≠ f.signBit + f.infinity) : f.Regular bits := by
  have number : f.isNaN bits = false := by
    rw [← Bool.not_eq_true]
    exact fun isNaN => nan (canonical isNaN)
  have fields := f.fields_eq small
  constructor
  · intro full
    have fraction : f.fraction bits = 0 := by
      simpa [isNaN, full, Nat.one_shiftLeft] using number
    rw [full, fraction] at fields
    have same : (2 ^ f.exponentBits - 1) * 2 ^ f.fractionBits = f.infinity := by
      simp [infinity, Nat.one_shiftLeft]
    rw [same] at fields
    split at fields
    · exact negative_infinite (by omega)
    · exact infinite (by omega)
  · intro none
    unfold FloatFormat.significand at none
    split at none
    next subnormal =>
      rw [subnormal, none] at fields
      split at fields
      · exact negative_zero (by omega)
      · exact zero (by omega)
    next =>
      have pos := Nat.two_pow_pos f.fractionBits
      rw [Nat.one_shiftLeft] at none
      omega

namespace Regular

theorem datum_eq (regular : f.Regular bits) :
    f.datum bits = .finite (f.signed bits * 2 ^ f.exponent bits) := by
  have number : f.isNaN bits = false := by simp [isNaN, Nat.one_shiftLeft, regular.field]
  simp [datum, number, Nat.one_shiftLeft, regular.field, regular.significand]

theorem signed_ne_zero (regular : f.Regular bits) : f.signed bits ≠ 0 := by
  intro zero
  apply regular.significand
  rw [← natAbs_signed, zero]
  rfl

theorem exponent_le (regular : f.Regular bits) (wide : 1 < f.exponentBits) :
    f.exponent bits ≤ f.maxExponent := by
  have less := f.exponentField_lt bits
  have field := regular.field
  have double : 2 ^ f.exponentBits = 2 * 2 ^ (f.exponentBits - 1) := by
    rw [← pow_succ', Nat.sub_add_cancel (Nat.le_of_lt wide)]
  have two : 2 ^ 1 ≤ 2 ^ (f.exponentBits - 1) := Nat.pow_le_pow_right (by decide) (by omega)
  unfold exponent maxExponent bias
  rw [Nat.one_shiftLeft]
  omega

end Regular

/-- An integer and a power of two whose product is a number besides zero that the format has. -/
structure Fits (f : FloatFormat) (m e : Int) : Prop where
  nonzero : m ≠ 0
  digits : m.natAbs < 2 ^ (f.fractionBits + 1)
  lower : f.minExponent ≤ e
  upper : e ≤ f.maxExponent

namespace Fits

variable {m e : Int}

theorem represents (fits : f.Fits m e) : f.Represents (m * 2 ^ e) :=
  ⟨m, e, rfl, fits.digits, fits.lower, fits.upper⟩

theorem ne_zero (fits : f.Fits m e) : (m * 2 ^ e : ℚ) ≠ 0 :=
  mul_ne_zero (Int.cast_ne_zero.2 fits.nonzero) (zpow_ne_zero e two_ne_zero)

theorem neg (fits : f.Fits m e) : f.Fits (-m) e :=
  ⟨by have := fits.nonzero; omega, by rw [Int.natAbs_neg]; exact fits.digits,
    fits.lower, fits.upper⟩

theorem between {e' k : Int} (fits : f.Fits m e) (fits' : f.Fits m e') (lower : min e e' ≤ k)
    (upper : k ≤ max e e') :
    f.Fits m k := by
  refine ⟨fits.nonzero, fits.digits, ?_, ?_⟩
  · exact (le_min fits.lower fits'.lower).trans lower
  · exact upper.trans (max_le fits.upper fits'.upper)

end Fits

theorem Regular.fits (regular : f.Regular bits) (wide : 1 < f.exponentBits) :
    f.Fits (f.signed bits) (f.exponent bits) where
  nonzero := regular.signed_ne_zero
  digits := by
    rw [natAbs_signed]
    exact f.significand_lt bits
  lower := f.minExponent_le bits
  upper := regular.exponent_le wide

/-- The special patterns denote what they are named for, and small integers and powers of two are
within the bounds. -/
structure Standard (f : FloatFormat) : Prop where
  zero : f.datum 0 = .zero false
  negative_zero : f.datum f.signBit = .zero true
  nan : f.datum f.nan = .nan
  infinity : f.datum f.infinity = .infinite false
  negative_infinity : f.datum (f.signBit + f.infinity) = .infinite true
  wide : 1 < f.exponentBits
  lower : f.minExponent ≤ 0
  upper : 63 ≤ f.maxExponent

theorem standard_single : single.Standard :=
  ⟨rfl, rfl, rfl, rfl, rfl, by decide, by decide, by decide⟩

theorem standard_double : double.Standard :=
  ⟨rfl, rfl, rfl, rfl, rfl, by decide, by decide, by decide⟩

theorem integer?_eq_some {x : Int} (found : f.integer? bits = some x) :
    (x : ℚ) = f.signed bits * 2 ^ f.exponent bits := by
  unfold integer? at found
  dsimp only at found
  split at found
  next whole =>
    obtain ⟨le, -, -, divides⟩ := whole
    cases found
    obtain ⟨shift, exponent⟩ : ∃ shift : Nat, f.exponent bits = -shift :=
      ⟨(-f.exponent bits).toNat, by omega⟩
    rw [exponent, Int.neg_neg, Int.toNat_natCast, Nat.one_shiftLeft] at divides ⊢
    have part : ((2 ^ shift : Nat) : Int) ∣ f.signed bits := by
      rw [Int.natCast_dvd, natAbs_signed]
      exact Nat.dvd_of_mod_eq_zero divides
    obtain ⟨k, signed⟩ := part
    rw [signed, Int.mul_ediv_cancel_left _ (by positivity), zpow_neg, zpow_natCast]
    push_cast
    field_simp
  next => cases found

/-- The first digit of an integer stands in the exponent only, so the significand has all digits of
the integer. -/
theorem log2_of_significand {q shift : Nat} (shallow : shift ≤ f.fractionBits)
    (split : f.fraction bits + 2 ^ f.fractionBits = 2 ^ shift * q) :
    q.log2 = f.fractionBits - shift := by
  have less := f.fraction_lt bits
  have top : 2 ^ f.fractionBits = 2 ^ shift * 2 ^ (f.fractionBits - shift) := by
    rw [← Nat.pow_add, Nat.add_sub_cancel' shallow]
  have lower : 2 ^ (f.fractionBits - shift) ≤ q :=
    Nat.le_of_mul_le_mul_left (by omega) (Nat.two_pow_pos shift)
  refine (Nat.log2_eq_iff (by have := Nat.two_pow_pos (f.fractionBits - shift); omega)).2
    ⟨lower, ?_⟩
  refine Nat.lt_of_mul_lt_mul_left (a := 2 ^ shift) ?_
  rw [Nat.pow_succ, ← Nat.mul_assoc]
  omega

theorem ofInteger_of_integer? {x : Int} (small : bits < 2 * f.signBit)
    (found : f.integer? bits = some x) :
    f.ofInteger x = bits := by
  unfold integer? at found
  dsimp only at found
  split at found
  next whole =>
    obtain ⟨le, shallow, normal, divides⟩ := whole
    cases found
    have field : f.exponent bits = f.exponentField bits - (f.bias + f.fractionBits : Nat) := by
      rw [exponent]
      omega
    obtain ⟨shift, exponent⟩ : ∃ shift : Nat, f.exponent bits = -shift :=
      ⟨(-f.exponent bits).toNat, by omega⟩
    rw [exponent, Int.neg_neg, Int.toNat_natCast] at divides shallow ⊢
    rw [Nat.one_shiftLeft] at divides ⊢
    have significand : f.significand bits = f.fraction bits + 2 ^ f.fractionBits := by
      rw [FloatFormat.significand, if_neg normal, Nat.one_shiftLeft]
    obtain ⟨q, split⟩ := Nat.dvd_of_mod_eq_zero divides
    have positive : 0 < q := by
      have := Nat.two_pow_pos f.fractionBits
      exact Nat.pos_of_ne_zero fun zero => by simp [zero] at split; omega
    have value : ∃ y : Int, f.signed bits / ((2 ^ shift : Nat) : Int) = y ∧ y.natAbs = q ∧
        (y < 0 ↔ f.isNegative bits = true) := by
      rw [signed, split, Nat.cast_mul]
      split_ifs with negative
      · refine ⟨-(q : Int), ?_, by omega, iff_of_true (by omega) negative⟩
        rw [← Int.mul_neg, Int.mul_ediv_cancel_left _ (by positivity)]
      · exact ⟨q, Int.mul_ediv_cancel_left _ (by positivity), rfl, iff_of_false (by omega) negative⟩
    obtain ⟨y, value, size, negative⟩ := value
    have digits := log2_of_significand shallow (significand.symm.trans split)
    have fields := f.fields_eq small
    have place : f.bias + (f.fractionBits - shift) = f.exponentField bits := by omega
    have rest : q * 2 ^ (f.fractionBits - (f.fractionBits - shift)) - 2 ^ f.fractionBits =
        f.fraction bits := by
      rw [Nat.sub_sub_self shallow, Nat.mul_comm, ← split, significand, Nat.add_sub_cancel]
    rw [value, ofInteger, if_neg (by omega)]
    simp only [size, digits, place, Nat.one_shiftLeft, rest, negative]
    exact fields.symm
  next => cases found

end FloatFormat

end Restack
