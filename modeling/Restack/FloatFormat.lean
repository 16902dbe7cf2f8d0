set_option autoImplicit false

namespace Restack

structure FloatFormat where
  fractionBits : Nat
  exponentBits : Nat
deriving DecidableEq, Repr

namespace FloatFormat

def single : FloatFormat := ⟨23, 8⟩
def double : FloatFormat := ⟨52, 11⟩

def bias (f : FloatFormat) : Nat := (1 <<< (f.exponentBits - 1)) - 1

def fraction (f : FloatFormat) (bits : Nat) : Nat := bits % (1 <<< f.fractionBits)

def exponentField (f : FloatFormat) (bits : Nat) : Nat :=
  bits / (1 <<< f.fractionBits) % (1 <<< f.exponentBits)

def isNegative (f : FloatFormat) (bits : Nat) : Bool :=
  bits / (1 <<< (f.fractionBits + f.exponentBits)) % 2 = 1

/-- The pattern of positive infinity: all ones in the exponent field and nothing else. -/
def infinity (f : FloatFormat) : Nat := ((1 <<< f.exponentBits) - 1) * (1 <<< f.fractionBits)

def signBit (f : FloatFormat) : Nat := 1 <<< (f.fractionBits + f.exponentBits)

/-- The pattern of all ones, which stands for every NaN. -/
def nan (f : FloatFormat) : Nat := 2 * f.signBit - 1

def isNaN (f : FloatFormat) (bits : Nat) : Bool :=
  f.exponentField bits = (1 <<< f.exponentBits) - 1 && f.fraction bits ≠ 0

/-- All NaNs are taken for one. -/
def canonical (f : FloatFormat) (bits : Nat) : Nat := if f.isNaN bits then f.nan else bits

/-- Subnormal patterns, whose exponent field is zero, lack the leading one. -/
def significand (f : FloatFormat) (bits : Nat) : Nat :=
  if f.exponentField bits = 0 then f.fraction bits else f.fraction bits + (1 <<< f.fractionBits)

def signed (f : FloatFormat) (bits : Nat) : Int :=
  if f.isNegative bits then -f.significand bits else f.significand bits

def exponent (f : FloatFormat) (bits : Nat) : Int :=
  (max (f.exponentField bits) 1 : Nat) - (f.bias + f.fractionBits : Nat)

/-- The integer a pattern denotes, for nonzero integers below `2 ^ fractionBits` in size. -/
def integer? (f : FloatFormat) (bits : Nat) : Option Int :=
  let shift := (-f.exponent bits).toNat
  if f.exponent bits ≤ 0 ∧ shift ≤ f.fractionBits ∧ f.exponentField bits ≠ 0 ∧
      f.significand bits % (1 <<< shift) = 0 then
    some (f.signed bits / (1 <<< shift : Nat))
  else none

/-- The pattern of an integer of at most `fractionBits + 1` binary digits. -/
def ofInteger (f : FloatFormat) (x : Int) : Nat :=
  if x = 0 then 0
  else
    let exponent := x.natAbs.log2
    (if x < 0 then f.signBit else 0) + (f.bias + exponent) * (1 <<< f.fractionBits) +
      (x.natAbs * (1 <<< (f.fractionBits - exponent)) - 1 <<< f.fractionBits)

end FloatFormat

end Restack
