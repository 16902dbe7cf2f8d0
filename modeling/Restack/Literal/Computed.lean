import Restack.Fault
import Restack.Literal.Short

set_option autoImplicit false

namespace Restack

namespace Computed

/-- An int that fits no short form: the high half shifted up, and the low half on top of it. Both
halves have a short form. -/
def int (x : Int32) : Bytes :=
  match Short.int? x with
  | some code => code
  | none =>
    let low := x.toInt16.toInt32
    let high := (x ^^^ low) >>> 16
    let half (y : Int32) : Bytes := (Short.int? y).getD []
    half high ++ half 16 ++ [Op.ishl] ++ (if low = 0 then [] else half low ++ [Op.ixor])

def long (x : Int64) : Bytes :=
  match Short.long? x with
  | some code => code
  | none =>
    let low := x.toInt32
    let high := (x ^^^ low.toInt64) >>> 32
    if high = 0 then int low ++ [Op.i2l]
    else
      int high.toInt32 ++ [Op.i2l] ++ int 32 ++ [Op.lshl] ++
        (if low = 0 then [] else int low ++ [Op.i2l, Op.lxor])

def scale (n : Nat) (ofLong op : UInt8) : Bytes :=
  if n = 0 then [] else [Op.lconst1] ++ int (.ofNat n) ++ [Op.lshl, ofLong, op]

/-- A signed integer after `n` factors of `-2 ^ 63`. -/
def signFlipped (x : Int) (n : Nat) : Int := if n % 2 = 1 then -x else x

/-- A float is its significand times powers of two. Each factor of `2 ^ 63` comes from the long
whose only bit is the sign, which is negative. -/
def float (bits : UInt32) : Bytes :=
  match Short.float? bits with
  | some code => code
  | none =>
    let exponent := FloatFormat.single.exponent bits.toNat
    let op := if exponent < 0 then Op.fdiv else Op.fmul
    let steps := exponent.natAbs / 63
    let factor := [Op.lconst1, Op.iconstM1, Op.lshl, Op.l2f, op]
    int (.ofInt (signFlipped (FloatFormat.single.signed bits.toNat) steps)) ++ [Op.i2f] ++
      (List.replicate steps factor).flatten ++ scale (exponent.natAbs % 63) Op.l2f op

/-- Squares the top of the stack again and again, keeping a copy of each power that `n` needs. -/
def squares (n : Nat) : Bytes :=
  if n / 2 = 0 then []
  else (if n % 2 = 1 then [Op.dup2, Op.dup2, Op.dmul] else [Op.dup2, Op.dmul]) ++ squares (n / 2)
termination_by n

def oneBits (n : Nat) : Nat := if n = 0 then 0 else n % 2 + oneBits (n / 2)
termination_by n

/-- A double is its significand times powers of two. The power of `-2 ^ 63`, or of its reciprocal,
is made by repeated squaring. -/
def double (bits : UInt64) : Bytes :=
  match Short.double? bits with
  | some code => code
  | none =>
    let exponent := FloatFormat.double.exponent bits.toNat
    let steps := exponent.natAbs / 63
    let base :=
      if exponent < 0 then [Op.dconst1, Op.lconst1, Op.iconstM1, Op.lshl, Op.l2d, Op.ddiv]
      else [Op.lconst1, Op.iconstM1, Op.lshl, Op.l2d]
    let power :=
      if steps = 0 then [] else base ++ squares steps ++ List.replicate (oneBits steps) Op.dmul
    long (.ofInt (signFlipped (FloatFormat.double.signed bits.toNat) steps)) ++ [Op.l2d] ++ power ++
      scale (exponent.natAbs % 63) Op.l2d (if exponent < 0 then Op.ddiv else Op.dmul)

end Computed

end Restack
