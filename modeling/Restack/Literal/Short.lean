import Restack.Bytes
import Restack.FloatFormat
import Restack.Kinds
import Restack.Stack.Opcode

set_option autoImplicit false

namespace Restack

namespace Short

def tiny? (x : Int32) : Option Bytes :=
  if -1 ≤ x ∧ x ≤ 5 then some [Op.iconst0 + x.toInt8.toUInt8]
  else if -128 ≤ x ∧ x ≤ 127 then some [Op.bipush, x.toInt8.toUInt8]
  else if x = 65535 then some [Op.iconstM1, Op.i2c]
  else none

/-- How many zeros a shift has to put before a word of all ones to make `x`, as far as one byte can
push it. -/
def leadingZeros? (x : Int32) : Option UInt8 :=
  ([1, 2, 3, 4, 5] : List UInt8).find? fun k => x.toUInt32 = (-1 : UInt32) >>> k.toUInt32

def int? (x : Int32) : Option Bytes :=
  match tiny? x with
  | some code => some code
  | none =>
    if -32768 ≤ x ∧ x ≤ 32767 then some (Op.sipush :: Bytes.ofUInt16 x.toInt16.toUInt16)
    else if 65408 ≤ x ∧ x ≤ 65534 then some [Op.bipush, x.toInt8.toUInt8, Op.i2c]
    else if x = -65535 then some [Op.iconstM1, Op.i2c, Op.ineg]
    else if x = -2147483648 then some [Op.iconstM1, Op.iconstM1, Op.ishl]
    else (leadingZeros? x).map fun k => [Op.iconstM1, Op.iconst0 + k, Op.iushr]

def converted? (x : Int) (conversion : UInt8) : Option Bytes :=
  if -32768 ≤ x ∧ x ≤ 65535 then (tiny? (.ofInt x)).map (· ++ [conversion]) else none

def long? (x : Int64) : Option Bytes :=
  if x = 0 then some [Op.lconst0]
  else if x = 1 then some [Op.lconst1]
  else converted? x.toInt Op.i2l

structure FloatOps where
  zero : UInt8
  one : UInt8
  ofInt : UInt8
  ofLong : UInt8
  neg : UInt8
  mul : UInt8
  div : UInt8

def singleOps : FloatOps := ⟨Op.fconst0, Op.fconst1, Op.i2f, Op.l2f, Op.fneg, Op.fmul, Op.fdiv⟩
def doubleOps : FloatOps := ⟨Op.dconst0, Op.dconst1, Op.i2d, Op.l2d, Op.dneg, Op.dmul, Op.ddiv⟩

/-- Zeros, infinities, the one NaN and tiny integers. -/
def real? (f : FloatFormat) (ops : FloatOps) (bits : Nat) : Option Bytes :=
  if bits = 0 then some [ops.zero]
  else if bits = f.signBit then some [ops.zero, ops.neg]
  else if bits = f.nan then some [ops.zero, ops.zero, ops.div]
  else if bits = f.infinity then some [ops.one, ops.zero, ops.div]
  else if bits = f.signBit + f.infinity then some [ops.one, ops.neg, ops.zero, ops.div]
  else
    match f.integer? bits with
    | some 1 => some [ops.one]
    | some x => converted? x ops.ofInt
    | none => none

def float? (bits : UInt32) : Option Bytes := real? .single singleOps bits.toNat

def double? (bits : UInt64) : Option Bytes := real? .double doubleOps bits.toNat

end Short

end Restack
