import Restack.Literal.Computed
import Restack.Pool.Reference

set_option autoImplicit false

namespace Restack

/-- `value` is sign-extended if it is narrow; floating-point numbers are bit patterns. -/
structure Literal where
  kinds : Kinds
  value : Int64
  code : Bytes
deriving DecidableEq, Repr, Inhabited

namespace Literal

def floatBits (value : Int64) : UInt32 :=
  (FloatFormat.single.canonical value.toUInt64.toUInt32.toNat).toUInt32

def doubleBits (value : Int64) : UInt64 :=
  (FloatFormat.double.canonical value.toUInt64.toNat).toUInt64

/-- One value for all ways to write the same number. -/
def normalize (kinds : Kinds) (value : Int64) : Int64 :=
  if kinds = .ofFloat then (floatBits value).toInt32.toInt64
  else if kinds = .ofDouble then (doubleBits value).toInt64
  else if kinds.isWide then value
  else value.toInt32.toInt64

def short? (kinds : Kinds) (value : Int64) : Option Bytes :=
  if kinds = .ofInt then Short.int? value.toInt32
  else if kinds = .ofFloat then Short.float? (floatBits value)
  else if kinds = .ofLong then Short.long? value
  else if kinds = .ofDouble then Short.double? (doubleBits value)
  else none

def compute (kinds : Kinds) (value : Int64) : Except Fault Bytes :=
  if kinds = .ofInt then .ok (Computed.int value.toInt32)
  else if kinds = .ofFloat then .ok (Computed.float (floatBits value))
  else if kinds = .ofLong then .ok (Computed.long value)
  else if kinds = .ofDouble then .ok (Computed.double (doubleBits value))
  else fail (.notComputable kinds)

def entry (kinds : Kinds) (value : Int64) : Entry :=
  if kinds = .ofFloat then .float value.toUInt64.toUInt32
  else if kinds = .ofLong then .long value
  else if kinds = .ofDouble then .double value.toUInt64
  else .int value.toInt32

def isWide (l : Literal) : Bool := l.kinds.isWide

def loadCode (kinds : Kinds) (index : UInt16) : Bytes :=
  if kinds.isWide then Bytes.opWithIndex Op.ldc2W index
  else if index < 256 then [Op.ldc, index.toUInt8]
  else Bytes.opWithIndex Op.ldcW index

def fromPool? (kinds : Kinds) (value : Int64) (p : Pool) : Option Bytes × Pool :=
  let (index, p) := p.offer (entry kinds value)
  (index.map (loadCode kinds), p)

def computed (kinds : Kinds) (value : Int64) : Except Fault Literal := do
  let value := normalize kinds value
  return ⟨kinds, value, ← compute kinds value⟩

/-- A literal with a short form, or else one from the pool. -/
def pooled (kinds : Kinds) (value : Int64) : PoolM Literal := ExceptT.mk fun p =>
  let value := normalize kinds value
  match short? kinds value with
  | some code => (.ok ⟨kinds, value, code⟩, p)
  | none =>
    match fromPool? kinds value p with
    | (some code, p) => (.ok ⟨kinds, value, code⟩, p)
    | (none, p) => (fail (.noRoomForLiteral value), p)

/-- Loads the literal from the pool if that is shorter. It is offered to the pool whenever its code
is longer than the shortest load. -/
def shorten (l : Literal) (p : Pool) : Literal × Pool :=
  if l.code.length > 2 then
    match fromPool? l.kinds l.value p with
    | (some code, p) => (if code.length < l.code.length then { l with code } else l, p)
    | (none, p) => (l, p)
  else (l, p)

end Literal

end Restack
