import Restack.Bytes

set_option autoImplicit false

namespace Restack

/-- Text is kept encoded, and floating-point numbers as bit patterns, so that equal patterns share
an entry. -/
inductive Entry where
  | utf8 (bytes : Bytes)
  | int (value : Int32)
  | float (bits : UInt32)
  | long (value : Int64)
  | double (bits : UInt64)
  | class (name : UInt16)
  | string (text : UInt16)
  | field (owner nameType : UInt16)
  | method (owner nameType : UInt16)
  | interfaceMethod (owner nameType : UInt16)
  | nameType (name descriptor : UInt16)
deriving DecidableEq, Hashable, Repr, Inhabited

namespace Entry

def tag : Entry → UInt8
  | .utf8 _ => 1
  | .int _ => 3
  | .float _ => 4
  | .long _ => 5
  | .double _ => 6
  | .class _ => 7
  | .string _ => 8
  | .field .. => 9
  | .method .. => 10
  | .interfaceMethod .. => 11
  | .nameType .. => 12

def isWide : Entry → Bool
  | .long _ | .double _ => true
  | _ => false

def width (e : Entry) : Nat := if e.isWide then 2 else 1

/-- Whether a one-byte index would help: ints, floats and strings are loaded by `ldc`. -/
def prefersLow : Entry → Bool
  | .int _ | .float _ | .string _ => true
  | _ => false

def body : Entry → Bytes
  | .utf8 bytes => Bytes.ofUInt16 bytes.length.toUInt16 ++ bytes
  | .int v => Bytes.ofUInt32 v.toUInt32
  | .float bits => Bytes.ofUInt32 bits
  | .long v => Bytes.ofUInt64 v.toUInt64
  | .double bits => Bytes.ofUInt64 bits
  | .class i | .string i => Bytes.ofUInt16 i
  | .field a b | .method a b | .interfaceMethod a b | .nameType a b =>
    Bytes.ofUInt16 a ++ Bytes.ofUInt16 b

def encode (e : Entry) : Bytes := e.tag :: e.body

end Entry

end Restack
