import Restack.Bytes

set_option autoImplicit false

namespace Restack

namespace Digest

def start : UInt64 := 0xcbf29ce484222325

def step (h : UInt64) (b : UInt8) : UInt64 := (h ^^^ b.toUInt64) * 0x100000001b3

def ofBytes (bytes : Bytes) : UInt64 := bytes.foldl step start

end Digest

namespace Bytes

def hexChars : Array Char := "0123456789abcdef".toList.toArray

def pushHex (s : String) (b : UInt8) : String :=
  (s.push (hexChars.getD (b / 16).toNat '0')).push (hexChars.getD (b % 16).toNat '0')

def hex (bytes : Bytes) : String := bytes.foldl pushHex ""

def digest (bytes : Bytes) : String := hex (ofUInt64 (Digest.ofBytes bytes))

/-- The digits of a byte string, or its length and digest if it is long. -/
def brief (bytes : Bytes) : String :=
  if bytes.length > 200 then "(" ++ toString bytes.length ++ " bytes " ++ bytes.digest ++ ")"
    else bytes.hex

end Bytes

end Restack
