import Restack.Pool.ModifiedUtf8

set_option autoImplicit false

namespace Restack

/-- A way to write texts as bytes. Every text is read back, and characters from 1 to 127 are written
as one byte each. -/
structure TextForm where
  encode : String → Bytes
  decode : Bytes → Option String
  decode_encode : ∀ s, decode (encode s) = some s
  encode_of_plain : ∀ s : String, (∀ c ∈ s.toList, 0 < c.val ∧ c.val < 0x80) →
    encode s = s.toList.map fun c => c.val.toUInt8

namespace TextForm

def modifiedUtf8 : TextForm where
  encode := ModifiedUtf8.encode
  decode := ModifiedUtf8.decode
  decode_encode := ModifiedUtf8.decode_encode
  encode_of_plain := fun _ => ModifiedUtf8.encode_of_plain

end TextForm

end Restack
