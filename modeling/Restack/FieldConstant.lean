import Restack.Text.Quoted

set_option autoImplicit false

namespace Restack

/-- `int` covers everything up to ints and float bit patterns, `long` also double bit patterns;
`type` holds a class name without the `L…;` around it. -/
inductive FieldConstant where
  | int (value : Int32)
  | long (value : Int64)
  | string (value : String)
  | type (name : String)
deriving DecidableEq, Repr, Inhabited

namespace FieldConstant

def text : FieldConstant → String
  | .int v => "Int(" ++ toString v.toInt ++ ")"
  | .long v => "Long(" ++ toString v.toInt ++ ")"
  | .string s => "String(" ++ Text.quote s ++ ")"
  | .type s => "Type(" ++ Text.quote s ++ ")"

end FieldConstant

end Restack
