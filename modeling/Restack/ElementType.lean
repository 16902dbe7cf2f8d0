import Restack.Fault
import Restack.Stack.Opcode

set_option autoImplicit false

namespace Restack

/-- The kind of an array's elements and what is known about them as arrays. An unknown array is one
of references. -/
def ArrayView.element : ArrayView → Except Fault (Kinds × ArrayView)
  | .null => fail .elementOfNull
  | .unknown => .ok (.ofRef, .unknown)
  | .array d =>
    match d.toList with
    | '[' :: cs =>
      let rest := String.ofList cs
      .ok (.ofDescriptor rest, .array rest)
    | _ => fail (.notAnArray d)

def newArrayCode? (descriptor : String) : Option UInt8 :=
  match descriptor with
  | "[Z" => some 4
  | "[C" => some 5
  | "[F" => some 6
  | "[D" => some 7
  | "[B" => some 8
  | "[S" => some 9
  | "[I" => some 10
  | "[J" => some 11
  | _ => none

/-- The place of a primitive element type among the array loads, and equally among the array stores.
-/
def elementVariant? (element : String) : Option UInt8 :=
  match element with
  | "I" => some 0
  | "J" => some 1
  | "F" => some 2
  | "D" => some 3
  | "B" | "Z" => some 5
  | "C" => some 6
  | "S" => some 7
  | _ => none

def arrayLoad? (element : String) : Option UInt8 := (elementVariant? element).map (Op.iaload + ·)

def arrayStore? (element : String) : Option UInt8 := (elementVariant? element).map (Op.iastore + ·)

end Restack
