import Restack.ArrayView
import Restack.Bytes
import Restack.FieldConstant
import Restack.Local

set_option autoImplicit false

/-!
Everything that can go wrong, as causes, and the one place where causes are put into words.
A fault is a cause together with the places it passed through on its way out.
-/

namespace Restack

inductive Table where
  | string
  | type
  | field
  | method
deriving DecidableEq, Repr

inductive Cause where
  | typeDescriptor (text : String)
  | methodDescriptor (text : String)
  | dataTooShort (width index : Nat)
  | arrayDataWidth (width : UInt16)
  | missingOperand (operand : Nat) (opcode : UInt8) (position : UInt32)
  | negativeRegister (value : Int32) (position : UInt32)
  | binaryOperands (position : UInt32)
  | noSwitchPayload (position : UInt32)
  | noArrayPayload (position : UInt32)
  | outOfRange (table : Table) (index : UInt32)
  | elementOfNull
  | notAnArray (descriptor : String)
  | noEntry
  | unsettled
  | noResultType (position : UInt32)
  | unaryOpcode (opcode : UInt8)
  | binaryOpcode (opcode : UInt8)
  | literalOpcode (opcode : UInt8)
  | orderedReferences (position : UInt32)
  | orderedReference (position : UInt32)
  | arrayDataTarget (position : UInt32) (array : ArrayView)
  | argumentCount (owner name : String) (position : UInt32) (passed slots : Nat)
  | notComputable (kinds : Kinds)
  | noRoomForLiteral (value : Int64)
  | poolFull
  | textTooLong (length : Nat)
  | noInverse (opcode : UInt8)
  | noCases
  | emptyArrayDescriptor
  | unreachableHandler (position : UInt32)
  | noJumpTarget (position : UInt32) (method : String)
  | unplacedTarget (position : UInt32)
  | noSlot (access : Local) (isStore : Bool)
  | codeTooLong (method : String) (length : Nat)
  | rangeTooFar (method : String)
  | fieldConstant (value : FieldConstant) (descriptor : String)
deriving DecidableEq, Repr

/-- A step on the way from a cause to the caller. -/
inductive Place where
  | instruction (opcode : UInt8) (position : UInt32)
  | field (name : String)
  | method (name : String)
  | methodOf (name owner : String)
  | class (name : String)
deriving DecidableEq, Repr

/-- `places` are in the order in which the cause passed through them. -/
structure Fault where
  cause : Cause
  places : List Place
deriving DecidableEq, Repr

inductive Fault.Kind where
  | malformed
  | limitExceeded
deriving DecidableEq, Repr

def Kinds.text (k : Kinds) : String :=
  let names :=
    [(k.int, "INT"), (k.float, "FLOAT"), (k.ref, "OBJ"), (k.long, "LONG"), (k.double, "DOUBLE")]
  let held := (names.filter (·.1)).map (·.2)
  "Scalars(" ++ (if held.isEmpty then "0x0" else " | ".intercalate held) ++ ")"

namespace Table

def name : Table → String
  | .string => "String"
  | .type => "Type"
  | .field => "Field"
  | .method => "Method"

end Table

namespace Cause

def kind : Cause → Fault.Kind
  | .noRoomForLiteral _ | .poolFull | .textTooLong _ | .codeTooLong .. | .rangeTooFar _ =>
      .limitExceeded
  | _ => .malformed

private def hexOpcode (opcode : UInt8) : String := "0x" ++ hexByte opcode

def message : Cause → String
  | .typeDescriptor s => "Malformed type descriptor " ++ s
  | .methodDescriptor s => "Malformed method descriptor " ++ s
  | .dataTooShort w i =>
    "Unexpected end of stream reading u" ++ toString w ++ " at index " ++ toString i
  | .arrayDataWidth w => "Invalid array data width " ++ toString w
  | .missingOperand i op p =>
    "Missing operand " ++ toString i ++ " of opcode " ++ hexOpcode op ++ " at " ++ toString p
  | .negativeRegister v p => "Negative register v" ++ toString v.toInt ++ " at " ++ toString p
  | .binaryOperands p => "Binary operation at " ++ toString p ++ " needs two operands"
  | .noSwitchPayload p => "Switch at " ++ toString p ++ " has no payload"
  | .noArrayPayload p => "fill-array-data at " ++ toString p ++ " has no payload"
  | .outOfRange t i => t.name ++ " index " ++ toString i ++ " out of range"
  | .elementOfNull => "Element type requested for a null array"
  | .notAnArray d => "Not an array descriptor: " ++ d
  | .noEntry => "Method body has no instruction at offset 0"
  | .unsettled => "Register states did not settle"
  | .noResultType p => "move-result at " ++ toString p ++ " has no result type"
  | .unaryOpcode op => "Unknown unary opcode " ++ hexOpcode op
  | .binaryOpcode op => "Unknown binary opcode " ++ hexOpcode op
  | .literalOpcode op => "Unknown literal opcode " ++ hexOpcode op
  | .orderedReferences p => "Ordered comparison of references at " ++ toString p
  | .orderedReference p => "Ordered test of a reference at " ++ toString p
  | .arrayDataTarget p a => "fill-array-data at " ++ toString p ++ " into array of " ++ a.text
  | .argumentCount owner name p passed slots =>
    "Invoke of " ++ owner ++ "." ++ name ++ " at " ++ toString p ++ " passes " ++ toString passed ++
      " registers for " ++ toString slots ++ " slots"
  | .notComputable k => "Cannot compute a constant of type " ++ k.text
  | .noRoomForLiteral v => "No constant pool space for literal " ++ toString v.toInt
  | .poolFull => "Constant pool is full"
  | .textTooLong n => "Utf8 constant of " ++ toString n ++ " bytes is too long"
  | .noInverse op => "No inverse for branch opcode " ++ hexOpcode op
  | .noCases => "Switch without cases"
  | .emptyArrayDescriptor => "Empty array descriptor"
  | .unreachableHandler p => "Handler at " ++ toString p ++ " is unreachable"
  | .noJumpTarget p m => "Jump to " ++ toString p ++ " in " ++ m ++ " has no target instruction"
  | .unplacedTarget p => "No position for jump target " ++ toString p
  | .noSlot l isStore =>
    "Instruction RegAccess(RegAccess \x7b key: RegKey \x7b reg: " ++ toString l.reg ++ ", st: " ++
      l.kinds.text ++ " \x7d, store: " ++ (if isStore then "true" else "false") ++
      ", bytecode: None \x7d) has no bytecode"
  | .codeTooLong m n => "Code of " ++ m ++ " is " ++ toString n ++ " bytes long"
  | .rangeTooFar m => "Exception range of " ++ m ++ " reaches past offset 65535"
  | .fieldConstant v d => "Unknown constant " ++ v.text ++ " for descriptor " ++ d

end Cause

namespace Place

def text : Place → String
  | .instruction op p => "instruction 0x" ++ hexByte op ++ " at " ++ toString p
  | .field n => "field " ++ n
  | .method n => "method " ++ n
  | .methodOf n owner => "method " ++ n ++ " of " ++ owner
  | .class n => "class " ++ n

end Place

namespace Fault

def ofCause (cause : Cause) : Fault := ⟨cause, []⟩

def kind (f : Fault) : Kind := f.cause.kind

def isLimit (f : Fault) : Bool := f.kind = .limitExceeded

def within (f : Fault) (place : Place) : Fault := { f with places := f.places ++ [place] }

/-- The cause in words, then where it arose: "… for inner of outer". -/
def message (f : Fault) : String :=
  match f.places with
  | [] => f.cause.message
  | p :: ps => f.cause.message ++ " for " ++ " of ".intercalate ((p :: ps).map Place.text)

end Fault

def within {α : Type} (place : Place) : Except Fault α → Except Fault α
  | .ok a => .ok a
  | .error f => .error (f.within place)

theorem within_eq_ok {α : Type} {place : Place} {e : Except Fault α} {a : α}
    (done : within place e = .ok a) :
    e = .ok a := by
  cases e with
  | ok b => exact done
  | error f => cases done

def fail {α : Type} (cause : Cause) : Except Fault α := .error (.ofCause cause)

end Restack
