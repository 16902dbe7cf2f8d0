import Restack.Descriptor
import Restack.Register.Instruction

set_option autoImplicit false

namespace Restack

namespace Register

structure FieldRef where
  owner : String
  name : String
  descriptor : String
deriving DecidableEq, Repr, Inhabited

/-- `owner` is a class name, or an array descriptor for methods called on arrays. -/
structure MethodRef where
  owner : String
  name : String
  params : List String
  result : String
deriving DecidableEq, Repr, Inhabited

namespace MethodRef

def parse (owner name descriptor : String) : Except Fault MethodRef := do
  let d ← MethodDesc.parse descriptor
  return ⟨owner, name, d.args.map TypeDesc.print, d.result.print⟩

def descriptor (m : MethodRef) : String :=
  "(" ++ String.join m.params ++ ")" ++ m.result

def receiver (m : MethodRef) : String :=
  if m.owner.toList.head? = some '[' then m.owner else "L" ++ m.owner ++ ";"

/-- One entry per parameter register: the receiver first unless the method is static, and nothing
for the upper half of a wide parameter. -/
def slots (m : MethodRef) (isStatic : Bool) : List (Option String) :=
  (if isStatic then [] else [some m.receiver]) ++
    m.params.flatMap fun p => if p = "J" ∨ p = "D" then [some p, none] else [some p]

def slotKinds (m : MethodRef) (isStatic : Bool) : List Kinds :=
  (m.slots isStatic).map fun
    | some d => .ofDescriptor d
    | none => .none

end MethodRef

/-- The class every exception belongs to. -/
def throwable : String := "java/lang/Throwable"

/-- Where to go on for exceptions of a class; no class means all of them. -/
structure Handler where
  caught : Option String
  target : UInt32
deriving DecidableEq, Repr, Inhabited

namespace Handler

def className (h : Handler) : String := h.caught.getD throwable

end Handler

/-- Positions from `start` up to but not including `stop`, with handlers in order of precedence. -/
structure Guard where
  start : UInt32
  stop : UInt32
  handlers : List Handler
deriving DecidableEq, Repr, Inhabited

structure Code where
  registers : UInt16
  guards : List Guard
  instrs : List Instr
deriving DecidableEq, Repr, Inhabited

namespace Code

def catchPositions (c : Code) : List UInt32 :=
  c.guards.flatMap fun g => g.handlers.map Handler.target

end Code

def Flags.isStatic (access : UInt32) : Bool := access &&& 0x8 != 0

def Flags.isInterface (access : UInt32) : Bool := access &&& 0x200 != 0

structure Field where
  id : FieldRef
  access : UInt32
  constant : Option FieldConstant
deriving DecidableEq, Repr, Inhabited

structure Method where
  id : MethodRef
  access : UInt32
  code : Option Code
deriving DecidableEq, Repr, Inhabited

namespace Method

def isStatic (m : Method) : Bool := Flags.isStatic m.access

def slots (m : Method) : List (Option String) := m.id.slots m.isStatic

def slotKinds (m : Method) : List Kinds := m.id.slotKinds m.isStatic

end Method

structure Class where
  name : String
  access : UInt32
  super : Option String
  interfaces : List String
  fields : List Field
  methods : List Method
deriving DecidableEq, Repr, Inhabited

/-- The reference tables of one file and its classes. Types are descriptors. -/
structure Catalog where
  strings : Array String := #[]
  types : Array String := #[]
  fields : Array FieldRef := #[]
  methods : Array MethodRef := #[]
  classes : List Class := []
deriving DecidableEq, Repr, Inhabited

namespace Catalog

/-- The index of a value in a table, with the table extended if the value is new. -/
def intern {α : Type} [DecidableEq α] (table : Array α) (value : α) : Array α × Nat :=
  match table.findIdx? (· = value) with
  | some i => (table, i)
  | none => (table.push value, table.size)

def look {α : Type} (table : Array α) (kind : Table) (index : UInt32) : Except Fault α :=
  match table[index.toNat]? with
  | some a => .ok a
  | none => fail (.outOfRange kind index)

def string (c : Catalog) (index : UInt32) : Except Fault String := look c.strings .string index

def type (c : Catalog) (index : UInt32) : Except Fault String := look c.types .type index

def field (c : Catalog) (index : UInt32) : Except Fault FieldRef := look c.fields .field index

def method (c : Catalog) (index : UInt32) : Except Fault MethodRef := look c.methods .method index

def className (c : Catalog) (index : UInt32) : Except Fault String := do
  return classNameOf (← c.type index)

end Catalog

end Register

end Restack
