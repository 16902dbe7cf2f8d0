import Restack.ElementType
import Restack.Frame
import Restack.Register.Handlers
import Std.Data.HashSet
import Std.Data.TreeSet

set_option autoImplicit false

namespace Restack

namespace Register

/-- The state after an instruction that writes registers; `none` for the others. -/
def transfer (catalog : Catalog) (i : Instr) (s : Frame) : Except Fault (Option Frame) :=
  match i.family with
  | .constString | .constClass | .newInstance => do
    return some (s.assignPlain (← i.reg 0) .ofRef)
  | .instanceOf | .arrayLength | .compare | .binaryLiteral => do
    return some (s.assignPlain (← i.reg 0) .ofInt)
  | .move => do
    let source ← i.reg 1
    return some (s.move source (← i.reg 0) false)
  | .moveWide => do
    let source ← i.reg 1
    return some (s.move source (← i.reg 0) true)
  | .moveResult =>
    match i.resultType with
    | some d => do
      return some (s.assignDescriptor (← i.reg 0) d)
    | none => fail (.noResultType i.position)
  | .const32 => do
    let value ← i.arg 1
    let target ← i.reg 0
    return some
      (if value = 0 then s.assign target .zero .null false else s.assignPlain target .narrow)
  | .const64 => do
    return some (s.assignWide (← i.reg 0) .wide)
  | .checkCast => do
    let target ← i.reg 0
    let array := ArrayView.ofDescriptor (← catalog.type (← i.index 1))
    return some (s.assign target .ofRef ((s.arrayOf target).narrow array) false)
  | .newArray => do
    let array := ArrayView.ofDescriptor (← catalog.type (← i.index 2))
    return some (s.assign (← i.reg 0) .ofRef array false)
  | .arrayGet => do
    let array := s.arrayOf (← i.reg 1)
    if array = .null then
      -- Reading from null throws, so the state after it may be anything.
      return some (s.assign (← i.reg 0) .all .null false)
    else
      let (kinds, element) ← array.element
      return some (s.assign (← i.reg 0) kinds element false)
  | .instanceGet => do
    let target ← i.reg 0
    return some (s.assignDescriptor target (← catalog.field (← i.index 2)).descriptor)
  | .staticGet => do
    let target ← i.reg 0
    return some (s.assignDescriptor target (← catalog.field (← i.index 1)).descriptor)
  | .unary =>
    match UnaryOp.ofOpcode? i.opcode with
    | some op => do
      let target ← i.reg 0
      return some
        (if op.result.isWide then s.assignWide target op.result else s.assignPlain target op.result)
    | none => fail (.unaryOpcode i.opcode)
  | .binary =>
    match BinaryOp.ofOpcode? i.opcode with
    | some op => do
      let target ← i.reg 0
      return some
        (if op.left.isWide then s.assignWide target op.left else s.assignPlain target op.left)
    | none => fail (.binaryOpcode i.opcode)
  | _ => .ok none

/-- The state in which the hinted registers are known to hold an instance of the hinted type. Their
kinds stay: a register that may be null may still be zero. -/
def narrowed (catalog : Catalog) (hint : CastHint) (s : Frame) : Except Fault Frame := do
  let array := ArrayView.ofDescriptor (← catalog.type hint.typeIndex)
  return hint.registers.foldl (fun t r =>
    t.assign r.toNat (s.kindsOf r.toNat) ((s.arrayOf r.toNat).narrow array) true) s

/-- The states with which a branch is taken and not taken. A branch on nonzero knows the hint when
it is taken, any other branch when it is not. -/
def branchStates (catalog : Catalog) (i : Instr) (s : Frame) : Except Fault (Frame × Frame) :=
  match i.casts with
  | none => .ok (s, s)
  | some hint => do
    let t ← narrowed catalog hint s
    return if i.opcode = 0x39 then (t, s) else (s, t)

/-- The branches out of a control flow instruction and the state with which it falls through. -/
def branches (catalog : Catalog) (i : Instr) (s : Frame) :
    Except Fault (List (UInt32 × Frame) × Frame) := do
  let (taken, passed) ← branchStates catalog i s
  match i.family with
  | .goto => return ([(← i.target 0, taken)], passed)
  | .branch => return ([(← i.target 2, taken)], passed)
  | .branchZero => return ([(← i.target 1, taken)], passed)
  | _ => return ((← i.switchCases).pairs.map fun (_, target) => (target, s), passed)

/-- Every way out of an instruction with the state that is passed on: branches, then falling
through, then the handlers, which see the state from before the instruction. -/
def flows (catalog : Catalog) (handlers : List Handler) (i : Instr) (s : Frame) :
    Except Fault (List (UInt32 × Frame)) := do
  let (jumps, after) ←
    match ← transfer catalog i s with
    | some after => pure ([], after)
    | none => if i.family.isControlFlow then branches catalog i s else pure ([], s)
  let passed := if i.family.endsFlow then [] else [(i.next, after)]
  return jumps ++ passed ++ handlers.map fun h => (h.target, s)

/-- States found so far, and the positions whose state has changed since it was last passed on. -/
structure Progress where
  states : Std.TreeMap UInt32 Frame
  pending : Std.TreeSet UInt32

namespace Progress

/-- Joins a state into the one at `target`. Positions without an instruction are left out. -/
def absorb (positions : Std.HashSet UInt32) (p : Progress) (edge : UInt32 × Frame) : Progress :=
  let (target, s) := edge
  if positions.contains target then
    match p.states[target]? with
    | some old =>
      match old.merge? s with
      | some joined => ⟨p.states.insert target joined, p.pending.insert target⟩
      | none => p
    | none => ⟨p.states.insert target s, p.pending.insert target⟩
  else p

end Progress

structure Inference where
  catalog : Catalog
  instrs : List Instr
  positions : Std.HashSet UInt32
  handlers : Std.TreeMap UInt32 (List Handler)

namespace Inference

def ofCode (catalog : Catalog) (code : Code) : Inference where
  catalog := catalog
  instrs := code.instrs
  positions := code.instrs.foldl (fun ps i => ps.insert i.position) ∅
  handlers := code.handlers

/-- Passes on the state of one instruction, if it is pending. -/
def visit (inf : Inference) (p : Progress) (i : Instr) : Except Fault Progress :=
  if p.pending.contains i.position then
    match p.states[i.position]? with
    | some s => do
      let edges ← flows inf.catalog (inf.handlers.getD i.position []) i s
      return edges.foldl
        (Progress.absorb inf.positions) { p with pending := p.pending.erase i.position }
    | none => .ok { p with pending := p.pending.erase i.position }
  else .ok p

def sweep (inf : Inference) (p : Progress) : Except Fault Progress := inf.instrs.foldlM inf.visit p

/-- Sweeps until nothing is pending, for `rounds` sweeps at most. -/
def settle (inf : Inference) : Nat → Progress → Except Fault Progress
  | rounds, p =>
    if p.pending.isEmpty then .ok p
    else
      match rounds with
      | 0 => fail .unsettled
      | n + 1 => do
        settle inf n (← inf.sweep p)

end Inference

structure Typing where
  states : Std.TreeMap UInt32 Frame
  handlers : Std.TreeMap UInt32 (List Handler)

/-- No register number reaches this: operands are below 2^31, and parameters follow at most 65535
registers. -/
def registerLimit (method : Method) : Nat := 0x80000000 + 65536 + method.slots.length

/-- Every sweep before the last passes on a state that is new or has lost something; a register can
lose at most five kinds, twice an array view and once its clean slate. -/
def roundLimit (method : Method) (code : Code) : Nat :=
  code.instrs.length * (8 * registerLimit method + 1) + 1

def infer (catalog : Catalog) (method : Method) (code : Code) : Except Fault Typing := do
  let inf := Inference.ofCode catalog code
  if inf.positions.contains 0 then
    let entry := Frame.ofParameters method.slots code.registers.toNat
    let settled ← inf.settle (roundLimit method code)
        ⟨(∅ : Std.TreeMap UInt32 Frame).insert 0 entry, (∅ : Std.TreeSet UInt32).insert 0⟩
    return ⟨settled.states, inf.handlers⟩
  else fail .noEntry

end Register

end Restack
