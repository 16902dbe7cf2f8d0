import Restack.Register.Catalog

set_option autoImplicit false

namespace Restack

namespace Register

/-- The type of the value that `instr`, which follows `before`, picks up. -/
def resultHint (catalog : Catalog) (catches : List UInt32) (before instr : Instr) :
    Except Fault (Option String) :=
  if instr.family ≠ .moveResult then .ok none
  else if before.family.isInvoke then do
    let called ← catalog.method (← before.index 0)
    return if called.result = "V" then none else some called.result
  else if before.family = .filledNewArray then do
    return some (← catalog.type (← before.index 0))
  else .ok (if instr.position ∈ catches then some ("L" ++ throwable ++ ";") else none)

def registerSet (registers : List UInt16) : List UInt16 :=
  (registers.mergeSort fun a b => a ≤ b).eraseReps

/-- The register that `earlier` copied to register `tested`, if that is what it did. -/
def copiedTo (tested : Nat) (earlier : Option Instr) : Except Fault (List UInt16) :=
  match earlier with
  | some e =>
    if e.family = .move then do
      if (← e.reg 0) = tested then
        let source ← e.reg 1
        return [source.toUInt16]
      else return []
    else .ok []
  | none => .ok []

/-- The registers narrowed by `branch`, which follows `test` and, before that, `earlier`. Beside the
tested register this is the one it was copied from just before; the test's own result is no
candidate. -/
def castHint (earlier : Option Instr) (test branch : Instr) : Except Fault (Option CastHint) :=
  if (branch.opcode = 0x38 ∨ branch.opcode = 0x39) ∧ test.family = .instanceOf then do
    let typeIndex ← test.index 2
    let tested ← test.reg 1
    let copied ← copiedTo tested earlier
    let result := (← test.reg 0).toUInt16
    let registers := registerSet ((tested.toUInt16 :: copied).filter (· ≠ result))
    return if registers.isEmpty then none else some ⟨typeIndex, registers⟩
  else .ok none

/-- Gives each instruction the hint that `hint` computes from it and the two before it. -/
def attach {α : Type} (hint : Option Instr → Instr → Instr → Except Fault (Option α))
    (put : Instr → α → Instr) :
    Option Instr → Instr → List Instr → Array Instr → List Instr × Option Fault
  | _, _, [], done => (done.toList, none)
  | earlier, before, i :: rest, done =>
    match hint earlier before i with
    | .ok (some h) => attach hint put (some before) i rest (done.push (put i h))
    | .ok none => attach hint put (some before) i rest (done.push i)
    | .error f => (done.toList ++ i :: rest, some f)

def attachAll {α : Type} (hint : Option Instr → Instr → Instr → Except Fault (Option α))
    (put : Instr → α → Instr) : List Instr → List Instr × Option Fault
  | [] => ([], none)
  | i :: rest => attach hint put none i rest #[i]

namespace Code

/-- Fills in both kinds of hints, result types first. -/
def link (code : Code) (catalog : Catalog) : Code × Option Fault :=
  let catches := code.catchPositions
  let (typed, fault) :=
    attachAll (fun _ before i => resultHint catalog catches before i)
      (fun i t => { i with resultType := some t }) code.instrs
  match fault with
  | some f => ({ code with instrs := typed }, some f)
  | none =>
    let (instrs, fault) := attachAll castHint (fun i c => { i with casts := some c }) typed
    ({ code with instrs }, fault)

end Code

def linkMethods (catalog : Catalog) (owner : String) :
    List Method → Array Method → List Method × Option Fault
  | [], done => (done.toList, none)
  | m :: rest, done =>
    match m.code with
    | none => linkMethods catalog owner rest (done.push m)
    | some code =>
      let (code, fault) := code.link catalog
      let m := { m with code := some code }
      match fault with
      | none => linkMethods catalog owner rest (done.push m)
      | some f => (done.toList ++ m :: rest, some (f.within (.methodOf m.id.name owner)))

def linkClasses (catalog : Catalog) : List Class → Array Class → List Class × Option Fault
  | [], done => (done.toList, none)
  | c :: rest, done =>
    let (methods, fault) := linkMethods catalog c.name c.methods #[]
    let c := { c with methods }
    match fault with
    | none => linkClasses catalog rest (done.push c)
    | some f => (done.toList ++ c :: rest, some f)

def Catalog.link (catalog : Catalog) : Catalog × Option Fault :=
  let (classes, fault) := linkClasses catalog catalog.classes #[]
  ({ catalog with classes }, fault)

end Register

end Restack
