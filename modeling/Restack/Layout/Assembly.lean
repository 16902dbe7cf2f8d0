import Restack.Layout.JumpSizes
import Restack.Layout.LateLiterals
import Restack.Options

set_option autoImplicit false

namespace Restack

/-- A row of the exception table as it is written: the guarded range, the handler and the class
caught. -/
structure TableRow where
  start : UInt16
  stop : UInt16
  handler : UInt16
  classRef : UInt16
deriving DecidableEq, Repr

namespace TableRow

def encode (r : TableRow) : Bytes :=
  Bytes.ofUInt16 r.start ++ Bytes.ofUInt16 r.stop ++ Bytes.ofUInt16 r.handler ++
    Bytes.ofUInt16 r.classRef

end TableRow

namespace Body

def targetPosition (b : Body) (positions : Std.HashMap Nat Nat) (target : UInt32) :
    Except Fault Nat :=
  match b.heads[target]?.bind fun tag => positions[tag]? with
  | some position => .ok position
  | none => fail (.unplacedTarget target)

def checkTargets (b : Body) (positions : Std.HashMap Nat Nat) : Except Fault Unit :=
  b.lines.forM fun l => l.insn.targets.forM fun target => do
    let _ ← b.targetPosition positions target

def assembleInsn (position : Nat) (placeOf : UInt32 → Nat) : Insn → Except Fault Insn
  | .jump j => do
    return .jump (← j.assemble ((placeOf j.target : Int) - position))
  | .switch s => .ok (.switch (s.assemble position fun target => (placeOf target : Int) - position))
  | i => .ok i

def assembleJumps (b : Body) (positions : Std.HashMap Nat Nat) : Body × Option Fault :=
  let placeOf (target : UInt32) : Nat := (b.targetPosition positions target).toOption.getD 0
  let (lines, fault) := b.lines.foldl (fun (lines, fault) l =>
      match fault with
      | some f => (lines.push l, some f)
      | none =>
        match assembleInsn (positions.getD l.tag 0) placeOf l.insn with
        | .ok insn => (lines.push { l with insn }, none)
        | .error f => (lines.push l, some f))
    ((#[] : Array Line), (none : Option Fault))
  ({ b with lines := lines.toList }, fault)

def code (b : Body) : Except Fault Bytes := do
  let pieces ← b.lines.mapM fun l =>
    match l.insn.code?, l.insn with
    | some bytes, _ => .ok bytes
    | none, .access a => fail (.noSlot a.var a.isStore)
    | none, _ => .ok []
  return pieces.flatten

/-- The position of the line before each line; for the first line its own. -/
def positionBefore (b : Body) : Std.HashMap Nat Nat :=
  let positions := (linePositions b.lines).1
  (b.lines.zip (0 :: positions)).foldl (fun m (l, position) => m.insert l.tag position) ∅

/-- A row as it is written. A range starts with the line before its start label, and a label that is
gone counts as the start of the code. -/
def packRow (before positions : Std.HashMap Nat Nat) (r : Row) : TableRow :=
  ⟨(before.getD r.start 0).toUInt16, (positions.getD r.stop 0).toUInt16,
    (positions.getD r.handler 0).toUInt16, r.classRef⟩

/-- What is written of a row: nothing if its range is empty. -/
def tableRow (before positions : Std.HashMap Nat Nat) (name : String) (r : Row) :
    Except Fault (List TableRow) :=
  let start := before.getD r.start 0
  let stop := positions.getD r.stop 0
  if start < stop then
    if start < 65536 ∧ stop < 65536 ∧
      positions.getD r.handler 0 < 65536 then .ok [packRow before positions r]
    else fail (.rangeTooFar name)
  else .ok []

def tableRows (b : Body) (positions : Std.HashMap Nat Nat) : Except Fault (List TableRow) := do
  let found ← b.rows.mapM (tableRow b.positionBefore positions b.name)
  return found.flatten

def codeLimit : Nat := 65535

/-- The code and exception table of a body whose jumps are assembled. Overlong code is let through
only when there is nothing left to try. -/
def finalCode (b : Body) (positions : Std.HashMap Nat Nat) (o : Options) :
    Except Fault (Bytes × List TableRow) := do
  let code ← b.code
  if code.length > codeLimit && !o.isAll then fail (.codeTooLong b.name code.length)
  let rows ← b.tableRows positions
  return (code, rows)

/-- The code and exception table of a body whose jumps are sized, and the body with its jumps
assembled. -/
def emit (b : Body) (o : Options) : Except Fault (Bytes × List TableRow) × Body :=
  let positions := positionByTag b.lines
  match b.checkTargets positions with
  | .error f => (.error f, b)
  | .ok _ =>
    match b.assembleJumps positions with
    | (b, some f) => (.error f, b)
    | (b, none) => (b.finalCode positions o, b)

def maxStack : UInt16 := 300

def encodeAttribute (locals : UInt16) (code : Bytes) (rows : List TableRow) : Bytes :=
  Bytes.ofUInt16 maxStack ++ Bytes.ofUInt16 locals ++ Bytes.ofUInt32 code.length.toUInt32 ++ code ++
    Bytes.ofUInt16 rows.length.toUInt16 ++ rows.flatMap TableRow.encode ++ Bytes.ofUInt16 0

/-- Sizes the jumps and writes the attribute. What was decided before a fault stays decided. -/
def assemble (b : Body) (o : Options) : Except Fault Bytes × Body :=
  let (result, b) := b.sizeJumps.emit o
  (result.map fun (code, rows) => encodeAttribute b.locals code rows, b)

def shortenLiterals (b : Body) (p : Pool) : Body × Pool :=
  let (lines, p) := b.lines.foldl (fun (lines, p) l =>
      match l.insn with
      | .literal literal =>
        let (literal, p) := literal.shorten p
        (lines.push { l with insn := .literal literal }, p)
      | _ => (lines.push l, p))
    ((#[] : Array Line), p)
  ({ b with lines := lines.toList }, p)

end Body

def codeName : String := "Code"

theorem length_encode_codeName (texts : TextForm) : (texts.encode codeName).length = 4 := by
  rw [texts.encode_of_plain codeName (by simp [codeName]), List.length_map]
  rfl

/-- Moves delayed literals to the pool: first those of bodies that may be too long, then others
while there is room. -/
def placeLiterals (p : Pool) (bodies : List Body) (handOver : HandOver := .asListed) :
    List Body × Pool :=
  let long := bodies.filter fun b => b.maxLength ≥ 65536
  let p := if long.isEmpty then p else (LateLiterals.allocate p long handOver).2
  let (bodies, p) := bodies.foldl (fun (done, p) b =>
      let (b, p) := b.shortenLiterals p
      (done.push b, p))
    ((#[] : Array Body), p)
  (bodies.toList, p)

def assembleAll (o : Options) :
    List Body → Array Bytes → Array Body → Except Fault (List Bytes) × List Body
  | [], written, done => (.ok written.toList, done.toList)
  | b :: rest, written, done =>
    match b.assemble o with
    | (.ok content, b) => assembleAll o rest (written.push content) (done.push b)
    | (.error f, b) => (.error (f.within (.method b.name)), done.toList ++ b :: rest)

def finish (p : Pool) (bodies : List Body) (o : Options) (handOver : HandOver := .asListed) :
    Except Fault (List Bytes) × List Body × Pool :=
  match if bodies.isEmpty then (.ok 0, p) else (PoolM.utf8 codeName).run p with
  | (.error f, p) => (.error f, bodies, p)
  | (.ok _, p) =>
    let (bodies, p) := if o.delayLiterals then placeLiterals p bodies handOver else (bodies, p)
    let (result, bodies) := assembleAll o bodies #[] #[]
    (result, bodies, p)

end Restack
