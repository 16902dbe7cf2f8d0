import Restack.Stack.Body

set_option autoImplicit false

namespace Restack

/-- The position of each line, with undecided jumps taken as short, and the length of the code. -/
def linePositions (lines : List Line) : List Nat × Nat :=
  let (positions, total) := lines.foldl
    (fun (positions, here) l => (positions.push here, here + l.insn.lengthAt here))
    ((#[] : Array Nat), 0)
  (positions.toList, total)

def positionByTag (lines : List Line) : Std.HashMap Nat Nat :=
  (lines.zip (linePositions lines).1).foldl (fun m (l, position) => m.insert l.tag position) ∅

def undecided (lines : List Line) : Nat :=
  lines.countP fun l =>
    match l.insn with
    | .jump j => j.size = .undecided
    | _ => false

def widenJumps (heads : Std.HashMap UInt32 Nat) (lines : List Line) : List Line :=
  let positions := positionByTag lines
  lines.map fun l =>
    match l.insn with
    | .jump j =>
      let target := (heads[j.target]?.bind fun tag => positions[tag]?).getD 0
      let here := positions.getD l.tag 0
      { l with insn := .jump (j.widen ((target : Int) - here)) }
    | _ => l

def widenAll (heads : Std.HashMap UInt32 Nat) (lines : List Line) : List Line :=
  let wider := widenJumps heads lines
  if undecided wider < undecided lines then widenAll heads wider else wider
termination_by undecided lines

def settleJumps (lines : List Line) : List Line :=
  lines.map fun l =>
    match l.insn with
    | .jump j => { l with insn := .jump j.settle }
    | _ => l

def Body.sizeJumps (b : Body) : Body := { b with lines := settleJumps (widenAll b.heads b.lines) }

end Restack
