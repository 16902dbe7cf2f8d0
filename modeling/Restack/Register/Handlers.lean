import Restack.Register.Catalog
import Restack.Register.RangeMap
import Std.Data.TreeMap

set_option autoImplicit false

namespace Restack

namespace Register

namespace Guard

def span (g : Guard) : Span := ⟨g.start, g.stop⟩

end Guard

/-- The places in the list of the guards that positions belong to. -/
def guardRanges (ranges : RangeMap Nat) (guards : List Guard) : ranges.Map :=
  guards.zipIdx.foldl (fun m (g, k) => if g.span.isEmpty then m else ranges.insert m g.span k)
    ranges.empty

/-- The guards that own a position of `span`, in the order in which they are listed. -/
def owners (ranges : RangeMap Nat) (span : Span) (guards : List Guard) : List Guard :=
  let found := ranges.overlapping (guardRanges ranges guards) span
  (guards.zipIdx.filter fun (_, k) => k ∈ found).map Prod.fst

/-- Keeps the first handler of each class, up to the first one that catches everything. -/
def effective (seen : List String) : List Handler → List Handler
  | [] => []
  | h :: rest =>
    let kept := if h.className ∈ seen then [] else [h]
    if h.className = throwable then kept else kept ++ effective (h.className :: seen) rest

namespace Instr

def span (i : Instr) : Span := ⟨i.position, i.next⟩

def handlers (guards : List Guard) (i : Instr) (ranges : RangeMap Nat := .recent Nat) :
    List Handler :=
  if i.span.isEmpty || !i.canThrow then []
  else effective [] ((owners ranges i.span guards).flatMap Guard.handlers)

end Instr

namespace Code

/-- Handlers by position. Of several instructions at one position the last with any handler counts.
-/
def handlers (code : Code) (ranges : RangeMap Nat := .recent Nat) :
    Std.TreeMap UInt32 (List Handler) :=
  code.instrs.foldl (fun found i =>
    match i.handlers code.guards ranges with
    | [] => found
    | hs => found.insert i.position hs) ∅

end Code

end Register

end Restack
