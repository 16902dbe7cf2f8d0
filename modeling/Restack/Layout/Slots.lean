import Restack.Options
import Restack.Stack.Body

set_option autoImplicit false

namespace Restack

namespace Body

/-- Counts past the last slot number are cut off. -/
def slotCount (n : Nat) : UInt16 := if n < 65536 then n.toUInt16 else 65535

def argSlots (args : List (Option Local)) : Std.HashMap Local UInt16 :=
  args.zipIdx.foldl (fun slots (var, n) =>
    match var with
    | some var => slots.insert var n.toUInt16
    | none => slots) ∅

/-- Slots handed out in the order in which locals come up, and the first one still free. -/
def slotsInOrder (args : List (Option Local)) (lines : List Line) :
    Std.HashMap Local UInt16 × Nat :=
  lines.foldl (fun (slots, next) l =>
    match l.insn with
    | .access a =>
      if slots.contains a.var then (slots, next)
      else (slots.insert a.var next.toUInt16, next + a.var.width)
    | _ => (slots, next)) (argSlots args, args.length)

def assignInOrder (b : Body) : Body :=
  let (slots, next) := slotsInOrder b.args b.lines
  { b with
    lines := b.lines.map fun l =>
      match l.insn with
      | .access a => { l with insn := .access { a with slot := slots[a.var]? } }
      | _ => l
    locals := slotCount next }

def useCounts (lines : List Line) : Std.HashMap Local Nat :=
  lines.foldl (fun counts l =>
    match l.insn with
    | .access a => counts.insert a.var (counts.getD a.var 0 + 1)
    | _ => counts) ∅

/-- The most used local first; of equally used ones the lower register, then the smaller code of
kinds. -/
def byUse (counts : Std.HashMap Local Nat) : List Local :=
  let before (x y : Local × Nat) : Bool :=
    x.2 > y.2 || x.2 == y.2 &&
      (x.1.reg < y.1.reg || x.1.reg == y.1.reg && x.1.kinds.code ≤ y.1.kinds.code)
  (counts.toList.mergeSort before).map (·.1)

/-- A local for each slot: the arguments, then the others as often as they are used. The second slot
of a wide local holds none. -/
def slotTable (args : List (Option Local)) (counts : Std.HashMap Local Nat) :
    Array (Option Local) :=
  let others := (byUse counts).filter fun var => !args.contains (some var)
  (args ++ others.flatMap fun var => if var.isWide then [some var, none] else [some var]).toArray

/-- An argument among the first four slots that gives its place to the most used other local, if
that is used more often by more than three. Both have to be narrow. -/
def exchange? (args : List (Option Local)) (counts : Std.HashMap Local Nat)
    (table : Array (Option Local)) :
    Option (Nat × Nat × Local) :=
  let place := max 4 args.length
  match (table[place]?).join with
  | some candidate =>
    let uses := counts.getD candidate 0
    if candidate.isWide || uses < 3 then none
    else
      (List.range (min 4 args.length)).findSome? fun n =>
        match (table[n]?).join, (table[n + 1]?).join with
        | some arg, some _ => if uses > counts.getD arg 0 + 3 then some (n, place, arg) else none
        | _, _ => none
  | none => none

def assignFrom (table : Array (Option Local)) (lines : List Line) : List Line :=
  let slots := argSlots table.toList
  lines.map fun l =>
    match l.insn with
    | .access a =>
      if a.slot.isSome then l else { l with insn := .access { a with slot := slots[a.var]? } }
    | _ => l

/-- Gives the most used locals the smallest slots. An argument that lost its place is copied to its
new one on entry. -/
def assignByUse (b : Body) : Body :=
  let counts := useCounts b.lines
  let table := slotTable b.args counts
  match exchange? b.args counts table with
  | some (n, place, arg) =>
    let table := table.swapIfInBounds n place
    let copy := [
      ⟨b.fresh, .access { var := arg, isStore := false, slot := some n.toUInt16 }⟩,
      ⟨b.fresh + 1, .store arg⟩]
    { b with
      lines := assignFrom table (copy ++ b.lines)
      fresh := b.fresh + 2
      locals := slotCount table.size }
  | none => { b with lines := assignFrom table b.lines, locals := slotCount table.size }

def assignSlots (b : Body) (o : Options) : Body :=
  if o.sortSlots then b.assignByUse else b.assignInOrder

end Body

end Restack
