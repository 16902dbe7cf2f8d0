import Restack.HandOver
import Restack.Stack.Body

set_option autoImplicit false

namespace Restack

namespace LateLiterals

/-- Entries in the order in which they came up, and how often they were asked for. -/
structure Tally where
  order : Array Entry
  counts : Std.HashMap Entry Nat

namespace Tally

def empty : Tally := ⟨#[], ∅⟩

def add (t : Tally) (e : Entry) : Tally :=
  match t.counts[e]? with
  | some n => { t with counts := t.counts.insert e (n + 1) }
  | none => ⟨t.order.push e, t.counts.insert e 1⟩

end Tally

structure Wish where
  entry : Entry
  count : Nat
  length : Nat
deriving Repr

namespace Wish

def saving (w : Wish) : Int := ((w.length : Int) - 3) * w.count

/-- A number that decides between wishes of equal worth. -/
def tie (w : Wish) : UInt64 :=
  match w.entry with
  | .int v => v.toInt64.toUInt64
  | .float bits => bits.toUInt64
  | .long v => v.toUInt64
  | .double bits => bits
  | _ => 0

end Wish

structure Demand where
  narrow : Tally
  wide : Tally
  lengths : Std.HashMap Entry Nat

namespace Demand

/-- A literal asks for an entry if its code is longer than the shortest load could be. -/
def add (d : Demand) (l : Literal) : Demand :=
  let e := Literal.entry l.kinds l.value
  let d := { d with lengths := d.lengths.insert e l.code.length }
  if l.isWide then
    if l.code.length > 3 then { d with wide := d.wide.add e } else d
  else if l.code.length > 2 then { d with narrow := d.narrow.add e }
  else d

def ofLines (d : Demand) (lines : List Line) : Demand :=
  lines.foldl (fun d l =>
    match l.insn with
    | .literal literal => d.add literal
    | _ => d) d

def ofBodies (bodies : List Body) : Demand :=
  bodies.foldl (fun d b => d.ofLines b.lines) ⟨.empty, .empty, ∅⟩

def wishes (d : Demand) (handOver : HandOver) (t : Tally) (p : Pool) : List Wish :=
  (handOver.order t.order.toList).filterMap fun e =>
    if p.contains e then none else some ⟨e, t.counts.getD e 0, d.lengths.getD e 0⟩

end Demand

def bySaving (ws : List Wish) : List Wish :=
  (ws.mergeSort fun a b => a.saving < b.saving || a.saving == b.saving && a.tie ≤ b.tie).reverse

def byCount (ws : List Wish) : List Wish :=
  ws.mergeSort fun a b => a.count > b.count || a.count == b.count && a.tie ≤ b.tie

def savingOfTwo (narrow : List Wish) : Int :=
  (narrow.take 2).foldl (fun saved w => saved + w.saving) 0

/-- A wide entry takes the place of two narrow ones, so it has to save more than the best two of
them. -/
def prefersWide (p : Pool) (narrow : List Wish) (w : Wish) : Bool :=
  p.space ≥ 2 && w.saving > savingOfTwo narrow && w.saving > 0

def Wish.grant (w : Wish) (p : Pool) (low : Bool) (next : Pool → Except Fault Unit × Pool) :
    Except Fault Unit × Pool :=
  match p.insert w.entry low with
  | (.ok _, p) => next p
  | (.error f, p) => (.error f, p)

def grantAll (p : Pool) : List Wish → Except Fault Unit × Pool
  | [] => (.ok (), p)
  | w :: rest => w.grant p true fun p => grantAll p rest

/-- Grants wishes as long as there is room and they save something. Both lists start with the
largest saving. -/
def grant (p : Pool) (narrow wide : List Wish) : Except Fault Unit × Pool :=
  match wide with
  | w :: rest =>
    if prefersWide p narrow w then w.grant p false fun p => grant p narrow rest
    else
      match narrow with
      | n :: others =>
        if p.space ≥ 1 && savingOfTwo (n :: others) > 0 then n.grant p true fun p =>
          grant p others (w :: rest)
        else (.ok (), p)
      | [] => (.ok (), p)
  | [] =>
    match narrow with
    | n :: others =>
      if p.space ≥ 1 && savingOfTwo (n :: others) > 0 then n.grant p true fun p => grant p others []
      else (.ok (), p)
    | [] => (.ok (), p)
termination_by narrow.length + wide.length

/-- Allocates literals of the bodies. If there is room for all of them, the most frequent narrow
ones get the indices that fit in a byte. -/
def allocate (p : Pool) (bodies : List Body) (handOver : HandOver := .asListed) :
    Except Fault Unit × Pool :=
  let d := Demand.ofBodies bodies
  let narrow := d.wishes handOver d.narrow p
  let wide := d.wishes handOver d.wide p
  if p.space ≥ narrow.length + 2 * wide.length then
    let frequent := byCount narrow
    match grantAll p (frequent.take p.lowSpace) with
    | (.ok _, p') => grant p' (bySaving (frequent.drop p.lowSpace)) (bySaving wide)
    | (.error f, p') => (.error f, p')
  else grant p (bySaving narrow) (bySaving wide)

end LateLiterals

end Restack
