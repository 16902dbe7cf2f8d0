import Restack.Pass.StraightLine

set_option autoImplicit false

namespace Restack

namespace PruneStoreLoads

/-- By tags: `pairs` has a store and the load right after it for each local not loaded since, `last`
a store that only labels follow so far. -/
structure State where
  pairs : Std.HashMap Local (Nat × Nat)
  last : Option (Nat × Local)
  dropped : Std.HashSet Nat

def State.start : State := ⟨∅, none, ∅⟩

def forget (s : State) : State := { s with pairs := ∅, last := none }

def drop (dropped : Std.HashSet Nat) (pair : Nat × Nat) : Std.HashSet Nat :=
  (dropped.insert pair.1).insert pair.2

/-- Pairs that are still open when the method ends are dropped. -/
def leave (s : State) : State :=
  { pairs := ∅, last := none, dropped := s.pairs.fold (fun dropped _ pair =>
    drop dropped pair) s.dropped }

def visit (s : State) (l : Line) : State :=
  match l.insn with
  | .label _ => s
  | .access a =>
    let pairs := s.pairs.erase a.var
    if a.isStore then
      let dropped :=
        match s.pairs[a.var]? with
        | some pair => drop s.dropped pair
        | none => s.dropped
      { pairs, last := some (l.tag, a.var), dropped }
    else
      match s.last with
      | some (store, var) =>
        { s with
          pairs := if var = a.var then pairs.insert var (store, l.tag) else pairs, last := none }
      | none => { s with pairs }
  | _ => { s with last := none }

def walker : Walker State := ⟨forget, leave, visit⟩

end PruneStoreLoads

def Body.pruneStoreLoads (b : Body) : Body :=
  let s := PruneStoreLoads.walker.walk b .start
  { b with lines := b.lines.filter fun l => !s.dropped.contains l.tag }

end Restack
