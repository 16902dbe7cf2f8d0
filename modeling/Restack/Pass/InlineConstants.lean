import Restack.Pass.StraightLine

set_option autoImplicit false

namespace Restack

namespace InlineConstants

/-- By tags: the latest store to each local, the first load after a store, and the stores known to
be loaded at most once. -/
structure State where
  last : Std.HashMap Local Nat
  use : Std.HashMap Nat Nat
  single : Std.HashSet Nat

def State.start : State := ⟨∅, ∅, ∅⟩

def forget (s : State) : State := { s with last := ∅ }

/-- A store that is still the latest when the method ends is not loaded again. -/
def leave (s : State) : State :=
  { s with last := ∅, single := s.last.fold (fun single _ store => single.insert store) s.single }

/-- A store ends the life of the one before it; a second load after a store rules it out. -/
def visit (s : State) (l : Line) : State :=
  match l.insn with
  | .access a =>
    if a.isStore then
      let single :=
        match s.last[a.var]? with
        | some old => s.single.insert old
        | none => s.single
      { s with last := s.last.insert a.var l.tag, single }
    else
      match s.last[a.var]? with
      | some store =>
        if s.use.contains store then { s with last := s.last.erase a.var }
        else { s with use := s.use.insert store l.tag }
      | none => s
  | _ => s

def walker : Walker State := ⟨forget, leave, visit⟩

/-- Takes out the pair of a constant and its store, and puts the constant in the place of the load.
-/
def move (s : State) (replacement : Std.HashMap Nat (List Line)) (value store : Line) :
    Std.HashMap Nat (List Line) :=
  if s.single.contains store.tag && value.insn.isConstant then
    let replacement := (replacement.insert value.tag []).insert store.tag []
    match s.use[store.tag]? with
    | some load => replacement.insert load [value]
    | none => replacement
  else replacement

end InlineConstants

def Body.inlineConstants (b : Body) : Body :=
  let s := InlineConstants.walker.walk b .start
  b.splice ((b.lines.zip b.lines.tail).foldl
    (fun replacement (value, store) => InlineConstants.move s replacement value store) ∅)

end Restack
