import Restack.Stack.Body

set_option autoImplicit false

namespace Restack

/-- Locals with one value. `root` is the one to load from; `later` has those that joined, latest
first, and some of them may have left again. -/
structure CopyGroup where
  root : Local
  later : List Local
deriving Repr, Inhabited

/-- Groups of locals, and the group each local is in. A local without a group is on its own. -/
structure Copies where
  groups : Array CopyGroup
  groupOf : Std.HashMap Local Nat

namespace Copies

def empty : Copies := ⟨#[], ∅⟩

def find (c : Copies) (var : Local) : Nat × Copies :=
  match c.groupOf[var]? with
  | some g => (g, c)
  | none => (c.groups.size, ⟨c.groups.push ⟨var, []⟩, c.groupOf.insert var c.groups.size⟩)

/-- Makes the earliest member still in the group its root, if the root has left. -/
def renew (c : Copies) (g : Nat) : Copies :=
  let isMember (var : Local) : Bool := c.groupOf[var]? == some g
  match c.groups[g]? with
  | some group =>
    if isMember group.root then c
    else
      match group.later.reverse.dropWhile (!isMember ·) with
      | next :: rest => { c with groups := c.groups.setIfInBounds g ⟨next, rest.reverse⟩ }
      | [] => c
  | none => c

def clobber (c : Copies) (var : Local) : Copies :=
  match c.groupOf[var]? with
  | some g => renew { c with groupOf := c.groupOf.erase var } g
  | none => c

/-- The local `target` was given the value of `source`; tells whether it had another value before.
-/
def copy (c : Copies) (target source : Local) : Bool × Copies :=
  let (s, c) := c.find source
  let (t, c) := c.find target
  if s = t then (false, c)
  else
    let ⟨groups, groupOf⟩ := renew { c with groupOf := c.groupOf.insert target s } t
    (true, ⟨groups.modify s fun group => { group with later := target :: group.later }, groupOf⟩)

def root (c : Copies) (var : Local) : Local :=
  match c.groupOf[var]? with
  | some g => ((c.groups[g]?).map CopyGroup.root).getD var
  | none => var

end Copies

namespace PropagateCopies

/-- `known` are the copies at this point, `arriving` those at lines with a single way in, and
`before` the line before. -/
structure State where
  known : Copies
  arriving : Std.HashMap Nat Copies
  before : Option Line
  replacement : Std.HashMap Nat (List Line)
  fresh : Nat

/-- A line that something jumps to: only the lone jump to a line that nothing falls into tells what
holds. -/
def enter (b : Body) (s : State) (l : Line) : State :=
  let alone := (s.before.map fun p => !p.insn.fallsThrough).getD false && b.entryCount l.tag = 1
  { s with known := if alone then s.arriving.getD l.tag .empty else .empty }

/-- A store right after a load is a copy. Without effect, both go away. -/
def store : State → Line → Local → State
  | ⟨known, arriving, before, replacement, fresh⟩, l, var =>
    match before.bind fun p => p.insn.loads?.map (p.tag, ·) with
    | some (loadTag, source) =>
      let (isNew, known) := known.copy var source
      let replacement :=
        if isNew then replacement else (replacement.insert loadTag []).insert l.tag []
      ⟨known, arriving, before, replacement, fresh⟩
    | none => ⟨known.clobber var, arriving, before, replacement, fresh⟩

def load (s : State) (l : Line) (var : Local) : State :=
  let root := s.known.root var
  if root = var then s
  else
    { s with
      replacement := s.replacement.insert l.tag [⟨s.fresh, .load root⟩], fresh := s.fresh + 1 }

/-- A line that may jump hands on what is known to targets with no other way in. -/
def leave (b : Body) (s : State) (l : Line) : State :=
  l.insn.targets.foldl (fun s target =>
    match b.heads[target]? with
    | some tag =>
      if b.entryCount tag = 1 then { s with arriving := s.arriving.insert tag s.known } else s
    | none => s) s

def visit (b : Body) (s : State) (l : Line) : State :=
  let s :=
    if b.isTarget l then enter b s l
    else
      match l.insn with
      | .access a => if a.isStore then store s l a.var else load s l a.var
      | _ => leave b s l
  { s with before := some l }

end PropagateCopies

def Body.propagateCopies (b : Body) : Body :=
  let s := b.lines.foldl (PropagateCopies.visit b) ⟨.empty, ∅, none, ∅, b.fresh⟩
  { b.splice s.replacement with fresh := s.fresh }

end Restack
