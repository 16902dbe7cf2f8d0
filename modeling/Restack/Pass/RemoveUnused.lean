import Restack.Stack.Body

set_option autoImplicit false

namespace Restack

namespace RemoveUnused

def isPush (l : Line) : Bool := l.insn.loads?.isSome || l.insn.isConstant

structure State where
  before : Option Line
  replacement : Std.HashMap Nat (List Line)
  fresh : Nat

/-- A store after a mere push goes away with it; any other is replaced by a pop. -/
def visit (used : Std.HashSet Local) (s : State) (l : Line) : State :=
  let s :=
    match l.insn.stores? with
    | none => s
    | some var =>
      if used.contains var then s
      else
        match s.before.filter isPush with
        | some p => { s with replacement := (s.replacement.insert p.tag []).insert l.tag [] }
        | none =>
          let pop := Insn.op (if var.isWide then Op.pop2 else Op.pop)
          { s with
            replacement := s.replacement.insert l.tag [⟨s.fresh, pop⟩], fresh := s.fresh + 1 }
  { s with before := some l }

end RemoveUnused

def Body.removeUnused (b : Body) : Body :=
  let used := (b.lines.filterMap (·.insn.loads?)).foldl (fun used var => used.insert var) ∅
  let s := b.lines.foldl (RemoveUnused.visit used) ⟨none, ∅, b.fresh⟩
  { b.splice s.replacement with fresh := s.fresh }

end Restack
