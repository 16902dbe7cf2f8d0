import Restack.Stack.Instruction
import Std.Data.HashSet

set_option autoImplicit false

namespace Restack

structure Line where
  tag : Nat
  insn : Insn
deriving DecidableEq, Repr, Inhabited

/-- A row of the exception table, by tags. `classRef` is a pool index, or 0 to catch everything. -/
structure Row where
  start : Nat
  stop : Nat
  handler : Nat
  classRef : UInt16
deriving DecidableEq, Repr, Inhabited

structure Body where
  name : String
  lines : List Line
  /-- No line has this tag or a larger one. -/
  fresh : Nat
  /-- The line that heads the block of a source position. -/
  heads : Std.HashMap UInt32 Nat
  /-- How many jumps and rows lead to a line, for lines that any lead to. -/
  entries : Std.HashMap Nat Nat
  starts : Std.HashSet Nat
  stops : Std.HashSet Nat
  rows : List Row
  /-- The local that each incoming argument slot holds; none for the second slot of a wide argument.
  -/
  args : List (Option Local)
  locals : UInt16

namespace Body

def ofInsns (name : String) (insns : List Insn) : Body where
  name := name
  lines := insns.zipIdx.map fun (insn, tag) => ⟨tag, insn⟩
  fresh := insns.length
  heads := ∅
  entries := ∅
  starts := ∅
  stops := ∅
  rows := []
  args := []
  locals := 0

def insns (b : Body) : List Insn := b.lines.map Line.insn

def isTarget (b : Body) (l : Line) : Bool := b.entries.contains l.tag

def entryCount (b : Body) (tag : Nat) : Nat := b.entries.getD tag 0

def addEntry (b : Body) (tag : Nat) : Body :=
  { b with entries := b.entries.insert tag (b.entryCount tag + 1) }

def splice (b : Body) (replacement : Std.HashMap Nat (List Line)) : Body :=
  { b with lines := b.lines.flatMap fun l => replacement.getD l.tag [l] }

def maxLength (b : Body) : Nat := b.lines.foldl (fun n l => n + l.insn.maxLength) 0

end Body

end Restack
