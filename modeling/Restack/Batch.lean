import Restack.ClassFile

set_option autoImplicit false

namespace Restack

namespace Batch

/-- Everything a run has produced, by file name. A class that failed still owns its name. -/
structure Ledger where
  classes : Std.TreeMap String Bytes
  warnings : Std.TreeMap String (List String)
  errors : Std.TreeMap String Fault
  processed : Nat
  /-- The fault that stops a strict run. -/
  failure : Option Fault

namespace Ledger

def empty : Ledger := ⟨∅, ∅, ∅, 0, none⟩

def isTaken (l : Ledger) (name : String) : Bool := l.classes.contains name || l.errors.contains name

def warn (l : Ledger) (name : String) : Ledger :=
  { l with
    warnings :=
      l.warnings.insert name (l.warnings.getD name [] ++ ["Duplicate class name " ++ name]) }

/-- Enters what became of a class; no outcome means that it was not tried because its name was
taken. -/
def enter (l : Ledger) (lenient : Bool) (name : String) (outcome : Option (Except Fault Bytes)) :
    Ledger :=
  match outcome with
  | none => l.warn name
  | some result =>
    if l.isTaken name then l.warn name
    else
      match result with
      | .ok bytes => { l with classes := l.classes.insert name bytes }
      | .error f =>
        if lenient then { l with errors := l.errors.insert name f }
        else { l with failure := some (l.failure.getD f) }

def commit (l : Ledger) (lenient : Bool) (name : String) (outcome : Option (Except Fault Bytes)) :
    Ledger :=
  let l := l.enter lenient name outcome
  { l with processed := l.processed + 1 }

end Ledger

structure Progress where
  written : Nat
  warnings : Nat
  errors : Nat
  total : Nat
deriving DecidableEq, Repr

def Ledger.progress (l : Ledger) (total : Nat) : Progress :=
  ⟨l.classes.size, l.warnings.size, l.errors.size, total⟩

def interval : Nat := 1000

inductive Note where
  | done (name : String) (bytes : Bytes)
  | progress (message : Progress)
deriving DecidableEq, Repr

/-- What is announced when an outcome is committed: the class, if it gets its name, and every so
often how far the run is. -/
def Ledger.notes (l : Ledger) (lenient : Bool) (total : Nat) (name : String)
    (outcome : Option (Except Fault Bytes)) : List Note :=
  let finished :=
    match outcome with
    | some (.ok bytes) => if l.isTaken name then [] else [.done name bytes]
    | _ => []
  let later := l.commit lenient name outcome
  finished ++ if later.processed % interval = 0 then [.progress (later.progress total)] else []

/-- The ledger, and what was announced so far: progress and finished classes. -/
structure Run where
  ledger : Ledger
  progress : Array Progress
  done : Array (String × Bytes)

namespace Run

def tell (r : Run) : Note → Run
  | .done name bytes => { r with done := r.done.push (name, bytes) }
  | .progress message => { r with progress := r.progress.push message }

def start (total : Nat) : Run := ⟨.empty, #[⟨0, 0, 0, total⟩], #[]⟩

end Run

structure Job where
  catalog : Register.Catalog
  cls : Register.Class

namespace Job

def fileName (j : Job) : String := j.cls.name ++ ".class"

def write (j : Job) (o : Options) : Except Fault Bytes := ClassFile.write j.catalog o j.cls

end Job

def jobs (catalogs : List Register.Catalog) : List Job :=
  catalogs.flatMap fun catalog => catalog.classes.map fun cls => ⟨catalog, cls⟩

def step (o : Options) (lenient : Bool) (total : Nat) (r : Run) (j : Job) : Run :=
  if r.ledger.failure.isSome then r
  else
    let outcome := if r.ledger.isTaken j.fileName then none else some (j.write o)
    (r.ledger.notes lenient total j.fileName outcome).foldl Run.tell
      { r with ledger := r.ledger.commit lenient j.fileName outcome }

/-- Ends a run. Nothing more is announced of a run that was stopped. -/
def Run.finish (r : Run) (total : Nat) : Run :=
  if r.ledger.failure.isSome then r else r.tell (.progress (r.ledger.progress total))

def run (catalogs : List Register.Catalog) (o : Options) (lenient : Bool) : Run :=
  let all := jobs catalogs
  (all.foldl (step o lenient all.length) (.start all.length)).finish all.length

end Batch

end Restack
