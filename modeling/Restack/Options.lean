set_option autoImplicit false

namespace Restack

structure Options where
  /-- Load literals where they are used, not through a local. -/
  inlineConstants : Bool
  /-- Drop a store whose only load follows at once. -/
  pruneStoreLoads : Bool
  /-- Load from the earliest local that holds the same value. -/
  propagateCopies : Bool
  /-- Drop stores to locals that nothing loads. -/
  removeUnused : Bool
  /-- Duplicate on the stack in place of repeated loads. -/
  duplicate : Bool
  /-- Give the most used locals the smallest slots. -/
  sortSlots : Bool
  /-- Fill the constant pool from both ends. -/
  splitPool : Bool
  /-- Compute literals first and move them to the pool as room allows. -/
  delayLiterals : Bool
deriving DecidableEq, Repr, Inhabited

namespace Options

def none : Options := ⟨false, false, false, false, false, false, false, false⟩

/-- Keeps close to what a compiler writes; used unless something else is asked for. -/
def pretty : Options := ⟨true, true, true, true, false, false, false, false⟩

/-- Everything that saves space; used when a class hits a limit of the format. -/
def all : Options := ⟨true, true, true, true, true, true, true, true⟩

def isAll (o : Options) : Bool := o = all

end Options

end Restack
