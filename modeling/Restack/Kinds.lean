set_option autoImplicit false

/-!
The kinds of value a register may be used as. A register holds a bare bit pattern: a literal zero,
for example, is an int, a float and a null reference at once, so what is known about it is a set of
kinds.
-/

namespace Restack

/-- A set of value kinds. `long` and `double` values fill two registers and two local slots. -/
structure Kinds where
  int : Bool
  float : Bool
  ref : Bool
  long : Bool
  double : Bool
deriving DecidableEq, Hashable, Repr, Inhabited

namespace Kinds

def none : Kinds := ⟨false, false, false, false, false⟩
def ofInt : Kinds := ⟨true, false, false, false, false⟩
def ofFloat : Kinds := ⟨false, true, false, false, false⟩
def ofRef : Kinds := ⟨false, false, true, false, false⟩
def ofLong : Kinds := ⟨false, false, false, true, false⟩
def ofDouble : Kinds := ⟨false, false, false, false, true⟩

/-- A literal zero of one register: an int, a float or null. -/
def zero : Kinds := ⟨true, true, true, false, false⟩

/-- Any other literal of one register. -/
def narrow : Kinds := ⟨true, true, false, false, false⟩

/-- A literal of two registers. -/
def wide : Kinds := ⟨false, false, false, true, true⟩

def all : Kinds := ⟨true, true, true, true, true⟩

def inter (a b : Kinds) : Kinds :=
  ⟨a.int && b.int, a.float && b.float, a.ref && b.ref, a.long && b.long, a.double && b.double⟩

def meets (a b : Kinds) : Bool := a.inter b != none

def isWide (a : Kinds) : Bool := a.long || a.double

/-- A number for each set, used where sets have to be ordered. -/
def code (a : Kinds) : Nat :=
  a.int.toNat + 2 * a.float.toNat + 4 * a.ref.toNat + 8 * a.long.toNat + 16 * a.double.toNat

def ofDescriptor (descriptor : String) : Kinds :=
  match descriptor.toList with
  | 'Z' :: _ | 'B' :: _ | 'C' :: _ | 'S' :: _ | 'I' :: _ => ofInt
  | 'F' :: _ => ofFloat
  | 'J' :: _ => ofLong
  | 'D' :: _ => ofDouble
  | 'L' :: _ | '[' :: _ => ofRef
  | _ => none

theorem inter_self (a : Kinds) : a.inter a = a := by
  cases a; simp [inter]

theorem inter_comm (a b : Kinds) : a.inter b = b.inter a := by
  simp [inter, Bool.and_comm]

/-- The place of a typed load, store or return among its five variants: int, long, float, double,
reference. Anything that is not exactly one of the last four goes with int. -/
def variant (a : Kinds) : UInt8 :=
  if a = ofLong then 1
  else if a = ofFloat then 2
  else if a = ofDouble then 3
  else if a = ofRef then 4
  else 0

end Kinds

end Restack
