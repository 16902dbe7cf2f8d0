set_option autoImplicit false

namespace Restack

/-- `null` is a register that never holds anything but null, and `array d` one that holds null or an
array with descriptor `d`. -/
inductive ArrayView where
  | unknown
  | null
  | array (descriptor : String)
deriving DecidableEq, Hashable, Repr, Inhabited

namespace ArrayView

def ofDescriptor (descriptor : String) : ArrayView :=
  if descriptor.toList.head? = some '[' ∧
    descriptor.toList.getLast? ≠ some ';' then .array descriptor
  else .unknown

def descriptor? : ArrayView → Option String
  | .array d => some d
  | _ => none

/-- The join where two paths meet: null gives way to anything, and different arrays are unknown. -/
def merge : ArrayView → ArrayView → ArrayView
  | .null, b => b
  | a, .null => a
  | a, b => if a = b then a else .unknown

/-- What a cast adds: unknown gives way to anything, and only null fits two different arrays. -/
def narrow : ArrayView → ArrayView → ArrayView
  | .unknown, b => b
  | a, .unknown => a
  | a, b => if a = b then a else .null

theorem merge_self (a : ArrayView) : a.merge a = a := by
  cases a <;> simp [merge]

theorem merge_comm (a b : ArrayView) : a.merge b = b.merge a := by
  cases a <;> cases b <;> simp [merge, eq_comm]
  split <;> simp_all

def text : ArrayView → String
  | .unknown => "INVALID"
  | .null => "NULL"
  | .array d => d

end ArrayView

end Restack
