import Restack.Kinds

set_option autoImplicit false

namespace Restack

structure Local where
  reg : Nat
  kinds : Kinds
deriving DecidableEq, Hashable, Repr, Inhabited

namespace Local

def isWide (l : Local) : Bool := l.kinds.isWide

def width (l : Local) : Nat := if l.isWide then 2 else 1

end Local

end Restack
