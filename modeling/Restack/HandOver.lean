set_option autoImplicit false

namespace Restack

/-- The order in which a table hands over what it holds. A table has no order of its own, so it may
be any. -/
structure HandOver where
  order : {α : Type} → List α → List α
  perm : ∀ {α : Type} (l : List α), (order l).Perm l

def HandOver.asListed : HandOver := ⟨id, fun l => .refl l⟩

end Restack
