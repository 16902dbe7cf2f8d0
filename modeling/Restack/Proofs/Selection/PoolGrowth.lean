import Restack.Proofs.Layout.Placement
import Restack.Proofs.Pool.Calls

set_option autoImplicit false

namespace Restack

/-- Entries that can be written were added. -/
abbrev Pool.Extends : Pool → Pool → Prop := Pool.Adds fun _ e => e.Writable

theorem Pool.extends_of_addsNumbers {p q : Pool} (grown : Pool.AddsNumbers p q) : p.Extends q := by
  refine grown.mono fun _ e number => ?_
  cases e with
  | utf8 => cases number
  | _ => trivial

namespace PoolM

/-- A computation that, when it succeeds, has done nothing to the pool but add entries that can be
written. -/
def Draws {α : Type} (m : PoolM α) : Prop :=
  ∀ ⦃p a later⦄, m.run p = (.ok a, later) → Pool.Extends p later

theorem draws_of_requests {α : Type} {m : PoolM α} (requests : Requests m) : Draws m := by
  intro p a later done
  have added := requests.adds (fun _ _ writable _ => writable) p
  rwa [done] at added

theorem draws_pooled (kinds : Kinds) (value : Int64) : Draws (Literal.pooled kinds value) := by
  intro p l later done
  apply Pool.extends_of_addsNumbers
  have offered : Pool.AddsNumbers p (Literal.fromPool? kinds (Literal.normalize kinds value) p).2 :=
    .offer p _ fun _ => Literal.entry_isNumber kinds _
  simp only [Literal.pooled, ExceptT.run_mk] at done
  split at done
  · cases done
    exact .refl p
  · split at done
    next found =>
      cases done
      rwa [found] at offered
    next => cases done

theorem draws_classRef (name : String) : Draws (classRef name) :=
  draws_of_requests (requests_classRef name)

theorem draws_stringRef (s : String) : Draws (stringRef s) :=
  draws_of_requests (requests_stringRef s)

theorem draws_fieldRef (f : Register.FieldRef) : Draws (fieldRef f) :=
  draws_of_requests (requests_member .field (fun _ _ => trivial) f.owner f.name f.descriptor)

theorem draws_methodRef (m : Register.MethodRef) : Draws (methodRef m) :=
  draws_of_requests (requests_member .method (fun _ _ => trivial) m.owner m.name m.descriptor)

theorem draws_interfaceMethodRef (m : Register.MethodRef) : Draws (interfaceMethodRef m) :=
  draws_of_requests
    (requests_member .interfaceMethod (fun _ _ => trivial) m.owner m.name m.descriptor)

end PoolM

end Restack
