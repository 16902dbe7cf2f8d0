import Restack.Options
import Restack.Pass.Duplicate
import Restack.Pass.InlineConstants
import Restack.Pass.PropagateCopies
import Restack.Pass.PruneStoreLoads
import Restack.Pass.RemoveUnused

set_option autoImplicit false

namespace Restack

namespace Body

def applyIf (wanted : Bool) (pass : Body → Body) (b : Body) : Body := if wanted then pass b else b

/-- Runs the wanted passes. Duplication needs blocks that start with an empty stack, so it comes
before pruning, which may leave more locals unused. -/
def simplify (b : Body) (o : Options) (handOver : HandOver := .asListed) : Body :=
  b |> applyIf o.inlineConstants inlineConstants
    |> applyIf o.propagateCopies propagateCopies
    |> applyIf o.removeUnused removeUnused
    |> applyIf o.duplicate (duplicate · handOver)
    |> applyIf o.pruneStoreLoads pruneStoreLoads
    |> applyIf (o.pruneStoreLoads && o.removeUnused) removeUnused

end Body

end Restack
