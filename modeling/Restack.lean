import Restack.Listing
import Restack.Proofs.Batch.Interleaving
import Restack.Proofs.ClassFile.Parsing
import Restack.Proofs.Descriptor.RoundTrip
import Restack.Proofs.Execution.ConstantInlining
import Restack.Proofs.Execution.CopyPropagation
import Restack.Proofs.Execution.Duplication
import Restack.Proofs.Execution.SlotAssignment
import Restack.Proofs.Execution.StorePruning
import Restack.Proofs.Execution.UnusedRemoval
import Restack.Proofs.Layout.LateAllocation
import Restack.Proofs.Layout.LeastSizes
import Restack.Proofs.Layout.UpperBound
import Restack.Proofs.Literal.Exactness
import Restack.Proofs.Register.CastHints
import Restack.Proofs.Register.LeastStates
import Restack.Proofs.Selection.ArrayFilling
import Restack.Proofs.Selection.ControlFlow
import Restack.Proofs.Selection.CompiledRuns
import Restack.Proofs.Selection.Dispatch
import Restack.Proofs.Selection.StackDiscipline
import Restack.Proofs.Trie.Enumeration
import Restack.Proofs.Trie.TotalMap
