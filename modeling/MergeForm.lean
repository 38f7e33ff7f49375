import MergeForm.Analysis.MergeCheck
import MergeForm.Analysis.VarSummary
import MergeForm.Arena.Build
import MergeForm.Arena.Children
import MergeForm.Arena.Text
import MergeForm.Bytes.Program
import MergeForm.Interner
import MergeForm.Passes.Access
import MergeForm.Passes.Descent
import MergeForm.Passes.Generic
import MergeForm.Passes.Outputs
import MergeForm.Passes.Recorder
import MergeForm.Traversal.Stack
import MergeForm.Proofs.Depth
import MergeForm.Proofs.Steps
import MergeForm.Proofs.VisitOrder
import MergeForm.Proofs.Faults
import MergeForm.Proofs.ArenaBytes
import MergeForm.Proofs.MergeMaps
import MergeForm.Proofs.DefUse
import MergeForm.Proofs.VarNames
import MergeForm.Proofs.WellNested
import MergeForm.Proofs.CallGraph
import MergeForm.Proofs.Closed
import MergeForm.Proofs.ScopedBuild
import MergeForm.Proofs.Pruning
import MergeForm.Proofs.Cutoff
import MergeForm.Proofs.Blocks
import MergeForm.Proofs.SyntaxTree
import MergeForm.Proofs.Drafts
import MergeForm.Proofs.BuildRules
import MergeForm.Proofs.TreeBuild
import MergeForm.Proofs.Agreement
import MergeForm.Proofs.Observation
import MergeForm.Proofs.GenericSteps
import MergeForm.Proofs.GenericWalk
import MergeForm.Proofs.Growth
import MergeForm.Proofs.InternedNames
import MergeForm.Proofs.Renaming
import MergeForm.Proofs.Truncation
import MergeForm.Proofs.FaultAgreement
import MergeForm.Proofs.Allocation
import MergeForm.Proofs.LoopBrackets
import MergeForm.Proofs.Sequencing
import MergeForm.Proofs.OutputFlow
import MergeForm.Proofs.ArenaText
