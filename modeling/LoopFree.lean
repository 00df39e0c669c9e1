import LoopFree.Graph.DepthFirst
import LoopFree.Graph.Greedy
import LoopFree.Removal
import LoopFree.Summary
import LoopFree.Symbolic.Backend
import LoopFree.Symbolic.Builtin
import LoopFree.Proofs.Run
import LoopFree.Proofs.Failure
import LoopFree.Proofs.Consistency
import LoopFree.Proofs.Coefficient
import LoopFree.Proofs.Inequality
import LoopFree.Proofs.Rank
import LoopFree.Proofs.Auxiliary
import LoopFree.Proofs.Extension
import LoopFree.Proofs.Breaking
import LoopFree.Proofs.Entry
import LoopFree.Proofs.Arc
import LoopFree.Proofs.Rewriting
import LoopFree.Proofs.Stages
import LoopFree.Proofs.Widening
import LoopFree.Proofs.Removal
import LoopFree.Proofs.Equivalence
import LoopFree.Proofs.Reuse
import LoopFree.Proofs.EvaluationOrder
import LoopFree.Proofs.ClosedForm
import LoopFree.Proofs.Queue
import LoopFree.Proofs.Scan
import LoopFree.Proofs.Lowlink
import LoopFree.Proofs.Component
import LoopFree.Proofs.Acyclicity
import LoopFree.Proofs.Validity
import LoopFree.Proofs.Refusal
import LoopFree.Proofs.Success
import LoopFree.Proofs.Cut
import LoopFree.Proofs.Tally
import LoopFree.Proofs.Greedy
import LoopFree.Proofs.DepthFirst
import LoopFree.Proofs.FixedPoint
import LoopFree.Proofs.Resolver
import LoopFree.Proofs.RankOrder
import LoopFree.Proofs.Condensation
import LoopFree.Proofs.Peeling
import LoopFree.Proofs.Rejection
import LoopFree.Proofs.Irredundant
import LoopFree.Proofs.Acceptance
import LoopFree.Proofs.Descriptors
import LoopFree.Proofs.Layout
import LoopFree.Proofs.Structure
import LoopFree.Proofs.Bookkeeping
import LoopFree.Proofs.Atomicity
import LoopFree.Proofs.Evaluation
import LoopFree.Proofs.Exactness
import LoopFree.Proofs.Builtin
import LoopFree.Proofs.Compilation
import LoopFree.Proofs.Jacobian
import LoopFree.Proofs.Growth
