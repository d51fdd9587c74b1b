import Flowgraph.Graph.Audit
import Flowgraph.Graph.Drawing
import Flowgraph.Pipeline
import Flowgraph.Proofs.Dataflow.Greatest
import Flowgraph.Proofs.DeadCode.Rounds
import Flowgraph.Proofs.Unroll.Behaviour
import Flowgraph.Proofs.Dominance
import Flowgraph.Proofs.PathLiveness
import Flowgraph.Proofs.Unroll.Trips
import Flowgraph.Proofs.Unroll.Sequence
import Flowgraph.Proofs.Unroll.Eligibility
import Flowgraph.Proofs.Unroll.Completion
import Flowgraph.Proofs.Unroll.Wrapping
import Flowgraph.Proofs.Passes
import Flowgraph.Proofs.Verified
import Flowgraph.Proofs.Pipeline.Effects
import Flowgraph.Proofs.Pipeline.Independence
import Flowgraph.Proofs.BitSetMembers
import Flowgraph.Proofs.LoopForests
import Flowgraph.Proofs.Unroll.Replacement
import Flowgraph.Proofs.Rewiring
import Flowgraph.Proofs.Refusals
import Flowgraph.Proofs.Dataflow.Reached
import Flowgraph.Proofs.Sweeping
import Flowgraph.Proofs.DeadCode.Sweeping
import Flowgraph.Proofs.DominatorTree
import Flowgraph.Proofs.Dataflow.Contract
import Flowgraph.Proofs.Pipeline.Reports
import Flowgraph.Proofs.Dataflow.Acyclic
import Flowgraph.Proofs.Search.Reserving
import Flowgraph.Proofs.Drawings
import Flowgraph.Proofs.Renaming.Optimizations
import Flowgraph.Proofs.LiveAgreement
