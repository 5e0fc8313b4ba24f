import BytecodeFlow.Diagram.Dot
import BytecodeFlow.Diagram.Mermaid
import BytecodeFlow.Graph.Construction
import BytecodeFlow.Interchange.Codec
import BytecodeFlow.Trace.Fixture
import BytecodeFlow.Trace.Replay
import BytecodeFlow.Proofs.Blocks
import BytecodeFlow.Proofs.Facts
import BytecodeFlow.Proofs.FactRegisters
import BytecodeFlow.Proofs.Outcome
import BytecodeFlow.Proofs.Transfer
import BytecodeFlow.Proofs.Successors
import BytecodeFlow.Proofs.Step
import BytecodeFlow.Proofs.Coherent
import BytecodeFlow.Proofs.Pass
import BytecodeFlow.Proofs.Built
import BytecodeFlow.Proofs.ScopeLog
import BytecodeFlow.Proofs.Provenance
import BytecodeFlow.Proofs.Pruning
import BytecodeFlow.Proofs.Finished
import BytecodeFlow.Proofs.Tables
import BytecodeFlow.Proofs.Equations
import BytecodeFlow.Proofs.MeetOverPaths
import BytecodeFlow.Proofs.PathIndependence
import BytecodeFlow.Proofs.OpenScopes
import BytecodeFlow.Proofs.BackEdges
import BytecodeFlow.Proofs.Visibility
import BytecodeFlow.Proofs.EdgeOrigins
import BytecodeFlow.Proofs.Leaving
import BytecodeFlow.Proofs.Reachability
import BytecodeFlow.Proofs.DeferredTransfer
import BytecodeFlow.Proofs.PendingTransfers
import BytecodeFlow.Proofs.Dangling
import BytecodeFlow.Proofs.DeadCode
import BytecodeFlow.Proofs.Nesting
import BytecodeFlow.Proofs.LoopExits
import BytecodeFlow.Proofs.Rendering
import BytecodeFlow.Proofs.Failures
import BytecodeFlow.Proofs.FirstFailure
import BytecodeFlow.Proofs.Correspondence
import BytecodeFlow.Proofs.CorrespondingInstructions
import BytecodeFlow.Proofs.CorrespondingGraphs
import BytecodeFlow.Proofs.Relabelling
import BytecodeFlow.Proofs.AppendOnly
import BytecodeFlow.Proofs.LookupsInRange
import BytecodeFlow.Proofs.SharedStacks
import BytecodeFlow.Proofs.Replaying
import BytecodeFlow.Proofs.Collapsing
import BytecodeFlow.Proofs.Lines
import BytecodeFlow.Proofs.ListingRoundTrip
import BytecodeFlow.Proofs.AcceptedListings
import BytecodeFlow.Proofs.FixtureRoundTrip
import BytecodeFlow.Proofs.Drawings
import BytecodeFlow.Proofs.Exports
import BytecodeFlow.Proofs.JoinedPaths
import BytecodeFlow.Proofs.QuotedLabels
import BytecodeFlow.Proofs.Concatenation
import BytecodeFlow.Proofs.Decorations
import BytecodeFlow.Proofs.HandlerWalks
import BytecodeFlow.Proofs.PassedExits
