import FlowRegions.Document.Analysis
import FlowRegions.Document.Graph
import FlowRegions.Document.Net
import FlowRegions.Log.Setup
import FlowRegions.Hammock.Measurement
import FlowRegions.Proofs.NecessaryPassage
import FlowRegions.Proofs.Completeness
import FlowRegions.Proofs.ContainmentOrder
import FlowRegions.Proofs.Recomposition
import FlowRegions.Proofs.Numbering
import FlowRegions.Proofs.Laminarity
import FlowRegions.Proofs.SingleEntry
import FlowRegions.Proofs.Outcome
import FlowRegions.Proofs.Preorder
import FlowRegions.Proofs.Configuration
import FlowRegions.Proofs.SpanningRoot
import FlowRegions.Proofs.Waypoints
import FlowRegions.Proofs.Masking
import FlowRegions.Proofs.Reversal
import FlowRegions.Proofs.Compositionality
import FlowRegions.Proofs.Loops
import FlowRegions.Proofs.Renaming
import FlowRegions.Proofs.NetConversion
import FlowRegions.Proofs.NetDecomposition
import FlowRegions.Proofs.RootedTree
import FlowRegions.Proofs.LogSetup
import FlowRegions.Proofs.AttachOrder
import FlowRegions.Proofs.Transcript
import FlowRegions.Proofs.Upstream
import FlowRegions.Proofs.Rounds
import FlowRegions.Proofs.RecursiveNesting
import FlowRegions.Proofs.Descendants
import FlowRegions.Proofs.DocumentRoundTrip
import FlowRegions.Proofs.Irredundance
import FlowRegions.Proofs.Measurement
import FlowRegions.Proofs.Suspension
import FlowRegions.Proofs.Traversals
import FlowRegions.Proofs.SiblingChains
import FlowRegions.Proofs.SourcesAndSinks
import FlowRegions.Proofs.EdgesAndRows
import FlowRegions.Proofs.DetourSearch
import FlowRegions.Proofs.Reachability
