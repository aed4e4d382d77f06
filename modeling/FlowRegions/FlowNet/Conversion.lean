import FlowRegions.Boundary.Mask
import FlowRegions.FlowGraph.Endpoints
import FlowRegions.FlowNet.Basic
import FlowRegions.Log.Logged

/-! # From flow nets to flow graphs

The nodes of a net become the vertices of a graph, places first, and its arcs the edges. Only
transitions may bound hammocks, so the mask lists exactly their vertices.
-/

namespace FlowRegions

open Log

/-- A net as a graph with its source, its sink and the vertices of its transitions. -/
structure NetGraph where
  net : FlowNet
  graph : FlowGraph
  source : VertexId
  sink : VertexId
  mask : BoundaryMask
deriving DecidableEq

namespace NetGraph

/-- The name of the node of a vertex. -/
def label? (g : NetGraph) (v : VertexId) : Option String := g.net.label? v

/-- The vertex of a node. -/
def vertex? (g : NetGraph) (name : String) : Option VertexId := g.net.vertex? name

/-- The kind of the node of a vertex. -/
def kind? (g : NetGraph) (v : VertexId) : Option NodeKind := g.net.kind? v

end NetGraph

namespace FlowNet

/-- The vertex of a node that an arc mentions. -/
def resolve (n : FlowNet) (name : String) : Except NetError VertexId :=
  match n.vertex? name with
  | some v => .ok v
  | none => .error (.unknownNode name)

/-- The edge of an arc. Its origin is resolved before its target, and the kinds are compared
last. -/
def edge (n : FlowNet) (arc : FlowArc) : Except NetError (VertexId × VertexId) := do
  let v ← n.resolve arc.origin
  let w ← n.resolve arc.target
  if n.kind? v = n.kind? w then .error (.notBipartite arc.origin arc.target) else .ok (v, w)

/-- Adds the edges of arcs in order, up to the first arc that is not proper. -/
def addArcs (n : FlowNet) (g : FlowGraph) (arcs : List FlowArc) : Except NetError FlowGraph :=
  arcs.foldlM (fun g arc => do
    let e ← n.edge arc
    (g.addEdge e.1 e.2).mapError .graph) g

/-- The vertices of the transitions. -/
def transitionMask (n : FlowNet) (g : FlowGraph) : BoundaryMask :=
  .ofList (g.vertices.filter fun v => n.kind? v = some .transition)

/-- The graph of a net whose names are declared once each, with its source and its sink. -/
def convert (n : FlowNet) : Except NetError NetGraph := do
  match firstRepeat? [] n.names with
  | some name => .error (.duplicateNode name)
  | none => do
    let g ← n.addArcs (.new (.ofNat n.names.length)) n.arcs
    let (source, sink) ← g.endpoints.mapError .graph
    return ⟨n, g, source, sink, n.transitionMask g⟩

/-- Converts a net into a graph and reports it. -/
def toGraph (n : FlowNet) : Attempt NetError NetGraph := do
  let g ← Attempt.ofExcept n.convert
  Logged.report (.netConverted n.places.length n.transitions.length n.arcs.length g.source g.sink)
  return g

end FlowNet

end FlowRegions
