import FlowRegions.FlowGraph.Transpose

/-! # The source and the sink of a flow graph

A source has successors and no predecessors, a sink has predecessors and no successors; an
isolated vertex is neither. Sinks of a graph are sources of the transposed graph. The vertices are
scanned in ascending order, and the scan stops at the first vertex that is a second source or a
second sink.
-/

namespace FlowRegions

namespace FlowGraph

/-- Whether edges lead to a vertex and none on from it, given the graph and its transpose. -/
def endsAt (g back : FlowGraph) (v : VertexId) : Bool :=
  (g.successors v).isEmpty && !(back.successors v).isEmpty

/-- Whether a vertex has successors and no predecessors. -/
def isSource (g : FlowGraph) (v : VertexId) : Bool := endsAt g.transpose g v

/-- Whether a vertex has predecessors and no successors. -/
def isSink (g : FlowGraph) (v : VertexId) : Bool := endsAt g g.transpose v

theorem endsAt_iff {g back : FlowGraph} {v : VertexId} :
    endsAt g back v = true ↔ g.successors v = [] ∧ back.successors v ≠ [] := by
  simp [endsAt]

theorem isSource_iff {g : FlowGraph} {v : VertexId} :
    g.isSource v = true ↔ g.predecessors v = [] ∧ g.successors v ≠ [] := by
  rw [isSource, endsAt_iff, successors_transpose]

theorem isSink_iff {g : FlowGraph} {v : VertexId} :
    g.isSink v = true ↔ g.successors v = [] ∧ g.predecessors v ≠ [] := by
  rw [isSink, endsAt_iff, successors_transpose]

/-- The source and the sink that a scan has found so far. -/
structure Terminals where
  source : Option VertexId
  sink : Option VertexId
deriving DecidableEq, Repr

/-- Keeps the first vertex of a kind and reports a second one. -/
def claimUnique (clash : VertexId → VertexId → GraphError) (found : Option VertexId)
    (v : VertexId) : Except GraphError (Option VertexId) :=
  match found with
  | none => .ok (some v)
  | some first => .error (clash first v)

/-- Takes one more vertex into account, first as a source and then as a sink. -/
def Terminals.note (g back : FlowGraph) (t : Terminals) (v : VertexId) :
    Except GraphError Terminals := do
  let source ← if endsAt back g v then claimUnique .multipleStarts t.source v else .ok t.source
  let sink ← if endsAt g back v then claimUnique .multipleEnds t.sink v else .ok t.sink
  return ⟨source, sink⟩

/-- The source and the sink found among all vertices in ascending order. -/
def scanTerminals (g : FlowGraph) : Except GraphError Terminals :=
  let back := g.transpose
  g.vertices.foldlM (Terminals.note g back) ⟨none, none⟩

/-- The unique source and the unique sink. -/
def endpoints (g : FlowGraph) : Except GraphError (VertexId × VertexId) := do
  let t ← g.scanTerminals
  match t.source, t.sink with
  | none, _ => .error .noStart
  | some _, none => .error .noEnd
  | some s, some e => if s = e then .error (.startIsEnd s) else .ok (s, e)

end FlowGraph

end FlowRegions
