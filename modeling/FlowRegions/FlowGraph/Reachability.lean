import FlowRegions.FlowGraph.Transpose
import FlowRegions.Search

/-! # Reachability in flow graphs

Forward reachability is a search along the edges, backward reachability the same search in the
transposed graph. A vertex of the graph reaches itself; one outside reaches nothing.
-/

namespace FlowRegions

namespace FlowGraph

/-- The successors of a vertex as a set. -/
def successorSet (g : FlowGraph) (v : VertexId) : VertexSet := .ofList (g.successors v)

@[simp] theorem mem_successorSet {g : FlowGraph} {v w : VertexId} :
    w ∈ g.successorSet v ↔ w ∈ g.successors v := IdSet.mem_ofList

/-- The vertices that can be reached from a vertex, itself included. -/
def reachableFrom (g : FlowGraph) (v : VertexId) : VertexSet :=
  if g.contains v then Search.reachable g.successorSet v else ∅

/-- The vertices from which a vertex can be reached, itself included. -/
def canReach (g : FlowGraph) (v : VertexId) : VertexSet := g.transpose.reachableFrom v

/-- A vertex of the graph reaches what chains of edges lead to. -/
theorem mem_reachableFrom {g : FlowGraph} {v w : VertexId} :
    w ∈ g.reachableFrom v ↔ g.contains v = true ∧ Search.Chain g.successorSet v w := by
  rw [reachableFrom]
  split
  · next hv => simp [hv]
  · next hv => simp [hv]

end FlowGraph

end FlowRegions
