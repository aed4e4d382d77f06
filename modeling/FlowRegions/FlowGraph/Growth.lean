import FlowRegions.FlowGraph.Basic

/-! # Adding edges to a graph at hand

A graph can also be kept at hand and grow by calls that may fail. A call finds the graph as the
calls before have left it, whether they have failed or not. A call that adds an edge checks its
origin, then its target, and changes the graph behind both checks, so one that fails leaves the
graph as it was (`run_pushEdge`).
-/

namespace FlowRegions

namespace FlowGraph

/-- Fails for a vertex that the graph at hand does not have. -/
def requireVertex (v : VertexId) : EStateM GraphError FlowGraph Unit := do
  let g ← get
  unless g.contains v do throw (.vertexOutOfRange v g.vertexCount)

/-- Adds an edge to the graph at hand. -/
def pushEdge (v w : VertexId) : EStateM GraphError FlowGraph Unit := do
  requireVertex v
  requireVertex w
  modify fun g => if hw : g.contains w = true then g.appendEdge v w hw else g

/-- The graph that calls leave behind which add edges one after the other, and of each call what has
been wrong with it, if anything. -/
def pushEdges (g : FlowGraph) : List (VertexId × VertexId) → FlowGraph × List (Option GraphError)
  | [] => (g, [])
  | (v, w) :: rest =>
    let (next, refusal) := match (pushEdge v w).run g with
      | .ok _ g' => (g', none)
      | .error x g' => (g', some x)
    let (last, refusals) := next.pushEdges rest
    (last, refusal :: refusals)

theorem run_requireVertex (g : FlowGraph) (v : VertexId) :
    (requireVertex v).run g =
      if g.contains v then .ok () g else .error (.vertexOutOfRange v g.vertexCount) g := by
  by_cases hv : g.contains v = true <;> simp [requireVertex, EStateM.run_bind, hv]

/-- A call adds its edge to the graph at hand, or fails and leaves the graph as it was. -/
theorem run_pushEdge (g : FlowGraph) (v w : VertexId) :
    (pushEdge v w).run g =
      match g.addEdge v w with
      | .ok g' => .ok () g'
      | .error x => .error x g := by
  unfold pushEdge addEdge
  simp only [EStateM.run_bind, run_requireVertex]
  by_cases hv : g.contains v = true
  · by_cases hw : g.contains w = true
    · simp [hv, hw]
    · simp [hv, hw]
  · simp [hv]

theorem pushEdges_cons_of_ok {g g' : FlowGraph} {v w : VertexId} (h : g.addEdge v w = .ok g')
    (rest : List (VertexId × VertexId)) :
    g.pushEdges ((v, w) :: rest) = ((g'.pushEdges rest).1, none :: (g'.pushEdges rest).2) := by
  rw [pushEdges, run_pushEdge, h]

/-- A call that fails is passed over. -/
theorem pushEdges_cons_of_error {g : FlowGraph} {v w : VertexId} {x : GraphError}
    (h : g.addEdge v w = .error x) (rest : List (VertexId × VertexId)) :
    g.pushEdges ((v, w) :: rest) = ((g.pushEdges rest).1, some x :: (g.pushEdges rest).2) := by
  rw [pushEdges, run_pushEdge, h]

end FlowGraph

end FlowRegions
