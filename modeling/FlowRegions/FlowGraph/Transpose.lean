import FlowRegions.FlowGraph.Basic

/-! # Reversing edges

The transposed graph has every edge reversed. A vertex's successors in it are its predecessors in
ascending order, one for each edge (`successors_transpose`).

The same is done in one pass over the edges: each edge changes the row of its target in a table
(`scatter`), to which it pushes its origin (`pushOrigins`) or adds one (`countTargets`).
-/

namespace FlowRegions

namespace FlowGraph

/-- The origins of the edges of a list that lead to a vertex. -/
def originsOf (edges : List (VertexId × VertexId)) (w : VertexId) : List VertexId :=
  edges.filterMap fun e => if e.2 = w then some e.1 else none

/-- The origins of the edges to a vertex, ascending, one for each edge. -/
def predecessors (g : FlowGraph) (w : VertexId) : List VertexId := originsOf g.edges w

/-- The number of edges of a list that lead to a vertex. -/
def countInto (edges : List (VertexId × VertexId)) (w : VertexId) : Nat :=
  edges.countP fun e => e.2 = w

/-- The number of edges to a vertex. -/
def inDegree (g : FlowGraph) (w : VertexId) : Nat := countInto g.edges w

theorem mem_predecessors {g : FlowGraph} {v w : VertexId} :
    v ∈ g.predecessors w ↔ w ∈ g.successors v := by
  rw [predecessors, originsOf, List.mem_filterMap, ← mem_edges]
  constructor
  · rintro ⟨⟨x, y⟩, he, h⟩
    split at h
    · next hy =>
      cases h
      exact hy ▸ he
    · cases h
  · intro h
    exact ⟨(v, w), h, if_pos rfl⟩

/-- The number of edges to each vertex, in the order of the vertices. -/
def inDegrees (g : FlowGraph) : List Nat :=
  let edges := g.edges
  g.vertices.map (countInto edges)

/-- The graph with every edge reversed. -/
def transpose (g : FlowGraph) : FlowGraph where
  successorTable :=
    let edges := g.edges
    g.successorTable.mapVertices fun w _ => originsOf edges w
  closed := closed_mapVertices fun _ _ hv =>
    contains_of_successors_ne_nil (List.ne_nil_of_mem (mem_predecessors.1 hv))

/-- Edge by edge, changes the row of the target with knowledge of the origin. -/
def scatter {α : Type} (f : VertexId → α → α) (edges : List (VertexId × VertexId))
    (t : VertexTable α) : VertexTable α :=
  edges.foldl (fun t e => t.modify e.2 (f e.1)) t

/-- Every vertex with the origins that the edges to it have pushed. -/
def pushOrigins (g : FlowGraph) : VertexTable (List VertexId) :=
  scatter (fun v row => row ++ [v]) g.edges (.replicate (.ofNat g.vertexCount) [])

/-- Every vertex with the number of times that an edge to it has added one. -/
def countTargets (g : FlowGraph) : VertexTable Nat :=
  scatter (fun _ count => count + 1) g.edges (.replicate (.ofNat g.vertexCount) 0)

@[simp] theorem vertexCount_transpose (g : FlowGraph) :
    g.transpose.vertexCount = g.vertexCount :=
  VertexTable.size_mapVertices _ g.successorTable

@[simp] theorem contains_transpose (g : FlowGraph) (v : VertexId) :
    g.transpose.contains v = g.contains v :=
  VertexTable.hasRow_congr (vertexCount_transpose g) v

@[simp] theorem vertices_transpose (g : FlowGraph) : g.transpose.vertices = g.vertices :=
  VertexTable.vertices_congr (vertexCount_transpose g)

/-- The successors in the transposed graph are the predecessors. -/
theorem successors_transpose (g : FlowGraph) (w : VertexId) :
    g.transpose.successors w = g.predecessors w := by
  rw [successors, transpose, VertexTable.getD, VertexTable.get?_mapVertices]
  cases hw : g.successorTable.get? w with
  | some row => rfl
  | none =>
    rw [Option.map_none, Option.getD_none, eq_comm, List.eq_nil_iff_forall_not_mem]
    intro v hv
    have hc := contains_of_mem_successors (mem_predecessors.1 hv)
    rw [contains, VertexTable.get?_eq_none_iff.1 hw] at hc
    exact Bool.noConfusion hc

end FlowGraph

end FlowRegions
