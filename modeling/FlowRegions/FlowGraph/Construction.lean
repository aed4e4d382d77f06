import FlowRegions.FlowGraph.Basic

/-! # Building flow graphs

A graph is built from a declared number of vertices with a list of edges, or from one list of
successors per vertex. Edges are added one after the other up to the first that leaves the graph;
successor lists become the rows of the graph once none of them mentions a vertex outside.
-/

namespace FlowRegions

/-- A graph as it is exchanged: the number of its vertices and its edges. -/
structure GraphDocument where
  vertices : UInt64
  edges : List (VertexId × VertexId)
deriving DecidableEq, Repr

namespace FlowGraph

/-- The graph that a document describes. The number of vertices is checked before the edges. -/
def ofDocument (doc : GraphDocument) : Except GraphError FlowGraph :=
  if doc.vertices.toNat ≤ maxVertexCount then
    (new (.ofNat doc.vertices.toNat)).addEdges doc.edges
  else .error (.tooManyVertices doc.vertices.toNat)

/-- The document that describes a graph. -/
def document (g : FlowGraph) : GraphDocument where
  vertices := .ofNat g.vertexCount
  edges := g.edges

/-- The first vertex in some rows that is not below their number. -/
def firstStray? (rows : List (List VertexId)) : Option VertexId :=
  rows.flatten.find? fun w => !decide (w.index < rows.length)

theorem index_lt_of_firstStray? {rows : List (List VertexId)} (h : firstStray? rows = none)
    {row : List VertexId} (hrow : row ∈ rows) {w : VertexId} (hw : w ∈ row) :
    w.index < rows.length := by
  have := List.find?_eq_none.1 h w (List.mem_flatten.2 ⟨row, hrow, hw⟩)
  simpa using this

/-- The graph with one list of successors for each vertex. -/
def ofAdjacency (rows : List (List VertexId)) : Except GraphError FlowGraph :=
  if hcount : rows.length ≤ maxVertexCount then
    match hstray : firstStray? rows with
    | some w => .error (.vertexOutOfRange w rows.length)
    | none => .ok
      { successorTable := ⟨rows.toArray, hcount⟩
        closed := by
          intro v w hw
          rw [VertexTable.getD, VertexTable.get?, List.getElem?_toArray] at hw
          cases hv : rows[v.index]? with
          | none => simp [hv] at hw
          | some row =>
            rw [hv, Option.getD_some] at hw
            exact VertexTable.hasRow_iff.2
              (index_lt_of_firstStray? hstray (List.mem_of_getElem? hv) hw) }
  else .error (.tooManyVertices rows.length)

end FlowGraph

end FlowRegions
