import FlowRegions.VertexTable

/-! # Flow graphs

A flow graph has the vertices below some count and, for each of them, its successors in the order
in which the edges were added. Parallel edges are kept and self-loops are allowed. Every successor
is a vertex of the graph: the type carries that fact, and adding an edge checks it
(`addEdge_eq_ok_iff`).
-/

namespace FlowRegions

/-- Why a graph cannot be built, or has no unique source and sink. -/
inductive GraphError where
  /-- An edge mentions a vertex that the graph does not have. -/
  | vertexOutOfRange (vertex : VertexId) (vertexCount : Nat)
  /-- No vertex has successors but no predecessors. -/
  | noStart
  /-- Two vertices have successors but no predecessors. -/
  | multipleStarts (first second : VertexId)
  /-- No vertex has predecessors but no successors. -/
  | noEnd
  /-- Two vertices have predecessors but no successors. -/
  | multipleEnds (first second : VertexId)
  /-- More vertices are declared than there are numbers for. -/
  | tooManyVertices (requested : Nat)
  /-- The source and the sink are one vertex. -/
  | startIsEnd (vertex : VertexId)
  /-- A text is not a graph document. -/
  | malformed (detail : String)
deriving DecidableEq, Repr

/-- The text of a graph error. -/
def GraphError.message : GraphError → String
  | .vertexOutOfRange vertex vertexCount =>
    s!"Vertex {vertex.raw} is out of range for a graph with {vertexCount} vertices"
  | .noStart => "Graph has no start vertex (in-degree 0, out-degree > 0)"
  | .multipleStarts first second =>
    s!"Graph has more than one start vertex: {first} and {second}"
  | .noEnd => "Graph has no end vertex (out-degree 0, in-degree > 0)"
  | .multipleEnds first second => s!"Graph has more than one end vertex: {first} and {second}"
  | .tooManyVertices requested =>
    s!"Graph declares {requested} vertices, more than can be stored"
  | .startIsEnd vertex => s!"Start and end resolve to the same vertex {vertex}"
  | .malformed detail => s!"Malformed graph document: {detail}"

/-- A directed graph on the vertices below some count. -/
structure FlowGraph where
  /-- The successors of each vertex, in the order of their edges. -/
  successorTable : VertexTable (List VertexId)
  /-- Every successor is a vertex of the graph. -/
  closed : ∀ v w, w ∈ successorTable.getD v [] → successorTable.hasRow w = true
deriving DecidableEq

namespace FlowGraph

/-- The number of vertices. -/
def vertexCount (g : FlowGraph) : Nat := g.successorTable.size

/-- Whether a vertex belongs to the graph. -/
def contains (g : FlowGraph) (v : VertexId) : Bool := g.successorTable.hasRow v

/-- The vertices, ascending. -/
def vertices (g : FlowGraph) : List VertexId := g.successorTable.vertices

/-- The successors of a vertex in the order of their edges; none for a vertex outside the graph. -/
def successors (g : FlowGraph) (v : VertexId) : List VertexId := g.successorTable.getD v []

/-- The edges, grouped by their origin in ascending order. -/
def edges (g : FlowGraph) : List (VertexId × VertexId) :=
  g.vertices.flatMap fun v => (g.successors v).map fun w => (v, w)

/-- The number of edges, parallel ones counted each. -/
def edgeCount (g : FlowGraph) : Nat := g.successorTable.total List.length

/-- The graph with a number of vertices and no edges. -/
def new (count : UInt32) : FlowGraph where
  successorTable := .replicate count []
  closed v w h := by
    rw [VertexTable.getD, VertexTable.get?_replicate] at h
    split at h <;> simp at h

instance : Inhabited FlowGraph := ⟨new 0⟩

/-- The graph with one more edge between two of its vertices. -/
def appendEdge (g : FlowGraph) (v w : VertexId) (hw : g.contains w = true) : FlowGraph where
  successorTable := g.successorTable.modify v (· ++ [w])
  closed x y h := by
    rw [VertexTable.hasRow_congr (VertexTable.size_modify g.successorTable v _)]
    rw [VertexTable.getD, VertexTable.get?_modify] at h
    split at h
    · next hxv =>
      cases hv : g.successorTable.get? v with
      | none => simp [hv] at h
      | some row =>
        rw [hv, Option.map_some, Option.getD_some, List.mem_append, List.mem_singleton] at h
        rcases h with h | rfl
        · exact g.closed v y (by rw [VertexTable.getD, hv]; exact h)
        · exact hw
    · exact g.closed x y h

/-- Adds an edge. Its origin is checked before its target. -/
def addEdge (g : FlowGraph) (v w : VertexId) : Except GraphError FlowGraph :=
  if g.contains v then
    if hw : g.contains w = true then .ok (g.appendEdge v w hw)
    else .error (.vertexOutOfRange w g.vertexCount)
  else .error (.vertexOutOfRange v g.vertexCount)

/-- Adds edges in order up to the first that mentions a vertex outside the graph. -/
def addEdges (g : FlowGraph) (edges : List (VertexId × VertexId)) : Except GraphError FlowGraph :=
  edges.foldlM (fun g e => g.addEdge e.1 e.2) g

/-! ## Vertices and edges -/

theorem contains_iff {g : FlowGraph} {v : VertexId} :
    g.contains v = true ↔ v.index < g.vertexCount := VertexTable.hasRow_iff

theorem mem_vertices {g : FlowGraph} {v : VertexId} : v ∈ g.vertices ↔ g.contains v = true :=
  VertexTable.mem_vertices

theorem contains_of_mem_successors {g : FlowGraph} {v w : VertexId} (h : w ∈ g.successors v) :
    g.contains w = true := g.closed v w h

/-- Rows made of vertices are the rows of a graph. -/
theorem closed_mapVertices {g : FlowGraph} {f : VertexId → List VertexId → List VertexId}
    (hf : ∀ v, ∀ w ∈ f v (g.successors v), g.contains w = true) (v w : VertexId)
    (hw : w ∈ (g.successorTable.mapVertices f).getD v []) :
    (g.successorTable.mapVertices f).hasRow w = true := by
  rw [VertexTable.hasRow_congr (VertexTable.size_mapVertices f g.successorTable)]
  rw [VertexTable.getD, VertexTable.get?_mapVertices] at hw
  cases hv : g.successorTable.get? v with
  | none => simp [hv] at hw
  | some row =>
    rw [hv, Option.map_some, Option.getD_some] at hw
    exact hf v w (by rwa [successors, VertexTable.getD, hv])

theorem contains_of_successors_ne_nil {g : FlowGraph} {v : VertexId} (h : g.successors v ≠ []) :
    g.contains v = true := by
  cases hv : g.contains v with
  | true => rfl
  | false =>
    rw [successors, VertexTable.getD, VertexTable.get?_eq_none_iff.2 hv] at h
    exact absurd rfl h

theorem mem_edges {g : FlowGraph} {v w : VertexId} : (v, w) ∈ g.edges ↔ w ∈ g.successors v := by
  rw [edges, List.mem_flatMap]
  constructor
  · rintro ⟨x, _, h⟩
    rw [List.mem_map] at h
    obtain ⟨y, hy, hxy⟩ := h
    cases hxy
    exact hy
  · intro h
    exact ⟨v, mem_vertices.2 (contains_of_successors_ne_nil (List.ne_nil_of_mem h)),
      List.mem_map.2 ⟨w, h, rfl⟩⟩

theorem length_edges (g : FlowGraph) : g.edges.length = g.edgeCount := by
  rw [edges, List.length_flatMap, List.sum_eq_foldr, List.foldr_map]
  simp only [List.length_map]
  exact (g.successorTable.total_eq_foldr_vertices List.length []).symm

/-- Graphs with the same vertices and the same successors are the same graph. -/
theorem ext_successors {g h : FlowGraph} (hcount : g.vertexCount = h.vertexCount)
    (hsucc : ∀ v, g.successors v = h.successors v) : g = h := by
  have htable : g.successorTable = h.successorTable := by
    refine VertexTable.ext_get? fun v => ?_
    have hrow := VertexTable.hasRow_congr (s := g.successorTable) (t := h.successorTable) hcount v
    rw [← VertexTable.isSome_get?, ← VertexTable.isSome_get?] at hrow
    have hv := hsucc v
    rw [successors, successors, VertexTable.getD, VertexTable.getD] at hv
    generalize g.successorTable.get? v = a at hrow hv
    generalize h.successorTable.get? v = b at hrow hv
    cases a <;> cases b <;> simp_all
  cases g
  cases h
  subst htable
  rfl

@[simp] theorem vertexCount_new (count : UInt32) : (new count).vertexCount = count.toNat :=
  VertexTable.size_replicate count []

@[simp] theorem successors_new (count : UInt32) (v : VertexId) : (new count).successors v = [] := by
  rw [successors, new, VertexTable.getD, VertexTable.get?_replicate]
  split <;> rfl

@[simp] theorem vertexCount_appendEdge (g : FlowGraph) (v w : VertexId)
    (hw : g.contains w = true) : (g.appendEdge v w hw).vertexCount = g.vertexCount :=
  VertexTable.size_modify g.successorTable v _

/-- A new edge comes after the other edges of its origin. -/
theorem successors_appendEdge {g : FlowGraph} {v w : VertexId} (hv : g.contains v = true)
    (hw : g.contains w = true) (x : VertexId) :
    (g.appendEdge v w hw).successors x =
      if x = v then g.successors v ++ [w] else g.successors x := by
  rw [successors, appendEdge, VertexTable.getD, VertexTable.get?_modify]
  split
  · rw [VertexTable.get?_eq_some_getD hv [], Option.map_some, Option.getD_some, successors]
  · rfl

/-- An edge is added exactly when both its vertices belong to the graph. -/
theorem addEdge_eq_ok_iff {g g' : FlowGraph} {v w : VertexId} :
    g.addEdge v w = .ok g' ↔
      ∃ (_ : g.contains v = true) (hw : g.contains w = true), g.appendEdge v w hw = g' := by
  rw [addEdge]
  split
  · next hv =>
    split
    · next hw => simp [hv, hw]
    · next hw => simp [hw]
  · next hv => simp [hv]

end FlowGraph

end FlowRegions
