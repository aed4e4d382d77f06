import FlowRegions.FlowNet.Conversion

/-! # The table of the nodes of a net

The nodes of a net are entered into a table one after the other, places first. A new name goes to
the end, with its kind and with the vertex that has the number of the names before it; a name that
has been entered ends the conversion. The table is looked up by name when arcs are resolved, and by
position when a vertex is asked for its node.

`FlowNet.convertByTable` is the conversion with this table. The plain one (`FlowNet.convert`) looks
names up in the declarations themselves.
-/

namespace FlowRegions

/-- A node as it has been entered. -/
structure NodeEntry where
  name : String
  vertex : VertexId
  kind : NodeKind
deriving DecidableEq, Repr

/-- The nodes that have been entered, in their order. -/
structure NodeTable where
  entries : List NodeEntry := []
deriving DecidableEq, Repr

namespace NodeTable

/-- The entry of a name. -/
def find? (t : NodeTable) (name : String) : Option NodeEntry := t.entries.find? (·.name = name)

/-- The entry at the position of a vertex. -/
def at? (t : NodeTable) (v : VertexId) : Option NodeEntry := t.entries[v.index]?

/-- The vertex of a node. -/
def vertex? (t : NodeTable) (name : String) : Option VertexId := (t.find? name).map (·.vertex)

/-- The name of the node of a vertex. -/
def label? (t : NodeTable) (v : VertexId) : Option String := (t.at? v).map (·.name)

/-- The kind of the node of a vertex. -/
def kind? (t : NodeTable) (v : VertexId) : Option NodeKind := (t.at? v).map (·.kind)

/-- Enters a node with the next vertex, unless its name has been entered. -/
def declare (t : NodeTable) (node : String × NodeKind) : Except NetError NodeTable :=
  match t.find? node.1 with
  | some _ => .error (.duplicateNode node.1)
  | none => .ok ⟨t.entries ++ [⟨node.1, .ofIndex t.entries.length, node.2⟩]⟩

/-- The entry of a node that an arc mentions. -/
def resolve (t : NodeTable) (name : String) : Except NetError NodeEntry :=
  match t.find? name with
  | some entry => .ok entry
  | none => .error (.unknownNode name)

/-- The edge of an arc, between the vertices of two entries of different kinds. -/
def edge (t : NodeTable) (arc : FlowArc) : Except NetError (VertexId × VertexId) := do
  let origin ← t.resolve arc.origin
  let target ← t.resolve arc.target
  if origin.kind = target.kind then .error (.notBipartite arc.origin arc.target)
  else .ok (origin.vertex, target.vertex)

/-- Adds the edges of arcs in order, up to the first arc that is not proper. -/
def addArcs (t : NodeTable) (g : FlowGraph) (arcs : List FlowArc) : Except NetError FlowGraph :=
  arcs.foldlM (fun g arc => do
    let e ← t.edge arc
    (g.addEdge e.1 e.2).mapError .graph) g

/-- The vertices of the entered transitions. -/
def mask (t : NodeTable) : BoundaryMask :=
  .ofList ((t.entries.filter (·.kind = .transition)).map (·.vertex))

end NodeTable

namespace FlowNet

/-- The nodes with their kinds, in the order of their declaration. -/
def declared (n : FlowNet) : List (String × NodeKind) :=
  n.places.map (·, .place) ++ n.transitions.map (·, .transition)

/-- Enters the nodes up to the first one whose name has been entered. -/
def nodeTable (n : FlowNet) : Except NetError NodeTable := n.declared.foldlM NodeTable.declare {}

/-- Converts a net, looking up its nodes in their table. -/
def convertByTable (n : FlowNet) : Except NetError NetGraph := do
  let table ← n.nodeTable
  let g ← table.addArcs (.new (.ofNat table.entries.length)) n.arcs
  let (source, sink) ← g.endpoints.mapError .graph
  return ⟨n, g, source, sink, table.mask⟩

end FlowNet

end FlowRegions
