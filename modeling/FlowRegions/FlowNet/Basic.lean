import FlowRegions.FlowGraph.Basic

/-! # Flow nets

A flow net has places and transitions, known by their names, and arcs between them. A proper net
declares every name once, and its arcs join places with transitions.
-/

namespace FlowRegions

/-- The two kinds of nodes of a net. -/
inductive NodeKind where
  | place
  | transition
deriving DecidableEq, Repr

/-- The name of a kind of nodes. -/
def NodeKind.name : NodeKind → String
  | .place => "Place"
  | .transition => "Transition"

/-- An arc between two named nodes. -/
structure FlowArc where
  origin : String
  target : String
deriving DecidableEq, Repr

/-- Places, transitions and the arcs between them, in the order of their declaration. -/
structure FlowNet where
  places : List String := []
  transitions : List String := []
  arcs : List FlowArc := []
deriving DecidableEq, Repr

/-- Why a net cannot be converted into a graph. -/
inductive NetError where
  /-- A name is declared twice. -/
  | duplicateNode (name : String)
  /-- An arc mentions a name that is not declared. -/
  | unknownNode (name : String)
  /-- An arc joins two nodes of the same kind. -/
  | notBipartite (origin target : String)
  /-- The graph of the net has no unique source and sink. -/
  | graph (e : GraphError)
  /-- A text is not a net document. -/
  | malformed (detail : String)
deriving DecidableEq, Repr

namespace NetError

/-- The text of a net error. -/
def message : NetError → String
  | .duplicateNode name => s!"Node '{name}' is declared more than once"
  | .unknownNode name => s!"Arc refers to undeclared node '{name}'"
  | .notBipartite origin target =>
    s!"Arc '{origin}' -> '{target}' joins two nodes of the same kind"
  | .graph e => e.message
  | .malformed detail => s!"Malformed net document: {detail}"

/-- The text of the error behind a net error, if there is one. -/
def cause? : NetError → Option String
  | .graph e => some e.message
  | _ => none

end NetError

namespace FlowNet

/-- The net with one more place. -/
def addPlace (n : FlowNet) (name : String) : FlowNet := { n with places := n.places ++ [name] }

/-- The net with one more transition. -/
def addTransition (n : FlowNet) (name : String) : FlowNet :=
  { n with transitions := n.transitions ++ [name] }

/-- The net with one more arc. -/
def addArc (n : FlowNet) (origin target : String) : FlowNet :=
  { n with arcs := n.arcs ++ [⟨origin, target⟩] }

/-- The names of the nodes, places first, in the order of their declaration. -/
def names (n : FlowNet) : List String := n.places ++ n.transitions

/-- The vertex of a node: the position of its name. -/
def vertex? (n : FlowNet) (name : String) : Option VertexId :=
  (n.names.idxOf? name).map .ofIndex

/-- The name of the node of a vertex. -/
def label? (n : FlowNet) (v : VertexId) : Option String := n.names[v.index]?

/-- The kind of the node of a vertex: the places come first. -/
def kind? (n : FlowNet) (v : VertexId) : Option NodeKind :=
  if v.index < n.places.length then some .place
  else if v.index < n.names.length then some .transition
  else none

/-- The first name that repeats an earlier one. -/
def firstRepeat? (seen : List String) : List String → Option String
  | [] => none
  | name :: rest => if name ∈ seen then some name else firstRepeat? (name :: seen) rest

end FlowNet

end FlowRegions
