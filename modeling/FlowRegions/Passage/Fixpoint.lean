import FlowRegions.FlowGraph.Reachability
import FlowRegions.Log.Logged

/-! # Necessary passage

The necessary-passage set of a vertex holds the vertices that every path from it to a target
visits. The sets start as large as possible and are swept until a sweep narrows nothing. Towards
the sink they are the postdominators; towards the source, in the transposed graph, the dominators.
-/

namespace FlowRegions

open Log

/-- Why a passage analysis fails. -/
inductive PassageError where
  /-- The target is not a vertex of the graph. -/
  | targetOutOfRange (target : VertexId) (vertexCount : Nat)
  /-- A vertex has no path to the target. -/
  | unreachableVertex (vertex target : VertexId)
deriving DecidableEq, Repr

/-- The text of a passage error. -/
def PassageError.message : PassageError → String
  | .targetOutOfRange target vertexCount =>
    s!"Analysis target {target} is not a vertex of a graph with {vertexCount} vertices"
  | .unreachableVertex vertex target =>
    s!"Vertex {vertex} cannot reach analysis target {target}"

/-- The necessary-passage sets of all vertices towards one target. -/
structure PassageSets where
  target : VertexId
  sets : VertexTable VertexSet
  /-- The number of sweeps, the last and quiet one included. -/
  rounds : Nat
deriving DecidableEq

namespace PassageSets

/-- The necessary-passage set of a vertex, if it is a vertex of the graph. -/
def get? (p : PassageSets) (v : VertexId) : Option VertexSet := p.sets.get? v

/-- Whether every path from a vertex to the target visits another. -/
def contains (p : PassageSets) (v through : VertexId) : Bool := through ∈ p.sets.getD v ∅

/-- The number of vertices. -/
def size (p : PassageSets) : Nat := p.sets.size

end PassageSets

namespace FlowGraph

/-- Sweeps until nothing is narrowed; `rounds` sweeps have been made before. -/
def settle (g : FlowGraph) (mode : SweepMode) (target : VertexId) (sets : VertexTable VertexSet)
    (rounds : Nat) : Logged PassageSets :=
  let swept := g.sweep mode target sets
  if weight swept < weight sets then
    .after (.swept (rounds + 1) target true) (g.settle mode target swept (rounds + 1))
  else
    .after (.swept (rounds + 1) target false)
      (.after (.converged target (rounds + 1) mode) (pure ⟨target, swept, rounds + 1⟩))
termination_by weight sets

/-- The least vertex with no path to the target. -/
def firstStranded? (g : FlowGraph) (target : VertexId) : Option VertexId :=
  let reaching := g.canReach target
  g.vertices.find? (· ∉ reaching)

/-- The necessary-passage sets towards a target. All vertices must be able to reach it: a set of a
vertex without path would keep every vertex. -/
def passageSets (g : FlowGraph) (target : VertexId) (mode : SweepMode) :
    Attempt PassageError PassageSets :=
  if g.contains target then
    match g.firstStranded? target with
    | some v => throw (.unreachableVertex v target)
    | none => liftM (g.settle mode target (g.initialSets target) 0)
  else throw (.targetOutOfRange target g.vertexCount)

/-- The vertices that every path to the sink visits. -/
def postdominators (g : FlowGraph) (sink : VertexId) (mode : SweepMode) :
    Attempt PassageError PassageSets := g.passageSets sink mode

/-- The vertices that every path from the source visits. -/
def dominators (g : FlowGraph) (source : VertexId) (mode : SweepMode) :
    Attempt PassageError PassageSets := g.transpose.passageSets source mode

end FlowGraph

end FlowRegions
