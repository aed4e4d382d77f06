import FlowRegions.Boundary.Minimal
import FlowRegions.Boundary.Mask
import FlowRegions.Passage.Fixpoint

/-! # The boundaries of the hammocks of a graph

An entry and an exit are candidates when the entry dominates the exit, the exit postdominates the
entry, and both are admitted as boundaries. The minimal candidates are the boundaries of the
hammocks.
-/

namespace FlowRegions

open Log

/-- What the analysis of a graph with a known source and sink yields. -/
structure BoundaryAnalysis where
  postdominators : PassageSets
  dominators : PassageSets
  candidates : BoundaryRelation
  minimal : BoundaryRelation
deriving DecidableEq

namespace FlowGraph

/-- Whether a vertex is a candidate exit for an entry: another admitted vertex that the entry
dominates. -/
def isCandidateExit (admitted : VertexId → Bool) (dom : PassageSets) (entry exit : VertexId) :
    Bool := exit ≠ entry && admitted exit && dom.contains exit entry

/-- The candidate pairs that the passage sets of a graph determine. -/
def candidates (g : FlowGraph) (admitted : VertexId → Bool) (post dom : PassageSets) :
    BoundaryRelation where
  exitTable := g.successorTable.mapVertices fun entry _ =>
    if admitted entry then (post.sets.getD entry ∅).filter (isCandidateExit admitted dom entry)
    else ∅

/-- Computes the passage sets towards the sink and towards the source, then the candidates, then
the minimal ones. -/
def analyseBoundaries (g : FlowGraph) (source sink : VertexId) (mask : Option BoundaryMask)
    (mode : SweepMode) : Attempt PassageError BoundaryAnalysis := do
  let post ← g.postdominators sink mode
  let dom ← g.dominators source mode
  let candidates := g.candidates (admittedBy mask source sink) post dom
  let minimal ← candidates.reduce
  Logged.report (.reduced candidates.size minimal.size)
  return ⟨post, dom, candidates, minimal⟩

end FlowGraph

end FlowRegions
