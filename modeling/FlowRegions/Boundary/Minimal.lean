import FlowRegions.Boundary.Relation
import FlowRegions.Log.Logged

/-! # Minimal boundary pairs

A pair is redundant when other pairs lead from its entry to its exit: the region between them is
a chain of smaller ones. Redundant pairs are removed entry by entry in ascending order. The exits
of one entry are all judged by the relation as reduced so far and leave together.
-/

namespace FlowRegions

namespace BoundaryRelation

open Log

/-- The exits of an entry that can be reached without the direct step. -/
def redundantExits (r : BoundaryRelation) (entry : VertexId) : VertexSet :=
  (r.exits entry).filter (r.reachesAvoidingDirect entry)

/-- Removes the redundant exits of one entry and reports each. -/
def reduceAt (r : BoundaryRelation) (entry : VertexId) : Logged BoundaryRelation :=
  let redundant := r.redundantExits entry
  ⟨r.removeExits entry redundant, redundant.toList.map (.dropped entry)⟩

/-- Removes the redundant exits of every entry in ascending order and reports each. -/
def reduce (r : BoundaryRelation) : Logged BoundaryRelation := r.vertices.foldlM reduceAt r

/-- The relation without its redundant pairs. -/
def minimal (r : BoundaryRelation) : BoundaryRelation := r.reduce.value

end BoundaryRelation

end FlowRegions
