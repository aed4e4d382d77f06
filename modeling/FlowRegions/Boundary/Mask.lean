import FlowRegions.IdSet

/-! # Boundary masks

A mask lists the vertices that may bound a hammock. The overall source and sink may always do so,
listed or not.
-/

namespace FlowRegions

/-- The vertices that may serve as boundaries. -/
structure BoundaryMask where
  vertices : VertexSet
deriving DecidableEq

namespace BoundaryMask

/-- The mask that lists no vertex. -/
def empty : BoundaryMask := ⟨∅⟩

/-- The mask that lists the given vertices. -/
def ofList (vs : List VertexId) : BoundaryMask := ⟨.ofList vs⟩

/-- Whether a vertex is listed. -/
def contains (m : BoundaryMask) (v : VertexId) : Bool := v ∈ m.vertices

/-- The mask that lists one more vertex. -/
def insert (m : BoundaryMask) (v : VertexId) : BoundaryMask := ⟨Insert.insert v m.vertices⟩

/-- Whether a vertex may bound a hammock of a graph with the given source and sink. -/
def admits (m : BoundaryMask) (v source sink : VertexId) : Bool :=
  v = source || v = sink || m.contains v

/-- The number of listed vertices. -/
def size (m : BoundaryMask) : Nat := m.vertices.card

/-- Whether no vertex is listed. -/
def isEmpty (m : BoundaryMask) : Bool := m.vertices.isEmpty

/-- The listed vertices, ascending. -/
def toList (m : BoundaryMask) : List VertexId := m.vertices.toList

@[simp] theorem contains_ofList {vs : List VertexId} {v : VertexId} :
    (ofList vs).contains v = true ↔ v ∈ vs := by simp [contains, ofList]

@[simp] theorem contains_insert {m : BoundaryMask} {v w : VertexId} :
    (m.insert w).contains v = true ↔ v = w ∨ m.contains v = true := by simp [contains, insert]

theorem admits_iff {m : BoundaryMask} {v source sink : VertexId} :
    m.admits v source sink = true ↔ v = source ∨ v = sink ∨ m.contains v = true := by
  simp [admits, or_assoc]

end BoundaryMask

/-- Whether an optional mask lets a vertex bound a hammock; without a mask every vertex may. -/
def admittedBy (mask : Option BoundaryMask) (source sink v : VertexId) : Bool :=
  match mask with
  | none => true
  | some m => m.admits v source sink

/-- Only a mask that does not list a vertex keeps it from bounding a hammock, and never the source
or the sink. -/
theorem admittedBy_iff {mask : Option BoundaryMask} {source sink v : VertexId} :
    admittedBy mask source sink v = true ↔
      (∀ m ∈ mask, m.contains v = true) ∨ v = source ∨ v = sink := by
  cases mask with
  | none => simp [admittedBy]
  | some m => simp [admittedBy, BoundaryMask.admits_iff, or_comm, or_assoc]

end FlowRegions
