import FlowRegions.FlowGraph.Reachability

/-! # Hammocks

A hammock is a region with one entry and one exit. Its body is what a walk from the entry visits
when it does not leave the exit, and its size is the number of vertices in the body.
-/

namespace FlowRegions

/-- A numbered region between an entry and an exit. -/
structure Hammock where
  id : HammockId
  entry : VertexId
  exit : VertexId
  /-- The vertices that the region covers. -/
  body : VertexSet
deriving DecidableEq

namespace Hammock

/-- The number of vertices that the region covers. -/
def size (h : Hammock) : Nat := h.body.card

/-- The entry and the exit. -/
def bounds (h : Hammock) : VertexId × VertexId := (h.entry, h.exit)

/-- The text of a hammock: its identifier, its bounds and its size. -/
def display (h : Hammock) : String := s!"[{h.id} {h.entry}->{h.exit} size {h.size}]"

instance : ToString Hammock := ⟨display⟩

end Hammock

/-- The steps of a walk that does not leave the exit. -/
def FlowGraph.stepsUntil (g : FlowGraph) (exit v : VertexId) : VertexSet :=
  if v = exit then ∅ else g.successorSet v

/-- The vertices that a walk from the entry visits without leaving the exit. -/
def FlowGraph.regionBetween (g : FlowGraph) (entry exit : VertexId) : VertexSet :=
  Search.reachable (g.stepsUntil exit) entry

@[simp] theorem FlowGraph.mem_stepsUntil {g : FlowGraph} {exit v w : VertexId} :
    w ∈ g.stepsUntil exit v ↔ v ≠ exit ∧ w ∈ g.successors v := by
  by_cases h : v = exit <;> simp [stepsUntil, h]

theorem FlowGraph.mem_regionBetween {g : FlowGraph} {entry exit v : VertexId} :
    v ∈ g.regionBetween entry exit ↔ Search.Chain (g.stepsUntil exit) entry v :=
  Search.mem_reachable

end FlowRegions
