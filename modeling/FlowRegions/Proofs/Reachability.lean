import FlowRegions.Proofs.Routes
import FlowRegions.Proofs.Transposition
import FlowRegions.QueueSearch

/-!
# Reachability forwards and backwards

A search with a queue along the edges, in the order in which they were added and as often as they
were, collects the targets of the routes from its vertex (`searchFrom_eq`,
`mem_reachableFrom_iff_route`). The same search in the reversed graph collects the sources of the
routes to its vertex, since routes are the routes of the reversed graph read backwards. So either of
the two searches answers for the other one (`searches_are_converse`).
-/

namespace FlowRegions

namespace FlowGraph

variable {g : FlowGraph} {v : VertexId}

/-- What a search with a queue collects from a vertex on. It does not begin outside the graph. -/
def searchFrom (g : FlowGraph) (v : VertexId) : VertexSet :=
  if g.contains v then QueueSearch.collect g.successors (.start v) ∅ else ∅

theorem searchFrom_eq (g : FlowGraph) (v : VertexId) : g.searchFrom v = g.reachableFrom v := by
  unfold searchFrom reachableFrom
  split
  · exact QueueSearch.collect_start g.successors v
  · rfl

theorem reachableFrom_eq_empty_iff : g.reachableFrom v = ∅ ↔ ¬ g.contains v = true := by
  constructor
  · intro h hv
    have hself : v ∈ g.reachableFrom v := mem_reachableFrom.2 ⟨hv, .refl⟩
    rw [h] at hself
    exact IdSet.not_mem_empty v hself
  · intro hv
    exact if_neg hv

/-- In every graph, with cycles and parallel edges, and from every vertex, in the graph or not:
there is no endless sequence of turns in a search with a queue, and the search collects what is
reachable, in the graph and in the reversed graph. Nothing comes of a search exactly when it begins
outside the graph. What is reachable are the targets of the routes, and a vertex is among those from
which another one can be reached exactly when that one is reachable from it. -/
theorem searches_are_converse (g : FlowGraph) (u v : VertexId) :
    (WellFounded fun q' q : QueueSearch .vertex => ∃ w, q.turn? g.successors = some (w, q')) ∧
    g.searchFrom v = g.reachableFrom v ∧ g.transpose.searchFrom v = g.canReach v ∧
    (g.reachableFrom v = ∅ ↔ ¬ g.contains v = true) ∧
    (u ∈ g.reachableFrom v ↔ ∃ p, g.Route v u p) ∧
    (u ∈ g.canReach v ↔ v ∈ g.reachableFrom u) := by
  refine ⟨QueueSearch.wellFounded_turn? g.successors, g.searchFrom_eq v,
    g.transpose.searchFrom_eq v, reachableFrom_eq_empty_iff, mem_reachableFrom_iff_route, ?_⟩
  rw [mem_canReach_iff_route, mem_reachableFrom_iff_route]

/-- From the vertex that only a loop leaves, nothing else is reachable. The search from the last
vertex comes to it over the parallel edges. Nothing is reachable from outside. -/
theorem tangle_searched :
    (¬ ∃ p, tangle.Route ⟨1⟩ ⟨0⟩ p) ∧ (∃ p, tangle.Route ⟨2⟩ ⟨1⟩ p) ∧
      ⟨2⟩ ∈ tangle.canReach ⟨1⟩ ∧ ⟨1⟩ ∈ tangle.searchFrom ⟨2⟩ ∧
      ¬ tangle.contains ⟨3⟩ = true ∧ ¬ ∃ p, tangle.Route ⟨3⟩ ⟨0⟩ p := by
  obtain ⟨_, _, _, _, hone, _⟩ := searches_are_converse tangle ⟨0⟩ ⟨1⟩
  obtain ⟨_, htwoSearch, _, _, htwo, _⟩ := searches_are_converse tangle ⟨1⟩ ⟨2⟩
  obtain ⟨_, _, _, _, _, hback⟩ := searches_are_converse tangle ⟨2⟩ ⟨1⟩
  obtain ⟨_, _, _, hthree, hout, _⟩ := searches_are_converse tangle ⟨0⟩ ⟨3⟩
  have hreach : ⟨1⟩ ∈ tangle.reachableFrom ⟨2⟩ := by decide +kernel
  have hempty : tangle.reachableFrom ⟨3⟩ = ∅ := by decide +kernel
  refine ⟨fun h => absurd (hone.2 h) (by decide +kernel), htwo.1 hreach, hback.2 hreach, ?_,
    hthree.1 hempty, fun h => ?_⟩
  · rw [htwoSearch]
    exact hreach
  · have hmem := hout.2 h
    rw [hempty] at hmem
    exact IdSet.not_mem_empty _ hmem

end FlowGraph

end FlowRegions
