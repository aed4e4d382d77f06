import FlowRegions.Proofs.Regions

/-!
# Acyclic flow graphs

Without cycles a region is entered only at its entry: the entry dominates whatever the region
covers (`Candidate.dominates_of_mem`), and an edge that leads into the interior begins in the region
(`Candidate.mem_of_successor`). Of two regions that share a vertex before both exits, one begins
inside the other (`Candidate.begins_inside`).
-/

namespace FlowRegions

namespace FlowGraph

variable {g : FlowGraph} {source sink : VertexId} {admitted : VertexId → Bool}
variable {s s' e e' u v w : VertexId} {p q : List VertexId}

/-- No edge closes a route. -/
def Acyclic (g : FlowGraph) : Prop := ∀ v w, w ∈ g.successors v → ¬ ∃ p, g.Route w v p

/-- It is enough to search from the target of every edge. -/
theorem acyclic_iff : g.Acyclic ↔ ∀ edge ∈ g.edges, edge.1 ∉ g.reachableFrom edge.2 := by
  constructor
  · intro hg edge hedge hmem
    exact hg edge.1 edge.2 (mem_edges.1 hedge) (mem_reachableFrom_iff_route.1 hmem)
  · intro hg v w hw hroute
    exact hg (v, w) (mem_edges.2 hw) (mem_reachableFrom_iff_route.2 hroute)

instance (g : FlowGraph) : Decidable g.Acyclic := decidable_of_iff _ acyclic_iff.symm

/-- Routes in both directions are between a vertex and itself. -/
theorem Acyclic.antisymm (hg : g.Acyclic) (hp : g.Route v w p) (hq : g.Route w v q) : v = w := by
  cases hp with
  | stay => rfl
  | @step _ u _ p hvu hp =>
    obtain ⟨r, hr, _⟩ := hp.join hq
    exact absurd ⟨r, hr⟩ (hg v u hvu)

/-! ## Regions -/

/-- The entry dominates whatever the region covers: a way around it would lead on to the exit and
had to visit it there. -/
theorem Candidate.dominates_of_mem (hac : g.Acyclic) (hg : g.Flows source sink)
    (h : g.Candidate source sink admitted s e) (hv : v ∈ g.regionBetween s e) :
    g.Necessary source v s := by
  by_contra hn
  have haround : g.Bypass s source v := not_necessary_iff.1 hn
  obtain ⟨p, hp⟩ := h.exists_route_to_exit hg hv
  have hback : s ∈ p := h.dominates.of_bypass haround p hp
  obtain ⟨⟨q, hq, _⟩, _⟩ := hp.cut hback
  obtain ⟨r, hr⟩ := exists_route_of_mem_region h.entry_mem hv
  exact haround.target_ne (hac.antisymm hq hr)

/-- A route to what the entry dominates passes the entry and then whatever is necessary behind
it. -/
theorem Flows.exists_route_behind (hg : g.Flows source sink) (hv : g.contains v = true)
    (hdom : g.Necessary source v s) (hway : g.Necessary s v e) : ∃ p, g.Route e v p := by
  obtain ⟨p, hp⟩ := hg.reached v hv
  obtain ⟨_, q, hq, _⟩ := hp.cut (hdom p hp)
  obtain ⟨_, r, hr, _⟩ := hq.cut (hway q hq)
  exact ⟨r, hr⟩

/-- What the entry dominates and what leads to the region, before the exit, is covered too: behind
the exit it would lead back to it. -/
theorem Candidate.mem_of_route (hac : g.Acyclic) (hg : g.Flows source sink)
    (h : g.Candidate source sink admitted s e) (hu : u ∈ g.regionBetween s e) (hue : u ≠ e)
    (hdom : g.Necessary source v s) (hp : g.Route v u p) :
    v ∈ g.regionBetween s e ∧ v ≠ e := by
  by_cases hway : g.Necessary s v e
  · obtain ⟨q, hq⟩ := hg.exists_route_behind hp.contains_source hdom hway
    obtain ⟨r, hr, _⟩ := hq.join hp
    obtain ⟨r', hr'⟩ := h.exists_route_to_exit hg hu
    exact absurd (hac.antisymm hr' hr) hue
  · have hbypass : g.Bypass e s v := not_necessary_iff.1 hway
    have hne := hbypass.target_ne
    exact ⟨(mem_regionBetween_iff_bypass h.entry_mem hne).2 hbypass, hne⟩

/-- Where an edge leads into a region behind the entry, the entry dominates its origin. -/
theorem Candidate.dominates_of_successor (hac : g.Acyclic) (hg : g.Flows source sink)
    (h : g.Candidate source sink admitted s e) (hu : u ∈ g.regionBetween s e) (hus : u ≠ s)
    (hvu : u ∈ g.successors v) : g.Necessary source v s := by
  intro p hp
  have hmem : s ∈ p ++ [u] := h.dominates_of_mem hac hg hu _ (hp.snoc hvu)
  rw [List.mem_append, List.mem_singleton] at hmem
  exact hmem.resolve_right (Ne.symm hus)

/-- An edge into the interior of a region begins in the region, before the exit. -/
theorem Candidate.mem_of_successor (hac : g.Acyclic) (hg : g.Flows source sink)
    (h : g.Candidate source sink admitted s e) (hu : u ∈ g.regionBetween s e) (hus : u ≠ s)
    (hue : u ≠ e) (hvu : u ∈ g.successors v) : v ∈ g.regionBetween s e ∧ v ≠ e := by
  have hdom := h.dominates_of_successor hac hg hu hus hvu
  have hroute : g.Route v u [v, u] := .step hvu (.stay (contains_of_mem_successors hvu))
  exact h.mem_of_route hac hg hu hue hdom hroute

/-- Of two regions that share a vertex before both exits, one begins in the other. -/
theorem Candidate.begins_inside (hac : g.Acyclic) (hg : g.Flows source sink)
    (h : g.Candidate source sink admitted s e) (h' : g.Candidate source sink admitted s' e')
    (hv : v ∈ g.regionBetween s e) (hv' : v ∈ g.regionBetween s' e') (hve : v ≠ e)
    (hve' : v ≠ e') :
    (s' ∈ g.regionBetween s e ∧ s' ≠ e) ∨ (s ∈ g.regionBetween s' e' ∧ s ≠ e') := by
  obtain ⟨p, hp⟩ := exists_route_of_mem_region h.entry_mem hv
  obtain ⟨p', hp'⟩ := exists_route_of_mem_region h'.entry_mem hv'
  obtain ⟨q, hq⟩ := hg.reached v hp.contains_target
  have hdom := h.dominates_of_mem hac hg hv
  have hdom' := h'.dominates_of_mem hac hg hv'
  rcases hdom.total_left hdom' hq with hs | hs'
  · exact .inr (h'.mem_of_route hac hg hv' hve' hs hp)
  · exact .inl (h.mem_of_route hac hg hv hve hs' hp')

end FlowGraph

end FlowRegions
