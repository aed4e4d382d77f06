import FlowRegions.Proofs.SingleEntry

/-!
# How far a region reaches upstream

In a graph with cycles a region may cover vertices that its entry does not dominate: an edge back
leads the walk that measures it out of the part behind the entry. It cannot stray far. It is still
left at the exit alone, and from all that it covers the exit is ahead
(`Candidate.postdominates_of_mem`). Whatever the entry does not dominate is reached from the source
around the entry, which dominates the exit, so from there the entry comes before the exit. Hence the
vertices upstream are those on closed routes through the entry that avoid the exit
(`Candidate.mem_region_iff_closed_route`).
-/

namespace FlowRegions

/-- A set with two different members has at least two. -/
theorem IdSet.two_le_card {κ : IdKind} {s : IdSet κ} {a b : DenseId κ} (ha : a ∈ s) (hb : b ∈ s)
    (hne : a ≠ b) : 2 ≤ s.card := by
  have hpair : ({a} ∪ {b} : IdSet κ).card = 2 :=
    card_union fun c hca hcb => hne ((mem_singleton.1 hca).symm.trans (mem_singleton.1 hcb))
  rw [← hpair]
  apply card_le_card
  intro c hc
  rcases mem_union.1 hc with hc | hc
  · exact mem_singleton.1 hc ▸ ha
  · exact mem_singleton.1 hc ▸ hb

namespace FlowGraph

variable {g : FlowGraph} {source sink : VertexId} {admitted : VertexId → Bool}
variable {s e v : VertexId} {p : List VertexId}

/-- What a closed route through the entry visits without the exit belongs to the region. -/
theorem mem_regionBetween_of_closed_route (hp : g.Route s s p) (he : e ∉ p) (hv : v ∈ p) :
    v ∈ g.regionBetween s e := by
  obtain ⟨⟨q, hq, hqp⟩, _⟩ := hp.cut hv
  have hve : v ≠ e := fun h => he (h ▸ hv)
  exact (mem_regionBetween_iff_bypass hp.contains_source hve).2 ⟨q, hq, fun h => he (hqp e h)⟩

/-- What a region covers besides the exit, and its entry does not dominate, leads back to the entry
around the exit. -/
theorem Candidate.bypass_to_entry (hg : g.Flows source sink)
    (h : g.Candidate source sink admitted s e) (hv : v ∈ g.regionBetween s e)
    (hdom : ¬ g.Necessary source v s) : g.Bypass e v s := by
  obtain ⟨p, hp⟩ := h.exists_route_to_exit hg hv
  have hentry : g.Necessary v e s := h.dominates.of_bypass (not_necessary_iff.1 hdom)
  -- if the exit came first on all routes to the entry, the two would be one
  apply not_necessary_iff.1
  intro hexit
  exact h.ne (Necessary.antisymm_left hentry hexit hp).symm

/-- Of what the entry does not dominate, a region covers what lies on closed routes through the
entry that avoid the exit. -/
theorem Candidate.mem_region_iff_closed_route (hg : g.Flows source sink)
    (h : g.Candidate source sink admitted s e) (hdom : ¬ g.Necessary source v s) :
    v ∈ g.regionBetween s e ↔ ∃ p, g.Route s s p ∧ v ∈ p ∧ e ∉ p := by
  refine ⟨fun hv => ?_, fun ⟨p, hp, hvp, he⟩ => mem_regionBetween_of_closed_route hp he hvp⟩
  have hve : v ≠ e := fun hve => hdom (hve ▸ h.dominates)
  obtain ⟨p, hp, hep⟩ := (mem_regionBetween_iff_bypass h.entry_mem hve).1 hv
  obtain ⟨q, hq, heq⟩ := h.bypass_to_entry hg hv hdom
  refine ⟨p ++ q.tail, hp.append hq, List.mem_append_left _ hp.target_mem, fun hmem => ?_⟩
  rcases List.mem_append.1 hmem with hmem | hmem
  · exact hep hmem
  · exact heq (List.mem_of_mem_tail hmem)

open HammockRegistry

/-- In every graph, cycles or not, a hammock covers its entry and its exit, is left only at its
exit, and its exit postdominates all that it covers. What it covers and its entry does not dominate
lies on a closed route through the entry that avoids the exit. -/
theorem regions_stray_only_on_closed_routes (g : FlowGraph) (source sink : VertexId)
    (mask : Option BoundaryMask) (mode : SweepMode) {a : BoundaryAnalysis}
    {r : HammockRegistry} (ha : (g.analyseBoundaries source sink mask mode).run.value = .ok a)
    (hr : (register g a.minimal).value = r) :
    ∀ i x, r.get? i = some x →
      (x.entry ∈ r.coverage i ∧ x.exit ∈ r.coverage i ∧ 2 ≤ x.size) ∧
      (∀ u v, v ∈ g.successors u → u ∈ r.coverage i → v ∉ r.coverage i → u = x.exit) ∧
      (∀ v ∈ r.coverage i, ∀ p, g.Route v sink p → x.exit ∈ p) ∧
      ∀ v ∈ r.coverage i, (¬ ∀ p, g.Route source v p → x.entry ∈ p) →
        ∃ p, g.Route x.entry x.entry p ∧ v ∈ p ∧ x.exit ∉ p := by
  subst hr
  have hn := nests_register ha
  have hg := flows_of_analyseBoundaries ha
  intro i x hx
  obtain ⟨hpair, hbody⟩ := minimalPair_of_get? ha hx
  have hcover : ∀ v, v ∈ (register g a.minimal).value.coverage i ↔
      v ∈ g.regionBetween x.entry x.exit := fun v => hn.mem_coverage_iff hx
  simp only [hcover]
  have hentry := entry_mem_regionBetween g x.entry x.exit
  have hexit := hpair.exit_mem_region hg
  refine ⟨⟨hentry, hexit, ?_⟩, fun u v huv hu hv => eq_exit_of_leaves huv hu hv,
    fun v hv => hpair.postdominates_of_mem hv,
    fun v hv hdom => (hpair.mem_region_iff_closed_route hg hdom).1 hv⟩
  rw [Hammock.size, hbody]
  exact IdSet.two_le_card hentry hexit hpair.ne

/-- The third hammock of a line covers the vertex before its entry, to which an edge leads back: a
closed route through the entry visits it. -/
theorem closed_route_over_step_back :
    ∃ a x, (stepBack.analyseBoundaries ⟨0⟩ ⟨4⟩ none .inPlace).run.value = .ok a ∧
      (register stepBack a.minimal).value.get? ⟨2⟩ = some x ∧ x.entry = ⟨2⟩ ∧ 2 ≤ x.size ∧
      ⟨1⟩ ∈ (register stepBack a.minimal).value.coverage ⟨2⟩ ∧
      ∃ p, stepBack.Route ⟨2⟩ ⟨2⟩ p ∧ ⟨1⟩ ∈ p ∧ x.exit ∉ p := by
  obtain ⟨a, ha, hstart, hback⟩ : ∃ a,
      (stepBack.analyseBoundaries ⟨0⟩ ⟨4⟩ none .inPlace).run.value = .ok a ∧
      ((register stepBack a.minimal).value.get? ⟨2⟩).map Hammock.entry = some ⟨2⟩ ∧
      ⟨2⟩ ∈ (register stepBack a.minimal).value.containing ⟨1⟩ :=
    ⟨(stepBack.analyseBoundaries ⟨0⟩ ⟨4⟩ none .inPlace).run.value.toOption.get (by decide +kernel),
      by decide +kernel, by decide +kernel, by decide +kernel⟩
  obtain ⟨x, hx, hentry⟩ := Option.map_eq_some_iff.1 hstart
  obtain ⟨⟨_, _, hsize⟩, _, _, hupstream⟩ :=
    regions_stray_only_on_closed_routes stepBack ⟨0⟩ ⟨4⟩ none .inPlace ha rfl ⟨2⟩ x hx
  -- the route from the source down to the vertex does not come to the entry
  have hdom : ¬ ∀ p, stepBack.Route ⟨0⟩ ⟨1⟩ p → x.entry ∈ p := by
    intro h
    have hmem := h [⟨0⟩, ⟨1⟩] (.step (by decide +kernel) (.stay (by decide +kernel)))
    rw [hentry] at hmem
    revert hmem
    decide
  have hclosed := hupstream ⟨1⟩ hback hdom
  rw [hentry] at hclosed
  exact ⟨a, x, ha, hx, hentry, hsize, hback, hclosed⟩

end FlowGraph

end FlowRegions
