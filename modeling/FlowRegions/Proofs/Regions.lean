import FlowRegions.Hammock.Basic
import FlowRegions.Proofs.Candidates

/-!
# The regions of minimal pairs

The walk that measures a hammock knows nothing of dominance, and along back edges it may even leave
the part of the graph that the entry dominates. Still, regions nest: if the walk of one minimal pair
meets the entry of another, it covers that pair's whole region, which ends before the walk's own
exit (`MinimalPair.exit_not_mem`, `MinimalPair.region_subset`). Otherwise the inner pair would
reach past that exit and would be decomposed there.
-/

namespace FlowRegions

namespace FlowGraph

variable {g : FlowGraph} {source sink : VertexId} {admitted : VertexId → Bool}
variable {s s' e e' v w : VertexId}

/-! ## Regions and routes -/

/-- Without the exit, a region is what routes that avoid the exit lead to. -/
theorem mem_regionBetween_iff_bypass (hs : g.contains s = true) (hv : v ≠ e) :
    v ∈ g.regionBetween s e ↔ g.Bypass e s v := by
  rw [mem_regionBetween]
  constructor
  · intro h
    induction h with
    | refl => exact .stay hs hv
    | tail _ hstep ih =>
      obtain ⟨hb, hsucc⟩ := mem_stepsUntil.1 hstep
      exact (ih hb).snoc hsucc hv
  · rintro ⟨p, hp, hep⟩
    induction hp with
    | stay => exact .refl
    | @step v u w p hvu hp ih =>
      rw [List.mem_cons, not_or] at hep
      have hstep : u ∈ g.stepsUntil e v := mem_stepsUntil.2 ⟨Ne.symm hep.1, hvu⟩
      exact .trans (.tail .refl hstep) (ih hp.contains_source hv hep.2)

theorem entry_mem_regionBetween (g : FlowGraph) (s e : VertexId) : s ∈ g.regionBetween s e :=
  mem_regionBetween.2 .refl

/-- The steps of the walk stay in the region. -/
theorem mem_regionBetween_of_successor (hv : v ∈ g.regionBetween s e) (hne : v ≠ e)
    (hw : w ∈ g.successors v) : w ∈ g.regionBetween s e :=
  mem_regionBetween.2 (.tail (mem_regionBetween.1 hv) (mem_stepsUntil.2 ⟨hne, hw⟩))

/-- A route leads from the entry to whatever a region covers. -/
theorem exists_route_of_mem_region (hs : g.contains s = true) (hv : v ∈ g.regionBetween s e) :
    ∃ p, g.Route s v p := by
  rw [mem_regionBetween] at hv
  induction hv with
  | refl => exact ⟨[s], .stay hs⟩
  | tail _ hstep ih =>
    obtain ⟨p, hp⟩ := ih
    exact ⟨_, hp.snoc (mem_stepsUntil.1 hstep).2⟩

/-- The way from the entry to whatever a region covers avoids what it does not cover. -/
theorem bypass_of_mem_region (hs : g.contains s = true) (hv : v ∈ g.regionBetween s e)
    (hw : w ∉ g.regionBetween s e) : g.Bypass w s v := by
  have hne : ∀ u ∈ g.regionBetween s e, u ≠ w := fun u hu huw => hw (huw ▸ hu)
  have hchain := mem_regionBetween.1 hv
  clear hv
  induction hchain with
  | refl => exact .stay hs (hne s (entry_mem_regionBetween g s e))
  | tail hab hstep ih =>
    exact ih.snoc (mem_stepsUntil.1 hstep).2 (hne _ (mem_regionBetween.2 (.tail hab hstep)))

/-- An exit that can be reached belongs to the region. -/
theorem exit_mem_regionBetween {p : List VertexId} (hp : g.Route s e p) :
    e ∈ g.regionBetween s e := by
  by_cases hse : s = e
  · subst hse
    exact entry_mem_regionBetween g s s
  · obtain ⟨u, hu, hbypass⟩ := hp.arrive hse
    have humem := (mem_regionBetween_iff_bypass hp.contains_source hbypass.target_ne).2 hbypass
    exact mem_regionBetween_of_successor humem hbypass.target_ne hu

/-- Some vertex before the exit leads to it. -/
theorem exists_before_exit (hne : s ≠ e) (he : e ∈ g.regionBetween s e) :
    ∃ u ∈ g.regionBetween s e, u ≠ e ∧ e ∈ g.successors u := by
  cases mem_regionBetween.1 he with
  | refl => exact absurd rfl hne
  | @tail u _ hchain hstep =>
    obtain ⟨hu, hsucc⟩ := mem_stepsUntil.1 hstep
    exact ⟨u, mem_regionBetween.2 hchain, hu, hsucc⟩

/-- A region whose entry is covered and which does not reach the exit is covered. -/
theorem regionBetween_subset (hs' : s' ∈ g.regionBetween s e) (he : e ∉ g.regionBetween s' e') :
    g.regionBetween s' e' ⊆ g.regionBetween s e := by
  intro v hv
  have hchain := mem_regionBetween.1 hv
  clear hv
  induction hchain with
  | refl => exact hs'
  | tail hab hstep ih =>
    -- the walk of the inner region does not meet the exit where the outer one would stop
    refine mem_regionBetween_of_successor ih ?_ (mem_stepsUntil.1 hstep).2
    rintro rfl
    exact he (mem_regionBetween.2 hab)

/-! ## Candidates and their regions -/

theorem Candidate.exit_mem_region (hg : g.Flows source sink)
    (h : g.Candidate source sink admitted s e) : e ∈ g.regionBetween s e := by
  obtain ⟨p, hp⟩ := hg.reaching s h.entry_mem
  obtain ⟨⟨_, hq, _⟩, _⟩ := hp.cut (h.postdominates p hp)
  exact exit_mem_regionBetween hq

/-- Whatever a region covers is postdominated by its exit. -/
theorem Candidate.postdominates_of_mem (h : g.Candidate source sink admitted s e)
    (hv : v ∈ g.regionBetween s e) : g.Necessary v sink e := by
  by_cases hve : v = e
  · exact hve ▸ .source g v sink
  · exact h.postdominates.of_bypass ((mem_regionBetween_iff_bypass h.entry_mem hve).1 hv)

/-- A route leads from whatever a region covers to the exit. -/
theorem Candidate.exists_route_to_exit (hg : g.Flows source sink)
    (h : g.Candidate source sink admitted s e) (hv : v ∈ g.regionBetween s e) :
    ∃ p, g.Route v e p := by
  obtain ⟨p, hp⟩ := exists_route_of_mem_region h.entry_mem hv
  obtain ⟨q, hq⟩ := hg.reaching v hp.contains_target
  obtain ⟨⟨r, hr, _⟩, _⟩ := hq.cut (h.postdominates_of_mem hv q hq)
  exact ⟨r, hr⟩

/-- No region leads through its exit to the exit of a pair that begins there. -/
theorem Candidate.exit_not_mem_of_meets (hg : g.Flows source sink)
    (h : g.Candidate source sink admitted s e) (h' : g.Candidate source sink admitted e e') :
    e' ∉ g.regionBetween s e := by
  intro he'
  obtain ⟨p, hp⟩ := hg.reached e h.exit_mem
  -- from the source around `e` to `s`, and on inside the region to `e'`, which `e` dominates
  have hbefore : g.Bypass e source s := not_necessary_iff.1 fun hs => by
    obtain ⟨q, hq⟩ := hg.reached s h.entry_mem
    exact h.ne (Necessary.antisymm_left hs h.dominates hq)
  have hinside := (mem_regionBetween_iff_bypass h.entry_mem h'.ne.symm).1 he'
  exact not_bypass_iff.2 h'.dominates (hbefore.trans hinside)

/-! ## Minimal pairs -/

/-- A pair whose entry is covered by another region cannot reach past that region's exit: it would
decompose there. -/
theorem MinimalPair.not_behind (hg : g.Flows source sink)
    (h : g.MinimalPair source sink admitted s e) (h' : g.MinimalPair source sink admitted s' e')
    (hs' : s' ∈ g.regionBetween s e) (hs'e : s' ≠ e) (hee' : e ≠ e') :
    ¬ g.Necessary e sink e' := by
  intro hbehind
  have hpost : g.Necessary s' sink e := h.postdominates_of_mem hs'
  obtain ⟨p, hp⟩ := hg.reaching e h.exit_mem
  have hback : g.Bypass e e' sink :=
    not_necessary_iff.1 fun hn => hee' (Necessary.antisymm hbehind hn hp)
  have hway : g.Necessary s' e' e := hpost.before hback
  have hdom : g.Necessary source e s' := by
    -- otherwise `s'` and `e` would each be necessary for the other on the way to `e'`
    by_contra hn
    have hreturn : g.Necessary e e' s' := h'.dominates.of_bypass (not_necessary_iff.1 hn)
    obtain ⟨q, hq⟩ := hg.reaching s' h'.entry_mem
    obtain ⟨⟨_, hr, _⟩, _⟩ := hq.cut (h'.postdominates q hq)
    exact hs'e (Necessary.antisymm hway hreturn hr)
  refine h'.indecomposable ⟨e, ?_, ?_⟩
  · exact ⟨h'.entry_mem, h.exit_mem, h'.entry_admitted, h.exit_admitted, hs'e, hdom, hpost⟩
  · exact ⟨h.exit_mem, h'.exit_mem, h.exit_admitted, h'.exit_admitted, hee',
      h'.dominates.trans hway, hbehind⟩

/-- The region of a pair whose entry is covered by another region ends before that region's
exit. -/
theorem MinimalPair.exit_not_mem (hg : g.Flows source sink)
    (h : g.MinimalPair source sink admitted s e) (h' : g.MinimalPair source sink admitted s' e')
    (hs' : s' ∈ g.regionBetween s e) (hs'e : s' ≠ e) (hss' : s ≠ s') :
    e ∉ g.regionBetween s' e' := by
  have hee' : e ≠ e' := by
    rintro rfl
    exact hss' (h.entry_unique hg h')
  have hbypass : g.Bypass e' e sink := not_necessary_iff.1 (h.not_behind hg h' hs' hs'e hee')
  have hway : g.Necessary s' e e' := h'.postdominates.before hbypass
  rw [mem_regionBetween_iff_bypass h'.entry_mem hee']
  exact not_bypass_iff.2 hway

/-- A region that covers the entry of another pair covers that pair's whole region. -/
theorem MinimalPair.region_subset (hg : g.Flows source sink)
    (h : g.MinimalPair source sink admitted s e) (h' : g.MinimalPair source sink admitted s' e')
    (hs' : s' ∈ g.regionBetween s e) (hs'e : s' ≠ e) (hss' : s ≠ s') :
    g.regionBetween s' e' ⊆ g.regionBetween s e :=
  regionBetween_subset hs' (h.exit_not_mem hg h' hs' hs'e hss')

/-- Two different pairs of which one's region is covered by the other's: the entry is covered
before the exit. -/
theorem MinimalPair.entry_ne_exit_of_subset (hg : g.Flows source sink)
    (h : g.MinimalPair source sink admitted s e) (h' : g.MinimalPair source sink admitted s' e')
    (hsub : g.regionBetween s' e' ⊆ g.regionBetween s e) : s' ≠ e := by
  rintro rfl
  exact h.toCandidate.exit_not_mem_of_meets hg h'.toCandidate
    (hsub e' (h'.toCandidate.exit_mem_region hg))

end FlowGraph

end FlowRegions
