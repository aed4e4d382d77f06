import FlowRegions.Proofs.Induced
import FlowRegions.Proofs.Terminals

/-!
# Regions cut out of an acyclic graph

The region of a candidate of an acyclic graph, cut out and renumbered, is a flow graph in its own
right: routes between its vertices do not leave it (`CutOut.convex`), so its entry is the only
source and its exit the only sink (`CutOut.endpoints`). What is necessary on the way from the source
of the whole graph is so on the way from the entry, which dominates the region, and likewise towards
the sink and the exit. Hence the cut-out region has the candidates and the minimal pairs that the
graph has inside it (`CutOut.candidate_iff`, `CutOut.minimalPair_iff`).
-/

namespace FlowRegions

namespace FlowGraph

variable {g g' : FlowGraph} {source sink s e u v w x y : VertexId} {part : VertexSet}
variable {f : VertexId → VertexId} {admitted admitted' : VertexId → Bool} {p : List VertexId}

/-- One graph is a copy of the region of a candidate of another one without cycles. -/
structure CutOut (g g' : FlowGraph) (source sink : VertexId) (admitted : VertexId → Bool)
    (s e : VertexId) (part : VertexSet) (f : VertexId → VertexId) : Prop extends
    g.Copy g' part f where
  acyclic : g.Acyclic
  flows : g.Flows source sink
  candidate : g.Candidate source sink admitted s e
  mem_part_iff : ∀ v, v ∈ part ↔ v ∈ g.regionBetween s e

namespace CutOut

variable (hc : g.CutOut g' source sink admitted s e part f)

include hc

theorem entry_mem : s ∈ part := (hc.mem_part_iff s).2 (entry_mem_regionBetween g s e)

theorem exit_mem : e ∈ part := (hc.mem_part_iff e).2 (hc.candidate.exit_mem_region hc.flows)

/-- Routes lead from the entry to every vertex of the region. -/
theorem exists_route_from_entry (hv : v ∈ part) : ∃ p, g.Route s v p :=
  exists_route_of_mem_region hc.candidate.entry_mem ((hc.mem_part_iff v).1 hv)

/-- Routes lead from every vertex of the region to the exit. -/
theorem exists_route_to_exit (hv : v ∈ part) : ∃ p, g.Route v e p :=
  hc.candidate.exists_route_to_exit hc.flows ((hc.mem_part_iff v).1 hv)

/-- Edges lead on inside the region, except from the exit. -/
theorem mem_part_of_successor (hv : v ∈ part) (hve : v ≠ e) (hu : u ∈ g.successors v) :
    u ∈ part :=
  (hc.mem_part_iff u).2 (mem_regionBetween_of_successor ((hc.mem_part_iff v).1 hv) hve hu)

/-- No edge leads from the exit back to the region. -/
theorem ne_exit_of_successor (hu : u ∈ part) (hvu : u ∈ g.successors v) : v ≠ e := by
  rintro rfl
  exact hc.acyclic v u hvu (hc.exists_route_to_exit hu)

/-- No edge leads from the region back to the entry. -/
theorem ne_entry_of_successor (hv : v ∈ part) (hvu : u ∈ g.successors v) : u ≠ s := by
  rintro rfl
  exact hc.acyclic v u hvu (hc.exists_route_from_entry hv)

/-- Routes between vertices of the region do not leave it: behind the exit they would have to come
back. -/
theorem convex : g.Convex part := by
  intro v hv w hw x p q hp hq
  induction hp with
  | stay => exact hv
  | @step v u x p hvu hp ih =>
    have hve : v ≠ e := by
      rintro rfl
      obtain ⟨r, hr⟩ := hc.exists_route_to_exit hw
      obtain ⟨p', hp', _⟩ := hp.join hq
      obtain ⟨r', hr', _⟩ := hp'.join hr
      exact hc.acyclic v u hvu ⟨r', hr'⟩
    exact ih (hc.mem_part_of_successor hv hve hvu) hq

/-! ## The endpoints -/

/-- Every vertex but the exit has a successor in the region. -/
theorem exists_successor (hv : v ∈ part) (hve : v ≠ e) : ∃ u ∈ part, u ∈ g.successors v := by
  obtain ⟨p, hp⟩ := hc.exists_route_to_exit hv
  cases hp with
  | stay => exact absurd rfl hve
  | step hvu _ => exact ⟨_, hc.mem_part_of_successor hv hve hvu, hvu⟩

/-- Every vertex but the entry has a predecessor in the region. -/
theorem exists_predecessor (hv : v ∈ part) (hvs : v ≠ s) : ∃ u ∈ part, v ∈ g.successors u := by
  cases mem_regionBetween.1 ((hc.mem_part_iff v).1 hv) with
  | refl => exact absurd rfl hvs
  | tail hchain hstep =>
    exact ⟨_, (hc.mem_part_iff _).2 (mem_regionBetween.2 hchain), (mem_stepsUntil.1 hstep).2⟩

theorem isSource_iff (hv : v ∈ part) : g'.isSource (f v) = true ↔ v = s := by
  rw [FlowGraph.isSource_iff]
  constructor
  · rintro ⟨hpred, _⟩
    by_contra hvs
    obtain ⟨u, hu, huv⟩ := hc.exists_predecessor hv hvs
    have hmem := mem_predecessors.2 ((hc.mem_successors hu).2 ⟨v, hv, huv, rfl⟩)
    simp [hpred] at hmem
  · rintro rfl
    constructor
    · rw [List.eq_nil_iff_forall_not_mem]
      intro u' hu'
      have hedge := mem_predecessors.1 hu'
      obtain ⟨u, hu, rfl⟩ := (hc.contains_iff u').1
        (contains_of_successors_ne_nil (List.ne_nil_of_mem hedge))
      obtain ⟨w, hw, huw, heq⟩ := (hc.mem_successors hu).1 hedge
      exact hc.ne_entry_of_successor hu huw (hc.inj w hw v hv heq)
    · obtain ⟨u, hu, hvu⟩ := hc.exists_successor hv hc.candidate.ne
      exact List.ne_nil_of_mem ((hc.mem_successors hv).2 ⟨u, hu, hvu, rfl⟩)

theorem isSink_iff (hv : v ∈ part) : g'.isSink (f v) = true ↔ v = e := by
  rw [FlowGraph.isSink_iff]
  constructor
  · rintro ⟨hsucc, _⟩
    by_contra hve
    obtain ⟨u, hu, hvu⟩ := hc.exists_successor hv hve
    have hmem := (hc.mem_successors hv).2 ⟨u, hu, hvu, rfl⟩
    simp [hsucc] at hmem
  · rintro rfl
    constructor
    · rw [List.eq_nil_iff_forall_not_mem]
      intro u' hu'
      obtain ⟨u, hu, hvu, _⟩ := (hc.mem_successors hv).1 hu'
      exact hc.ne_exit_of_successor hu hvu rfl
    · obtain ⟨u, hu, huv⟩ := hc.exists_predecessor hv hc.candidate.ne.symm
      exact List.ne_nil_of_mem
        (mem_predecessors.2 ((hc.mem_successors hu).2 ⟨v, hv, huv, rfl⟩))

/-- The entry is the only source, and the exit the only sink. -/
theorem endpoints : g'.endpoints = .ok (f s, f e) := by
  refine endpoints_eq_ok_iff.2 ⟨filter_vertices_eq_singleton fun u => ?_,
    filter_vertices_eq_singleton fun u => ?_, fun heq => ?_⟩
  · constructor
    · rintro ⟨hu, hsource⟩
      obtain ⟨v, hv, rfl⟩ := (hc.contains_iff u).1 hu
      rw [(hc.isSource_iff hv).1 hsource]
    · rintro rfl
      exact ⟨hc.contains hc.entry_mem, (hc.isSource_iff hc.entry_mem).2 rfl⟩
  · constructor
    · rintro ⟨hu, hsink⟩
      obtain ⟨v, hv, rfl⟩ := (hc.contains_iff u).1 hu
      rw [(hc.isSink_iff hv).1 hsink]
    · rintro rfl
      exact ⟨hc.contains hc.exit_mem, (hc.isSink_iff hc.exit_mem).2 rfl⟩
  · exact hc.candidate.ne (hc.inj s hc.entry_mem e hc.exit_mem heq)

/-- The region flows from its entry to its exit. -/
theorem flows_copy : g'.Flows (f s) (f e) where
  source_mem := hc.contains hc.entry_mem
  sink_mem := hc.contains hc.exit_mem
  reached u hu := by
    obtain ⟨v, hv, rfl⟩ := (hc.contains_iff u).1 hu
    exact (hc.exists_route_iff hc.convex hc.entry_mem hv).2 (hc.exists_route_from_entry hv)
  reaching u hu := by
    obtain ⟨v, hv, rfl⟩ := (hc.contains_iff u).1 hu
    exact (hc.exists_route_iff hc.convex hv hc.exit_mem).2 (hc.exists_route_to_exit hv)

/-! ## Candidates and minimal pairs -/

/-- In the region, dominance may be told from the entry. -/
theorem dominates_iff (hx : x ∈ part) (hy : y ∈ part) :
    g'.Necessary (f s) (f y) (f x) ↔ g.Necessary source y x := by
  rw [hc.necessary_iff hc.convex hc.entry_mem hy hx]
  have hdom : g.Necessary source y s :=
    hc.candidate.dominates_of_mem hc.acyclic hc.flows ((hc.mem_part_iff y).1 hy)
  refine ⟨hdom.trans, fun h p hp => ?_⟩
  -- a route from the source that passes `x` before the entry would lead back to it
  by_contra hxp
  have haround : g.Bypass x source s := by
    refine not_necessary_iff.1 fun hback => ?_
    obtain ⟨q, hq⟩ := hc.exists_route_from_entry hx
    obtain ⟨r, hr⟩ := hc.flows.reached s hc.candidate.entry_mem
    obtain ⟨_, r', hr', _⟩ := hr.cut (hback r hr)
    exact hxp (hc.acyclic.antisymm hr' hq ▸ hp.source_mem)
  exact not_bypass_iff.2 h (haround.trans ⟨p, hp, hxp⟩)

/-- In the region, postdominance may be told towards the exit. -/
theorem postdominates_iff (hx : x ∈ part) (hy : y ∈ part) :
    g'.Necessary (f x) (f e) (f y) ↔ g.Necessary x sink y := by
  rw [hc.necessary_iff hc.convex hx hc.exit_mem hy]
  have hpost : g.Necessary x sink e :=
    hc.candidate.postdominates_of_mem ((hc.mem_part_iff x).1 hx)
  refine ⟨hpost.trans_left, fun h p hp => ?_⟩
  by_contra hyp
  have haround : g.Bypass y e sink := by
    refine not_necessary_iff.1 fun hback => ?_
    obtain ⟨q, hq⟩ := hc.exists_route_to_exit hy
    obtain ⟨r, hr⟩ := hc.flows.reaching e hc.candidate.exit_mem
    obtain ⟨⟨r', hr', _⟩, _⟩ := hr.cut (hback r hr)
    exact hyp (hc.acyclic.antisymm hr' hq ▸ hp.target_mem)
  exact not_bypass_iff.2 h (Bypass.trans ⟨p, hp, hyp⟩ haround)

/-- Pairs of vertices of the region are candidates there when they are in the graph. -/
theorem candidate_iff (hadm : ∀ v ∈ part, admitted' (f v) = admitted v) (hx : x ∈ part)
    (hy : y ∈ part) :
    g'.Candidate (f s) (f e) admitted' (f x) (f y) ↔ g.Candidate source sink admitted x y := by
  constructor
  · intro h
    refine ⟨hc.part_mem x hx, hc.part_mem y hy, ?_, ?_, fun heq => h.ne (congrArg f heq),
      (hc.dominates_iff hx hy).1 h.dominates, (hc.postdominates_iff hx hy).1 h.postdominates⟩
    · rw [← hadm x hx, h.entry_admitted]
    · rw [← hadm y hy, h.exit_admitted]
  · intro h
    refine ⟨hc.contains hx, hc.contains hy, ?_, ?_, fun heq => h.ne (hc.inj x hx y hy heq),
      (hc.dominates_iff hx hy).2 h.dominates, (hc.postdominates_iff hx hy).2 h.postdominates⟩
    · rw [hadm x hx, h.entry_admitted]
    · rw [hadm y hy, h.exit_admitted]

/-- What a candidate inside the region covers is inside. -/
theorem region_subset (hx : x ∈ part) (hy : y ∈ part)
    (h : g.Candidate source sink admitted x y) (hv : v ∈ g.regionBetween x y) : v ∈ part := by
  obtain ⟨p, hp⟩ := exists_route_of_mem_region h.entry_mem hv
  obtain ⟨q, hq⟩ := h.exists_route_to_exit hc.flows hv
  exact hc.convex x hx y hy v p q hp hq

/-- Pairs of vertices of the region are minimal there when they are in the graph: whatever would
decompose them lies in the region. -/
theorem minimalPair_iff (hadm : ∀ v ∈ part, admitted' (f v) = admitted v) (hx : x ∈ part)
    (hy : y ∈ part) :
    g'.MinimalPair (f s) (f e) admitted' (f x) (f y) ↔
      g.MinimalPair source sink admitted x y := by
  rw [FlowGraph.minimalPair_iff, FlowGraph.minimalPair_iff, hc.candidate_iff hadm hx hy]
  refine and_congr_right fun _ => not_congr ⟨?_, ?_⟩
  · rintro ⟨u, hxu, huy⟩
    obtain ⟨m, hm, rfl⟩ := (hc.contains_iff u).1 hxu.exit_mem
    exact ⟨m, (hc.candidate_iff hadm hx hm).1 hxu, (hc.candidate_iff hadm hm hy).1 huy⟩
  · rintro ⟨m, hxm, hmy⟩
    have hm : m ∈ part := by
      obtain ⟨p, hp⟩ := hxm.exists_route_to_exit hc.flows (entry_mem_regionBetween g x m)
      obtain ⟨q, hq⟩ := hmy.exists_route_to_exit hc.flows (entry_mem_regionBetween g m y)
      exact hc.convex x hx y hy m p q hp hq
    exact ⟨f m, (hc.candidate_iff hadm hx hm).2 hxm, (hc.candidate_iff hadm hm hy).2 hmy⟩

end CutOut

/-! ## Masks -/

/-- The source of the graph is in the region only as its entry, and the sink only as its exit. So a
restricted mask admits what the mask admits. -/
theorem CutOut.admittedBy_restrict {mask : Option BoundaryMask}
    (hc : g.CutOut g' source sink (admittedBy mask source sink) s e part part.rank)
    (hv : v ∈ part) :
    admittedBy (mask.map (·.restrict part)) (part.rank s) (part.rank e) (part.rank v) =
      admittedBy mask source sink v := by
  have hregion := (hc.mem_part_iff v).1 hv
  apply Bool.eq_iff_iff.2
  constructor
  · intro h
    rcases admittedBy_iff.1 h with h | h | h
    · refine admittedBy_iff.2 (.inl fun m hm => ?_)
      exact (BoundaryMask.contains_restrict hv).1
        (h _ (Option.mem_map_of_mem (·.restrict part) hm))
    · exact hc.inj v hv s hc.entry_mem h ▸ hc.candidate.entry_admitted
    · exact hc.inj v hv e hc.exit_mem h ▸ hc.candidate.exit_admitted
  · intro h
    rcases admittedBy_iff.1 h with h | rfl | rfl
    · refine admittedBy_iff.2 (.inl fun m hm => ?_)
      obtain ⟨k, hk, rfl⟩ := Option.mem_map.1 hm
      exact (BoundaryMask.contains_restrict hv).2 (h k hk)
    · -- the entry dominates the source, so it is the source
      have hdom := hc.candidate.dominates_of_mem hc.acyclic hc.flows hregion
      have hmem := hdom [v] (.stay (hc.part_mem v hv))
      exact admittedBy_iff.2 (.inr (.inl (congrArg _ (List.mem_singleton.1 hmem).symm)))
    · have hpost := hc.candidate.postdominates_of_mem hregion
      have hmem := hpost [v] (.stay (hc.part_mem v hv))
      exact admittedBy_iff.2 (.inr (.inr (congrArg _ (List.mem_singleton.1 hmem).symm)))

end FlowGraph

end FlowRegions
