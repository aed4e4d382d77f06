import FlowRegions.Proofs.Completeness
import FlowRegions.Proofs.Numbering
import FlowRegions.Proofs.Outcome
import FlowRegions.Proofs.Preorder

/-!
# A hammock around the whole graph

The source and the sink of a graph are the bounds of a hammock exactly when no admitted vertex lies
between them on all routes (`Flows.minimalPair_iff`). The walk that measures it meets every vertex,
as it stops only at the sink, which leads nowhere (`Flows.mem_regionBetween_iff`). Any other hammock
begins inside and before the sink, with or without loops, so it covers strictly less. Hence no other
hammock is as large, and the root, which attaches whatever it covers entirely, attaches all
(`Nests.root_of_ssubset`).
-/

namespace FlowRegions

open Log

namespace FlowGraph

variable {g : FlowGraph} {source sink v : VertexId} {mask : Option BoundaryMask}

/-! ## The pair of the source and the sink -/

/-- The source and the sink are a minimal pair unless some other admitted vertex lies on all routes
from one to the other. -/
theorem Flows.minimalPair_iff (hg : g.Flows source sink) (hne : source ≠ sink) :
    g.MinimalPair source sink (admittedBy mask source sink) source sink ↔
      ¬ ∃ m, (∀ k ∈ mask, k.contains m = true) ∧ m ≠ source ∧ m ≠ sink ∧
        ∀ p, g.Route source sink p → m ∈ p := by
  rw [FlowGraph.minimalPair_iff, and_iff_right (hg.candidate hne)]
  refine not_congr (exists_congr fun m => ⟨?_, ?_⟩)
  · rintro ⟨hsm, hme⟩
    have hadm := (admittedBy_iff.1 hsm.exit_admitted).resolve_right
      (not_or_intro hsm.ne.symm hme.ne)
    exact ⟨hadm, hsm.ne.symm, hme.ne, hsm.postdominates⟩
  · rintro ⟨hadm, hsource, hsink, hway⟩
    exact hg.candidates_of_necessary hne (admittedBy_iff.2 (.inl hadm)) hsource hsink hway

/-- The region between the source and the sink is the whole graph, if no edge leads on from the
sink. -/
theorem Flows.mem_regionBetween_iff (hg : g.Flows source sink) (hsink : g.successors sink = []) :
    v ∈ g.regionBetween source sink ↔ g.contains v = true := by
  constructor
  · intro hv
    obtain ⟨p, hp⟩ := exists_route_of_mem_region hg.source_mem hv
    exact hp.contains_target
  · intro hv
    obtain ⟨p, hp⟩ := hg.reached v hv
    have hchain := hp.chain
    clear hp hv
    induction hchain with
    | refl => exact entry_mem_regionBetween g source sink
    | @tail u w _ hstep ih =>
      have hw := mem_successorSet.1 hstep
      apply mem_regionBetween_of_successor ih _ hw
      rintro rfl
      rw [hsink] at hw
      cases hw

theorem card_vertexSet (g : FlowGraph) : g.vertexSet.card = g.vertexCount :=
  g.successorTable.length_vertices

end FlowGraph

namespace HammockRegistry

variable {r : HammockRegistry} {g : FlowGraph} {i j : HammockId} {x y : Hammock}
variable {source sink s e : VertexId} {mask : Option BoundaryMask} {mode : SweepMode}
variable {a : BoundaryAnalysis} {t : HammockTree}

/-! ## Registered pairs -/

/-- There are enough identifiers for the hammocks of an analysis. -/
theorem size_register_lt_idCount
    (h : (g.analyseBoundaries source sink mask mode).run.value = .ok a) :
    (register g a.minimal).value.size < idCount := by
  rw [size_register]
  exact (FlowGraph.size_minimal_lt h).trans g.successorTable.size_lt_idCount

/-- The bounds of the registered hammocks are the minimal pairs. -/
theorem exists_get?_iff_minimalPair
    (h : (g.analyseBoundaries source sink mask mode).run.value = .ok a) :
    (∃ i x, (register g a.minimal).value.get? i = some x ∧ x.bounds = (s, e)) ↔
      g.MinimalPair source sink (admittedBy mask source sink) s e := by
  constructor
  · rintro ⟨i, x, hx, hbounds⟩
    obtain ⟨rfl, rfl⟩ := Prod.mk.inj hbounds
    exact (minimalPair_of_get? h hx).1
  · intro hpair
    have hmem := BoundaryRelation.mem_pairs.2 ((FlowGraph.mem_exits_minimal_iff h).2 hpair)
    obtain ⟨n, hn⟩ := List.mem_iff_getElem?.1 hmem
    have hlt : n < idCount := by
      have hlength := (List.getElem?_eq_some_iff.1 hn).1
      have hsize := size_register_lt_idCount h
      rw [BoundaryRelation.length_pairs, ← size_register g] at hlength
      exact hlength.trans hsize
    rw [← DenseId.index_ofIndex_of_lt hlt] at hn
    exact ⟨.ofIndex n, _, get?_register.2 ⟨s, e, hn, rfl⟩, rfl⟩

/-- Identifiers of registered hammocks are not repeated, as long as there are enough of them. -/
theorem nodup_ids (hsize : r.size ≤ idCount) : r.ids.Nodup := by
  refine List.nodup_range.map_on fun i hi j hj heq => ?_
  rw [List.mem_range] at hi hj
  rw [← DenseId.index_inj, DenseId.index_ofIndex_of_lt (by omega),
    DenseId.index_ofIndex_of_lt (by omega)] at heq
  exact heq

/-- If all hammocks are attached, preorder is as long as there are hammocks. -/
theorem length_preorder_eq_size (ht : (r.nest g).run.value = .ok t) (hsize : r.size ≤ idCount)
    (hatt : ∀ c x, r.get? c = some x → c ∈ t.attached) : t.preorder.length = r.size := by
  have hs := passes_of_nest ht
  have hmem : ∀ c, c ∈ t.attached ↔ c ∈ r.ids := fun c => by
    rw [mem_ids, Option.isSome_iff_exists]
    exact ⟨hs.linked.registered c, fun ⟨x, hx⟩ => hatt c x hx⟩
  have hperm : t.attached.toList.Perm r.ids :=
    (List.perm_ext_iff_of_nodup (IdSet.nodup_of_ascending t.attached.ascending)
      (nodup_ids hsize)).2 hmem
  have hlength : r.ids.length = r.size := by rw [ids, List.length_map, List.length_range]
  exact (hs.perm_preorder.trans hperm).length_eq.trans hlength

/-! ## The largest hammock -/

/-- A hammock that covers strictly more than any other is the root, and all are attached. -/
theorem Nests.root_of_ssubset (hn : r.Nests g) (ht : (r.nest g).run.value = .ok t)
    (hx : r.get? i = some x)
    (hsub : ∀ j y, r.get? j = some y → j ≠ i → r.coverage j ⊂ r.coverage i) :
    t.root = i ∧ ∀ j y, r.get? j = some y → j ∈ t.attached := by
  have hlargest := (passes_of_nest ht).largest.2
  have hroot : t.root = i := by
    by_contra hne
    have hlt := sizeOf_lt_of_ssubset hx (get?_root ht) (hsub _ _ (get?_root ht) hne)
    have hle := sizeOf_le_of_largest? hlargest (mem_ids_of_get? hx)
    exact absurd hle (Nat.not_le_of_lt hlt)
  refine ⟨hroot, fun j y hy => ?_⟩
  rw [hn.attached_iff_subset ht hy, hroot]
  by_cases hji : j = i
  · rw [hji]
  · exact (hsub j y hy hji).1

end HammockRegistry

namespace FlowGraph

open HammockRegistry

/-- The source and the sink bound a hammock exactly when no other admitted vertex lies on all routes
from the source to the sink. Such a hammock is the root, its size is the number of vertices, it
covers all of them, and all hammocks are attached. -/
theorem spanning_hammock_is_root (g : FlowGraph) (config : Config) (mask : Option BoundaryMask)
    {d : Decomposition} {r : HammockRegistry}
    (hd : (g.decompose config mask).run.value = .ok d) (hr : d.tree.registry = r) :
    g.endpoints = .ok (d.source, d.sink) ∧
    ((∃ i x, r.get? i = some x ∧ x.bounds = (d.source, d.sink)) ↔
      ¬ ∃ m, (∀ k ∈ mask, k.contains m = true) ∧ m ≠ d.source ∧ m ≠ d.sink ∧
        ∀ p, g.Route d.source d.sink p → m ∈ p) ∧
    ∀ i x, r.get? i = some x → x.bounds = (d.source, d.sink) →
      d.tree.root = i ∧ x.size = g.vertexCount ∧
        (∀ v, g.contains v = true → v ∈ r.coverage i) ∧
        (∀ j y, r.get? j = some y → d.tree.isAttached j = true) ∧
        d.tree.preorder.length = r.size := by
  obtain ⟨a, ha, ht⟩ := of_decompose hd
  have hs := passes_of_nest ht
  obtain rfl : (register g a.minimal).value = r := hs.registry_eq.symm.trans hr
  have hends := endpoints_of_decompose hd
  have hg := flows_of_analyseBoundaries ha
  have hn := nests_register ha
  refine ⟨hends, ?_, fun i x hx hbounds => ?_⟩
  · rw [exists_get?_iff_minimalPair ha, hg.minimalPair_iff (source_ne_sink_of_endpoints hends)]
  · obtain ⟨hentry, hexit⟩ : x.entry = d.source ∧ x.exit = d.sink := Prod.mk.inj hbounds
    have hregion : ∀ v, v ∈ g.regionBetween x.entry x.exit ↔ g.contains v = true := fun v => by
      rw [hentry, hexit]
      exact hg.mem_regionBetween_iff (isSink_of_endpoints hends).1
    have hspan : ∀ v, g.contains v = true → v ∈ (register g a.minimal).value.coverage i :=
      fun v hv => (hn.mem_coverage_iff hx).2 ((hregion v).2 hv)
    obtain ⟨hroot, hatt⟩ := hn.root_of_ssubset ht hx fun j y hy hji => by
      have hpair := (minimalPair_of_get? ha hy).1
      have hbefore : y.entry ≠ x.exit := hexit ▸ hpair.entry_ne_sink
      exact (hn.coverage_ssubset hx hy (Ne.symm hji) (hspan _ hpair.entry_mem) hbefore).1
    have hbody : x.body = g.vertexSet := IdSet.ext fun v => by
      rw [hn.body_eq hx, hregion, mem_vertexSet]
    refine ⟨hroot, ?_, hspan, fun j y hy => decide_eq_true (hatt j y hy), ?_⟩
    · rw [Hammock.size, hbody, card_vertexSet]
    · exact length_preorder_eq_size ht (Nat.le_of_lt (size_register_lt_idCount ha)) hatt

/-- Two lanes between the source and the sink, one with an edge back and the other with a loop. -/
def loopedLanes : FlowGraph :=
  ((new 6).addEdges [(⟨0⟩, ⟨1⟩), (⟨1⟩, ⟨2⟩), (⟨2⟩, ⟨1⟩), (⟨2⟩, ⟨5⟩), (⟨0⟩, ⟨3⟩), (⟨3⟩, ⟨3⟩),
    (⟨3⟩, ⟨4⟩), (⟨4⟩, ⟨5⟩)]).toOption.getD default

/-- Around the looped lanes there is a hammock: neither lane is on all routes. It is the root, and
the hammock in the second lane is attached. -/
theorem root_around_looped_lanes :
    ∃ d x, (loopedLanes.decompose .reference none).run.value = .ok d ∧
      d.tree.registry.get? d.tree.root = some x ∧ x.bounds = (d.source, d.sink) ∧
      x.size = loopedLanes.vertexCount ∧ ⟨4⟩ ∈ d.tree.registry.coverage d.tree.root ∧
      d.tree.isAttached ⟨2⟩ = true ∧ d.tree.preorder.length = d.tree.size ∧
      ¬ ∀ p, loopedLanes.Route d.source d.sink p → ⟨4⟩ ∈ p := by
  have hends : loopedLanes.endpoints = .ok (⟨0⟩, ⟨5⟩) := by decide +kernel
  obtain ⟨a, ha, hbounds, htwo⟩ : ∃ a,
      (loopedLanes.analyseBoundaries ⟨0⟩ ⟨5⟩ none .inPlace).run.value = .ok a ∧
      ((register loopedLanes a.minimal).value.get? ⟨0⟩).map Hammock.bounds = some (⟨0⟩, ⟨5⟩) ∧
      ((register loopedLanes a.minimal).value.get? ⟨2⟩).isSome = true :=
    ⟨(loopedLanes.analyseBoundaries ⟨0⟩ ⟨5⟩ none .inPlace).run.value.toOption.get
      (by decide +kernel), by decide +kernel, by decide +kernel, by decide +kernel⟩
  obtain ⟨d, hd, hsource, hsink, hreg, _⟩ := exists_decompose_of_analysis .reference hends ha
  rw [← hreg] at hbounds htwo
  rw [← hsource, ← hsink] at hbounds
  obtain ⟨x, hx, hbounds⟩ := Option.map_eq_some_iff.1 hbounds
  obtain ⟨y, hy⟩ := Option.isSome_iff_exists.1 htwo
  obtain ⟨_, hfree, hspan⟩ := spanning_hammock_is_root loopedLanes .reference none hd rfl
  obtain ⟨hroot, hsize, hcover, hatt, hpreorder⟩ := hspan ⟨0⟩ x hx hbounds
  have hfour := hcover ⟨4⟩ (by decide +kernel)
  rw [← hroot] at hx hfour
  refine ⟨d, x, hd, hx, hbounds, hsize, hfour, hatt ⟨2⟩ y hy, hpreorder, fun hlane => ?_⟩
  have hne : (⟨4⟩ : VertexId) ≠ d.source ∧ (⟨4⟩ : VertexId) ≠ d.sink := by
    rw [hsource, hsink]
    decide
  exact hfree.1 ⟨d.tree.root, x, hx, hbounds⟩ ⟨⟨4⟩, by simp, hne.1, hne.2, hlane⟩

end FlowGraph

end FlowRegions
