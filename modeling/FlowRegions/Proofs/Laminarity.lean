import FlowRegions.Proofs.ContainmentOrder

/-!
# Hammocks of acyclic graphs do not cross

If two regions of an acyclic graph share a vertex before both exits, one of them encloses the other
(`MinimalPair.nested_of_mem`). A region that covers another one's exit was entered before that exit,
unless it begins there (`MinimalPair.nested_or_meets`). So regions that are not nested have at most
the vertex in common where one ends and the other begins (`hammocks_form_laminar_family`).
-/

namespace FlowRegions

namespace FlowGraph

variable {g : FlowGraph} {source sink : VertexId} {admitted : VertexId → Bool}
variable {s s' e e' v : VertexId}

/-! ## Regions of minimal pairs -/

/-- The region between `s` and `e` covers the one between `s'` and `e'`, which ends before `e`. -/
structure Encloses (g : FlowGraph) (s e s' e' : VertexId) : Prop where
  subset : g.regionBetween s' e' ⊆ g.regionBetween s e
  exit_not_mem : e ∉ g.regionBetween s' e'

/-- One of two regions encloses the other. -/
def Nested (g : FlowGraph) (s e s' e' : VertexId) : Prop :=
  g.Encloses s e s' e' ∨ g.Encloses s' e' s e

theorem Nested.symm (h : g.Nested s e s' e') : g.Nested s' e' s e := Or.symm h

/-- A region that covers the entry of another pair before its own exit encloses that pair's
region. -/
theorem MinimalPair.encloses (hg : g.Flows source sink)
    (h : g.MinimalPair source sink admitted s e) (h' : g.MinimalPair source sink admitted s' e')
    (hss' : s ≠ s') (hs' : s' ∈ g.regionBetween s e) (hs'e : s' ≠ e) : g.Encloses s e s' e' where
  subset := h.region_subset hg h' hs' hs'e hss'
  exit_not_mem := h.exit_not_mem hg h' hs' hs'e hss'

/-- Two regions that share a vertex before both exits are nested. -/
theorem MinimalPair.nested_of_mem (hac : g.Acyclic) (hg : g.Flows source sink)
    (h : g.MinimalPair source sink admitted s e) (h' : g.MinimalPair source sink admitted s' e')
    (hss' : s ≠ s') (hv : v ∈ g.regionBetween s e) (hv' : v ∈ g.regionBetween s' e') (hve : v ≠ e)
    (hve' : v ≠ e') : g.Nested s e s' e' := by
  rcases h.toCandidate.begins_inside hac hg h'.toCandidate hv hv' hve hve' with
    ⟨hin, hout⟩ | ⟨hin, hout⟩
  · exact .inl (h.encloses hg h' hss' hin hout)
  · exact .inr (h'.encloses hg h hss'.symm hin hout)

/-- A region that covers the exit of another pair begins there, unless the two are nested: an edge
leads to the exit from a vertex of the other region, and into the interior of this one only from
a vertex of both. -/
theorem MinimalPair.nested_or_meets (hac : g.Acyclic) (hg : g.Flows source sink)
    (h : g.MinimalPair source sink admitted s e) (h' : g.MinimalPair source sink admitted s' e')
    (hss' : s ≠ s') (he : e ∈ g.regionBetween s' e') : g.Nested s e s' e' ∨ e = s' := by
  have hee' : e ≠ e' := by
    rintro rfl
    exact hss' (h.entry_unique hg h')
  by_cases hes' : e = s'
  · exact .inr hes'
  · obtain ⟨u, hu, hue, hstep⟩ := exists_before_exit h.ne (h.toCandidate.exit_mem_region hg)
    obtain ⟨hu', hue'⟩ := h'.toCandidate.mem_of_successor hac hg he hes' hee' hstep
    exact .inl (h.nested_of_mem hac hg h' hss' hu hu' hue hue')

/-- Where one region ends and the other begins, regions that are not nested have no second vertex in
common. -/
theorem MinimalPair.eq_of_meets (hac : g.Acyclic) (hg : g.Flows source sink)
    (h : g.MinimalPair source sink admitted s e) (h' : g.MinimalPair source sink admitted e e')
    (hn : ¬ g.Nested s e e e') (hv : v ∈ g.regionBetween s e) (hv' : v ∈ g.regionBetween e e') :
    v = e := by
  by_contra hve
  have hve' : v ≠ e' := by
    rintro rfl
    exact h.toCandidate.exit_not_mem_of_meets hg h'.toCandidate hv
  exact hn (h.nested_of_mem hac hg h' h.ne hv hv' hve hve')

/-- A vertex that two regions share, which are not nested, is the only one, the exit of one pair and
the entry of the other. -/
theorem MinimalPair.meets_of_mem (hac : g.Acyclic) (hg : g.Flows source sink)
    (h : g.MinimalPair source sink admitted s e) (h' : g.MinimalPair source sink admitted s' e')
    (hss' : s ≠ s') (hn : ¬ g.Nested s e s' e') (hv : v ∈ g.regionBetween s e)
    (hv' : v ∈ g.regionBetween s' e') :
    (∀ w, w ∈ g.regionBetween s e → w ∈ g.regionBetween s' e' → w = v) ∧
      ((v = e ∧ v = s') ∨ (v = e' ∧ v = s)) := by
  by_cases hve : v = e
  · subst hve
    obtain rfl : v = s' := (h.nested_or_meets hac hg h' hss' hv').resolve_left hn
    exact ⟨fun w hw hw' => h.eq_of_meets hac hg h' hn hw hw', .inl ⟨rfl, rfl⟩⟩
  · by_cases hve' : v = e'
    · subst hve'
      have hn' : ¬ g.Nested s' v s e := fun hnest => hn hnest.symm
      obtain rfl : v = s := (h'.nested_or_meets hac hg h hss'.symm hv).resolve_left hn'
      exact ⟨fun w hw hw' => h'.eq_of_meets hac hg h hn' hw' hw, .inr ⟨rfl, rfl⟩⟩
    · exact absurd (h.nested_of_mem hac hg h' hss' hv hv' hve hve') hn

end FlowGraph

namespace HammockRegistry

variable {r : HammockRegistry} {g : FlowGraph} {i j : HammockId} {x y : Hammock}

/-- A hammock whose region encloses another one covers strictly more. -/
theorem Nests.coverage_ssubset_of_encloses (hn : r.Nests g) (hi : r.get? i = some x)
    (hj : r.get? j = some y) (h : g.Encloses x.entry x.exit y.entry y.exit) :
    r.coverage j ⊂ r.coverage i := by
  have hexit : x.exit ∈ r.coverage i := (mem_coverage hi).2 (hn.exit_mem hi)
  refine ⟨fun v hv => ?_, fun hge => ?_⟩
  · rw [hn.mem_coverage_iff hj] at hv
    rw [hn.mem_coverage_iff hi]
    exact h.subset v hv
  · exact h.exit_not_mem ((hn.mem_coverage_iff hj).1 (hge hexit))

end HammockRegistry

namespace FlowGraph

open HammockRegistry

/-- In an acyclic graph two hammocks cover no vertex in common, or one covers strictly more than the
other, or they have one vertex in common, where one ends and the other begins. -/
theorem hammocks_form_laminar_family (g : FlowGraph) (config : Config)
    (mask : Option BoundaryMask) {d : Decomposition} {r : HammockRegistry} (hac : g.Acyclic)
    (hd : (g.decompose config mask).run.value = .ok d) (hr : d.tree.registry = r) :
    ∀ i j x y, r.get? i = some x → r.get? j = some y → i ≠ j →
      Disjoint (r.coverage i) (r.coverage j) ∨
      (r.coverage i ⊂ r.coverage j ∨ r.coverage j ⊂ r.coverage i) ∨
      ∃ v, r.coverage i ∩ r.coverage j = {v} ∧
        ((v = x.exit ∧ v = y.entry) ∨ (v = y.exit ∧ v = x.entry)) := by
  intro i j x y hi hj hij
  obtain ⟨a, ha, ht⟩ := of_decompose hd
  obtain rfl : (register g a.minimal).value = r := (passes_of_nest ht).registry_eq.symm.trans hr
  have hg := flows_of_analyseBoundaries ha
  have hn := nests_register ha
  have hx := (minimalPair_of_get? ha hi).1
  have hy := (minimalPair_of_get? ha hj).1
  have hentry : x.entry ≠ y.entry := fun heq => hij (hn.entry_inj hi hj heq)
  by_cases hnest : g.Nested x.entry x.exit y.entry y.exit
  · rcases hnest with h | h
    · exact .inr (.inl (.inr (hn.coverage_ssubset_of_encloses hi hj h)))
    · exact .inr (.inl (.inl (hn.coverage_ssubset_of_encloses hj hi h)))
  · by_cases hdisjoint : Disjoint ((register g a.minimal).value.coverage i)
      ((register g a.minimal).value.coverage j)
    · exact .inl hdisjoint
    · obtain ⟨v, hvi, hvj⟩ := Set.not_disjoint_iff.1 hdisjoint
      obtain ⟨honly, hbounds⟩ := hx.meets_of_mem hac hg hy hentry hnest
        ((hn.mem_coverage_iff hi).1 hvi) ((hn.mem_coverage_iff hj).1 hvj)
      refine .inr (.inr ⟨v, Set.eq_singleton_iff_unique_mem.2 ⟨⟨hvi, hvj⟩, ?_⟩, hbounds⟩)
      rintro w ⟨hwi, hwj⟩
      exact honly w ((hn.mem_coverage_iff hi).1 hwi) ((hn.mem_coverage_iff hj).1 hwj)

/-- Two lanes between a fork and a join, and an edge behind the join. -/
def lanes : FlowGraph :=
  ((new 7).addEdges [(⟨0⟩, ⟨1⟩), (⟨1⟩, ⟨2⟩), (⟨2⟩, ⟨5⟩), (⟨0⟩, ⟨3⟩), (⟨3⟩, ⟨4⟩), (⟨4⟩, ⟨5⟩),
    (⟨5⟩, ⟨6⟩)]).toOption.getD default

/-- The hammock around the lanes has only the join in common with the one behind them. -/
theorem lanes_meet_at_join :
    ∃ d x y, lanes.Acyclic ∧ (lanes.decompose .reference none).run.value = .ok d ∧
      d.tree.registry.get? ⟨0⟩ = some x ∧ d.tree.registry.get? ⟨3⟩ = some y ∧
      d.tree.registry.coverage ⟨0⟩ ∩ d.tree.registry.coverage ⟨3⟩ = {⟨5⟩} := by
  have hac : lanes.Acyclic := by decide +kernel
  have hends : lanes.endpoints = .ok (⟨0⟩, ⟨6⟩) := by decide +kernel
  obtain ⟨d, hd, hsome, hfork, hjoin, hsink⟩ : ∃ d,
      (lanes.decompose .reference none).run.value = .ok d ∧
      (∀ i ∈ [⟨0⟩, ⟨3⟩], (d.tree.registry.get? i).isSome = true) ∧
      d.tree.registry.containing ⟨0⟩ = .ofList [⟨0⟩] ∧
      d.tree.registry.containing ⟨5⟩ = .ofList [⟨0⟩, ⟨3⟩] ∧
      d.tree.registry.containing ⟨6⟩ = .ofList [⟨3⟩] := by
    obtain ⟨a, ha, hroot, hdone, hindex⟩ : ∃ a,
        (lanes.analyseBoundaries ⟨0⟩ ⟨6⟩ none .inPlace).run.value = .ok a ∧
        ∃ hroot : (register lanes a.minimal).value.largest?
          (register lanes a.minimal).value.ids = some ⟨0⟩,
        let grown := Construction.resumed lanes 5
          (.start _ ⟨0⟩ (isSome_get?_of_mem_ids (mem_of_largest? hroot)))
        grown.stack = [] ∧
          (∀ i ∈ [⟨0⟩, ⟨3⟩], (grown.tree.registry.get? i).isSome = true) ∧
          grown.tree.registry.containing ⟨0⟩ = .ofList [⟨0⟩] ∧
          grown.tree.registry.containing ⟨5⟩ = .ofList [⟨0⟩, ⟨3⟩] ∧
          grown.tree.registry.containing ⟨6⟩ = .ofList [⟨3⟩] :=
      ⟨(lanes.analyseBoundaries ⟨0⟩ ⟨6⟩ none .inPlace).run.value.toOption.get
        (by decide +kernel), by decide +kernel, by decide +kernel, by decide +kernel⟩
    exact ⟨_, decompose_eq_ok_iff.2 ⟨_, hends, a, ha, _, value_nest_of_resumed hroot hdone, rfl⟩,
      hindex⟩
  obtain ⟨x, hx⟩ := Option.isSome_iff_exists.1 (hsome ⟨0⟩ (by simp))
  obtain ⟨y, hy⟩ := Option.isSome_iff_exists.1 (hsome ⟨3⟩ (by simp))
  have hboth : ⟨5⟩ ∈ d.tree.registry.coverage ⟨0⟩ ∩ d.tree.registry.coverage ⟨3⟩ := by
    simp [coverage, hjoin]
  refine ⟨d, x, y, hac, hd, hx, hy, ?_⟩
  rcases hammocks_form_laminar_family lanes .reference none hac hd rfl ⟨0⟩ ⟨3⟩ x y hx hy (by decide)
    with hdisjoint | (hsub | hsub) | ⟨v, hmeet, _⟩
  · exact absurd hboth.2 (Set.disjoint_left.1 hdisjoint hboth.1)
  · -- the fork is covered by the former only
    have hmem : ⟨0⟩ ∈ d.tree.registry.coverage ⟨3⟩ := hsub.1 (by simp [coverage, hfork])
    simp [coverage, hfork] at hmem
  · -- the sink is covered by the latter only
    have hmem : ⟨6⟩ ∈ d.tree.registry.coverage ⟨0⟩ := hsub.1 (by simp [coverage, hsink])
    simp [coverage, hsink] at hmem
  · rw [hmeet, Set.mem_singleton_iff] at hboth
    rw [hmeet, hboth]

end FlowGraph

end FlowRegions
