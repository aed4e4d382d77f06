import FlowRegions.Proofs.ContainmentOrder
import FlowRegions.Proofs.Numbering
import FlowRegions.Proofs.Outcome
import Mathlib.Data.Set.Card

/-!
# Hammocks of acyclic graphs have one entry and one exit

The walk that measures a hammock knows nothing of dominance. In an acyclic graph it nevertheless
finds exactly what the entry dominates and the exit postdominates (`Candidate.mem_region_iff`): a
vertex of which only routes through the exit are left would lie on a way back to that exit. For the
same reason no edge leads into the region behind the entry (`Candidate.eq_entry_of_enters`), and the
walk itself follows every edge but those behind the exit (`eq_exit_of_leaves`).
-/

namespace FlowRegions

open Log

/-- The size of a set is the number of its members. -/
theorem IdSet.ncard_members {κ : IdKind} (s : IdSet κ) : {a | a ∈ s}.ncard = s.card := by
  have hcoe : {a | a ∈ s} = (s.toList.toFinset : Set (DenseId κ)) := by
    ext a
    simp
  rw [hcoe, Set.ncard_coe_finset,
    List.toFinset_card_of_nodup (IdSet.nodup_of_ascending s.ascending)]
  rfl

namespace FlowGraph

variable {g : FlowGraph} {source sink : VertexId} {admitted : VertexId → Bool}
variable {s e u v : VertexId}

/-! ## Regions -/

/-- The region of a candidate is what the entry dominates and the exit postdominates. -/
theorem Candidate.mem_region_iff (hac : g.Acyclic) (hg : g.Flows source sink)
    (h : g.Candidate source sink admitted s e) :
    v ∈ g.regionBetween s e ↔
      g.contains v = true ∧ g.Necessary source v s ∧ g.Necessary v sink e := by
  constructor
  · intro hv
    obtain ⟨p, hp⟩ := exists_route_of_mem_region h.entry_mem hv
    exact ⟨hp.contains_target, h.dominates_of_mem hac hg hv, h.postdominates_of_mem hv⟩
  · rintro ⟨hv, hdom, hpost⟩
    by_cases hve : v = e
    · subst hve
      exact h.exit_mem_region hg
    · apply (mem_regionBetween_iff_bypass h.entry_mem hve).2
      apply not_necessary_iff.1
      -- behind the exit, the vertex would lead back to the exit
      intro hway
      obtain ⟨p, hp⟩ := hg.exists_route_behind hv hdom hway
      obtain ⟨q, hq⟩ := hg.reaching v hv
      obtain ⟨⟨r, hr, _⟩, _⟩ := hq.cut (hpost q hq)
      exact hve (hac.antisymm hr hp)

/-- An edge into a region, other than to its entry, begins in the region: around the exit its origin
could be reached only through the exit, to which the edge leads back. -/
theorem Candidate.mem_of_edge (hac : g.Acyclic) (hg : g.Flows source sink)
    (h : g.Candidate source sink admitted s e) (hv : v ∈ g.regionBetween s e) (hvs : v ≠ s)
    (huv : v ∈ g.successors u) : u ∈ g.regionBetween s e := by
  have hu : g.contains u = true := contains_of_successors_ne_nil (List.ne_nil_of_mem huv)
  have hdom : g.Necessary source u s := h.dominates_of_successor hac hg hv hvs huv
  rw [h.mem_region_iff hac hg]
  refine ⟨hu, hdom, ?_⟩
  by_contra hn
  have hway : g.Necessary s u e := h.postdominates.before (not_necessary_iff.1 hn)
  obtain ⟨p, hp⟩ := hg.exists_route_behind hu hdom hway
  obtain ⟨q, hq⟩ := h.exists_route_to_exit hg hv
  obtain ⟨r, hr, _⟩ := hq.join hp
  exact hac u v huv ⟨r, hr⟩

/-- A region is entered only at its entry. -/
theorem Candidate.eq_entry_of_enters (hac : g.Acyclic) (hg : g.Flows source sink)
    (h : g.Candidate source sink admitted s e) (huv : v ∈ g.successors u)
    (hu : u ∉ g.regionBetween s e) (hv : v ∈ g.regionBetween s e) : v = s := by
  by_contra hvs
  exact hu (h.mem_of_edge hac hg hv hvs huv)

/-- A region is left only at its exit, whatever the graph. -/
theorem eq_exit_of_leaves (huv : v ∈ g.successors u) (hu : u ∈ g.regionBetween s e)
    (hv : v ∉ g.regionBetween s e) : u = e := by
  by_contra hue
  exact hv (mem_regionBetween_of_successor hu hue huv)

open HammockRegistry

/-- In an acyclic graph a hammock is a region with one entry and one exit: it covers exactly the
vertices that its entry dominates and its exit postdominates, as many as its size says, edges from
outside lead to its entry, and edges to the outside begin at its exit. -/
theorem hammocks_single_entry_single_exit (g : FlowGraph) (config : Config)
    (mask : Option BoundaryMask) {d : Decomposition} {r : HammockRegistry} (hac : g.Acyclic)
    (hd : (g.decompose config mask).run.value = .ok d) (hr : d.tree.registry = r) :
    g.endpoints = .ok (d.source, d.sink) ∧
    ∀ i x, r.get? i = some x →
      (r.coverage i = {v | g.contains v = true ∧ (∀ p, g.Route d.source v p → x.entry ∈ p) ∧
        ∀ p, g.Route v d.sink p → x.exit ∈ p} ∧
      x.size = (r.coverage i).ncard) ∧
      (∀ u v, v ∈ g.successors u → u ∉ r.coverage i → v ∈ r.coverage i → v = x.entry) ∧
      ∀ u v, v ∈ g.successors u → u ∈ r.coverage i → v ∉ r.coverage i → u = x.exit := by
  obtain ⟨a, ha, ht⟩ := of_decompose hd
  obtain rfl : (register g a.minimal).value = r := (passes_of_nest ht).registry_eq.symm.trans hr
  have hg := flows_of_analyseBoundaries ha
  refine ⟨endpoints_of_decompose hd, fun i x hx => ?_⟩
  obtain ⟨hpair, hbody⟩ := minimalPair_of_get? ha hx
  have hcover : (register g a.minimal).value.coverage i =
      {v | v ∈ g.regionBetween x.entry x.exit} := by
    ext v
    exact (nests_register ha).mem_coverage_iff hx
  rw [hcover]
  refine ⟨⟨?_, ?_⟩, fun u v => ?_, fun u v => ?_⟩
  · ext v
    exact hpair.toCandidate.mem_region_iff hac hg
  · rw [IdSet.ncard_members, ← hbody]
    rfl
  · exact hpair.toCandidate.eq_entry_of_enters hac hg
  · exact eq_exit_of_leaves

/-- The middle one of three nested branches is entered where the edge of the outer one leads and
left where the outer one goes on, and every route to what it covers visits its entry. -/
theorem middle_branch_single_entry :
    ∃ d x, branches.Acyclic ∧ (branches.decompose .reference none).run.value = .ok d ∧
      d.tree.registry.get? ⟨1⟩ = some x ∧ x.entry = ⟨1⟩ ∧ x.exit = ⟨4⟩ ∧
      (∀ p, branches.Route d.source ⟨3⟩ p → x.entry ∈ p) ∧
      x.size = (d.tree.registry.coverage ⟨1⟩).ncard := by
  have hac : branches.Acyclic := by decide +kernel
  have hends : branches.endpoints = .ok (⟨0⟩, ⟨5⟩) := by decide +kernel
  obtain ⟨a, ha, hsome, hin, hout⟩ : ∃ a,
      (branches.analyseBoundaries ⟨0⟩ ⟨5⟩ none .inPlace).run.value = .ok a ∧
      ((register branches a.minimal).value.get? ⟨1⟩).isSome = true ∧
      (∀ v ∈ [⟨1⟩, ⟨3⟩, ⟨4⟩], ⟨1⟩ ∈ (register branches a.minimal).value.containing v) ∧
      ∀ v ∈ [⟨0⟩, ⟨5⟩], ⟨1⟩ ∉ (register branches a.minimal).value.containing v :=
    ⟨(branches.analyseBoundaries ⟨0⟩ ⟨5⟩ none .inPlace).run.value.toOption.get (by decide +kernel),
      by decide +kernel, by decide +kernel, by decide +kernel, by decide +kernel⟩
  obtain ⟨d, hd, _, _, hreg, _⟩ := exists_decompose_of_analysis .reference hends ha
  rw [← hreg] at hsome hin hout
  obtain ⟨x, hx⟩ := Option.isSome_iff_exists.1 hsome
  obtain ⟨_, hregions⟩ := hammocks_single_entry_single_exit branches .reference none hac hd rfl
  obtain ⟨⟨hcover, hsize⟩, henter, hleave⟩ := hregions ⟨1⟩ x hx
  have hentry := henter ⟨0⟩ ⟨1⟩ (by decide +kernel) (hout ⟨0⟩ (by simp)) (hin ⟨1⟩ (by simp))
  have hexit := hleave ⟨4⟩ ⟨5⟩ (by decide +kernel) (hin ⟨4⟩ (by simp)) (hout ⟨5⟩ (by simp))
  have hthree : ⟨3⟩ ∈ d.tree.registry.coverage ⟨1⟩ := hin ⟨3⟩ (by simp)
  rw [hcover] at hthree
  exact ⟨d, x, hac, hd, hx, hentry.symm, hexit.symm, hthree.2.1, hsize⟩

end FlowGraph

end FlowRegions
