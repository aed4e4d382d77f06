import FlowRegions.Proofs.EdgeOrder

/-!
# Reversing all edges

A graph and its reversal are analysed differently: the candidates are enumerated from the sets
towards the sink, the filter treats them entry by entry, and the dominators go through one more
reversal, which leaves every list of successors in another order. None of this shows. Reversing
twice gives back the edges (`sameEdges_transpose_transpose`), and the passage sets depend on
the edges alone (`SameEdges.passageSets_eq`); the candidates and the minimal pairs are said by
routes, which reversal turns around (`candidate_transpose`, `minimalPair_transpose`).
-/

namespace FlowRegions

namespace FlowGraph

variable {g : FlowGraph} {source sink : VertexId} {mask : Option BoundaryMask} {mode : SweepMode}
variable {a a' : BoundaryAnalysis}

/-- Reversing all edges twice changes at most their order. -/
theorem sameEdges_transpose_transpose (g : FlowGraph) : SameEdges g.transpose.transpose g where
  vertexCount_eq := by rw [vertexCount_transpose, vertexCount_transpose]
  mem_successors_iff v w := by rw [mem_successors_transpose, mem_successors_transpose]

theorem flows_transpose_iff : g.transpose.Flows sink source ↔ g.Flows source sink :=
  ⟨fun hg => g.sameEdges_transpose_transpose.flows hg.transpose, .transpose⟩

/-- A mask makes no difference between the source and the sink. -/
theorem admittedBy_swap (mask : Option BoundaryMask) (source sink : VertexId) :
    admittedBy mask sink source = admittedBy mask source sink := by
  funext v
  apply Bool.eq_iff_iff.2
  rw [admittedBy_iff, admittedBy_iff, or_comm (a := v = sink)]

/-- The analyses towards the sink and towards the source exchange their results. -/
theorem passageSets_of_transpose
    (ha : (g.analyseBoundaries source sink mask mode).run.value = .ok a)
    (ha' : (g.transpose.analyseBoundaries sink source mask mode).run.value = .ok a') :
    a'.postdominators = a.dominators ∧ a'.dominators = a.postdominators := by
  obtain ⟨hpost, hdom, _⟩ := of_analyseBoundaries ha
  obtain ⟨hpost', hdom', _⟩ := of_analyseBoundaries ha'
  have hback : (g.transpose.dominators sink mode).run.value =
      (g.postdominators sink mode).run.value :=
    g.sameEdges_transpose_transpose.passageSets_eq sink mode
  -- towards the source the two analyses are one and the same
  exact ⟨Except.ok.inj (hpost'.symm.trans hdom),
    Except.ok.inj (hdom'.symm.trans (hback.trans hpost))⟩

/-- The analysis of the reversed graph from the sink to the source succeeds exactly when that of the
graph from the source to the sink does. Then the postdominators of one are the dominators of the
other, after the same rounds, and the candidates and the minimal pairs of one are those of the other
turned around. -/
theorem reversal_exchanges_boundaries (g : FlowGraph) (source sink : VertexId)
    (mask : Option BoundaryMask) (mode : SweepMode) :
    ((∃ a, (g.analyseBoundaries source sink mask mode).run.value = .ok a) ↔
      ∃ a', (g.transpose.analyseBoundaries sink source mask mode).run.value = .ok a') ∧
    ∀ a a', (g.analyseBoundaries source sink mask mode).run.value = .ok a →
      (g.transpose.analyseBoundaries sink source mask mode).run.value = .ok a' →
      (a'.postdominators = a.dominators ∧ a'.dominators = a.postdominators) ∧
      (∀ s e, a'.candidates.contains e s = true ↔ a.candidates.contains s e = true) ∧
      ∀ s e, a'.minimal.contains e s = true ↔ a.minimal.contains s e = true := by
  refine ⟨?_, fun a a' ha ha' => ⟨passageSets_of_transpose ha ha', fun s e => ?_, fun s e => ?_⟩⟩
  · rw [exists_analyseBoundaries_iff, exists_analyseBoundaries_iff, flows_transpose_iff]
  · rw [contains_candidates_iff ha, contains_candidates_iff ha', admittedBy_swap,
      candidate_transpose]
  · rw [contains_minimal_iff ha, contains_minimal_iff ha', admittedBy_swap, minimalPair_transpose]

/-- Around loops, the pair of the source and the vertex with the loop turns around, and the detour
is no boundary either way. -/
theorem loops_reversed :
    ∃ a a', (loops.analyseBoundaries ⟨0⟩ ⟨3⟩ (some (.ofList [⟨1⟩])) .inPlace).run.value = .ok a ∧
      (loops.transpose.analyseBoundaries ⟨3⟩ ⟨0⟩ (some (.ofList [⟨1⟩])) .inPlace).run.value =
        .ok a' ∧
      a'.dominators = a.postdominators ∧ a.minimal.contains ⟨0⟩ ⟨1⟩ = true ∧
      a'.minimal.contains ⟨1⟩ ⟨0⟩ = true ∧ ¬ a'.candidates.contains ⟨1⟩ ⟨2⟩ = true := by
  obtain ⟨a, ha, hpair, hdetour⟩ : ∃ a,
      (loops.analyseBoundaries ⟨0⟩ ⟨3⟩ (some (.ofList [⟨1⟩])) .inPlace).run.value = .ok a ∧
      a.minimal.contains ⟨0⟩ ⟨1⟩ = true ∧ ¬ a.candidates.contains ⟨2⟩ ⟨1⟩ = true :=
    ⟨(loops.analyseBoundaries ⟨0⟩ ⟨3⟩ (some (.ofList [⟨1⟩])) .inPlace).run.value.toOption.get
      (by decide +kernel), by decide +kernel, by decide +kernel, by decide +kernel⟩
  obtain ⟨hsucceed, hexchange⟩ :=
    reversal_exchanges_boundaries loops ⟨0⟩ ⟨3⟩ (some (.ofList [⟨1⟩])) .inPlace
  obtain ⟨a', ha'⟩ := hsucceed.1 ⟨a, ha⟩
  obtain ⟨⟨_, hdom⟩, hcand, hminimal⟩ := hexchange a a' ha ha'
  exact ⟨a, a', ha, ha', hdom, hpair, (hminimal ⟨0⟩ ⟨1⟩).2 hpair,
    fun h => hdetour ((hcand ⟨2⟩ ⟨1⟩).1 h)⟩

end FlowGraph

end FlowRegions
