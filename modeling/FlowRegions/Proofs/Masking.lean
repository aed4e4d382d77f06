import FlowRegions.Proofs.Recomposition

/-!
# A mask makes hammocks coarser

The passage sets know nothing of the mask, so with and without it an analysis fails for the same
reason. A candidate under the mask is a candidate whose boundaries are admitted
(`candidate_iff_of_admitted`), while a minimal pair need not have been minimal before: it skips the
vertices that the mask leaves out. Since minimal pairs recompose candidates in one way only, it
skips nothing else (`minimalPair_some_iff`).
-/

namespace FlowRegions

open BoundaryRelation

namespace FlowGraph

variable {g : FlowGraph} {source sink s e : VertexId} {m : BoundaryMask} {mode : SweepMode}
variable {a : BoundaryAnalysis}

/-- A mask does not matter for the outcome of the analyses towards the sink and the source. -/
theorem analyseBoundaries_of_mask (mask mask' : Option BoundaryMask)
    (ha : (g.analyseBoundaries source sink mask mode).run.value = .ok a) :
    ∃ b, (g.analyseBoundaries source sink mask' mode).run.value = .ok b ∧
      b.postdominators = a.postdominators ∧ b.dominators = a.dominators := by
  obtain ⟨hpost, hdom, _⟩ := of_analyseBoundaries ha
  rw [value_analyseBoundaries, hpost, hdom]
  exact ⟨_, rfl, rfl, rfl⟩

/-- An analysis fails for the same reason under every mask. -/
theorem analyseBoundaries_error_of_mask {x : PassageError} (mask mask' : Option BoundaryMask)
    (hx : (g.analyseBoundaries source sink mask mode).run.value = .error x) :
    (g.analyseBoundaries source sink mask' mode).run.value = .error x := by
  rw [value_analyseBoundaries] at hx ⊢
  cases hpost : (g.postdominators sink mode).run.value with
  | error y =>
    rw [hpost] at hx
    cases hx
    rfl
  | ok post =>
    cases hdom : (g.dominators source mode).run.value with
    | error y =>
      rw [hpost, hdom] at hx
      cases hx
      rfl
    | ok dom =>
      rw [hpost, hdom] at hx
      cases hx

/-- Under a mask, two admitted vertices are a minimal pair when a series of minimal pairs leads from
one to the other through vertices that are not admitted. -/
theorem minimalPair_some_iff
    (ha : (g.analyseBoundaries source sink none mode).run.value = .ok a) :
    g.MinimalPair source sink (admittedBy (some m) source sink) s e ↔
      m.admits s source sink = true ∧ m.admits e source sink = true ∧
        ∃ between, a.minimal.Series s e between ∧
          ∀ v ∈ between, ¬ m.admits v source sink = true := by
  -- an admitted vertex of the series is what would decompose the pair under the mask
  have hbetween : ∀ {between v}, a.minimal.Series s e between →
      (v ∈ between ↔ g.Candidate source sink (fun _ => true) s v ∧
        g.Candidate source sink (fun _ => true) v e) := mem_series_minimal_iff ha
  constructor
  · intro h
    obtain ⟨hcand, hs, he⟩ := candidate_iff_of_admitted.1 h.toCandidate
    have hleads : a.minimal.Leads s e := by
      rw [leads_minimal_iff ha, contains_candidates_iff ha]
      exact hcand
    obtain ⟨between, hseries⟩ := leads_iff_exists_series.1 hleads
    refine ⟨hs, he, between, hseries, fun v hv hadm => h.indecomposable ⟨v, ?_, ?_⟩⟩
    · exact candidate_iff_of_admitted.2 ⟨((hbetween hseries).1 hv).1, hs, hadm⟩
    · exact candidate_iff_of_admitted.2 ⟨((hbetween hseries).1 hv).2, hadm, he⟩
  · rintro ⟨hs, he, between, hseries, hout⟩
    have hcand := (leads_minimal_iff ha).1 hseries.leads
    rw [contains_candidates_iff ha] at hcand
    refine ⟨candidate_iff_of_admitted.2 ⟨hcand, hs, he⟩, ?_⟩
    rintro ⟨v, hsv, hve⟩
    obtain ⟨hsv, _, hadm⟩ := candidate_iff_of_admitted.1 hsv
    obtain ⟨hve, _, _⟩ := candidate_iff_of_admitted.1 hve
    exact hout v ((hbetween hseries).2 ⟨hsv, hve⟩) hadm

/-- A mask changes neither whether and why the analysis fails nor its passage sets and rounds. Its
candidates are those whose boundaries are admitted, and its minimal pairs are pairs of admitted
vertices between which minimal pairs lead through vertices that are not. -/
theorem masking_coarsens (g : FlowGraph) (source sink : VertexId) (m : BoundaryMask)
    (mode : SweepMode) :
    (∀ x, (g.analyseBoundaries source sink (some m) mode).run.value = .error x ↔
      (g.analyseBoundaries source sink none mode).run.value = .error x) ∧
    ∀ a, (g.analyseBoundaries source sink none mode).run.value = .ok a →
      ∃ b, (g.analyseBoundaries source sink (some m) mode).run.value = .ok b ∧
        (b.postdominators = a.postdominators ∧ b.dominators = a.dominators) ∧
        (∀ s e, b.candidates.contains s e = true ↔
          a.candidates.contains s e = true ∧ m.admits s source sink = true ∧
            m.admits e source sink = true) ∧
        ∀ s e, b.minimal.contains s e = true ↔
          m.admits s source sink = true ∧ m.admits e source sink = true ∧
            ∃ between, a.minimal.Series s e between ∧
              ∀ v ∈ between, ¬ m.admits v source sink = true := by
  refine ⟨fun x => ⟨analyseBoundaries_error_of_mask _ _, analyseBoundaries_error_of_mask _ _⟩, ?_⟩
  intro a ha
  obtain ⟨b, hb, hpost, hdom⟩ := analyseBoundaries_of_mask none (some m) ha
  refine ⟨b, hb, ⟨hpost, hdom⟩, fun s e => ?_, fun s e => ?_⟩
  · rw [contains_candidates_iff hb, contains_candidates_iff ha]
    exact candidate_iff_of_admitted
  · rw [contains_minimal_iff hb]
    exact minimalPair_some_iff ha

/-- Down the line, the vertex with the edge back divides the way between its neighbours, and a mask
that leaves it out joins what it has divided. -/
theorem descent_coarsened :
    ∃ a b, (descent.analyseBoundaries ⟨4⟩ ⟨0⟩ none .inPlace).run.value = .ok a ∧
      (descent.analyseBoundaries ⟨4⟩ ⟨0⟩ (some (.ofList [⟨3⟩, ⟨1⟩])) .inPlace).run.value = .ok b ∧
      a.minimal.Series ⟨3⟩ ⟨1⟩ [⟨2⟩] ∧ ¬ a.minimal.contains ⟨3⟩ ⟨1⟩ = true ∧
      b.minimal.contains ⟨3⟩ ⟨1⟩ = true ∧ ¬ b.candidates.contains ⟨3⟩ ⟨2⟩ = true := by
  obtain ⟨a, ha, hseries, hdivided⟩ : ∃ a,
      (descent.analyseBoundaries ⟨4⟩ ⟨0⟩ none .inPlace).run.value = .ok a ∧
      a.minimal.Series ⟨3⟩ ⟨1⟩ [⟨2⟩] ∧ ¬ a.minimal.contains ⟨3⟩ ⟨1⟩ = true :=
    ⟨(descent.analyseBoundaries ⟨4⟩ ⟨0⟩ none .inPlace).run.value.toOption.get (by decide +kernel),
      by decide +kernel, by decide +kernel, by decide +kernel⟩
  obtain ⟨_, hcoarse⟩ := masking_coarsens descent ⟨4⟩ ⟨0⟩ (.ofList [⟨3⟩, ⟨1⟩]) .inPlace
  obtain ⟨b, hb, _, hcand, hminimal⟩ := hcoarse a ha
  refine ⟨a, b, ha, hb, hseries, hdivided, ?_, fun htwo => ?_⟩
  · exact (hminimal ⟨3⟩ ⟨1⟩).2 ⟨by decide, by decide, [⟨2⟩], hseries, by decide⟩
  · obtain ⟨_, _, hadm⟩ := (hcand ⟨3⟩ ⟨2⟩).1 htwo
    revert hadm
    decide

end FlowGraph

end FlowRegions
