import FlowRegions.Proofs.Candidates

/-!
# Recomposing candidates from minimal pairs

A series of pairs leads from an entry through some vertices, in order, to an exit. Wherever one
vertex leads to another there is a series (`leads_iff_exists_series`), and in an acyclic relation
with at most one exit for every entry there is no other (`Acyclic.series_unique`). The minimal pairs
of a graph are such a relation, and reducing the candidates has not changed what leads where. So
every candidate is recomposed from minimal pairs in exactly one way
(`minimal_recomposes_candidates`).
-/

namespace FlowRegions

open Relation

namespace BoundaryRelation

variable {r : BoundaryRelation} {s e m : VertexId} {ms ns : List VertexId}

/-- From an entry through some vertices, in order, to an exit, each vertex is paired with the
next. -/
def Series (r : BoundaryRelation) (s e : VertexId) (between : List VertexId) : Prop :=
  (s :: (between ++ [e])).IsChain fun b c => r.contains b c = true

instance (r : BoundaryRelation) (s e : VertexId) (between : List VertexId) :
    Decidable (r.Series s e between) :=
  inferInstanceAs (Decidable (List.IsChain _ _))

@[simp] theorem series_nil : r.Series s e [] ↔ e ∈ r.exits s := by
  simp [Series, contains_iff]

@[simp] theorem series_cons : r.Series s e (m :: ms) ↔ m ∈ r.exits s ∧ r.Series m e ms := by
  simp [Series, contains_iff]

/-- A series leads from its entry to its exit. -/
theorem Series.leads (h : r.Series s e ms) : r.Leads s e := by
  induction ms generalizing s with
  | nil => exact .single (series_nil.1 h)
  | cons m ms ih =>
    obtain ⟨hpair, hrest⟩ := series_cons.1 h
    exact .head hpair (ih hrest)

/-- One vertex leads to another exactly when there is a series between the two. -/
theorem leads_iff_exists_series : r.Leads s e ↔ ∃ between, r.Series s e between := by
  constructor
  · intro h
    induction h using TransGen.head_induction_on with
    | single hpair => exact ⟨[], series_nil.2 hpair⟩
    | @head s m hpair _ ih =>
      obtain ⟨ms, hms⟩ := ih
      exact ⟨m :: ms, series_cons.2 ⟨hpair, hms⟩⟩
  · rintro ⟨_, h⟩
    exact h.leads

/-- Where every entry has at most one exit and nothing leads back to itself, there is at most one
series between two vertices. -/
theorem Acyclic.series_unique (hr : r.Acyclic)
    (hexit : Relator.RightUnique fun s e => e ∈ r.exits s) (hms : r.Series s e ms)
    (hns : r.Series s e ns) : ms = ns := by
  -- a series that goes on where the other one has arrived would lead from its exit back to it
  induction ms generalizing s ns with
  | nil =>
    cases ns with
    | nil => rfl
    | cons n ns =>
      obtain ⟨hpair, hrest⟩ := series_cons.1 hns
      obtain rfl : e = n := hexit (series_nil.1 hms) hpair
      exact absurd hrest.leads (hr e)
  | cons m ms ih =>
    obtain ⟨hpair, hrest⟩ := series_cons.1 hms
    cases ns with
    | nil =>
      obtain rfl : e = m := hexit (series_nil.1 hns) hpair
      exact absurd hrest.leads (hr e)
    | cons n ns =>
      obtain ⟨hpair', hrest'⟩ := series_cons.1 hns
      obtain rfl : m = n := hexit hpair hpair'
      rw [ih hrest hrest']

/-- Series that meet can be joined. -/
theorem Series.join (hms : r.Series s m ms) (hns : r.Series m e ns) :
    r.Series s e (ms ++ m :: ns) := by
  induction ms generalizing s with
  | nil => exact series_cons.2 ⟨series_nil.1 hms, hns⟩
  | cons x ms ih =>
    obtain ⟨hpair, hrest⟩ := series_cons.1 hms
    exact series_cons.2 ⟨hpair, ih hrest⟩

/-- A series leads through all its vertices. -/
theorem Series.leads_through (h : r.Series s e ms) (hm : m ∈ ms) : r.Leads s m ∧ r.Leads m e := by
  induction ms generalizing s with
  | nil => cases hm
  | cons x ms ih =>
    obtain ⟨hpair, hrest⟩ := series_cons.1 h
    rcases List.mem_cons.1 hm with rfl | hm
    · exact ⟨.single hpair, hrest.leads⟩
    · exact ⟨.head hpair (ih hrest hm).1, (ih hrest hm).2⟩

/-- Where there is only one series between two vertices, it passes everything between the two. -/
theorem Acyclic.mem_series_iff (hr : r.Acyclic)
    (hexit : Relator.RightUnique fun s e => e ∈ r.exits s) (h : r.Series s e ms) :
    m ∈ ms ↔ r.Leads s m ∧ r.Leads m e := by
  refine ⟨h.leads_through, fun ⟨hsm, hme⟩ => ?_⟩
  obtain ⟨ns, hns⟩ := leads_iff_exists_series.1 hsm
  obtain ⟨ns', hns'⟩ := leads_iff_exists_series.1 hme
  rw [hr.series_unique hexit h (hns.join hns')]
  exact List.mem_append_right ns List.mem_cons_self

end BoundaryRelation

namespace FlowGraph

open BoundaryRelation

variable {g : FlowGraph} {source sink s e m : VertexId} {mask : Option BoundaryMask}
variable {mode : SweepMode} {a : BoundaryAnalysis} {between : List VertexId}

/-- A series of minimal pairs passes the vertices that are an exit of its entry and an entry of its
exit. -/
theorem mem_series_minimal_iff
    (ha : (g.analyseBoundaries source sink mask mode).run.value = .ok a)
    (h : a.minimal.Series s e between) :
    m ∈ between ↔ g.Candidate source sink (admittedBy mask source sink) s m ∧
      g.Candidate source sink (admittedBy mask source sink) m e := by
  rw [(acyclic_minimal ha).mem_series_iff (minimal_rightUnique ha) h]
  simp only [leads_minimal_iff ha, contains_candidates_iff ha]

/-- The minimal pairs are the candidates that do not decompose into two candidates, and every
candidate is recomposed from minimal pairs in exactly one way. -/
theorem minimal_recomposes_candidates (g : FlowGraph) (source sink : VertexId)
    (mask : Option BoundaryMask) (mode : SweepMode) {a : BoundaryAnalysis}
    (ha : (g.analyseBoundaries source sink mask mode).run.value = .ok a) :
    (∀ s e, a.minimal.contains s e = true ↔
      a.candidates.contains s e = true ∧
        ¬ ∃ m, a.candidates.contains s m = true ∧ a.candidates.contains m e = true) ∧
    ∀ s e, a.candidates.contains s e = true → ∃! between, a.minimal.Series s e between := by
  refine ⟨fun s e => ?_, fun s e hcand => ?_⟩
  · simp only [contains_candidates_iff ha]
    rw [BoundaryRelation.contains_iff, mem_exits_minimal_iff ha, minimalPair_iff]
  · obtain ⟨between, hseries⟩ := leads_iff_exists_series.1 ((leads_minimal_iff ha).2 hcand)
    refine ⟨between, hseries, fun other hother => ?_⟩
    exact (acyclic_minimal ha).series_unique (minimal_rightUnique ha) hother hseries

/-- Five vertices in a line against their order, with an edge back from the fourth to the third. -/
def descent : FlowGraph :=
  ((new 5).addEdges [(⟨4⟩, ⟨3⟩), (⟨3⟩, ⟨2⟩), (⟨2⟩, ⟨1⟩), (⟨1⟩, ⟨2⟩), (⟨1⟩, ⟨0⟩)]).toOption.getD
    default

/-- Down the line, the pair of the source and the sink decomposes at the two vertices that the mask
admits, and nowhere else. -/
theorem descent_recomposed :
    ∃ a,
      (descent.analyseBoundaries ⟨4⟩ ⟨0⟩ (some (.ofList [⟨3⟩, ⟨1⟩])) .inPlace).run.value = .ok a ∧
      a.candidates.contains ⟨4⟩ ⟨0⟩ = true ∧ ¬ a.minimal.contains ⟨4⟩ ⟨0⟩ = true ∧
      ∀ between, a.minimal.Series ⟨4⟩ ⟨0⟩ between ↔ between = [⟨3⟩, ⟨1⟩] := by
  obtain ⟨a, ha, hcand, hfirst, hrest, hseries⟩ : ∃ a,
      (descent.analyseBoundaries ⟨4⟩ ⟨0⟩ (some (.ofList [⟨3⟩, ⟨1⟩])) .inPlace).run.value = .ok a ∧
      a.candidates.contains ⟨4⟩ ⟨0⟩ = true ∧ a.candidates.contains ⟨4⟩ ⟨3⟩ = true ∧
      a.candidates.contains ⟨3⟩ ⟨0⟩ = true ∧ a.minimal.Series ⟨4⟩ ⟨0⟩ [⟨3⟩, ⟨1⟩] :=
    ⟨(descent.analyseBoundaries ⟨4⟩ ⟨0⟩ (some (.ofList [⟨3⟩, ⟨1⟩])) .inPlace).run.value.toOption.get
      (by decide +kernel), by decide +kernel, by decide +kernel, by decide +kernel,
      by decide +kernel, by decide +kernel⟩
  obtain ⟨hminimal, hunique⟩ :=
    minimal_recomposes_candidates descent ⟨4⟩ ⟨0⟩ (some (.ofList [⟨3⟩, ⟨1⟩])) .inPlace ha
  refine ⟨a, ha, hcand, fun h => ((hminimal ⟨4⟩ ⟨0⟩).1 h).2 ⟨⟨3⟩, hfirst, hrest⟩, ?_⟩
  intro between
  refine ⟨fun h => (hunique ⟨4⟩ ⟨0⟩ hcand).unique h hseries, ?_⟩
  rintro rfl
  exact hseries

end FlowGraph

end FlowRegions
