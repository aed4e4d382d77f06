import FlowRegions.Boundary.Derivation
import FlowRegions.Proofs.NecessaryPassage
import FlowRegions.Proofs.Reduction
import Mathlib.Logic.Relator

/-!
# The order of the boundary candidates

Dominance and postdominance together order the candidate pairs: they form a strict order
(`Candidate.trans`), in which the exits of one entry are comparable, and so are the entries of one
exit (`Candidate.exits_comparable`, `Candidate.entries_comparable`). The analysis finds exactly
these pairs (`candidates_strictly_ordered`). The minimal pairs are the pairs of neighbours in that
order (`mem_exits_minimal_iff`), which is why an entry has at most one minimal exit and an exit at
most one minimal entry (`minimal_rightUnique`, `minimal_leftUnique`).
-/

namespace FlowRegions

open Log

namespace FlowGraph

variable {g : FlowGraph} {source sink : VertexId} {admitted : VertexId → Bool}
variable {s s₁ s₂ e e₁ e₂ m : VertexId}

/-- The source reaches every vertex, and every vertex reaches the sink. -/
structure Flows (g : FlowGraph) (source sink : VertexId) : Prop where
  source_mem : g.contains source = true
  sink_mem : g.contains sink = true
  reached : ∀ v, g.contains v = true → ∃ p, g.Route source v p
  reaching : ∀ v, g.contains v = true → ∃ p, g.Route v sink p

/-- Both vertices are admitted, the entry dominates the exit, and the exit, another vertex,
postdominates the entry. -/
structure Candidate (g : FlowGraph) (source sink : VertexId) (admitted : VertexId → Bool)
    (s e : VertexId) : Prop where
  entry_mem : g.contains s = true
  exit_mem : g.contains e = true
  entry_admitted : admitted s = true
  exit_admitted : admitted e = true
  ne : s ≠ e
  dominates : g.Necessary source e s
  postdominates : g.Necessary s sink e

/-- Two neighbours in the order of the candidates. -/
structure MinimalPair (g : FlowGraph) (source sink : VertexId) (admitted : VertexId → Bool)
    (s e : VertexId) : Prop extends g.Candidate source sink admitted s e where
  indecomposable :
    ¬ ∃ m, g.Candidate source sink admitted s m ∧ g.Candidate source sink admitted m e

theorem minimalPair_iff :
    g.MinimalPair source sink admitted s e ↔ g.Candidate source sink admitted s e ∧
      ¬ ∃ m, g.Candidate source sink admitted s m ∧ g.Candidate source sink admitted m e :=
  ⟨fun h => ⟨h.toCandidate, h.indecomposable⟩, fun h => ⟨h.1, h.2⟩⟩

/-- Admission restricts the candidates to admitted boundaries and does nothing else. -/
theorem candidate_iff_of_admitted :
    g.Candidate source sink admitted s e ↔
      g.Candidate source sink (fun _ => true) s e ∧ admitted s = true ∧ admitted e = true :=
  ⟨fun h => ⟨⟨h.entry_mem, h.exit_mem, rfl, rfl, h.ne, h.dominates, h.postdominates⟩,
      h.entry_admitted, h.exit_admitted⟩,
    fun ⟨h, hs, he⟩ => ⟨h.entry_mem, h.exit_mem, hs, he, h.ne, h.dominates, h.postdominates⟩⟩

/-! ## A strict order -/

/-- Candidates that meet can be joined. -/
theorem Candidate.trans (hg : g.Flows source sink) (h₁ : g.Candidate source sink admitted s m)
    (h₂ : g.Candidate source sink admitted m e) : g.Candidate source sink admitted s e where
  entry_mem := h₁.entry_mem
  exit_mem := h₂.exit_mem
  entry_admitted := h₁.entry_admitted
  exit_admitted := h₂.exit_admitted
  ne := by
    -- the two candidates would lead back and forth between `s` and `m`
    rintro rfl
    obtain ⟨p, hp⟩ := hg.reaching s h₁.entry_mem
    exact h₁.ne (Necessary.antisymm h₁.postdominates h₂.postdominates hp)
  dominates := h₂.dominates.trans_left h₁.dominates
  postdominates := h₁.postdominates.trans h₂.postdominates

/-- If one of two exits of an entry lies behind the other, the two are a candidate themselves. -/
theorem Candidate.of_exits (hg : g.Flows source sink) (h₁ : g.Candidate source sink admitted s e₁)
    (h₂ : g.Candidate source sink admitted s e₂) (hne : e₁ ≠ e₂)
    (hbehind : g.Necessary e₁ sink e₂) : g.Candidate source sink admitted e₁ e₂ where
  entry_mem := h₁.exit_mem
  exit_mem := h₂.exit_mem
  entry_admitted := h₁.exit_admitted
  exit_admitted := h₂.exit_admitted
  ne := hne
  dominates := by
    obtain ⟨p, hp⟩ := hg.reaching e₁ h₁.exit_mem
    have hback : g.Bypass e₁ e₂ sink :=
      not_necessary_iff.1 fun h => hne (Necessary.antisymm hbehind h hp)
    have hway : g.Necessary s e₂ e₁ := h₁.postdominates.before hback
    -- the way to the second exit leads through the entry and then through the first exit
    rw [← not_bypass_iff] at hway ⊢
    exact fun h => hway (h.cut h₂.dominates).2
  postdominates := hbehind

/-- Of two exits of one entry, one is an entry of the other. -/
theorem Candidate.exits_comparable (hg : g.Flows source sink)
    (h₁ : g.Candidate source sink admitted s e₁) (h₂ : g.Candidate source sink admitted s e₂)
    (hne : e₁ ≠ e₂) :
    g.Candidate source sink admitted e₁ e₂ ∨ g.Candidate source sink admitted e₂ e₁ := by
  obtain ⟨p, hp⟩ := hg.reaching s h₁.entry_mem
  rcases h₁.postdominates.total h₂.postdominates hp with h | h
  · exact .inl (h₁.of_exits hg h₂ hne h)
  · exact .inr (h₂.of_exits hg h₁ hne.symm h)

/-- The sink is no entry: the route that stays there visits nothing else. -/
theorem Candidate.entry_ne_sink (h : g.Candidate source sink admitted s e) : s ≠ sink := by
  rintro rfl
  have hmem := h.postdominates [s] (.stay h.entry_mem)
  exact h.ne (List.mem_singleton.1 hmem).symm

/-- The source and the sink may always be boundaries. -/
theorem Flows.candidate (hg : g.Flows source sink) {mask : Option BoundaryMask}
    (hne : source ≠ sink) :
    g.Candidate source sink (admittedBy mask source sink) source sink where
  entry_mem := hg.source_mem
  exit_mem := hg.sink_mem
  entry_admitted := by cases mask <;> simp [admittedBy, BoundaryMask.admits]
  exit_admitted := by cases mask <;> simp [admittedBy, BoundaryMask.admits]
  ne := hne
  dominates := .source g source sink
  postdominates := .target g source sink

/-- What lies between the source and the sink on all routes is an exit of the one and an entry of
the other, if it is admitted. -/
theorem Flows.candidates_of_necessary (hg : g.Flows source sink) {mask : Option BoundaryMask}
    (hne : source ≠ sink) (hadm : admittedBy mask source sink m = true) (hsource : m ≠ source)
    (hsink : m ≠ sink) (hway : g.Necessary source sink m) :
    g.Candidate source sink (admittedBy mask source sink) source m ∧
      g.Candidate source sink (admittedBy mask source sink) m sink := by
  -- a vertex on all routes is a vertex of the graph, as there is a route
  obtain ⟨p, hp⟩ := hg.reaching source hg.source_mem
  obtain ⟨⟨_, hq, _⟩, _⟩ := hp.cut (hway p hp)
  have hm := hq.contains_target
  have hends : g.Candidate source sink (admittedBy mask source sink) source sink :=
    hg.candidate hne
  exact ⟨⟨hg.source_mem, hm, hends.entry_admitted, hadm, Ne.symm hsource, .source g source m, hway⟩,
    ⟨hm, hg.sink_mem, hadm, hends.exit_admitted, hsink, hway, .target g m sink⟩⟩

/-! ## Reversing all edges -/

theorem Flows.transpose (hg : g.Flows source sink) : g.transpose.Flows sink source where
  source_mem := by rw [contains_transpose, hg.sink_mem]
  sink_mem := by rw [contains_transpose, hg.source_mem]
  reached := by
    intro v hv
    obtain ⟨p, hp⟩ := hg.reaching v (by rwa [contains_transpose] at hv)
    exact ⟨_, hp.reverse⟩
  reaching := by
    intro v hv
    obtain ⟨p, hp⟩ := hg.reached v (by rwa [contains_transpose] at hv)
    exact ⟨_, hp.reverse⟩

/-- Reversing all edges exchanges entries and exits. -/
theorem candidate_transpose :
    g.transpose.Candidate sink source admitted e s ↔ g.Candidate source sink admitted s e := by
  constructor
  · intro h
    exact ⟨by rw [← contains_transpose, h.exit_mem], by rw [← contains_transpose, h.entry_mem],
      h.exit_admitted, h.entry_admitted, h.ne.symm, necessary_transpose.1 h.postdominates,
      necessary_transpose.1 h.dominates⟩
  · intro h
    exact ⟨by rw [contains_transpose, h.exit_mem], by rw [contains_transpose, h.entry_mem],
      h.exit_admitted, h.entry_admitted, h.ne.symm, necessary_transpose.2 h.postdominates,
      necessary_transpose.2 h.dominates⟩

/-- Reversing all edges exchanges the bounds of the minimal pairs. -/
theorem minimalPair_transpose :
    g.transpose.MinimalPair sink source admitted e s ↔ g.MinimalPair source sink admitted s e := by
  rw [minimalPair_iff, minimalPair_iff, candidate_transpose]
  simp only [candidate_transpose, and_comm]

/-- The source is no exit. -/
theorem Candidate.exit_ne_source (h : g.Candidate source sink admitted s e) : e ≠ source :=
  (candidate_transpose.2 h).entry_ne_sink

/-- Of two entries of one exit, one is an exit of the other. -/
theorem Candidate.entries_comparable (hg : g.Flows source sink)
    (h₁ : g.Candidate source sink admitted s₁ e) (h₂ : g.Candidate source sink admitted s₂ e)
    (hne : s₁ ≠ s₂) :
    g.Candidate source sink admitted s₁ s₂ ∨ g.Candidate source sink admitted s₂ s₁ :=
  (Candidate.exits_comparable hg.transpose (candidate_transpose.2 h₁) (candidate_transpose.2 h₂)
    hne).symm.imp candidate_transpose.1 candidate_transpose.1

/-- An entry has at most one minimal exit. -/
theorem MinimalPair.exit_unique (hg : g.Flows source sink)
    (h₁ : g.MinimalPair source sink admitted s e₁) (h₂ : g.MinimalPair source sink admitted s e₂) :
    e₁ = e₂ := by
  by_contra hne
  rcases h₁.toCandidate.exits_comparable hg h₂.toCandidate hne with h | h
  · exact h₂.indecomposable ⟨e₁, h₁.toCandidate, h⟩
  · exact h₁.indecomposable ⟨e₂, h₂.toCandidate, h⟩

/-- An exit has at most one minimal entry. -/
theorem MinimalPair.entry_unique (hg : g.Flows source sink)
    (h₁ : g.MinimalPair source sink admitted s₁ e) (h₂ : g.MinimalPair source sink admitted s₂ e) :
    s₁ = s₂ := by
  by_contra hne
  rcases h₁.toCandidate.entries_comparable hg h₂.toCandidate hne with h | h
  · exact h₁.indecomposable ⟨s₂, h, h₂.toCandidate⟩
  · exact h₂.indecomposable ⟨s₁, h, h₁.toCandidate⟩

/-! ## The analysis of a graph -/

variable {mask : Option BoundaryMask} {mode : SweepMode} {a : BoundaryAnalysis}

/-- The outcome of an analysis, passage sets first. -/
theorem value_analyseBoundaries (g : FlowGraph) (source sink : VertexId)
    (mask : Option BoundaryMask) (mode : SweepMode) :
    (g.analyseBoundaries source sink mask mode).run.value =
      (g.postdominators sink mode).run.value.bind fun post =>
      (g.dominators source mode).run.value.map fun dom =>
        ⟨post, dom, g.candidates (admittedBy mask source sink) post dom,
          (g.candidates (admittedBy mask source sink) post dom).minimal⟩ := by
  rw [analyseBoundaries, Attempt.value_bind]
  refine congrArg _ (funext fun post => ?_)
  rw [Attempt.value_bind]
  cases (g.dominators source mode).run.value <;> rfl

/-- What a successful analysis has computed. -/
theorem of_analyseBoundaries
    (h : (g.analyseBoundaries source sink mask mode).run.value = .ok a) :
    (g.postdominators sink mode).run.value = .ok a.postdominators ∧
      (g.dominators source mode).run.value = .ok a.dominators ∧
      a.candidates = g.candidates (admittedBy mask source sink) a.postdominators a.dominators ∧
      a.minimal = a.candidates.minimal := by
  rw [value_analyseBoundaries] at h
  cases hpost : (g.postdominators sink mode).run.value with
  | error err =>
    rw [hpost] at h
    cases h
  | ok post =>
    cases hdom : (g.dominators source mode).run.value with
    | error err =>
      rw [hpost, hdom] at h
      cases h
    | ok dom =>
      rw [hpost, hdom] at h
      cases h
      exact ⟨rfl, rfl, rfl, rfl⟩

/-- An analysis succeeds when every vertex lies on a route from the source to the sink. -/
theorem exists_analyseBoundaries (hg : g.Flows source sink) (mask : Option BoundaryMask)
    (mode : SweepMode) :
    ∃ a, (g.analyseBoundaries source sink mask mode).run.value = .ok a := by
  obtain ⟨post, hpost⟩ : ∃ sets, (g.passageSets sink mode).run.value = .ok sets :=
    exists_passageSets_iff.2 ⟨hg.sink_mem, hg.reaching⟩
  obtain ⟨dom, hdom⟩ : ∃ sets, (g.dominators source mode).run.value = .ok sets :=
    exists_dominators_iff.2 ⟨hg.source_mem, hg.reached⟩
  rw [value_analyseBoundaries, postdominators, hpost, hdom]
  exact ⟨_, rfl⟩

/-- An analysis succeeds only when every vertex lies on a route from the source to the sink. -/
theorem flows_of_analyseBoundaries
    (h : (g.analyseBoundaries source sink mask mode).run.value = .ok a) :
    g.Flows source sink := by
  obtain ⟨hpost, hdom, _⟩ := of_analyseBoundaries h
  obtain ⟨hsink, hreaching⟩ := exists_passageSets_iff.1 ⟨_, hpost⟩
  obtain ⟨hsource, hreached⟩ := exists_dominators_iff.1 ⟨_, hdom⟩
  exact ⟨hsource, hsink, hreached, hreaching⟩

/-- An analysis succeeds exactly when every vertex lies on a route from the source to the sink. -/
theorem exists_analyseBoundaries_iff :
    (∃ a, (g.analyseBoundaries source sink mask mode).run.value = .ok a) ↔ g.Flows source sink :=
  ⟨fun ⟨_, ha⟩ => flows_of_analyseBoundaries ha, fun hg => exists_analyseBoundaries hg mask mode⟩

theorem mem_exits_candidates_of_contains {post dom : PassageSets}
    (hpost : (g.postdominators sink mode).run.value = .ok post) (hs : g.contains s = true) :
    e ∈ (g.candidates admitted post dom).exits s ↔
      admitted s = true ∧ g.Necessary s sink e ∧ isCandidateExit admitted dom s e = true := by
  have hrow : g.successorTable.hasRow s = true := hs
  rw [candidates, BoundaryRelation.exits, VertexTable.getD_mapVertices hrow []]
  by_cases hadm : admitted s = true
  · rw [if_pos hadm, IdSet.mem_filter, ← contains_passageSets_iff hpost hs, PassageSets.contains,
      decide_eq_true_iff]
    simp [hadm]
  · simp [hadm]

/-- The analysis finds exactly the candidates. -/
theorem mem_exits_candidates_iff
    (h : (g.analyseBoundaries source sink mask mode).run.value = .ok a) :
    e ∈ a.candidates.exits s ↔ g.Candidate source sink (admittedBy mask source sink) s e := by
  obtain ⟨hpost, hdom, hcand, _⟩ := of_analyseBoundaries h
  have hg := flows_of_analyseBoundaries h
  rw [hcand]
  constructor
  · intro he
    have hs : g.contains s = true := by
      have hmem := BoundaryRelation.mem_vertices_of_mem_exits he
      rwa [BoundaryRelation.vertices, candidates, VertexTable.mem_vertices,
        VertexTable.hasRow_congr (VertexTable.size_mapVertices _ g.successorTable)] at hmem
    obtain ⟨hadm, hnec, hexit⟩ := (mem_exits_candidates_of_contains hpost hs).1 he
    -- the exit lies on a route, so it is a vertex and its dominators have been computed
    obtain ⟨p, hp⟩ := hg.reaching s hs
    obtain ⟨⟨q, hq, _⟩, _⟩ := hp.cut (hnec p hp)
    have hmem := hq.contains_target
    simp only [isCandidateExit, Bool.and_eq_true, decide_eq_true_iff] at hexit
    exact ⟨hs, hmem, hadm, hexit.1.2, Ne.symm hexit.1.1,
      (contains_dominators_iff hdom hmem).1 hexit.2, hnec⟩
  · intro hc
    refine (mem_exits_candidates_of_contains hpost hc.entry_mem).2
      ⟨hc.entry_admitted, hc.postdominates, ?_⟩
    simp only [isCandidateExit, Bool.and_eq_true, decide_eq_true_iff]
    exact ⟨⟨hc.ne.symm, hc.exit_admitted⟩,
      (contains_dominators_iff hdom hc.exit_mem).2 hc.dominates⟩

/-- Candidates lead where candidates go, since they can be joined. -/
theorem leads_candidates_iff
    (h : (g.analyseBoundaries source sink mask mode).run.value = .ok a) :
    a.candidates.Leads s e ↔ g.Candidate source sink (admittedBy mask source sink) s e := by
  have hg := flows_of_analyseBoundaries h
  refine ⟨fun hlead => ?_, fun hc => .single ((mem_exits_candidates_iff h).2 hc)⟩
  induction hlead with
  | single hpair => exact (mem_exits_candidates_iff h).1 hpair
  | tail _ hpair ih => exact ih.trans hg ((mem_exits_candidates_iff h).1 hpair)

theorem acyclic_candidates
    (h : (g.analyseBoundaries source sink mask mode).run.value = .ok a) :
    a.candidates.Acyclic :=
  fun _ hv => ((leads_candidates_iff h).1 hv).ne rfl

/-- The minimal pairs of an analysis are the neighbours in the order of the candidates. -/
theorem mem_exits_minimal_iff
    (h : (g.analyseBoundaries source sink mask mode).run.value = .ok a) :
    e ∈ a.minimal.exits s ↔ g.MinimalPair source sink (admittedBy mask source sink) s e := by
  rw [(of_analyseBoundaries h).2.2.2, (acyclic_candidates h).mem_exits_minimal_iff,
    mem_exits_candidates_iff h, BoundaryRelation.Splits, minimalPair_iff]
  simp only [leads_candidates_iff h]

/-- An entry has at most one exit among the minimal pairs. -/
theorem minimal_rightUnique (h : (g.analyseBoundaries source sink mask mode).run.value = .ok a) :
    Relator.RightUnique fun s e => e ∈ a.minimal.exits s := by
  intro s e₁ e₂ h₁ h₂
  rw [mem_exits_minimal_iff h] at h₁ h₂
  exact h₁.exit_unique (flows_of_analyseBoundaries h) h₂

/-- An exit has at most one entry among the minimal pairs. -/
theorem minimal_leftUnique (h : (g.analyseBoundaries source sink mask mode).run.value = .ok a) :
    Relator.LeftUnique fun s e => e ∈ a.minimal.exits s := by
  intro s₁ s₂ e h₁ h₂
  rw [mem_exits_minimal_iff h] at h₁ h₂
  exact h₁.entry_unique (flows_of_analyseBoundaries h) h₂

/-- An analysis knows the entries from the vertices. -/
theorem vertexCount_minimal_of_analyse
    (h : (g.analyseBoundaries source sink mask mode).run.value = .ok a) :
    a.minimal.vertexCount = g.vertexCount := by
  obtain ⟨_, _, hcand, hmin⟩ := of_analyseBoundaries h
  rw [hmin, BoundaryRelation.vertexCount_minimal, hcand, BoundaryRelation.vertexCount, candidates,
    VertexTable.size_mapVertices, vertexCount]

theorem contains_candidates_iff
    (h : (g.analyseBoundaries source sink mask mode).run.value = .ok a) :
    a.candidates.contains s e = true ↔
      g.Candidate source sink (admittedBy mask source sink) s e := by
  rw [BoundaryRelation.contains_iff, mem_exits_candidates_iff h]

theorem contains_minimal_iff
    (h : (g.analyseBoundaries source sink mask mode).run.value = .ok a) :
    a.minimal.contains s e = true ↔
      g.MinimalPair source sink (admittedBy mask source sink) s e := by
  rw [BoundaryRelation.contains_iff, mem_exits_minimal_iff h]

/-- The minimal pairs lead from one vertex to another exactly when the two are a candidate. -/
theorem leads_minimal_iff (h : (g.analyseBoundaries source sink mask mode).run.value = .ok a) :
    a.minimal.Leads s e ↔ a.candidates.contains s e = true := by
  rw [(of_analyseBoundaries h).2.2.2, (acyclic_candidates h).leads_minimal,
    leads_candidates_iff h, contains_candidates_iff h]

theorem acyclic_minimal (h : (g.analyseBoundaries source sink mask mode).run.value = .ok a) :
    a.minimal.Acyclic := by
  intro v hv
  rw [leads_minimal_iff h, contains_candidates_iff h] at hv
  exact hv.ne rfl

/-- The candidates of an analysis are the pairs of admitted vertices of which the entry dominates
the exit and the exit, another vertex, postdominates the entry. They form a strict partial order, in
which the exits of one entry are comparable, and so are the entries of one exit. -/
theorem candidates_strictly_ordered (g : FlowGraph) (source sink : VertexId)
    (mask : Option BoundaryMask) (mode : SweepMode) {a : BoundaryAnalysis}
    (ha : (g.analyseBoundaries source sink mask mode).run.value = .ok a) :
    (∀ s e, a.candidates.contains s e = true ↔
      g.contains s = true ∧ g.contains e = true ∧ s ≠ e ∧
        ((∀ m ∈ mask, m.contains s = true) ∨ s = source ∨ s = sink) ∧
        ((∀ m ∈ mask, m.contains e = true) ∨ e = source ∨ e = sink) ∧
        (∀ p, g.Route source e p → s ∈ p) ∧ ∀ p, g.Route s sink p → e ∈ p) ∧
    ((∀ s, ¬ a.candidates.contains s s = true) ∧
      (∀ s m e, a.candidates.contains s m = true → a.candidates.contains m e = true →
        a.candidates.contains s e = true) ∧
      a.candidates.Acyclic) ∧
    (∀ s e₁ e₂, a.candidates.contains s e₁ = true → a.candidates.contains s e₂ = true → e₁ ≠ e₂ →
      a.candidates.contains e₁ e₂ = true ∨ a.candidates.contains e₂ e₁ = true) ∧
    ∀ s₁ s₂ e, a.candidates.contains s₁ e = true → a.candidates.contains s₂ e = true → s₁ ≠ s₂ →
      a.candidates.contains s₁ s₂ = true ∨ a.candidates.contains s₂ s₁ = true := by
  have hg := flows_of_analyseBoundaries ha
  simp only [contains_candidates_iff ha]
  refine ⟨fun s e => ?_, ⟨fun s hs => hs.ne rfl, fun s m e => .trans hg, acyclic_candidates ha⟩,
    fun s e₁ e₂ => Candidate.exits_comparable hg, fun s₁ s₂ e => Candidate.entries_comparable hg⟩
  rw [← admittedBy_iff, ← admittedBy_iff]
  constructor
  · rintro ⟨hs, he, hadm, hadm', hne, hdom, hpost⟩
    exact ⟨hs, he, hne, hadm, hadm', hdom, hpost⟩
  · rintro ⟨hs, he, hne, hadm, hadm', hdom, hpost⟩
    exact ⟨hs, he, hadm, hadm', hne, hdom, hpost⟩

/-- Around loops, the vertex with the loop is an exit of the source and an entry of the sink, from
which an edge leads back, and the mask leaves out the detour. -/
theorem candidates_around_loops :
    ∃ a, (loops.analyseBoundaries ⟨0⟩ ⟨3⟩ (some (.ofList [⟨1⟩])) .snapshot).run.value = .ok a ∧
      a.candidates.contains ⟨0⟩ ⟨1⟩ = true ∧ a.candidates.contains ⟨0⟩ ⟨3⟩ = true ∧
      (a.candidates.contains ⟨1⟩ ⟨3⟩ = true ∨ a.candidates.contains ⟨3⟩ ⟨1⟩ = true) ∧
      (∀ p, loops.Route ⟨0⟩ ⟨3⟩ p → ⟨0⟩ ∈ p) ∧ (∀ p, loops.Route ⟨0⟩ ⟨3⟩ p → ⟨1⟩ ∈ p) ∧
      ¬ a.candidates.contains ⟨2⟩ ⟨1⟩ = true := by
  obtain ⟨a, ha, hone, hthree⟩ : ∃ a,
      (loops.analyseBoundaries ⟨0⟩ ⟨3⟩ (some (.ofList [⟨1⟩])) .snapshot).run.value = .ok a ∧
      a.candidates.contains ⟨0⟩ ⟨1⟩ = true ∧ a.candidates.contains ⟨0⟩ ⟨3⟩ = true :=
    ⟨(loops.analyseBoundaries ⟨0⟩ ⟨3⟩ (some (.ofList [⟨1⟩])) .snapshot).run.value.toOption.get
      (by decide +kernel), by decide +kernel, by decide +kernel, by decide +kernel⟩
  obtain ⟨hiff, _, hexits, _⟩ :=
    candidates_strictly_ordered loops ⟨0⟩ ⟨3⟩ (some (.ofList [⟨1⟩])) .snapshot ha
  obtain ⟨_, _, _, _, _, _, hpost⟩ := (hiff ⟨0⟩ ⟨1⟩).1 hone
  obtain ⟨_, _, _, _, _, hdom, _⟩ := (hiff ⟨0⟩ ⟨3⟩).1 hthree
  refine ⟨a, ha, hone, hthree, hexits ⟨0⟩ ⟨1⟩ ⟨3⟩ hone hthree (by decide), hdom, hpost, ?_⟩
  -- the mask admits neither end of the detour but the vertex with the loop
  intro htwo
  obtain ⟨_, _, _, hadm, _⟩ := (hiff ⟨2⟩ ⟨1⟩).1 htwo
  revert hadm
  decide

end FlowGraph

end FlowRegions
