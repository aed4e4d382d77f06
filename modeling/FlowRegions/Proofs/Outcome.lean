import FlowRegions.Proofs.Containment
import FlowRegions.Proofs.Stages
import FlowRegions.Proofs.Terminals

/-!
# When a decomposition fails

What can be wrong with a graph are its endpoints, then vertices from which the sink cannot be
reached, then vertices that cannot be reached from the source (`Defect`). A graph without defects
flows from its source to its sink (`defect_or_flows`), and then nothing goes wrong: the endpoints
are vertices, so no analysis misses its target, and they are two, so they are a candidate under
every mask and some minimal pair is registered. So the error of a decomposition is a matter of the
graph alone (`decompose_eq_error_iff`).
-/

namespace FlowRegions

open Log

namespace FlowGraph

variable {g : FlowGraph} {s t u v source sink : VertexId} {mode : SweepMode}
variable {mask : Option BoundaryMask} {config : Config} {e : DecompositionError}

/-! ## Vertices without routes -/

theorem LeastStranded.unique (hu : g.LeastStranded t u) (hv : g.LeastStranded t v) : u = v := by
  apply DenseId.eq_of_not_lt
  · exact fun h => hu.stranded (hv.least u hu.contains h)
  · exact fun h => hv.stranded (hu.least v hv.contains h)

/-- The search for a stranded vertex finds the least of all, if there is one. -/
theorem firstStranded?_eq_some_iff : g.firstStranded? t = some v ↔ g.LeastStranded t v := by
  refine ⟨leastStranded_of_firstStranded?, fun hv => ?_⟩
  cases hfirst : g.firstStranded? t with
  | none => exact absurd (firstStranded?_eq_none_iff.1 hfirst v hv.contains) hv.stranded
  | some u => rw [hv.unique (leastStranded_of_firstStranded? hfirst)]

/-- `v` is the least vertex of the graph to which no route leads from `s`. -/
structure LeastUnreached (g : FlowGraph) (s v : VertexId) : Prop where
  contains : g.contains v = true
  unreached : ¬ ∃ p, g.Route s v p
  least : ∀ u, g.contains u = true → u < v → ∃ p, g.Route s u p

/-- Reversing all edges exchanges the vertices that are stranded and those that are not reached. -/
theorem leastStranded_transpose : g.transpose.LeastStranded s v ↔ g.LeastUnreached s v := by
  constructor
  · rintro ⟨hv, hstranded, hleast⟩
    rw [exists_route_transpose] at hstranded
    simp only [contains_transpose, exists_route_transpose] at hv hleast
    exact ⟨hv, hstranded, hleast⟩
  · rintro ⟨hv, hunreached, hleast⟩
    refine ⟨?_, ?_, ?_⟩
    · rwa [contains_transpose]
    · rwa [exists_route_transpose]
    · simpa only [contains_transpose, exists_route_transpose] using hleast

/-! ## Analyses -/

/-- An analysis reports the least stranded vertex. -/
theorem postdominators_of_leastStranded (ht : g.contains t = true) (hv : g.LeastStranded t v) :
    (g.postdominators t mode).run.value = .error (.unreachableVertex v t) :=
  passageSets_of_stranded ht (firstStranded?_eq_some_iff.2 hv) mode

/-- The dominator analysis reports the least vertex that is not reached. -/
theorem dominators_of_leastUnreached (hs : g.contains s = true) (hv : g.LeastUnreached s v) :
    (g.dominators s mode).run.value = .error (.unreachableVertex v s) := by
  rw [← contains_transpose] at hs
  exact passageSets_of_stranded hs
    (firstStranded?_eq_some_iff.2 (leastStranded_transpose.2 hv)) mode

/-- Vertices that do not reach the sink are reported first. -/
theorem analyseBoundaries_of_leastStranded (ht : g.contains t = true)
    (hv : g.LeastStranded t v) :
    (g.analyseBoundaries s t mask mode).run.value = .error (.unreachableVertex v t) := by
  rw [analyseBoundaries, Attempt.value_bind, postdominators_of_leastStranded ht hv]
  rfl

/-- Where all vertices reach the sink, those that are not reached from the source are reported. -/
theorem analyseBoundaries_of_leastUnreached (hs : g.contains s = true)
    (ht : g.contains t = true) (hreach : ∀ v, g.contains v = true → ∃ p, g.Route v t p)
    (hv : g.LeastUnreached s v) :
    (g.analyseBoundaries s t mask mode).run.value = .error (.unreachableVertex v s) := by
  obtain ⟨post, hpost⟩ : ∃ sets, (g.postdominators t mode).run.value = .ok sets :=
    exists_passageSets_iff.2 ⟨ht, hreach⟩
  rw [analyseBoundaries, Attempt.value_bind, hpost, Except.bind, Attempt.value_bind,
    dominators_of_leastUnreached hs hv]
  rfl

/-- Between the endpoints of a graph some hammock is registered, whatever the mask. -/
theorem size_register_pos {a : BoundaryAnalysis} (hends : g.endpoints = .ok (source, sink))
    (ha : (g.analyseBoundaries source sink mask mode).run.value = .ok a) :
    0 < (HammockRegistry.register g a.minimal).value.size := by
  obtain ⟨x, hx⟩ := HammockRegistry.exists_registered ha (source_ne_sink_of_endpoints hends)
  exact Nat.lt_of_le_of_lt (Nat.zero_le _) (HammockRegistry.index_lt_of_get? hx)

/-! ## Outcomes -/

/-- What is wrong with a graph. -/
inductive Defect (g : FlowGraph) : DecompositionError → Prop where
  /-- There is no unique source or no unique sink. -/
  | endpoints {x : GraphError} (h : g.endpoints = .error x) : Defect g (.invalidGraph x)
  /-- Some vertex does not reach the sink. -/
  | stranded {s t v : VertexId} (hends : g.endpoints = .ok (s, t)) (hv : g.LeastStranded t v) :
      Defect g (.passage (.unreachableVertex v t))
  /-- All vertices reach the sink, and some vertex is not reached from the source. -/
  | unreached {s t v : VertexId} (hends : g.endpoints = .ok (s, t))
      (hreach : ∀ u, g.contains u = true → ∃ p, g.Route u t p) (hv : g.LeastUnreached s v) :
      Defect g (.passage (.unreachableVertex v s))

/-- A graph without defects flows from its source to its sink. -/
theorem defect_or_flows (g : FlowGraph) :
    (∃ e, g.Defect e) ∨ ∃ s t, g.endpoints = .ok (s, t) ∧ g.Flows s t := by
  cases hends : g.endpoints with
  | error x => exact .inl ⟨_, .endpoints hends⟩
  | ok ends =>
    obtain ⟨s, t⟩ := ends
    cases hstranded : g.firstStranded? t with
    | some v => exact .inl ⟨_, .stranded hends (firstStranded?_eq_some_iff.1 hstranded)⟩
    | none =>
      have hreach := firstStranded?_eq_none_iff.1 hstranded
      cases hunreached : g.transpose.firstStranded? s with
      | some v =>
        have hv := leastStranded_transpose.1 (firstStranded?_eq_some_iff.1 hunreached)
        exact .inl ⟨_, .unreached hends hreach hv⟩
      | none =>
        have hall := firstStranded?_eq_none_iff.1 hunreached
        simp only [contains_transpose, exists_route_transpose] at hall
        exact .inr ⟨s, t, rfl, contains_source_of_endpoints hends,
          contains_sink_of_endpoints hends, hall, hreach⟩

theorem decompose_of_endpoints_error {x : GraphError} (hends : g.endpoints = .error x) :
    (g.decompose config mask).run.value = .error (.invalidGraph x) := by
  rw [value_decompose, hends]
  rfl

theorem decompose_of_analysis_error {x : PassageError}
    (hends : g.endpoints = .ok (source, sink))
    (ha : (g.analyseBoundaries source sink mask config.sweep).run.value = .error x) :
    (g.decompose config mask).run.value = .error (.passage x) := by
  rw [value_decompose, hends, Except.mapError, Except.bind, ha]
  rfl

/-- A decomposition reports the defect of its graph. -/
theorem decompose_of_defect (config : Config) (mask : Option BoundaryMask) (h : g.Defect e) :
    (g.decompose config mask).run.value = .error e := by
  cases h with
  | endpoints hends => exact decompose_of_endpoints_error hends
  | stranded hends hv =>
    apply decompose_of_analysis_error hends
    exact analyseBoundaries_of_leastStranded (contains_sink_of_endpoints hends) hv
  | unreached hends hreach hv =>
    apply decompose_of_analysis_error hends
    exact analyseBoundaries_of_leastUnreached (contains_source_of_endpoints hends)
      (contains_sink_of_endpoints hends) hreach hv

/-- Behind a successful analysis nothing fails: there is a hammock to begin with. -/
theorem exists_decompose_of_analysis (config : Config) {a : BoundaryAnalysis}
    (hends : g.endpoints = .ok (source, sink))
    (ha : (g.analyseBoundaries source sink mask config.sweep).run.value = .ok a) :
    ∃ d, (g.decompose config mask).run.value = .ok d ∧ d.source = source ∧ d.sink = sink ∧
      d.tree.registry = (HammockRegistry.register g a.minimal).value ∧
      d.statistics = if config.collectStatistics then .collect g a d.tree else {} := by
  obtain ⟨x, hx⟩ := HammockRegistry.exists_registered ha (source_ne_sink_of_endpoints hends)
  obtain ⟨t, ht⟩ := HammockRegistry.exists_nest g (HammockRegistry.mem_ids_of_get? hx)
  exact ⟨_, decompose_eq_ok_iff.2 ⟨_, hends, a, ha, t, ht, rfl⟩, rfl, rfl,
    (HammockRegistry.passes_of_nest ht).registry_eq, rfl⟩

/-- The decomposition of a graph without defects succeeds. -/
theorem exists_decompose_of_flows (config : Config) (mask : Option BoundaryMask)
    (hends : g.endpoints = .ok (source, sink)) (hg : g.Flows source sink) :
    ∃ d, (g.decompose config mask).run.value = .ok d := by
  obtain ⟨a, ha⟩ := exists_analyseBoundaries hg mask config.sweep
  exact (exists_decompose_of_analysis config hends ha).imp fun _ hd => hd.1

/-- A decomposition fails exactly for the defect of its graph. -/
theorem decompose_eq_error_iff :
    (g.decompose config mask).run.value = .error e ↔ g.Defect e := by
  refine ⟨fun h => ?_, decompose_of_defect config mask⟩
  rcases g.defect_or_flows with ⟨e', he'⟩ | ⟨s, t, hends, hg⟩
  · rw [decompose_of_defect config mask he'] at h
    exact Except.error.inj h ▸ he'
  · obtain ⟨d, hd⟩ := exists_decompose_of_flows config mask hends hg
    rw [hd] at h
    cases h

/-- A decomposition reports the endpoints of its graph if they are not unique, otherwise the least
vertex from which the sink cannot be reached, otherwise the least vertex that cannot be reached from
the source, and otherwise it succeeds. It reports nothing else, neither the mask nor the
configuration matters, and whenever both analyses succeed some hammock is registered. -/
theorem decompose_outcome (config : Config) (g : FlowGraph) (mask : Option BoundaryMask) :
    (∀ x, (g.decompose config mask).run.value = .error (.invalidGraph x) ↔
      g.endpoints = .error x) ∧
    (∀ s t, g.endpoints = .ok (s, t) →
      (∃ v, g.LeastStranded t v ∧
        (g.decompose config mask).run.value = .error (.passage (.unreachableVertex v t))) ∨
      ((∀ v, g.contains v = true → ∃ p, g.Route v t p) ∧
        ∃ v, g.LeastUnreached s v ∧
          (g.decompose config mask).run.value = .error (.passage (.unreachableVertex v s))) ∨
      ((∀ v, g.contains v = true → ∃ p, g.Route v t p) ∧
        (∀ v, g.contains v = true → ∃ p, g.Route s v p) ∧
        ∃ d, (g.decompose config mask).run.value = .ok d)) ∧
    (∀ e, (g.decompose config mask).run.value = .error e →
      (∃ x, e = .invalidGraph x) ∨ ∃ v u, e = .passage (.unreachableVertex v u)) ∧
    (∀ config' mask' e, (g.decompose config mask).run.value = .error e ↔
      (g.decompose config' mask').run.value = .error e) ∧
    ∀ s t post dom, g.endpoints = .ok (s, t) →
      (g.postdominators t config.sweep).run.value = .ok post →
      (g.dominators s config.sweep).run.value = .ok dom →
      ∃ a, (g.analyseBoundaries s t mask config.sweep).run.value = .ok a ∧
        0 < (HammockRegistry.register g a.minimal).value.size := by
  refine ⟨fun x => ?_, fun s t hends => ?_, fun e he => ?_, fun config' mask' e => ?_, ?_⟩
  · rw [decompose_eq_error_iff]
    refine ⟨fun h => ?_, .endpoints⟩
    cases h with
    | endpoints h => exact h
  · rcases g.defect_or_flows with ⟨e, he⟩ | ⟨s', t', hends', hg⟩
    · have hrun := decompose_of_defect config mask he
      cases he with
      | endpoints h => simp [hends] at h
      | stranded hends' hv =>
        obtain ⟨rfl, rfl⟩ := Prod.mk.inj (Except.ok.inj (hends.symm.trans hends'))
        exact .inl ⟨_, hv, hrun⟩
      | unreached hends' hreach hv =>
        obtain ⟨rfl, rfl⟩ := Prod.mk.inj (Except.ok.inj (hends.symm.trans hends'))
        exact .inr (.inl ⟨hreach, _, hv, hrun⟩)
    · obtain ⟨rfl, rfl⟩ := Prod.mk.inj (Except.ok.inj (hends.symm.trans hends'))
      exact .inr (.inr ⟨hg.reaching, hg.reached, exists_decompose_of_flows config mask hends hg⟩)
  · cases decompose_eq_error_iff.1 he with
    | endpoints => exact .inl ⟨_, rfl⟩
    | stranded | unreached => exact .inr ⟨_, _, rfl⟩
  · rw [decompose_eq_error_iff, decompose_eq_error_iff]
  · intro s t post dom hends hpost hdom
    obtain ⟨ht, hreach⟩ := exists_passageSets_iff.1 ⟨_, hpost⟩
    obtain ⟨hs, hreached⟩ := exists_dominators_iff.1 ⟨_, hdom⟩
    obtain ⟨a, ha⟩ := exists_analyseBoundaries ⟨hs, ht, hreached, hreach⟩ mask config.sweep
    exact ⟨a, ha, size_register_pos hends ha⟩

/-- A line of three vertices from which an edge leads into a cycle, and an isolated vertex. -/
def trap : FlowGraph :=
  ((new 6).addEdges [(⟨0⟩, ⟨1⟩), (⟨1⟩, ⟨2⟩), (⟨1⟩, ⟨4⟩), (⟨4⟩, ⟨5⟩), (⟨5⟩, ⟨4⟩)]).toOption.getD
    default

/-- The isolated vertex is reported before the cycle, and as one that does not reach the sink,
though it is not reached from the source either. With an empty mask, a line with an edge back has a
hammock. -/
theorem trap_and_step_back :
    trap.endpoints = .ok (⟨0⟩, ⟨2⟩) ∧ ¬ (∃ p, trap.Route ⟨0⟩ ⟨3⟩ p) ∧
      (trap.decompose .parallel (some .empty)).run.value =
        .error (.passage (.unreachableVertex ⟨3⟩ ⟨2⟩)) ∧
      (∃ d, (stepBack.decompose .reference (some .empty)).run.value = .ok d) ∧
      ∃ a, (stepBack.analyseBoundaries ⟨0⟩ ⟨4⟩ (some .empty) .inPlace).run.value = .ok a ∧
        0 < (HammockRegistry.register stepBack a.minimal).value.size := by
  have htrap : trap.endpoints = .ok (⟨0⟩, ⟨2⟩) := by decide +kernel
  have hthree : trap.LeastStranded ⟨2⟩ ⟨3⟩ := firstStranded?_eq_some_iff.1 (by decide +kernel)
  have hunreached : ¬ ∃ p, trap.Route ⟨0⟩ ⟨3⟩ p := by
    rw [← mem_reachableFrom_iff_route]
    decide +kernel
  have hback : stepBack.endpoints = .ok (⟨0⟩, ⟨4⟩) := by decide +kernel
  have hquiet : stepBack.firstStranded? ⟨4⟩ = none ∧
      stepBack.transpose.firstStranded? ⟨0⟩ = none := by decide +kernel
  obtain ⟨hreach, hreached⟩ := hquiet
  rw [firstStranded?_eq_none_iff] at hreach hreached
  obtain ⟨_, hfail, _, _, _⟩ := decompose_outcome .parallel trap (some .empty)
  obtain ⟨_, hsucceed, _, _, hregister⟩ := decompose_outcome .reference stepBack (some .empty)
  obtain ⟨post, hpost⟩ : ∃ sets, (stepBack.postdominators ⟨4⟩ .inPlace).run.value = .ok sets :=
    exists_passageSets_iff.2 ⟨by decide +kernel, hreach⟩
  obtain ⟨dom, hdom⟩ : ∃ sets, (stepBack.dominators ⟨0⟩ .inPlace).run.value = .ok sets :=
    exists_passageSets_iff.2 ⟨by decide +kernel, hreached⟩
  refine ⟨htrap, hunreached, ?_, ?_, hregister ⟨0⟩ ⟨4⟩ post dom hback hpost hdom⟩
  · rcases hfail ⟨0⟩ ⟨2⟩ htrap with ⟨v, hv, hrun⟩ | ⟨hall, _⟩ | ⟨hall, _⟩
    · rwa [hv.unique hthree] at hrun
    · exact absurd (hall ⟨3⟩ hthree.contains) hthree.stranded
    · exact absurd (hall ⟨3⟩ hthree.contains) hthree.stranded
  · rcases hsucceed ⟨0⟩ ⟨4⟩ hback with ⟨v, hv, _⟩ | ⟨_, v, hv, _⟩ | ⟨_, _, hd⟩
    · exact absurd (hreach v hv.contains) hv.stranded
    · simp only [contains_transpose, exists_route_transpose] at hreached
      exact absurd (hreached v hv.contains) hv.unreached
    · exact hd

end FlowGraph

end FlowRegions
