import FlowRegions.Proofs.NetConversion
import FlowRegions.Proofs.Outcome
import FlowRegions.Proofs.SpanningRoot

/-!
# Decomposing a flow net

A net is converted and its graph is decomposed (`value_decompose`). The conversion has looked for
the endpoints already, and the decomposition finds the same ones, so what may still go wrong is a
node that no route from the source to the sink visits (`Converted.unreachable_of_defect`). The
conversion lists the transitions in the mask, and the decomposition admits what the mask lists, so
hammocks begin and end at transitions, at the source or at the sink
(`Converted.boundary_of_admitted`).
-/

namespace FlowRegions

open Log

namespace FlowGraph

variable {g : FlowGraph} {s t v : VertexId} {p q : List VertexId}

/-- Routes to and from a vertex can be joined to one that visits it. -/
theorem Route.through (hp : g.Route s v p) (hq : g.Route v t q) :
    ∃ r, g.Route s t r ∧ v ∈ r := by
  induction hp with
  | stay => exact ⟨q, hq, hq.source_mem⟩
  | step hsu _ ih =>
    obtain ⟨r, hr, hv⟩ := ih hq
    exact ⟨_, .step hsu hr, List.mem_cons_of_mem _ hv⟩

/-- A graph flows from one vertex to another exactly when every vertex lies on a route from the one
to the other. -/
theorem flows_iff_forall_mem_route (hs : g.contains s = true) (ht : g.contains t = true) :
    g.Flows s t ↔ ∀ v, g.contains v = true → ∃ p, g.Route s t p ∧ v ∈ p := by
  constructor
  · intro hg v hv
    obtain ⟨p, hp⟩ := hg.reached v hv
    obtain ⟨q, hq⟩ := hg.reaching v hv
    exact hp.through hq
  · intro h
    refine ⟨hs, ht, fun v hv => ?_, fun v hv => ?_⟩
    · obtain ⟨p, hp, hmem⟩ := h v hv
      exact (hp.cut hmem).1.imp fun _ hq => hq.1
    · obtain ⟨p, hp, hmem⟩ := h v hv
      exact (hp.cut hmem).2.imp fun _ hq => hq.1

/-- With endpoints, a decomposition fails exactly when the graph does not flow from one to the
other. -/
theorem exists_decompose_error_iff {config : Config} {mask : Option BoundaryMask}
    (hends : g.endpoints = .ok (s, t)) :
    (∃ e, (g.decompose config mask).run.value = .error e) ↔ ¬ g.Flows s t := by
  constructor
  · rintro ⟨e, he⟩ hg
    obtain ⟨d, hd⟩ := exists_decompose_of_flows config mask hends hg
    rw [hd] at he
    cases he
  · intro hg
    rcases g.defect_or_flows with ⟨e, he⟩ | ⟨s', t', hends', hg'⟩
    · exact ⟨e, decompose_of_defect config mask he⟩
    · obtain ⟨rfl, rfl⟩ := Prod.mk.inj (Except.ok.inj (hends.symm.trans hends'))
      exact absurd hg' hg

end FlowGraph

namespace FlowNet

variable {n : FlowNet} {ng : NetGraph} {config : Config} {d : Decomposition} {v : VertexId}
variable {e : DecompositionError}

/-! ## Stages -/

/-- The outcome of the decomposition of a net, stage by stage. -/
theorem value_decompose (config : Config) (n : FlowNet) :
    (n.decompose config).run.value =
      (n.toGraph.run.value.mapError .net).bind fun ng =>
        (ng.graph.decompose config (some ng.mask)).run.value.map fun d => (ng, d) := by
  rw [decompose, Attempt.value_bind, Attempt.value_mapError]
  refine congrArg _ (funext fun ng => ?_)
  rw [NetGraph.decompose, Attempt.value_bind]
  cases (ng.graph.decompose config (some ng.mask)).run.value <;> rfl

theorem decompose_of_toGraph (h : n.toGraph.run.value = .ok ng) :
    (n.decompose config).run.value =
      (ng.graph.decompose config (some ng.mask)).run.value.map fun d => (ng, d) := by
  rw [value_decompose, h]
  rfl

theorem decompose_of_toGraph_error {x : NetError} (h : n.toGraph.run.value = .error x) :
    (n.decompose config).run.value = .error (.net x) := by
  rw [value_decompose, h]
  rfl

/-- A decomposed net has been converted and its graph decomposed. -/
theorem of_decompose (h : (n.decompose config).run.value = .ok (ng, d)) :
    n.toGraph.run.value = .ok ng ∧
      (ng.graph.decompose config (some ng.mask)).run.value = .ok d := by
  cases hgraph : n.toGraph.run.value with
  | error x =>
    rw [decompose_of_toGraph_error hgraph] at h
    cases h
  | ok ng' =>
    rw [decompose_of_toGraph hgraph] at h
    cases hd : (ng'.graph.decompose config (some ng'.mask)).run.value with
    | error e =>
      rw [hd] at h
      cases h
    | ok d' =>
      rw [hd] at h
      obtain ⟨rfl, rfl⟩ := Prod.mk.inj (Except.ok.inj h)
      exact ⟨rfl, hd⟩

theorem decompose_eq_error_of_toGraph_iff (h : n.toGraph.run.value = .ok ng) :
    (n.decompose config).run.value = .error e ↔
      (ng.graph.decompose config (some ng.mask)).run.value = .error e := by
  rw [decompose_of_toGraph h]
  cases (ng.graph.decompose config (some ng.mask)).run.value <;> simp [Except.map]

/-! ## What the conversion leaves to the decomposition -/

/-- A converted net has endpoints, so only vertices without routes are left to be reported. -/
theorem Converted.unreachable_of_defect (h : n.Converted ng) (he : ng.graph.Defect e) :
    ∃ v u, e = .passage (.unreachableVertex v u) := by
  cases he with
  | endpoints hends => simp [h.endpoints_eq] at hends
  | stranded | unreached => exact ⟨_, _, rfl⟩

/-- A decomposition blames the net exactly when the conversion does. -/
theorem decompose_eq_net_error_iff {x : NetError} (hn : n.names.length < idCount) :
    (n.decompose config).run.value = .error (.net x) ↔ n.toGraph.run.value = .error x := by
  cases hgraph : n.toGraph.run.value with
  | error y => simp [decompose_of_toGraph_error hgraph]
  | ok ng =>
    rw [decompose_eq_error_of_toGraph_iff hgraph, FlowGraph.decompose_eq_error_iff]
    refine iff_of_false (fun he => ?_) (by simp)
    obtain ⟨v, u, heq⟩ := (of_toGraph hn hgraph).unreachable_of_defect he
    cases heq

/-- Every vertex of a converted net has a name. -/
theorem Converted.exists_label (h : n.Converted ng) (hv : ng.graph.contains v = true) :
    ∃ name, ng.label? v = some name := by
  rw [NetGraph.label?, h.net_eq]
  exact h.drawn.contains_iff.1 hv

/-- The vertices of a converted net are those of its declared names. -/
theorem Converted.contains_iff (hn : n.names.length < idCount) (h : n.Converted ng) :
    ng.graph.contains v = true ↔ ∃ name ∈ n.names, ng.vertex? name = some v := by
  simp only [h.drawn.contains_iff, NetGraph.vertex?, h.net_eq]
  constructor
  · rintro ⟨name, hname⟩
    have hv := (vertex?_eq_some_iff_label? hn h.nodup).2 hname
    exact ⟨name, exists_vertex?_iff.1 ⟨v, hv⟩, hv⟩
  · rintro ⟨name, _, hv⟩
    exact ⟨name, (vertex?_eq_some_iff_label? hn h.nodup).1 hv⟩

/-- What the mask of a converted net admits are transitions, the source and the sink. -/
theorem Converted.boundary_of_admitted (h : n.Converted ng)
    (hv : admittedBy (some ng.mask) ng.source ng.sink v = true) :
    ng.kind? v = some .transition ∨ v = ng.source ∨ v = ng.sink := by
  refine (admittedBy_iff.1 hv).imp_left fun hmask => ?_
  rw [NetGraph.kind?, h.net_eq, ← h.contains_mask_iff]
  exact hmask ng.mask rfl

/-- A converted net is decomposed unless some node lies on no route from the source to the sink. -/
theorem exists_decompose_error_iff (config : Config) (hn : n.names.length < idCount)
    (hng : n.toGraph.run.value = .ok ng) :
    (∃ e, (n.decompose config).run.value = .error e) ↔
      ∃ name ∈ n.names, ∃ v, ng.vertex? name = some v ∧
        ¬ ∃ p, ng.graph.Route ng.source ng.sink p ∧ v ∈ p := by
  have h := of_toGraph hn hng
  have hsource := FlowGraph.contains_source_of_endpoints h.endpoints_eq
  have hsink := FlowGraph.contains_sink_of_endpoints h.endpoints_eq
  simp only [decompose_eq_error_of_toGraph_iff hng]
  rw [FlowGraph.exists_decompose_error_iff h.endpoints_eq,
    FlowGraph.flows_iff_forall_mem_route hsource hsink]
  constructor
  · intro hall
    by_contra hnone
    refine hall fun v hv => ?_
    obtain ⟨name, hname, hvertex⟩ := (h.contains_iff hn).1 hv
    by_contra hroute
    exact hnone ⟨name, hname, v, hvertex, hroute⟩
  · rintro ⟨name, hname, v, hvertex, hroute⟩ hall
    exact hroute (hall v ((h.contains_iff hn).2 ⟨name, hname, hvertex⟩))

/-! ## Outcomes -/

/-- The decomposition of a net reports what is wrong with the net when the conversion does, and
otherwise at most a node without routes, which there is exactly when some declared node lies on no
route from the source to the sink. If it succeeds, it has the endpoints of the converted net, every
hammock begins and ends at a transition, the source or the sink, all of which have names, and the
bounds of the hammocks are the minimal pairs under the mask of the transitions. -/
theorem net_decomposition_outcome (n : FlowNet) (config : Config)
    (hn : n.names.length < idCount) :
    (∀ x, (n.decompose config).run.value = .error (.net x) ↔ n.toGraph.run.value = .error x) ∧
    (∀ ng, n.toGraph.run.value = .ok ng →
      (∀ e, (n.decompose config).run.value = .error e →
        ∃ v u, e = .passage (.unreachableVertex v u)) ∧
      ((∃ v u, (n.decompose config).run.value = .error (.passage (.unreachableVertex v u))) ↔
        ∃ name ∈ n.names, ∃ v, ng.vertex? name = some v ∧
          ¬ ∃ p, ng.graph.Route ng.source ng.sink p ∧ v ∈ p)) ∧
    ∀ ng d, (n.decompose config).run.value = .ok (ng, d) →
      n.toGraph.run.value = .ok ng ∧
      (d.source = ng.source ∧ d.sink = ng.sink) ∧
      (∀ i x, d.tree.registry.get? i = some x → ∀ v ∈ [x.entry, x.exit],
        (ng.kind? v = some .transition ∨ v = ng.source ∨ v = ng.sink) ∧
          ∃ name, ng.label? v = some name) ∧
      (∀ v, ng.mask.contains v = true ↔ ng.kind? v = some .transition) ∧
      ∃ a, (ng.graph.analyseBoundaries ng.source ng.sink (some ng.mask) config.sweep).run.value =
          .ok a ∧
        ∀ s e, ((∃ i x, d.tree.registry.get? i = some x ∧ x.bounds = (s, e)) ↔
            a.minimal.contains s e = true) ∧
          (a.minimal.contains s e = true ↔
            ng.graph.MinimalPair ng.source ng.sink (admittedBy (some ng.mask) ng.source ng.sink)
              s e) := by
  refine ⟨fun x => decompose_eq_net_error_iff hn, fun ng hng => ?_, fun ng d hd => ?_⟩
  · have hkind : ∀ e, (n.decompose config).run.value = .error e →
        ∃ v u, e = .passage (.unreachableVertex v u) := fun e he => by
      rw [decompose_eq_error_of_toGraph_iff hng, FlowGraph.decompose_eq_error_iff] at he
      exact (of_toGraph hn hng).unreachable_of_defect he
    refine ⟨hkind, ?_⟩
    rw [← exists_decompose_error_iff config hn hng]
    refine ⟨fun ⟨v, u, he⟩ => ⟨_, he⟩, fun ⟨e, he⟩ => ?_⟩
    obtain ⟨v, u, rfl⟩ := hkind e he
    exact ⟨v, u, he⟩
  · obtain ⟨hng, hdec⟩ := of_decompose hd
    have h := of_toGraph hn hng
    obtain ⟨a, ha, ht⟩ := FlowGraph.of_decompose hdec
    have hends := Except.ok.inj (h.endpoints_eq.symm.trans (FlowGraph.endpoints_of_decompose hdec))
    obtain ⟨hsource, hsink⟩ := Prod.mk.inj hends
    rw [← hsource, ← hsink] at ha
    rw [(HammockRegistry.passes_of_nest ht).registry_eq]
    refine ⟨hng, ⟨hsource.symm, hsink.symm⟩, fun i x hx v hv => ?_, fun v => ?_, a, ha,
      fun s e => ⟨?_, ?_⟩⟩
    · have hpair := (HammockRegistry.minimalPair_of_get? ha hx).1.toCandidate
      rcases List.mem_pair.1 hv with rfl | rfl
      · exact ⟨h.boundary_of_admitted hpair.entry_admitted, h.exists_label hpair.entry_mem⟩
      · exact ⟨h.boundary_of_admitted hpair.exit_admitted, h.exists_label hpair.exit_mem⟩
    · rw [h.contains_mask_iff, NetGraph.kind?, h.net_eq]
    · rw [HammockRegistry.exists_get?_iff_minimalPair ha, FlowGraph.contains_minimal_iff ha]
    · exact FlowGraph.contains_minimal_iff ha

/-- Paying and passing bound a hammock of the toll, while the place between the two does not. A
booth that no arc leads to is reported. -/
theorem toll_decomposed :
    toll.names.length < idCount ∧
      (∃ ng d, (toll.decompose .reference).run.value = .ok (ng, d) ∧
        (∃ i x, d.tree.registry.get? i = some x ∧ x.bounds = (⟨3⟩, ⟨4⟩)) ∧
        ¬ (∃ i x, d.tree.registry.get? i = some x ∧ x.bounds = (⟨3⟩, ⟨1⟩)) ∧
        d.source = ng.source ∧ ng.label? ⟨1⟩ = some "paid") ∧
      ∃ v u, ((toll.addPlace "booth").decompose .reference).run.value =
        .error (.passage (.unreachableVertex v u)) := by
  have hn : toll.names.length < idCount := by decide
  obtain ⟨ng, a, hng, hends, hlabel, ha, hpair, hplace⟩ : ∃ ng a, toll.toGraph.run.value = .ok ng ∧
      ng.graph.endpoints = .ok (ng.source, ng.sink) ∧ ng.label? ⟨1⟩ = some "paid" ∧
      (ng.graph.analyseBoundaries ng.source ng.sink (some ng.mask) .inPlace).run.value = .ok a ∧
      a.minimal.contains ⟨3⟩ ⟨4⟩ = true ∧ ¬ a.minimal.contains ⟨3⟩ ⟨1⟩ = true :=
    ⟨toll.toGraph.run.value.toOption.get (by decide +kernel),
      ((toll.toGraph.run.value.toOption.get (by decide +kernel)).graph.analyseBoundaries ⟨0⟩ ⟨2⟩
        (some (.ofList [⟨3⟩, ⟨4⟩])) .inPlace).run.value.toOption.get (by decide +kernel),
      by decide +kernel, by decide +kernel, by decide +kernel, by decide +kernel,
      by decide +kernel, by decide +kernel⟩
  obtain ⟨ng', hng', hvertex, hlone⟩ : ∃ ng', (toll.addPlace "booth").toGraph.run.value = .ok ng' ∧
      ng'.vertex? "booth" = some ⟨3⟩ ∧ ⟨3⟩ ∉ ng'.graph.reachableFrom ng'.source :=
    ⟨(toll.addPlace "booth").toGraph.run.value.toOption.get (by decide +kernel), by decide +kernel,
      by decide +kernel, by decide +kernel⟩
  obtain ⟨d, hd, _⟩ := FlowGraph.exists_decompose_of_analysis .reference hends ha
  have hdec : (toll.decompose .reference).run.value = .ok (ng, d) := by
    rw [decompose_of_toGraph hng, hd]
    rfl
  obtain ⟨_, _, hok⟩ := net_decomposition_outcome toll .reference hn
  obtain ⟨_, ⟨hsource, _⟩, _, _, a', ha', hregistered⟩ := hok ng d hdec
  obtain rfl : a = a' := Except.ok.inj (ha.symm.trans ha')
  refine ⟨hn, ⟨ng, d, hdec, (hregistered ⟨3⟩ ⟨4⟩).1.2 hpair,
    fun h => hplace ((hregistered ⟨3⟩ ⟨1⟩).1.1 h), hsource, hlabel⟩, ?_⟩
  have hbooth := (net_decomposition_outcome (toll.addPlace "booth") .reference (by decide)).2.1
  refine (hbooth ng' hng').2.2 ⟨"booth", by decide, ⟨3⟩, hvertex, ?_⟩
  rintro ⟨p, hp, hmem⟩
  obtain ⟨⟨q, hq, _⟩, _⟩ := hp.cut hmem
  exact hlone (FlowGraph.mem_reachableFrom_iff_route.2 ⟨q, hq⟩)

end FlowNet

end FlowRegions
