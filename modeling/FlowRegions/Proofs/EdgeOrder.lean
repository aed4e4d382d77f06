import FlowRegions.Proofs.Registry

/-!
# The order of edges

Graphs with the same vertices may list the successors of a vertex in another order or more than
once (`SameEdges`), and they may differ in which vertices have an edge to themselves
(`SameUpToLoops`). They have routes between the same vertices, as a loop leads nowhere new
(`SameUpToLoops.exists_route_iff`). Every stage of an analysis leaves loops aside in its own way: an
update skips the vertex itself (`SameUpToLoops.meet_eq`), and the walk of a region has been there
already (`SameUpToLoops.regionBetween_eq`). Hence the same is found after the same rounds
(`SameUpToLoops.analyseBoundaries_eq`), and the same hammocks are registered
(`SameUpToLoops.register_eq`).
-/

namespace FlowRegions

open Log

namespace FlowGraph

variable {g g' : FlowGraph} {v w source sink : VertexId} {p : List VertexId}
variable {mask : Option BoundaryMask} {mode : SweepMode} {a a' : BoundaryAnalysis}

/-- Two graphs have the same vertices and, in whatever order, the same successors. -/
structure SameEdges (g g' : FlowGraph) : Prop where
  vertexCount_eq : g.vertexCount = g'.vertexCount
  mem_successors_iff : ∀ v w, w ∈ g.successors v ↔ w ∈ g'.successors v

/-- It is enough to compare the lists of all edges. -/
theorem sameEdges_of_perm (hcount : g.vertexCount = g'.vertexCount)
    (hperm : g.edges.Perm g'.edges) : SameEdges g g' where
  vertexCount_eq := hcount
  mem_successors_iff v w := by rw [← mem_edges, ← mem_edges, hperm.mem_iff]

/-- Two graphs have the same vertices and, in whatever order, the same edges between different
ones. -/
structure SameUpToLoops (g g' : FlowGraph) : Prop where
  vertexCount_eq : g.vertexCount = g'.vertexCount
  mem_successors_iff : ∀ v w, v ≠ w → (w ∈ g.successors v ↔ w ∈ g'.successors v)

theorem SameEdges.upToLoops (h : SameEdges g g') : SameUpToLoops g g' where
  vertexCount_eq := h.vertexCount_eq
  mem_successors_iff v w _ := h.mem_successors_iff v w

theorem SameUpToLoops.symm (h : SameUpToLoops g g') : SameUpToLoops g' g where
  vertexCount_eq := h.vertexCount_eq.symm
  mem_successors_iff v w hvw := (h.mem_successors_iff v w hvw).symm

theorem SameUpToLoops.transpose (h : SameUpToLoops g g') :
    SameUpToLoops g.transpose g'.transpose where
  vertexCount_eq := by rw [vertexCount_transpose, vertexCount_transpose, h.vertexCount_eq]
  mem_successors_iff v w hvw := by
    rw [mem_successors_transpose, mem_successors_transpose, h.mem_successors_iff w v hvw.symm]

theorem SameUpToLoops.contains_eq (h : SameUpToLoops g g') : g.contains = g'.contains :=
  funext (VertexTable.hasRow_congr h.vertexCount_eq)

theorem SameUpToLoops.vertices_eq (h : SameUpToLoops g g') : g.vertices = g'.vertices :=
  VertexTable.vertices_congr h.vertexCount_eq

theorem SameUpToLoops.contains (h : SameUpToLoops g g') (hv : g.contains v = true) :
    g'.contains v = true := h.contains_eq ▸ hv

/-! ## Routes -/

/-- Without its loops, a route is one in the other graph. -/
theorem SameUpToLoops.exists_route (h : SameUpToLoops g g') (hp : g.Route v w p) :
    ∃ q, g'.Route v w q := by
  induction hp with
  | stay hv => exact ⟨_, .stay (h.contains hv)⟩
  | @step v u w p hvu _ ih =>
    obtain ⟨q, hq⟩ := ih
    by_cases hne : v = u
    · exact ⟨q, hne ▸ hq⟩
    · exact ⟨v :: q, .step ((h.mem_successors_iff v u hne).1 hvu) hq⟩

theorem SameUpToLoops.exists_route_iff (h : SameUpToLoops g g') :
    (∃ p, g.Route v w p) ↔ ∃ p, g'.Route v w p :=
  ⟨fun ⟨_, hp⟩ => h.exists_route hp, fun ⟨_, hp⟩ => h.symm.exists_route hp⟩

theorem SameUpToLoops.flows (h : SameUpToLoops g g') (hg : g.Flows source sink) :
    g'.Flows source sink where
  source_mem := h.contains hg.source_mem
  sink_mem := h.contains hg.sink_mem
  reached v hv := h.exists_route_iff.1 (hg.reached v (h.symm.contains hv))
  reaching v hv := h.exists_route_iff.1 (hg.reaching v (h.symm.contains hv))

/-! ## Passage sets -/

theorem SameUpToLoops.initialSets_eq (h : SameUpToLoops g g') (t : VertexId) :
    g.initialSets t = g'.initialSets t := by
  have hall : g.vertexSet = g'.vertexSet := IdSet.ext fun v => by
    rw [mem_vertexSet, mem_vertexSet, h.contains_eq]
  rw [initialSets, initialSets, hall]
  exact VertexTable.mapVertices_congr h.vertexCount_eq _

/-- An update takes the successors without regard to their order, and not the vertex itself. -/
theorem SameUpToLoops.meet_eq (h : SameUpToLoops g g') (sets : VertexTable VertexSet)
    (v : VertexId) : g.meet sets v = g'.meet sets v := by
  apply IdSet.ext
  intro u
  rw [mem_meet, mem_meet]
  apply or_congr_right
  refine and_congr_right fun _ => ⟨fun hall w hw hne => ?_, fun hall w hw hne => ?_⟩
  · exact hall w ((h.mem_successors_iff v w hne.symm).2 hw) hne
  · exact hall w ((h.mem_successors_iff v w hne.symm).1 hw) hne

theorem SameUpToLoops.sweep_eq (h : SameUpToLoops g g') (mode : SweepMode) (t : VertexId)
    (sets : VertexTable VertexSet) : g.sweep mode t sets = g'.sweep mode t sets := by
  cases mode with
  | inPlace =>
    show g.sweepInPlace t sets = g'.sweepInPlace t sets
    simp only [sweepInPlace, h.vertices_eq, h.meet_eq]
  | snapshot | parallelSnapshot =>
    show g.sweepSnapshot t sets = g'.sweepSnapshot t sets
    simp only [sweepSnapshot, h.meet_eq]

theorem SameUpToLoops.firstStranded?_eq (h : SameUpToLoops g g') (t : VertexId) :
    g.firstStranded? t = g'.firstStranded? t := by
  have hreach : g.canReach t = g'.canReach t := by
    apply IdSet.ext
    intro v
    rw [mem_canReach_iff_route, mem_canReach_iff_route, h.exists_route_iff]
  rw [firstStranded?, firstStranded?, h.vertices_eq, hreach]

/-- The analysis towards a target does not depend on the order of edges or on loops, nor do its
rounds. -/
theorem SameUpToLoops.passageSets_eq (h : SameUpToLoops g g') (t : VertexId) (mode : SweepMode) :
    (g.passageSets t mode).run.value = (g'.passageSets t mode).run.value := by
  unfold passageSets
  rw [h.contains_eq, h.firstStranded?_eq, h.vertexCount_eq, h.initialSets_eq]
  split
  · split
    · rfl
    · exact congrArg Except.ok (value_settle_congr (h.sweep_eq mode t) (g'.initialSets t) 0)
  · rfl

/-- The candidates depend on the vertices and the passage sets alone. -/
theorem SameUpToLoops.candidates_eq (h : SameUpToLoops g g') (admitted : VertexId → Bool)
    (post dom : PassageSets) :
    g.candidates admitted post dom = g'.candidates admitted post dom := by
  rw [candidates, candidates]
  exact congrArg BoundaryRelation.mk (VertexTable.mapVertices_congr h.vertexCount_eq _)

/-- The whole analysis does not depend on the order of edges or on loops. -/
theorem SameUpToLoops.analyseBoundaries_eq (h : SameUpToLoops g g') (source sink : VertexId)
    (mask : Option BoundaryMask) (mode : SweepMode) :
    (g.analyseBoundaries source sink mask mode).run.value =
      (g'.analyseBoundaries source sink mask mode).run.value := by
  have hpost : (g.postdominators sink mode).run.value = (g'.postdominators sink mode).run.value :=
    h.passageSets_eq sink mode
  have hdom : (g.dominators source mode).run.value = (g'.dominators source mode).run.value :=
    h.transpose.passageSets_eq source mode
  simp only [value_analyseBoundaries, hpost, hdom, h.candidates_eq]

/-! ## Hammocks -/

theorem SameUpToLoops.regionBetween_subset (h : SameUpToLoops g g') (s e : VertexId) :
    g.regionBetween s e ⊆ g'.regionBetween s e := by
  intro v hv
  rw [mem_regionBetween] at hv
  induction hv with
  | refl => exact entry_mem_regionBetween g' s e
  | @tail u w _ hstep ih =>
    obtain ⟨hexit, hw⟩ := mem_stepsUntil.1 hstep
    by_cases hne : u = w
    · exact hne ▸ ih
    · exact mem_regionBetween_of_successor ih hexit ((h.mem_successors_iff u w hne).1 hw)

theorem SameUpToLoops.regionBetween_eq (h : SameUpToLoops g g') (s e : VertexId) :
    g.regionBetween s e = g'.regionBetween s e :=
  IdSet.ext fun v => ⟨h.regionBetween_subset s e v, h.symm.regionBetween_subset s e v⟩

theorem SameUpToLoops.number_eq (h : SameUpToLoops g g') (id : HammockId)
    (pairs : List (VertexId × VertexId)) :
    HammockRegistry.number g id pairs = HammockRegistry.number g' id pairs := by
  induction pairs generalizing id with
  | nil => rfl
  | cons pair pairs ih =>
    obtain ⟨s, e⟩ := pair
    rw [HammockRegistry.number, HammockRegistry.number, h.regionBetween_eq, ih]

/-- The registered hammocks do not depend on the order of edges or on loops. -/
theorem SameUpToLoops.register_eq (h : SameUpToLoops g g') (b : BoundaryRelation) :
    (HammockRegistry.register g b).value = (HammockRegistry.register g' b).value := by
  rw [HammockRegistry.register, HammockRegistry.register, h.number_eq, h.vertexCount_eq]

/-! ## Graphs with the same loops -/

theorem SameEdges.flows (h : SameEdges g g') (hg : g.Flows source sink) :
    g'.Flows source sink := h.upToLoops.flows hg

/-- The analysis towards a target does not depend on the order of edges, nor do its rounds. -/
theorem SameEdges.passageSets_eq (h : SameEdges g g') (t : VertexId) (mode : SweepMode) :
    (g.passageSets t mode).run.value = (g'.passageSets t mode).run.value :=
  h.upToLoops.passageSets_eq t mode

/-- The minimal relation does not depend on the order of edges. -/
theorem SameEdges.minimal_eq (h : SameEdges g g')
    (ha : (g.analyseBoundaries source sink mask mode).run.value = .ok a)
    (ha' : (g'.analyseBoundaries source sink mask mode).run.value = .ok a') :
    a.minimal = a'.minimal := by
  rw [h.upToLoops.analyseBoundaries_eq, ha'] at ha
  rw [Except.ok.inj ha]

/-- The registered hammocks do not depend on the order of edges. -/
theorem SameEdges.register_eq (h : SameEdges g g') (b : BoundaryRelation) :
    (HammockRegistry.register g b).value = (HammockRegistry.register g' b).value :=
  h.upToLoops.register_eq b

end FlowGraph

end FlowRegions
