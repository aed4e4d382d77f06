import FlowRegions.Proofs.Completeness
import FlowRegions.Proofs.EdgeOrder
import FlowRegions.Proofs.Meets
import FlowRegions.Proofs.Outcome

/-!
# Loops and the order of edges

Decompositions of graphs that differ in the order of edges, in parallel edges and in loops agree in
almost everything. The endpoints are the same, as only a source can lead to a source and only a sink
can be reached from a sink (`Flows.endpoints_eq`). The analysis and the registered hammocks are the
same (`SameUpToLoops.analyseBoundaries_eq`, `SameUpToLoops.register_eq`), and the registry decides
what is attached. The order in which walks get to a hammock decides its parent. Where a graph has no
cycles but loops, that order does not show either: the hammocks are laminar as they are without the
loops (`laminar_register_of_acyclicUpToLoops`), and parents are the smallest hammocks around
(`Laminar.parent?_eq`).
-/

namespace FlowRegions

open Log

namespace FlowGraph

variable {g g' : FlowGraph} {s e source sink : VertexId}

/-! ## Endpoints -/

/-- The only source is where all routes to it begin, and the only sink is where all routes from it
end. -/
theorem Flows.endpoints_eq (hg : g.Flows source sink) (hends : g.endpoints = .ok (s, e)) :
    source = s ∧ sink = e := by
  constructor
  · by_contra hne
    obtain ⟨p, hp⟩ := hg.reached s (contains_source_of_endpoints hends)
    obtain ⟨u, hu, _⟩ := hp.arrive hne
    rw [← mem_predecessors, (isSource_of_endpoints hends).1] at hu
    cases hu
  · by_contra hne
    obtain ⟨p, hp⟩ := hg.reaching e (contains_sink_of_endpoints hends)
    obtain ⟨u, hu, _⟩ := hp.leave hp.source_mem (Ne.symm hne)
    rw [(isSink_of_endpoints hends).1] at hu
    cases hu

/-! ## Graphs without cycles but loops -/

/-- The graph without the edges from vertices to themselves. -/
def withoutLoops (g : FlowGraph) : FlowGraph where
  successorTable := g.successorTable.mapVertices fun v row => row.filter (· ≠ v)
  closed := closed_mapVertices fun _ _ hw => contains_of_mem_successors (List.mem_of_mem_filter hw)

theorem successors_withoutLoops (g : FlowGraph) (v : VertexId) :
    g.withoutLoops.successors v = (g.successors v).filter (· ≠ v) := by
  rw [successors, withoutLoops, VertexTable.getD, VertexTable.get?_mapVertices, successors,
    VertexTable.getD]
  cases g.successorTable.get? v <;> rfl

theorem sameUpToLoops_withoutLoops (g : FlowGraph) : SameUpToLoops g g.withoutLoops where
  vertexCount_eq := (VertexTable.size_mapVertices _ g.successorTable).symm
  mem_successors_iff v w hvw := by
    rw [successors_withoutLoops, List.mem_filter, decide_eq_true_iff]
    exact ⟨fun hw => ⟨hw, hvw.symm⟩, fun hw => hw.1⟩

/-- No edge closes a route, unless it leads from a vertex to itself. -/
def AcyclicUpToLoops (g : FlowGraph) : Prop :=
  ∀ v w, v ≠ w → w ∈ g.successors v → ¬ ∃ p, g.Route w v p

/-- It is enough to look for cycles when the loops have been left out. -/
theorem acyclicUpToLoops_iff : g.AcyclicUpToLoops ↔ g.withoutLoops.Acyclic := by
  have hsame := g.sameUpToLoops_withoutLoops
  constructor
  · intro hg v w hw
    rw [← hsame.exists_route_iff]
    rw [successors_withoutLoops, List.mem_filter, decide_eq_true_iff] at hw
    exact hg v w hw.2.symm hw.1
  · intro hg v w hvw hw
    rw [hsame.exists_route_iff]
    exact hg v w ((hsame.mem_successors_iff v w hvw).1 hw)

instance (g : FlowGraph) : Decidable g.AcyclicUpToLoops :=
  decidable_of_iff _ acyclicUpToLoops_iff.symm

/-- It is enough to compare the edges of each graph with those of the other. -/
theorem sameUpToLoops_iff : SameUpToLoops g g' ↔ g.vertexCount = g'.vertexCount ∧
    (∀ edge ∈ g.edges, edge.1 ≠ edge.2 → edge ∈ g'.edges) ∧
    ∀ edge ∈ g'.edges, edge.1 ≠ edge.2 → edge ∈ g.edges := by
  constructor
  · rintro ⟨hcount, hsame⟩
    refine ⟨hcount, fun edge hedge hne => ?_, fun edge hedge hne => ?_⟩
    · exact mem_edges.2 ((hsame _ _ hne).1 (mem_edges.1 hedge))
    · exact mem_edges.2 ((hsame _ _ hne).2 (mem_edges.1 hedge))
  · rintro ⟨hcount, hsub, hsub'⟩
    refine ⟨hcount, fun v w hvw => ⟨fun hw => ?_, fun hw => ?_⟩⟩
    · exact mem_edges.1 (hsub (v, w) (mem_edges.2 hw) hvw)
    · exact mem_edges.1 (hsub' (v, w) (mem_edges.2 hw) hvw)

instance (g g' : FlowGraph) : Decidable (SameUpToLoops g g') :=
  decidable_of_iff _ sameUpToLoops_iff.symm

end FlowGraph

namespace HammockRegistry

open FlowGraph

variable {r : HammockRegistry} {g g' : FlowGraph} {c p : HammockId} {t t' : HammockTree}

/-! ## Parents in spite of loops -/

theorem Nests.of_sameUpToLoops (hn : r.Nests g) (h : SameUpToLoops g g') : r.Nests g' where
  body_eq hx := (hn.body_eq hx).trans (h.regionBetween_eq _ _)
  exit_mem := hn.exit_mem
  entry_inj := hn.entry_inj
  inside := hn.inside
  entry_ne_exit := hn.entry_ne_exit

/-- An edge from a vertex to itself enters nothing that is not entered already. -/
theorem Laminar.of_sameUpToLoops (hl : r.Laminar g) (h : SameUpToLoops g g') : r.Laminar g' where
  toNests := hl.toNests.of_sameUpToLoops h
  entry_antisymm := hl.entry_antisymm
  mem_of_successor {i x u v} hx hu hvu := by
    by_cases hne : v = u
    · exact hne ▸ ⟨hu.1, hu.2.2⟩
    · exact hl.mem_of_successor hx hu ((h.mem_successors_iff v u hne).2 hvu)
  begins_inside := hl.begins_inside

/-- The hammocks of a graph without cycles but loops are laminar. -/
theorem laminar_register_of_acyclicUpToLoops {source sink : VertexId}
    {mask : Option BoundaryMask} {mode : SweepMode} {a : BoundaryAnalysis}
    (hac : g.AcyclicUpToLoops)
    (ha : (g.analyseBoundaries source sink mask mode).run.value = .ok a) :
    (register g a.minimal).value.Laminar g := by
  have hsame := g.sameUpToLoops_withoutLoops
  rw [hsame.analyseBoundaries_eq] at ha
  rw [hsame.register_eq]
  exact (HammockRegistry.laminar_register (acyclicUpToLoops_iff.1 hac) ha).of_sameUpToLoops
    hsame.symm

/-- Parents that are innermost are the same in every tree that attaches the same hammocks. -/
theorem Laminar.parent?_of_parent? (hl : r.Laminar g) (hl' : r.Laminar g')
    (ht : (r.nest g).run.value = .ok t) (ht' : (r.nest g').run.value = .ok t')
    (hp : t.parent? c = some p) : t'.parent? c = some p := by
  have hs := passes_of_nest ht
  have hs' := passes_of_nest ht'
  have hinner := hs.innermost hl p c (.inl hp)
  obtain ⟨hc, hparent⟩ := hs.linked.parent_attached c p hp
  have hatt : t.attached = t'.attached := hl.toNests.attached_congr hl'.toNests ht ht'
  obtain ⟨q, hq, hinner'⟩ :=
    hs'.exists_parent_of_ssubset hl' (hatt ▸ hparent) (hatt ▸ hc) hinner.1
  rw [hq, hinner.unique hinner']

theorem Laminar.parent?_eq (hl : r.Laminar g) (hl' : r.Laminar g')
    (ht : (r.nest g).run.value = .ok t) (ht' : (r.nest g').run.value = .ok t') (c : HammockId) :
    t.parent? c = t'.parent? c :=
  Option.ext fun _ => ⟨hl.parent?_of_parent? hl' ht ht', hl'.parent?_of_parent? hl ht' ht⟩

end HammockRegistry

namespace FlowGraph

open HammockRegistry

/-- Decompositions of two graphs with the same vertices and the same edges between different ones
have the same endpoints, the same analysis with the same numbers of rounds, the same hammocks, the
same root and the same attached hammocks, whatever the order of the edges, however many of them are
parallel and wherever there are loops. If the graphs have no other cycles than loops, all hammocks
have the same parents. -/
theorem decompose_ignores_order_and_loops (g g' : FlowGraph) (config : Config)
    (mask : Option BoundaryMask) {d d' : Decomposition} (hsame : SameUpToLoops g g')
    (hd : (g.decompose config mask).run.value = .ok d)
    (hd' : (g'.decompose config mask).run.value = .ok d') :
    (d'.source = d.source ∧ d'.sink = d.sink) ∧
    (∃ a, (g.analyseBoundaries d.source d.sink mask config.sweep).run.value = .ok a ∧
      (g'.analyseBoundaries d'.source d'.sink mask config.sweep).run.value = .ok a) ∧
    d'.tree.registry = d.tree.registry ∧
    d'.tree.root = d.tree.root ∧
    (∀ c, d'.tree.isAttached c = d.tree.isAttached c) ∧
    (g.AcyclicUpToLoops → ∀ c, d'.tree.parent? c = d.tree.parent? c) := by
  obtain ⟨a, ha, ht⟩ := of_decompose hd
  obtain ⟨a', ha', ht'⟩ := of_decompose hd'
  have hflows := hsame.symm.flows (flows_of_analyseBoundaries ha')
  obtain ⟨hsource, hsink⟩ := hflows.endpoints_eq (endpoints_of_decompose hd)
  have hboth : (g'.analyseBoundaries d'.source d'.sink mask config.sweep).run.value = .ok a := by
    rw [hsource, hsink, ← hsame.analyseBoundaries_eq, ha]
  obtain rfl : a = a' := Except.ok.inj (hboth.symm.trans ha')
  rw [← hsame.register_eq] at ht'
  have hs := passes_of_nest ht
  have hs' := passes_of_nest ht'
  have hn := nests_register ha
  have hatt : d.tree.attached = d'.tree.attached :=
    hn.attached_congr (hn.of_sameUpToLoops hsame) ht ht'
  refine ⟨⟨hsource, hsink⟩, ⟨a, ha, hboth⟩, hs'.registry_eq.trans hs.registry_eq.symm, ?_, ?_, ?_⟩
  · exact Option.some.inj (hs'.largest.2.symm.trans hs.largest.2)
  · intro c
    rw [HammockTree.isAttached, HammockTree.isAttached, hatt]
  · intro hac c
    have hl := laminar_register_of_acyclicUpToLoops hac ha
    exact (hl.parent?_eq (hl.of_sameUpToLoops hsame) ht ht' c).symm

/-- The three nested branches with their edges in another order, two of them parallel, and a loop
in the innermost branch. -/
def loopedBranches : FlowGraph :=
  ((new 6).addEdges [(⟨4⟩, ⟨5⟩), (⟨3⟩, ⟨4⟩), (⟨2⟩, ⟨2⟩), (⟨2⟩, ⟨3⟩), (⟨1⟩, ⟨4⟩), (⟨1⟩, ⟨2⟩),
    (⟨1⟩, ⟨4⟩), (⟨0⟩, ⟨5⟩), (⟨0⟩, ⟨1⟩)]).toOption.getD default

/-- Neither the loop nor the parallel edges of looped branches show in their decomposition: in both
trees the innermost hammock lies below the middle one. -/
theorem looped_branches_decomposed :
    ∃ d d', SameUpToLoops loopedBranches branches ∧ loopedBranches.AcyclicUpToLoops ∧
      ¬ loopedBranches.Acyclic ∧ (loopedBranches.decompose .reference none).run.value = .ok d ∧
      (branches.decompose .reference none).run.value = .ok d' ∧
      (d'.source = d.source ∧ d'.sink = d.sink) ∧ d'.tree.registry = d.tree.registry ∧
      d.tree.isAttached ⟨2⟩ = true ∧ d.tree.parent? ⟨2⟩ = some ⟨1⟩ := by
  have hsame : SameUpToLoops loopedBranches branches := by decide +kernel
  have hac : loopedBranches.AcyclicUpToLoops ∧ ¬ loopedBranches.Acyclic := by decide +kernel
  have hends : branches.endpoints = .ok (⟨0⟩, ⟨5⟩) := by decide +kernel
  have hends' : loopedBranches.endpoints = .ok (⟨0⟩, ⟨5⟩) := by decide +kernel
  obtain ⟨a, ha, hroot, hdone, htwo, hparent⟩ : ∃ a,
      (branches.analyseBoundaries ⟨0⟩ ⟨5⟩ none .inPlace).run.value = .ok a ∧
      ∃ hroot : (register branches a.minimal).value.largest?
        (register branches a.minimal).value.ids = some ⟨0⟩,
      let grown := Construction.resumed branches 5
        (.start _ ⟨0⟩ (isSome_get?_of_mem_ids (mem_of_largest? hroot)))
      grown.stack = [] ∧ grown.tree.isAttached ⟨2⟩ = true ∧ grown.tree.parent? ⟨2⟩ = some ⟨1⟩ :=
    ⟨(branches.analyseBoundaries ⟨0⟩ ⟨5⟩ none .inPlace).run.value.toOption.get
      (by decide +kernel), by decide +kernel, by decide +kernel, by decide +kernel⟩
  have hd' : (branches.decompose .reference none).run.value = .ok _ :=
    decompose_eq_ok_iff.2 ⟨_, hends, a, ha, _, value_nest_of_resumed hroot hdone, rfl⟩
  obtain ⟨d, hd⟩ := exists_decompose_of_flows .reference none hends'
    (hsame.symm.flows (flows_of_analyseBoundaries ha))
  obtain ⟨hbounds, _, hreg, _, hatt, hparents⟩ :=
    decompose_ignores_order_and_loops loopedBranches branches .reference none hsame hd hd'
  exact ⟨d, _, hsame, hac.1, hac.2, hd, hd', hbounds, hreg, hatt ⟨2⟩ ▸ htwo,
    hparents hac.1 ⟨2⟩ ▸ hparent⟩

end FlowGraph

end FlowRegions
