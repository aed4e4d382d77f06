import FlowRegions.Proofs.Numbering
import FlowRegions.Proofs.Outcome
import FlowRegions.Proofs.Preorder

/-!
# The configuration does not matter

Sweeps in place read sets that they have already narrowed, so their intermediate sets and the number
of rounds depend on the order of the vertices. Their limit does not, as it consists of the necessary
vertices in every mode (`sets_eq_of_settle`), and everything behind the passage sets depends on the
limit alone (`minimal_eq_of_analyse`). Sweeps with independent updates agree round by round, in
whatever order the updates are made (`foldl_updateFrom_eq_sweepSnapshot`).
-/

namespace FlowRegions

open Log

namespace FlowGraph

variable {g : FlowGraph} {t v : VertexId} {sets : VertexTable VertexSet}
variable {mode mode' : SweepMode} {mask : Option BoundaryMask} {source sink : VertexId}
variable {a a' : BoundaryAnalysis} {p p' : PassageSets}

/-! ## Independent updates -/

/-- The update of one vertex's set, the target's excepted, from the sets before the sweep. -/
def updateFrom (g : FlowGraph) (t : VertexId) (sets next : VertexTable VertexSet) (v : VertexId) :
    VertexTable VertexSet :=
  if v = t then next else next.set v (g.meet sets v)

theorem size_foldl_updateFrom {next : VertexTable VertexSet} (vs : List VertexId) :
    (vs.foldl (g.updateFrom t sets) next).size = next.size := by
  induction vs generalizing next with
  | nil => rfl
  | cons u vs ih =>
    rw [List.foldl_cons, ih, updateFrom]
    split
    · rfl
    · exact VertexTable.size_set next u _

/-- Only the sets of the updated vertices change. -/
theorem getD_foldl_updateFrom {next : VertexTable VertexSet} {vs : List VertexId}
    (hvs : ∀ u ∈ vs, next.hasRow u = true) :
    (vs.foldl (g.updateFrom t sets) next).getD v ∅ =
      if v ∈ vs ∧ v ≠ t then g.meet sets v else next.getD v ∅ := by
  induction vs generalizing next with
  | nil => simp
  | cons u vs ih =>
    obtain ⟨hu, hrest⟩ := List.forall_mem_cons.1 hvs
    rw [List.foldl_cons, updateFrom]
    by_cases hut : u = t
    · rw [if_pos hut, ih hrest]
      by_cases hvt : v = t
      · simp [hvt]
      · have hvu : v ≠ u := fun h => hvt (h.trans hut)
        simp [hvt, hvu]
    · have hrows : ∀ w ∈ vs, (next.set u (g.meet sets u)).hasRow w = true := fun w hw =>
        (VertexTable.hasRow_congr (VertexTable.size_set next u _) w).trans (hrest w hw)
      rw [if_neg hut, ih hrows, VertexTable.getD_set hu]
      by_cases hvu : v = u
      · subst hvu
        simp [hut]
      · simp [hvu]

/-- A sweep with independent updates may make them in any order. -/
theorem foldl_updateFrom_eq_sweepSnapshot {vs : List VertexId} (hsize : sets.size = g.vertexCount)
    (hvs : vs.Perm g.vertices) : vs.foldl (g.updateFrom t sets) sets = g.sweepSnapshot t sets := by
  have hrow : ∀ u, sets.hasRow u = g.contains u := fun u => VertexTable.hasRow_congr hsize u
  have hmem : ∀ u, u ∈ vs ↔ g.contains u = true := fun u => hvs.mem_iff.trans mem_vertices
  refine VertexTable.ext_getD ∅ ((size_foldl_updateFrom vs).trans
    (VertexTable.size_mapVertices _ sets).symm) fun v => ?_
  rw [getD_foldl_updateFrom fun u hu => (hrow u).trans ((hmem u).1 hu)]
  simp only [hmem]
  by_cases hv : g.contains v = true
  · rw [sweepSnapshot, VertexTable.getD_mapVertices ((hrow v).trans hv) ∅ ∅]
    by_cases hvt : v = t <;> simp [hv, hvt]
  · have hout : sets.hasRow v = false := (hrow v).trans (Bool.eq_false_iff.2 hv)
    have hout' : (g.sweepSnapshot t sets).hasRow v = false :=
      (VertexTable.hasRow_congr (VertexTable.size_mapVertices _ sets) v).trans hout
    rw [if_neg fun h => hv h.1, VertexTable.getD_eq_default hout, VertexTable.getD_eq_default hout']

/-- The modes with independent updates make the same sweeps. -/
theorem sweep_eq_sweepSnapshot (hmode : mode ≠ .inPlace) :
    g.sweep mode t sets = g.sweepSnapshot t sets := by
  cases mode with
  | inPlace => exact absurd rfl hmode
  | snapshot | parallelSnapshot => rfl

/-- The modes with independent updates give the same passage sets after the same rounds. -/
theorem passageSets_congr (g : FlowGraph) (t : VertexId) (hmode : mode ≠ .inPlace)
    (hmode' : mode' ≠ .inPlace) :
    (g.passageSets t mode).run.value = (g.passageSets t mode').run.value := by
  have hsweep : ∀ sets, g.sweep mode t sets = g.sweep mode' t sets := fun sets => by
    rw [sweep_eq_sweepSnapshot hmode, sweep_eq_sweepSnapshot hmode']
  unfold passageSets
  split
  · split
    · rfl
    · exact congrArg Except.ok (value_settle_congr hsweep (g.initialSets t) 0)
  · rfl

/-! ## The limit of the sweeps -/

/-- The sweeps have the same limit in every mode. -/
theorem sets_eq_of_settle (ht : g.contains t = true)
    (hreach : ∀ v, g.contains v = true → ∃ p, g.Route v t p) (mode mode' : SweepMode) :
    (g.settle mode t (g.initialSets t) 0).value.sets =
      (g.settle mode' t (g.initialSets t) 0).value.sets := by
  have hsound := (settle_stable mode 0 (Sound.initialSets ht)).2.1
  have hsound' := (settle_stable mode' 0 (Sound.initialSets ht)).2.1
  refine VertexTable.ext_getD ∅ (hsound.size_eq.trans hsound'.size_eq.symm) fun v => ?_
  by_cases hv : g.contains v = true
  · apply IdSet.ext
    intro w
    rw [mem_settle_iff mode hreach ht hv, mem_settle_iff mode' hreach ht hv]
  · have hout := Bool.eq_false_iff.2 hv
    rw [VertexTable.getD_eq_default (hsound.hasRow.trans hout),
      VertexTable.getD_eq_default (hsound'.hasRow.trans hout)]

theorem sets_eq_of_passageSets (h : (g.passageSets t mode).run.value = .ok p)
    (h' : (g.passageSets t mode').run.value = .ok p') : p.sets = p'.sets := by
  obtain ⟨ht, hreach⟩ := exists_passageSets_iff.1 ⟨p, h⟩
  rw [passageSets_of_reaching ht hreach] at h h'
  rw [← Except.ok.inj h, ← Except.ok.inj h']
  exact sets_eq_of_settle ht hreach mode mode'

/-- The candidates depend on the sets, not on the way to them. -/
theorem candidates_congr {admitted : VertexId → Bool} {post post' dom dom' : PassageSets}
    (hpost : post.sets = post'.sets) (hdom : dom.sets = dom'.sets) :
    g.candidates admitted post dom = g.candidates admitted post' dom' := by
  unfold candidates isCandidateExit PassageSets.contains
  rw [hpost, hdom]

theorem candidates_eq_of_analyse
    (h : (g.analyseBoundaries source sink mask mode).run.value = .ok a)
    (h' : (g.analyseBoundaries source sink mask mode').run.value = .ok a') :
    a.candidates = a'.candidates := by
  obtain ⟨hpost, hdom, hcand, _⟩ := of_analyseBoundaries h
  obtain ⟨hpost', hdom', hcand', _⟩ := of_analyseBoundaries h'
  rw [hcand, hcand']
  exact candidates_congr (sets_eq_of_passageSets hpost hpost') (sets_eq_of_passageSets hdom hdom')

theorem minimal_eq_of_analyse
    (h : (g.analyseBoundaries source sink mask mode).run.value = .ok a)
    (h' : (g.analyseBoundaries source sink mask mode').run.value = .ok a') :
    a.minimal = a'.minimal := by
  rw [(of_analyseBoundaries h).2.2.2, (of_analyseBoundaries h').2.2.2,
    candidates_eq_of_analyse h h']

theorem rounds_eq_of_analyse (hmode : mode ≠ .inPlace) (hmode' : mode' ≠ .inPlace)
    (h : (g.analyseBoundaries source sink mask mode).run.value = .ok a)
    (h' : (g.analyseBoundaries source sink mask mode').run.value = .ok a') :
    a.postdominators.rounds = a'.postdominators.rounds ∧
      a.dominators.rounds = a'.dominators.rounds := by
  obtain ⟨hpost, hdom, _⟩ := of_analyseBoundaries h
  obtain ⟨hpost', hdom', _⟩ := of_analyseBoundaries h'
  rw [postdominators, passageSets_congr g sink hmode hmode'] at hpost
  rw [dominators, passageSets_congr g.transpose source hmode hmode'] at hdom
  rw [Except.ok.inj (hpost.symm.trans hpost'), Except.ok.inj (hdom.symm.trans hdom')]
  exact ⟨rfl, rfl⟩

/-! ## The outcome -/

/-- The configuration decides whether figures are collected and how many rounds the sweeps take, and
nothing else: whether and why the decomposition fails, its endpoints, its tree and all other figures
are the same. The modes with independent updates agree in the rounds too, and it does not matter in
which order the updates of a sweep are made. The figures count the registered hammocks and the
attached ones. -/
theorem decompose_agrees_on_config (g : FlowGraph) (mask : Option BoundaryMask)
    (c c' : Config) :
    (∀ e, (g.decompose c mask).run.value = .error e ↔ (g.decompose c' mask).run.value = .error e) ∧
    (∀ (t : VertexId) (sets : VertexTable VertexSet) (vs : List VertexId),
      sets.size = g.vertexCount → vs.Perm g.vertices →
      vs.foldl (g.updateFrom t sets) sets = g.sweep .parallelSnapshot t sets) ∧
    ∀ d, (g.decompose c mask).run.value = .ok d →
      ∃ d', (g.decompose c' mask).run.value = .ok d' ∧
        (d'.source = d.source ∧ d'.sink = d.sink ∧ d'.tree = d.tree) ∧
        (c.collectStatistics = true →
          (d.statistics.minimalHammocks = d.tree.size ∧
            d.statistics.treeNodes = d.tree.attached.card) ∧
          (c'.collectStatistics = true →
            { d'.statistics with
              postdominatorRounds := d.statistics.postdominatorRounds
              dominatorRounds := d.statistics.dominatorRounds } = d.statistics ∧
            (c.sweep ≠ .inPlace → c'.sweep ≠ .inPlace →
              d'.statistics.postdominatorRounds = d.statistics.postdominatorRounds ∧
              d'.statistics.dominatorRounds = d.statistics.dominatorRounds))) := by
  refine ⟨fun e => ?_, fun t sets vs hsize hvs => ?_, fun d hd => ?_⟩
  · rw [decompose_eq_error_iff, decompose_eq_error_iff]
  · exact foldl_updateFrom_eq_sweepSnapshot hsize hvs
  · obtain ⟨⟨source, sink⟩, hends, a, ha, t, ht, rfl⟩ := decompose_eq_ok_iff.1 hd
    obtain ⟨a', ha'⟩ := exists_analyseBoundaries (flows_of_analyseBoundaries ha) mask c'.sweep
    have hcand := candidates_eq_of_analyse ha' ha
    have hmin := minimal_eq_of_analyse ha' ha
    refine ⟨_, decompose_eq_ok_iff.2 ⟨_, hends, a', ha', t, hmin ▸ ht, rfl⟩, ⟨rfl, rfl, rfl⟩,
      fun hc => ?_⟩
    simp only [if_pos hc]
    refine ⟨⟨?_, ?_⟩, fun hc' => ?_⟩
    · have hreg := (HammockRegistry.passes_of_nest ht).registry_eq
      exact ((congrArg HammockRegistry.size hreg).trans
        (HammockRegistry.size_register g a.minimal)).symm
    · exact (HammockRegistry.passes_of_nest ht).length_preorder
    · simp only [if_pos hc']
      refine ⟨?_, fun hmode hmode' => rounds_eq_of_analyse hmode' hmode ha' ha⟩
      simp only [Statistics.collect, hcand, hmin]

/-- Sweeps in place need two rounds down a line with an edge back, and independent updates four,
which may also be made from the last vertex to the first, but they lead to the same tree. -/
theorem step_back_in_fewer_rounds :
    ∃ d d' d'', (stepBack.decompose .reference none).run.value = .ok d ∧
      (stepBack.decompose .parallel none).run.value = .ok d' ∧
      (stepBack.decompose (Config.reference.withSweep .snapshot) none).run.value = .ok d'' ∧
      d'.tree = d.tree ∧ d''.tree = d'.tree ∧ d.statistics.dominatorRounds = 2 ∧
      d'.statistics.dominatorRounds = 4 ∧ d''.statistics.dominatorRounds = 4 ∧
      d'.statistics.treeNodes = d'.tree.attached.card ∧
      d'.statistics.candidatePairs = d.statistics.candidatePairs ∧
      stepBack.vertices.reverse.foldl (stepBack.updateFrom ⟨4⟩ (stepBack.initialSets ⟨4⟩))
        (stepBack.initialSets ⟨4⟩) =
          stepBack.sweep .parallelSnapshot ⟨4⟩ (stepBack.initialSets ⟨4⟩) := by
  have hends : stepBack.endpoints = .ok (⟨0⟩, ⟨4⟩) := by decide +kernel
  have hrun : ∀ mode rounds,
      ((stepBack.analyseBoundaries ⟨0⟩ ⟨4⟩ none mode).run.value.toOption.map
        (·.dominators.rounds)) = some rounds →
      ∃ d, (stepBack.decompose ⟨mode, true⟩ none).run.value = .ok d ∧
        d.statistics.dominatorRounds = rounds := by
    intro mode rounds hrounds
    cases ha : (stepBack.analyseBoundaries ⟨0⟩ ⟨4⟩ none mode).run.value with
    | error x => simp [ha, Except.toOption] at hrounds
    | ok a =>
      obtain ⟨d, hd, _, _, _, hfigures⟩ := exists_decompose_of_analysis ⟨mode, true⟩ hends ha
      refine ⟨d, hd, ?_⟩
      rw [hfigures]
      show a.dominators.rounds = rounds
      simpa [ha, Except.toOption] using hrounds
  obtain ⟨d, hd, hrounds⟩ := hrun .inPlace 2 (by decide +kernel)
  obtain ⟨d', hd', hrounds'⟩ := hrun .parallelSnapshot 4 (by decide +kernel)
  obtain ⟨_, horder, hparallel⟩ := decompose_agrees_on_config stepBack none .reference .parallel
  obtain ⟨_, _, hsnapshot⟩ := decompose_agrees_on_config stepBack none .parallel
    (Config.reference.withSweep .snapshot)
  obtain ⟨_, hd₁, ⟨_, _, htree⟩, hfigures⟩ := hparallel d hd
  obtain rfl := Except.ok.inj (hd'.symm.trans hd₁)
  obtain ⟨d'', hd'', ⟨_, _, htree'⟩, hfigures'⟩ := hsnapshot d' hd'
  obtain ⟨⟨_, hnodes⟩, hagree'⟩ := hfigures' rfl
  obtain ⟨_, hrounds''⟩ := (hagree' rfl).2 (by decide) (by decide)
  have hpairs := congrArg Statistics.candidatePairs ((hfigures rfl).2 rfl).1
  have hbackwards := horder ⟨4⟩ (stepBack.initialSets ⟨4⟩) stepBack.vertices.reverse
    (VertexTable.size_mapVertices _ _) (List.reverse_perm _)
  exact ⟨d, d', d'', hd, hd', hd'', htree, htree', hrounds, hrounds', hrounds''.trans hrounds',
    hnodes, hpairs, hbackwards⟩

end FlowGraph

end FlowRegions
