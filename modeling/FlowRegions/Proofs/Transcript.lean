import FlowRegions.Proofs.AttachOrder
import FlowRegions.Proofs.Outcome
import FlowRegions.Proofs.RootedTree
import FlowRegions.Proofs.SpanningRoot

/-!
# What a decomposition reports

Every loop of a decomposition reports what it does while it does it. The reports agree with what is
known afterwards: the sweeps with the number of rounds (`events_settle`), the removed pairs with the
difference of the candidates and the minimal pairs (`BoundaryRelation.events_reduce`), the
attachments with preorder and the parents in the finished tree (`HammockRegistry.events_nest`).
`FlowGraph.events_decompose` puts them in their order, also where an analysis fails. What is
recorded are the level, the topic and the text of each report (`FlowGraph.decompose_reports_run`).
-/

namespace FlowRegions

open Log

/-! ## Sweeps -/

/-- The reports of an analysis: all sweeps but the last have narrowed something. -/
def sweepEvents (mode : SweepMode) (target : VertexId) (rounds : Nat) : List Event :=
  (List.range' 1 rounds).map (fun i => .swept i target (decide (i < rounds))) ++
    [.converged target rounds mode]

namespace FlowGraph

/-- The sweeps after the first `k` report their numbers, and all but the last a change. -/
theorem events_settle (g : FlowGraph) (mode : SweepMode) (t : VertexId)
    (sets : VertexTable VertexSet) (k : Nat) :
    k < (g.settle mode t sets k).value.rounds ∧ (g.settle mode t sets k).events =
      (List.range' (k + 1) ((g.settle mode t sets k).value.rounds - k)).map
        (fun i => .swept i t (decide (i < (g.settle mode t sets k).value.rounds))) ++
        [.converged t (g.settle mode t sets k).value.rounds mode] := by
  fun_induction settle g mode t sets k with
  | case1 sets k swept hlt ih =>
    obtain ⟨hk, hevents⟩ := ih
    rw [Logged.value_after, Logged.events_after, hevents]
    generalize (g.settle mode t swept (k + 1)).value.rounds = rounds at hk
    have hrange : List.range' (k + 1) (rounds - k) =
        (k + 1) :: List.range' (k + 1 + 1) (rounds - (k + 1)) := by
      rw [← List.range'_succ]
      congr 1
      omega
    refine ⟨by omega, ?_⟩
    rw [hrange, List.map_cons, decide_eq_true hk, List.cons_append]
  | case2 sets k swept hle => simp

/-- A successful analysis reports its sweeps, and one that fails reports nothing. -/
theorem events_passageSets (g : FlowGraph) (t : VertexId) (mode : SweepMode) :
    (g.passageSets t mode).run.events =
      match (g.passageSets t mode).run.value with
      | .ok p => sweepEvents mode t p.rounds
      | .error _ => [] := by
  rw [passageSets]
  split
  · split
    · rfl
    · rw [Attempt.events_liftM, Attempt.value_liftM, (events_settle g mode t _ 0).2]
      rfl
  · rfl

end FlowGraph

/-! ## Removed pairs -/

namespace BoundaryRelation

variable {r : BoundaryRelation} {v : VertexId} {vs : List VertexId}

/-- Treating other entries changes nothing about the exits of an entry. -/
theorem exits_foldlM_reduceAt (hv : v ∉ vs) : (vs.foldlM reduceAt r).value.exits v = r.exits v := by
  induction vs generalizing r with
  | nil => rfl
  | cons u vs ih =>
    rw [List.mem_cons, not_or] at hv
    rw [List.foldlM_cons, Logged.value_bind, ih hv.2, reduceAt, exits_removeExits, if_neg hv.1]

/-- Treating entries one after the other reports what they lose. -/
theorem events_foldlM_reduceAt (hvs : vs.Nodup) :
    (vs.foldlM reduceAt r).events = vs.flatMap fun v =>
      ((r.exits v).toList.filter (· ∉ (vs.foldlM reduceAt r).value.exits v)).map (.dropped v) := by
  induction vs generalizing r with
  | nil => rfl
  | cons v vs ih =>
    obtain ⟨hv, hvs⟩ := List.nodup_cons.1 hvs
    rw [List.foldlM_cons, Logged.events_bind, Logged.value_bind, ih hvs, List.flatMap_cons]
    congr 1
    · -- the entry has lost what was redundant, and nothing after that
      rw [exits_foldlM_reduceAt hv, reduceAt, exits_removeExits, if_pos rfl]
      refine congrArg _ (List.filter_congr fun e he => ?_)
      have hmem : e ∈ r.exits v := he
      by_cases hred : r.reachesAvoidingDirect v e = true <;>
        simp [redundantExits, hmem, hred]
    · -- the other entries have lost nothing yet
      refine List.flatMap_congr fun u hu => ?_
      have hne : u ≠ v := fun heq => hv (heq ▸ hu)
      rw [reduceAt, exits_removeExits, if_neg hne]

/-- The reduction reports the pairs that it removes, in ascending order. -/
theorem events_reduce (r : BoundaryRelation) :
    r.reduce.events = (r.pairs.filter fun p => !r.minimal.contains p.1 p.2).map
      fun p => .dropped p.1 p.2 := by
  have hnodup : r.vertices.Nodup := IdSet.nodup_of_ascending r.exitTable.pairwise_vertices
  rw [reduce, events_foldlM_reduceAt hnodup, pairs, List.filter_flatMap, List.map_flatMap]
  refine List.flatMap_congr fun v _ => ?_
  rw [List.filter_map, List.map_map]
  exact congrArg (List.map _) (List.filter_congr fun e _ => decide_not)

end BoundaryRelation

/-! ## Hammocks and attachments -/

namespace HammockRegistry

variable {r : HammockRegistry} {g : FlowGraph} {t : HammockTree}

theorem events_register (g : FlowGraph) (b : BoundaryRelation) :
    (register g b).events = (register g b).value.hammocks.toList.map .registered ++
      [.registryComplete (register g b).value.size g.vertexCount] := rfl

/-- The construction reports the attachments in preorder, each with the parent of the finished tree,
and then the tree. -/
theorem events_nest (h : (r.nest g).run.value = .ok t) :
    ∃ nestings : List (HammockId × HammockId),
      t.preorder = t.root :: nestings.map Prod.fst ∧
      (∀ n ∈ nestings, t.parent? n.1 = some n.2) ∧
      (r.nest g).run.events = nestings.map (fun n => .nested n.1 n.2) ++
        [.treeComplete t.rootHammock t.attached.card t.size] := by
  obtain ⟨root, hroot⟩ := largest?_of_nest h
  have hs := Passes.start (g := g) hroot
  have ht := hs.run_eq h
  have hpreorder := hs.preorder_run
  have hparents := hs.parent?_of_turn
  rw [ht] at hpreorder hparents
  let turns := Construction.turns g
    (.start r root (isSome_get?_of_mem_ids (mem_of_largest? hroot)))
  refine ⟨turns.filterMap fun u => u.found.map (·, u.host), ?_, fun n hn => ?_, ?_⟩
  · obtain rfl := Option.some.inj (hroot.symm.trans (passes_of_nest h).largest.2)
    simp only [List.map_filterMap, Option.map_map, Function.comp_def, Option.map_id']
    rw [hpreorder]
    exact congrArg (· ++ _) (HammockTree.preorder_planted _)
  · obtain ⟨u, hu, hfound⟩ := List.mem_filterMap.1 hn
    obtain ⟨c, hc, rfl⟩ := Option.map_eq_some_iff.1 hfound
    exact hparents u hu c hc
  · rw [nest_eq hroot, Attempt.events_liftM_bind, Construction.events_run, ht]
    simp only [List.map_filterMap, Option.map_map, Function.comp_def]
    rfl

end HammockRegistry

namespace FlowGraph

/-- The analysis of the boundaries reports the analyses towards the sink and the source as far as
they are there, and then the reduction. -/
theorem events_analyseBoundaries (g : FlowGraph) (source sink : VertexId)
    (mask : Option BoundaryMask) (mode : SweepMode) :
    (g.analyseBoundaries source sink mask mode).run.events =
      match (g.postdominators sink mode).run.value with
      | .error _ => []
      | .ok post => sweepEvents mode sink post.rounds ++
        match (g.dominators source mode).run.value with
        | .error _ => []
        | .ok dom => sweepEvents mode source dom.rounds ++
          let candidates := g.candidates (admittedBy mask source sink) post dom
          (candidates.pairs.filter fun p => !candidates.minimal.contains p.1 p.2).map
            (fun p => .dropped p.1 p.2) ++
          [.reduced candidates.size candidates.minimal.size] := by
  rw [analyseBoundaries, Attempt.events_bind, postdominators, events_passageSets]
  cases (g.passageSets sink mode).run.value with
  | error x => rfl
  | ok post =>
    simp only
    rw [Attempt.events_bind, dominators, events_passageSets]
    cases (g.transpose.passageSets source mode).run.value with
    | error x => rfl
    | ok dom =>
      simp only
      rw [Attempt.events_liftM_bind, BoundaryRelation.events_reduce]
      rfl

/-- The reports of a decomposition, stage by stage. -/
theorem events_decompose (config : Config) (g : FlowGraph) (mask : Option BoundaryMask) :
    (g.decompose config mask).run.events =
      match g.endpoints with
      | .error _ => []
      | .ok (source, sink) => .decomposing g.vertexCount g.edgeCount source sink ::
        ((g.analyseBoundaries source sink mask config.sweep).run.events ++
          match (g.analyseBoundaries source sink mask config.sweep).run.value with
          | .error _ => []
          | .ok a => .analysed a.postdominators.rounds a.dominators.rounds ::
            ((HammockRegistry.register g a.minimal).events ++
              (((HammockRegistry.register g a.minimal).value.nest g).run.events ++
                match ((HammockRegistry.register g a.minimal).value.nest g).run.value with
                | .error _ => []
                | .ok t => [.decomposed t.rootHammock t.size]))) := by
  rw [decompose, Attempt.events_bind, Attempt.events_mapError, Attempt.value_mapError,
    Attempt.run_ofExcept, Logged.events_pure, Logged.value_pure, List.nil_append]
  cases g.endpoints with
  | error x => rfl
  | ok ends =>
    obtain ⟨source, sink⟩ := ends
    simp only [Except.mapError]
    rw [Attempt.events_liftM_bind, Logged.events_report, Attempt.events_bind,
      Attempt.events_mapError, Attempt.value_mapError]
    cases (g.analyseBoundaries source sink mask config.sweep).run.value with
    | error x => rfl
    | ok a =>
      simp only [Except.mapError]
      rw [Attempt.events_liftM_bind, Logged.events_report, Attempt.events_liftM_bind,
        Attempt.events_bind, Attempt.events_mapError, Attempt.value_mapError]
      cases ((HammockRegistry.register g a.minimal).value.nest g).run.value <;> rfl

/-- A decomposition that succeeds reports after the beginning the sweeps of both analyses, each
candidate that is not minimal, their numbers and the numbers of sweeps, each hammock in the order of
identifiers, each attached hammock but the root in preorder with its parent, the tree, and the
end. -/
theorem events_of_decompose {config : Config} {g : FlowGraph} {mask : Option BoundaryMask}
    {d : Decomposition} (hd : (g.decompose config mask).run.value = .ok d) :
    ∃ post dom, (g.postdominators d.sink config.sweep).run.value = .ok post ∧
      (g.dominators d.source config.sweep).run.value = .ok dom ∧
    ∃ candidates, candidates = g.candidates (admittedBy mask d.source d.sink) post dom ∧
    ∃ nestings : List (HammockId × HammockId),
      (d.tree.registry.hammocks.toList.map Hammock.id).Pairwise (· < ·) ∧
      d.tree.preorder.Perm d.tree.attached.toList ∧
      d.tree.preorder = d.tree.root :: nestings.map Prod.fst ∧
      (∀ n ∈ nestings, d.tree.parent? n.1 = some n.2) ∧
      (g.decompose config mask).run.events =
        [.decomposing g.vertexCount g.edgeCount d.source d.sink] ++
        sweepEvents config.sweep d.sink post.rounds ++
        sweepEvents config.sweep d.source dom.rounds ++
        (candidates.pairs.filter fun p => !candidates.minimal.contains p.1 p.2).map
          (fun p => .dropped p.1 p.2) ++
        [.reduced candidates.size candidates.minimal.size, .analysed post.rounds dom.rounds] ++
        d.tree.registry.hammocks.toList.map .registered ++
        [.registryComplete d.tree.size g.vertexCount] ++
        nestings.map (fun n => .nested n.1 n.2) ++
        [.treeComplete d.tree.rootHammock d.tree.attached.card d.tree.size,
          .decomposed d.tree.rootHammock d.tree.size] := by
  have hends := endpoints_of_decompose hd
  obtain ⟨a, ha, ht⟩ := of_decompose hd
  obtain ⟨hpost, hdom, hcand, hmin⟩ := of_analyseBoundaries ha
  obtain ⟨nestings, hpreorder, hparents, hnest⟩ := HammockRegistry.events_nest ht
  have hs := HammockRegistry.passes_of_nest ht
  have hreg := hs.registry_eq
  have hsize := HammockRegistry.size_register_lt_idCount ha
  refine ⟨a.postdominators, a.dominators, hpost, hdom, a.candidates, hcand, nestings, ?_,
    hs.perm_preorder, hpreorder, hparents, ?_⟩
  · rw [hreg, HammockRegistry.map_id_register]
    exact HammockRegistry.pairwise_ids (Nat.le_of_lt hsize)
  · rw [events_decompose, hends]
    simp only
    rw [events_analyseBoundaries, ha, hpost]
    simp only
    rw [hdom]
    simp only
    rw [← hcand, ← hmin, ht, hnest, HammockRegistry.events_register, ← hreg]
    simp only [HammockTree.size, List.append_assoc, List.cons_append, List.nil_append]

end FlowGraph

/-! ## The records -/

/-- The record with which a decomposition begins. -/
def openingRecord (g : FlowGraph) (source sink : VertexId) : Record :=
  ⟨.info, "hammock::pipeline",
    s!"decomposing graph with {g.vertexCount} vertices, {g.edgeCount} edges ({source} -> {sink})"⟩

/-- The records of an analysis: all sweeps but the last have changed something. -/
def sweepRecords (mode : SweepMode) (target : VertexId) (rounds : Nat) : List Record :=
  (List.range' 1 rounds).map (fun i => ⟨.trace, "hammock::region::dominance",
    s!"passage sweep {i} towards {target}: changed={decide (i < rounds)}"⟩) ++
  [⟨.debug, "hammock::region::dominance",
    s!"necessary-passage fixpoint towards {target} converged after {rounds} rounds " ++
      s!"({mode.name})"⟩]

theorem map_record_sweepEvents (mode : SweepMode) (target : VertexId) (rounds : Nat) :
    (sweepEvents mode target rounds).map Event.record = sweepRecords mode target rounds := by
  rw [sweepEvents, List.map_append, List.map_map]
  rfl

namespace FlowGraph

/-- The records of a decomposition tell what it has done. There are none without endpoints, and
where an analysis fails no more than the beginning and the sweeps of the analysis before it. Where
it succeeds, there follow on the beginning the sweeps of both analyses, each candidate that is not
minimal in ascending order, their numbers and the numbers of sweeps, each hammock in the order of
identifiers, each attached hammock but the root in preorder with its parent, the tree, and the
end. -/
theorem decompose_reports_run (config : Config) (g : FlowGraph) (mask : Option BoundaryMask) :
    (∀ x, g.endpoints = .error x →
      (g.decompose config mask).run.events.map Event.record = []) ∧
    (∀ source sink x, g.endpoints = .ok (source, sink) →
      (g.postdominators sink config.sweep).run.value = .error x →
      (g.decompose config mask).run.events.map Event.record = [openingRecord g source sink]) ∧
    (∀ source sink post x, g.endpoints = .ok (source, sink) →
      (g.postdominators sink config.sweep).run.value = .ok post →
      (g.dominators source config.sweep).run.value = .error x →
      (g.decompose config mask).run.events.map Event.record =
        openingRecord g source sink :: sweepRecords config.sweep sink post.rounds) ∧
    ∀ d, (g.decompose config mask).run.value = .ok d →
      ∃ post dom, (g.postdominators d.sink config.sweep).run.value = .ok post ∧
        (g.dominators d.source config.sweep).run.value = .ok dom ∧
      ∃ candidates, candidates = g.candidates (admittedBy mask d.source d.sink) post dom ∧
        candidates.pairs.Pairwise (Prod.Lex (· < ·) (· < ·)) ∧
      ∃ nestings : List (HammockId × HammockId),
        (d.tree.registry.hammocks.toList.map Hammock.id).Pairwise (· < ·) ∧
        d.tree.preorder.Perm d.tree.attached.toList ∧
        d.tree.preorder = d.tree.root :: nestings.map Prod.fst ∧
        (∀ n ∈ nestings, d.tree.parent? n.1 = some n.2) ∧
        (g.decompose config mask).run.events.map Event.record =
          [openingRecord g d.source d.sink] ++
          sweepRecords config.sweep d.sink post.rounds ++
          sweepRecords config.sweep d.source dom.rounds ++
          (candidates.pairs.filter fun p => !candidates.minimal.contains p.1 p.2).map (fun p =>
            ⟨.debug, "hammock::region::candidates",
              s!"hammock {p.1}->{p.2} decomposes, dropping"⟩) ++
          [⟨.debug, "hammock::region::candidates",
              s!"{candidates.size} hammock candidates, {candidates.minimal.size} minimal"⟩,
            ⟨.debug, "hammock::pipeline",
              s!"passage sets converged: post {post.rounds} rounds, dom {dom.rounds} rounds"⟩] ++
          d.tree.registry.hammocks.toList.map (fun h =>
            ⟨.trace, "hammock::region::registry",
              "registered hammock " ++ s!"[{h.id} {h.entry}->{h.exit} size {h.size}]"⟩) ++
          [⟨.debug, "hammock::region::registry",
            s!"registered {d.tree.size} hammocks over {g.vertexCount} vertices"⟩] ++
          nestings.map (fun n => ⟨.trace, "hammock::region::tree", s!"{n.1} nests in {n.2}"⟩) ++
          [⟨.debug, "hammock::region::tree", s!"hammock tree rooted at {d.tree.rootHammock}: " ++
              s!"{d.tree.attached.card} of {d.tree.size} hammocks attached"⟩,
            ⟨.info, "hammock::pipeline",
              s!"hammock tree built: root {d.tree.rootHammock}, {d.tree.size} hammocks"⟩] := by
  refine ⟨fun x hends => ?_, fun source sink x hends hpost => ?_,
    fun source sink post x hends hpost hdom => ?_, fun d hd => ?_⟩
  · rw [events_decompose, hends]
    rfl
  · rw [events_decompose, hends]
    simp only
    rw [events_analyseBoundaries, value_analyseBoundaries, hpost]
    rfl
  · rw [events_decompose, hends]
    simp only
    rw [events_analyseBoundaries, value_analyseBoundaries, hpost]
    simp only [Except.bind]
    rw [hdom]
    simp only [Except.map, List.append_nil, List.map_cons, map_record_sweepEvents]
    rfl
  · obtain ⟨post, dom, hpost, hdom, candidates, hcand, nestings, hids, hperm, hpreorder, hparents,
      hevents⟩ := events_of_decompose hd
    refine ⟨post, dom, hpost, hdom, candidates, hcand, candidates.pairwise_pairs, nestings, hids,
      hperm, hpreorder, hparents, ?_⟩
    rw [hevents]
    simp only [List.map_append, List.map_map, map_record_sweepEvents]
    rfl

/-- An edge beside which a cycle leads to the sink that cannot be reached from the source. -/
def sideways : FlowGraph :=
  ((new 4).addEdges [(⟨0⟩, ⟨1⟩), (⟨2⟩, ⟨3⟩), (⟨3⟩, ⟨2⟩), (⟨3⟩, ⟨1⟩)]).toOption.getD default

/-- Two vertices without an edge have no endpoints to report. Of the trap only the beginning is
reported, and of the cycle beside the edge the three sweeps towards the sink. On the line with an
edge back, where the second hammock nests in the third, this is reported together with the beginning
and the pair that decomposes. -/
theorem step_back_and_failures_reported :
    ((new 2).decompose .reference none).run.events.map Event.record = [] ∧
      (trap.decompose .parallel none).run.events.map Event.record =
        [⟨.info, "hammock::pipeline",
          "decomposing graph with 6 vertices, 5 edges (v0 -> v2)"⟩] ∧
      (sideways.decompose .parallel none).run.events.map Event.record =
        [⟨.info, "hammock::pipeline", "decomposing graph with 4 vertices, 4 edges (v0 -> v1)"⟩,
          ⟨.trace, "hammock::region::dominance", "passage sweep 1 towards v1: changed=true"⟩,
          ⟨.trace, "hammock::region::dominance", "passage sweep 2 towards v1: changed=true"⟩,
          ⟨.trace, "hammock::region::dominance", "passage sweep 3 towards v1: changed=false"⟩,
          ⟨.debug, "hammock::region::dominance", "necessary-passage fixpoint towards v1 " ++
            "converged after 3 rounds (ParallelSnapshot)"⟩] ∧
      ∃ d, (stepBack.decompose .reference none).run.value = .ok d ∧
        [⟨.info, "hammock::pipeline", "decomposing graph with 5 vertices, 5 edges (v0 -> v4)"⟩,
          ⟨.debug, "hammock::region::candidates", "hammock v0->v4 decomposes, dropping"⟩,
          ⟨.trace, "hammock::region::tree", "h1 nests in h2"⟩] ⊆
            (stepBack.decompose .reference none).run.events.map Event.record := by
  refine ⟨?_, ?_, ?_, ?_⟩
  · have hends : (new 2).endpoints = .error .noStart := by decide +kernel
    exact (decompose_reports_run .reference (new 2) none).1 _ hends
  · have hends : trap.endpoints = .ok (⟨0⟩, ⟨2⟩) := by decide +kernel
    have hpost : (trap.postdominators ⟨2⟩ .parallelSnapshot).run.value =
        .error (.unreachableVertex ⟨3⟩ ⟨2⟩) := by decide +kernel
    have hrecords := (decompose_reports_run .parallel trap none).2.1 ⟨0⟩ ⟨2⟩ _ hends hpost
    rw [hrecords]
    decide +kernel
  · have hends : sideways.endpoints = .ok (⟨0⟩, ⟨1⟩) := by decide +kernel
    obtain ⟨post, hpost, hrounds⟩ : ∃ post,
        (sideways.postdominators ⟨1⟩ .parallelSnapshot).run.value = .ok post ∧ post.rounds = 3 :=
      ⟨(sideways.postdominators ⟨1⟩ .parallelSnapshot).run.value.toOption.get (by decide +kernel),
        by decide +kernel⟩
    have hdom : (sideways.dominators ⟨0⟩ .parallelSnapshot).run.value =
        .error (.unreachableVertex ⟨2⟩ ⟨0⟩) := by decide +kernel
    have hrecords := (decompose_reports_run .parallel sideways none).2.2.1 ⟨0⟩ ⟨1⟩ post _ hends
      hpost hdom
    rw [hrecords, hrounds]
    decide +kernel
  · obtain ⟨a, ha, ⟨hcand, hmin⟩, hroot, hdone, htwo, hatt, hp⟩ : ∃ a,
        (stepBack.analyseBoundaries ⟨0⟩ ⟨4⟩ none .inPlace).run.value = .ok a ∧
        ((⟨0⟩, ⟨4⟩) ∈ a.candidates.pairs ∧ a.candidates.minimal.contains ⟨0⟩ ⟨4⟩ = false) ∧
        ∃ hroot : (HammockRegistry.register stepBack a.minimal).value.largest?
          (HammockRegistry.register stepBack a.minimal).value.ids = some ⟨2⟩,
        let grown := Construction.resumed stepBack 3 (.start _ ⟨2⟩
          (HammockRegistry.isSome_get?_of_mem_ids (HammockRegistry.mem_of_largest? hroot)))
        grown.stack = [] ∧ grown.tree.root = ⟨2⟩ ∧ ⟨1⟩ ∈ grown.tree.attached ∧
          grown.tree.parent? ⟨1⟩ = some ⟨2⟩ :=
      ⟨(stepBack.analyseBoundaries ⟨0⟩ ⟨4⟩ none .inPlace).run.value.toOption.get
        (by decide +kernel), by decide +kernel, by decide +kernel, by decide +kernel,
        by decide +kernel⟩
    have hends : stepBack.endpoints = .ok (⟨0⟩, ⟨4⟩) := by decide +kernel
    have ht := HammockRegistry.value_nest_of_resumed hroot hdone
    have hd : (stepBack.decompose .reference none).run.value =
        .ok ⟨⟨0⟩, ⟨4⟩, _, .collect stepBack a _⟩ :=
      decompose_eq_ok_iff.2 ⟨(⟨0⟩, ⟨4⟩), hends, a, ha, _, ht, rfl⟩
    obtain ⟨post, dom, hpost, hdom, candidates, hcandidates, _, nestings, _, hperm, hpreorder,
      hparents, hrecords⟩ := (decompose_reports_run .reference stepBack none).2.2.2 _ hd
    obtain ⟨hpost', hdom', hcand', _⟩ := of_analyseBoundaries ha
    obtain rfl := Except.ok.inj (hpost'.symm.trans hpost)
    obtain rfl := Except.ok.inj (hdom'.symm.trans hdom)
    rw [hcand', ← hcandidates] at hcand hmin
    have hdropped : (⟨0⟩, ⟨4⟩) ∈ candidates.pairs.filter fun p =>
        !candidates.minimal.contains p.1 p.2 := List.mem_filter.2 ⟨hcand, by rw [hmin]; rfl⟩
    have hnested : (⟨1⟩, ⟨2⟩) ∈ nestings := by
      have hmem := hperm.mem_iff.2 hatt
      rw [hpreorder, htwo] at hmem
      obtain ⟨n, hn, hone⟩ := List.mem_map.1 (List.mem_of_ne_of_mem (by decide) hmem)
      have hparent := hparents n hn
      rw [hone] at hparent
      have hn' : n = (⟨1⟩, ⟨2⟩) := Prod.ext hone (Option.some.inj (hparent.symm.trans hp))
      exact hn' ▸ hn
    have hopening : openingRecord stepBack ⟨0⟩ ⟨4⟩ = ⟨.info, "hammock::pipeline",
        "decomposing graph with 5 vertices, 5 edges (v0 -> v4)"⟩ := by decide +kernel
    have hdecomposes : (⟨.debug, "hammock::region::candidates",
        "hammock v0->v4 decomposes, dropping"⟩ : Record) ∈
        (candidates.pairs.filter fun p => !candidates.minimal.contains p.1 p.2).map fun p =>
          ⟨.debug, "hammock::region::candidates",
            s!"hammock {p.1}->{p.2} decomposes, dropping"⟩ :=
      List.mem_map.2 ⟨_, hdropped, by decide +kernel⟩
    have hnests : (⟨.trace, "hammock::region::tree", "h1 nests in h2"⟩ : Record) ∈
        nestings.map fun n => ⟨.trace, "hammock::region::tree", s!"{n.1} nests in {n.2}"⟩ :=
      List.mem_map.2 ⟨_, hnested, by decide +kernel⟩
    refine ⟨_, hd, ?_⟩
    rw [hrecords, hopening]
    refine List.cons_subset.2 ⟨?_, List.cons_subset.2 ⟨?_, List.cons_subset.2 ⟨?_,
      List.nil_subset _⟩⟩⟩
    · simp only [List.mem_append, List.mem_cons, true_or]
    · simp only [List.mem_append, hdecomposes, true_or, or_true]
    · simp only [List.mem_append, hnests, true_or, or_true]

end FlowGraph

end FlowRegions
