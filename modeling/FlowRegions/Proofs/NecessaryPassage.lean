import FlowRegions.Proofs.Sweeps

/-!
# The passage sets are exact

An analysis fails for a target outside the graph and for a vertex with no route to the target
(`leastStranded_of_firstStranded?`). Otherwise it yields what the sweeps settle on, which are the
necessary vertices. These are three outcomes (`passageSets_cases`).
-/

namespace FlowRegions

open Log

namespace FlowGraph

variable {g : FlowGraph} {t v w : VertexId}

/-! ## Stranded vertices -/

theorem firstStranded?_eq_none_iff :
    g.firstStranded? t = none ↔ ∀ v, g.contains v = true → ∃ p, g.Route v t p := by
  simp only [firstStranded?, List.find?_eq_none, mem_vertices, decide_eq_true_eq,
    not_not, mem_canReach_iff_route]

/-- `v` is the least vertex of the graph with no route to `t`. -/
structure LeastStranded (g : FlowGraph) (t v : VertexId) : Prop where
  contains : g.contains v = true
  stranded : ¬ ∃ p, g.Route v t p
  least : ∀ u, g.contains u = true → u < v → ∃ p, g.Route u t p

/-- The first stranded vertex that is found is the least of all. -/
theorem leastStranded_of_firstStranded? (h : g.firstStranded? t = some v) :
    g.LeastStranded t v := by
  obtain ⟨hv, before, behind, hsplit, hbefore⟩ := List.find?_eq_some_iff_append.1 h
  have hpair := g.successorTable.pairwise_vertices
  rw [show g.successorTable.vertices = before ++ v :: behind from hsplit,
    List.pairwise_append] at hpair
  refine ⟨?_, ?_, fun u hu huv => ?_⟩
  · rw [← mem_vertices, hsplit]
    exact List.mem_append_right before List.mem_cons_self
  · rw [← mem_canReach_iff_route]
    exact of_decide_eq_true hv
  · -- the vertices before `v` in the ascending list are not stranded, those behind it not less
    rw [← mem_vertices, hsplit] at hu
    rcases List.mem_append.1 hu with hu | hu
    · rw [← mem_canReach_iff_route]
      simpa using hbefore u hu
    · rcases List.mem_cons.1 hu with rfl | hu
      · exact absurd huv (DenseId.lt_irrefl u)
      · exact absurd huv (DenseId.lt_asymm ((List.pairwise_cons.1 hpair.2.1).1 u hu))

/-! ## Outcomes of the analysis -/

theorem passageSets_of_not_contains (ht : g.contains t = false) (mode : SweepMode) :
    (g.passageSets t mode).run.value = .error (.targetOutOfRange t g.vertexCount) := by
  rw [passageSets, if_neg (by simp [ht])]
  rfl

theorem passageSets_of_stranded (ht : g.contains t = true) (hv : g.firstStranded? t = some v)
    (mode : SweepMode) :
    (g.passageSets t mode).run.value = .error (.unreachableVertex v t) := by
  rw [passageSets, if_pos ht, hv]
  rfl

theorem passageSets_of_reaching (ht : g.contains t = true)
    (hreach : ∀ v, g.contains v = true → ∃ p, g.Route v t p) (mode : SweepMode) :
    (g.passageSets t mode).run.value = .ok (g.settle mode t (g.initialSets t) 0).value := by
  rw [passageSets, if_pos ht, firstStranded?_eq_none_iff.2 hreach]
  rfl

/-- The three ways in which an analysis ends. -/
theorem passageSets_cases (g : FlowGraph) (t : VertexId) (mode : SweepMode) :
    (g.contains t = false ∧
      (g.passageSets t mode).run.value = .error (.targetOutOfRange t g.vertexCount)) ∨
    (g.contains t = true ∧ ∃ v, g.LeastStranded t v ∧
      (g.passageSets t mode).run.value = .error (.unreachableVertex v t)) ∨
    (g.contains t = true ∧ (∀ v, g.contains v = true → ∃ p, g.Route v t p) ∧
      (g.passageSets t mode).run.value = .ok (g.settle mode t (g.initialSets t) 0).value) := by
  by_cases ht : g.contains t = true
  · cases hstranded : g.firstStranded? t with
    | some v =>
      exact .inr (.inl ⟨ht, v, leastStranded_of_firstStranded? hstranded,
        passageSets_of_stranded ht hstranded mode⟩)
    | none =>
      have hreach := firstStranded?_eq_none_iff.1 hstranded
      exact .inr (.inr ⟨ht, hreach, passageSets_of_reaching ht hreach mode⟩)
  · have ht := Bool.eq_false_iff.2 ht
    exact .inl ⟨ht, passageSets_of_not_contains ht mode⟩

/-- An analysis succeeds exactly when its target is a vertex that all vertices reach. -/
theorem exists_passageSets_iff {mode : SweepMode} :
    (∃ sets, (g.passageSets t mode).run.value = .ok sets) ↔
      g.contains t = true ∧ ∀ v, g.contains v = true → ∃ p, g.Route v t p := by
  rcases passageSets_cases g t mode with ⟨ht, hval⟩ | ⟨_, v, hv, hval⟩ | ⟨ht, hreach, hval⟩
  · simp [hval, ht]
  · simp only [hval, reduceCtorEq, exists_false, false_iff, not_and]
    exact fun _ hreach => hv.stranded (hreach v hv.contains)
  · exact ⟨fun _ => ⟨ht, hreach⟩, fun _ => ⟨_, hval⟩⟩

/-- The sets of a successful analysis hold exactly the necessary vertices. -/
theorem contains_passageSets_iff {mode : SweepMode} {sets : PassageSets}
    (h : (g.passageSets t mode).run.value = .ok sets) (hv : g.contains v = true) :
    sets.contains v w = true ↔ g.Necessary v t w := by
  obtain ⟨ht, hreach⟩ := exists_passageSets_iff.1 ⟨sets, h⟩
  rw [passageSets_of_reaching ht hreach] at h
  obtain rfl := Except.ok.inj h
  rw [PassageSets.contains, decide_eq_true_iff]
  exact mem_settle_iff mode hreach ht hv

/-- The dominator analysis succeeds exactly when its source is a vertex that reaches all. -/
theorem exists_dominators_iff {s : VertexId} {mode : SweepMode} :
    (∃ sets, (g.dominators s mode).run.value = .ok sets) ↔
      g.contains s = true ∧ ∀ v, g.contains v = true → ∃ p, g.Route s v p := by
  rw [dominators, exists_passageSets_iff]
  simp only [contains_transpose, exists_route_transpose]

/-- The dominator sets hold exactly the vertices that are necessary on the way from the source. -/
theorem contains_dominators_iff {s : VertexId} {mode : SweepMode} {sets : PassageSets}
    (h : (g.dominators s mode).run.value = .ok sets) (hv : g.contains v = true) :
    sets.contains v w = true ↔ g.Necessary s v w := by
  rw [contains_passageSets_iff h (by rwa [contains_transpose]), necessary_transpose]

/-- A successful analysis is what the sweeps lead to that go on as long as they note a change. -/
theorem passageSets_eq_ok_iff {mode : SweepMode} {sets : PassageSets} :
    (g.passageSets t mode).run.value = .ok sets ↔
      g.contains t = true ∧ (∀ v, g.contains v = true → ∃ p, g.Route v t p) ∧
        g.SweepsTo mode t (g.initialSets t) 0 sets := by
  constructor
  · intro h
    obtain ⟨ht, hreach⟩ := exists_passageSets_iff.1 ⟨sets, h⟩
    rw [passageSets_of_reaching ht hreach] at h
    exact ⟨ht, hreach, (sweepsTo_iff (Sound.initialSets ht)).2 (Except.ok.inj h)⟩
  · rintro ⟨ht, hreach, hsweeps⟩
    rw [passageSets_of_reaching ht hreach, (sweepsTo_iff (Sound.initialSets ht)).1 hsweeps]

/-- The analysis towards a target reports a target outside the graph, then the least vertex with no
route to the target, and otherwise yields for every vertex exactly the vertices that every route to
the target visits. It makes the sweeps of a loop that goes on as long as some set changes its size,
and counts them. The dominator analysis yields those that every route from the source visits. -/
theorem passageSets_outcome (g : FlowGraph) (t : VertexId) (mode : SweepMode) :
    (∀ u n, (g.passageSets t mode).run.value = .error (.targetOutOfRange u n) ↔
      g.contains t = false ∧ u = t ∧ n = g.vertexCount) ∧
    (g.contains t = true →
      ((∃ v u, (g.passageSets t mode).run.value = .error (.unreachableVertex v u)) ↔
        ∃ v, g.contains v = true ∧ ¬ ∃ p, g.Route v t p) ∧
      (∀ v u, (g.passageSets t mode).run.value = .error (.unreachableVertex v u) →
        u = t ∧ g.LeastStranded t v) ∧
      ((∀ v, g.contains v = true → ∃ p, g.Route v t p) →
        ∃ sets, (g.passageSets t mode).run.value = .ok sets ∧
          ∀ v w, g.contains v = true →
            (sets.contains v w = true ↔ ∀ p, g.Route v t p → w ∈ p))) ∧
    (∀ sets, (g.passageSets t mode).run.value = .ok sets ↔
      g.contains t = true ∧ (∀ v, g.contains v = true → ∃ p, g.Route v t p) ∧
        g.SweepsTo mode t (g.initialSets t) 0 sets) ∧
    ((∃ sets, (g.dominators t mode).run.value = .ok sets) ↔
      g.contains t = true ∧ ∀ v, g.contains v = true → ∃ p, g.Route t v p) ∧
    ∀ sets, (g.dominators t mode).run.value = .ok sets →
      ∀ v w, g.contains v = true →
        (sets.contains v w = true ↔ ∀ p, g.Route t v p → w ∈ p) := by
  refine ⟨?_, fun ht => ⟨?_, ?_, fun hreach => ?_⟩, fun _ => passageSets_eq_ok_iff,
    exists_dominators_iff, fun sets h v w hv => contains_dominators_iff h hv⟩
  · intro u n
    rcases passageSets_cases g t mode with ⟨ht, hval⟩ | ⟨ht, v, _, hval⟩ | ⟨ht, _, hval⟩
    · simp [hval, ht, eq_comm]
    · simp [hval, ht]
    · simp [hval, ht]
  · rcases passageSets_cases g t mode with ⟨hf, _⟩ | ⟨_, v, hv, hval⟩ | ⟨_, hreach, hval⟩
    · exact absurd ht (Bool.eq_false_iff.1 hf)
    · exact ⟨fun _ => ⟨v, hv.contains, hv.stranded⟩, fun _ => ⟨v, t, hval⟩⟩
    · simp only [hval, reduceCtorEq, exists_false, false_iff]
      rintro ⟨v, hv, hstranded⟩
      exact hstranded (hreach v hv)
  · intro v u h
    rcases passageSets_cases g t mode with ⟨hf, _⟩ | ⟨_, x, hx, hval⟩ | ⟨_, _, hval⟩
    · exact absurd ht (Bool.eq_false_iff.1 hf)
    · rw [hval] at h
      obtain ⟨rfl, rfl⟩ : x = v ∧ t = u := by simpa using h
      exact ⟨rfl, hx⟩
    · rw [hval] at h
      cases h
  · obtain ⟨sets, hsets⟩ := exists_passageSets_iff.2 ⟨ht, hreach⟩
    exact ⟨sets, hsets, fun v w hv => contains_passageSets_iff hsets hv⟩

/-- A vertex with a loop and an edge back from the target. -/
def loops : FlowGraph :=
  ((new 4).addEdges [(⟨0⟩, ⟨1⟩), (⟨1⟩, ⟨1⟩), (⟨1⟩, ⟨2⟩), (⟨2⟩, ⟨1⟩), (⟨1⟩, ⟨3⟩),
    (⟨3⟩, ⟨1⟩)]).toOption.getD default

/-- Around loops, every route visits the vertex with the loop, and some route no detour. -/
theorem passage_around_loops :
    loops.contains ⟨3⟩ = true ∧ (∀ v, loops.contains v = true → ∃ p, loops.Route v ⟨3⟩ p) ∧
      (∀ p, loops.Route ⟨0⟩ ⟨3⟩ p → ⟨1⟩ ∈ p) ∧ ¬ ∀ p, loops.Route ⟨0⟩ ⟨3⟩ p → ⟨2⟩ ∈ p := by
  obtain ⟨sets, hsets, hone, htwo⟩ : ∃ sets,
      (loops.passageSets ⟨3⟩ .inPlace).run.value = .ok sets ∧
      sets.contains ⟨0⟩ ⟨1⟩ = true ∧ ¬ sets.contains ⟨0⟩ ⟨2⟩ = true :=
    ⟨(loops.passageSets ⟨3⟩ .inPlace).run.value.toOption.get (by decide +kernel),
      by decide +kernel, by decide +kernel⟩
  obtain ⟨ht, hreach⟩ := exists_passageSets_iff.1 ⟨sets, hsets⟩
  obtain ⟨sets', hsets', hmem⟩ := ((passageSets_outcome loops ⟨3⟩ .inPlace).2.1 ht).2.2 hreach
  obtain rfl : sets = sets' := Except.ok.inj (hsets.symm.trans hsets')
  have hsource : loops.contains ⟨0⟩ = true := by decide
  exact ⟨ht, hreach, (hmem ⟨0⟩ ⟨1⟩ hsource).1 hone, fun h => htwo ((hmem ⟨0⟩ ⟨2⟩ hsource).2 h)⟩

end FlowGraph

end FlowRegions
