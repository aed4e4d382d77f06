import FlowRegions.Proofs.Links

/-!
# Walks stay in their hammocks

A walk compares sizes and jumps to exits; it never checks that what it jumps over lies in its own
hammock. `Nests` says why it need not: a hammock that begins where the walk may go on lies strictly
inside (`Nests.coverage_ssubset`). So the queue of every walk is covered by its host
(`Passes.queue_covered`), and hammocks are linked below ones that cover more
(`Passes.link_covered`).
-/

namespace FlowRegions

open Log

namespace HammockRegistry

variable {r : HammockRegistry} {g : FlowGraph} {i j c p h : HammockId} {x y : Hammock}
variable {u v : VertexId} {s : Construction} {t : HammockTree}

/-! ## Where a walk goes on -/

/-- A hammock that begins in another one, before its exit, covers less and not that exit. -/
theorem Nests.coverage_ssubset (hn : r.Nests g) (hi : r.get? i = some x) (hj : r.get? j = some y)
    (hne : i ≠ j) (hentry : y.entry ∈ r.coverage i) (hexit : y.entry ≠ x.exit) :
    r.coverage j ⊂ r.coverage i ∧ x.exit ∉ r.coverage j := by
  obtain ⟨hsub, hout⟩ := hn.inside hi hj hne ((mem_coverage hi).1 hentry) hexit
  have hle : r.coverage j ⊆ r.coverage i := fun v hv =>
    (mem_coverage hi).2 (hsub v ((mem_coverage hj).1 hv))
  have hnot : x.exit ∉ r.coverage j := fun hv => hout ((mem_coverage hj).1 hv)
  exact ⟨⟨hle, fun hge => hnot (hge ((mem_coverage hi).2 (hn.exit_mem hi)))⟩, hnot⟩

/-- The entry of a hammock is not its exit. -/
theorem Nests.entry_ne_exit_self (hn : r.Nests g) (hx : r.get? i = some x) : x.entry ≠ x.exit :=
  hn.entry_ne_exit hx hx fun _ hv => hv

/-- Only registered hammocks cover anything. -/
theorem exists_get?_of_mem_coverage (hv : v ∈ r.coverage h) : ∃ x, r.get? h = some x :=
  (mem_containing.1 hv).imp fun _ hx => hx.1

/-- Successors of what a hammock covers are covered, except behind the exit. -/
theorem Nests.successor_mem_coverage (hn : r.Nests g) (hv : v ∈ r.coverage h)
    (hexit : ¬ r.isExit h v = true) (hu : u ∈ g.successors v) : u ∈ r.coverage h := by
  obtain ⟨x, hx⟩ := exists_get?_of_mem_coverage hv
  rw [hn.mem_coverage_iff hx] at hv ⊢
  rw [isExit_iff hx] at hexit
  exact FlowGraph.mem_regionBetween_of_successor hv (Ne.symm hexit) hu

/-- What a walk meets where it may go on begins there and lies strictly inside. -/
theorem Nests.of_meets (hn : r.Nests g) (hv : v ∈ r.coverage h) (hexit : ¬ r.isExit h v = true)
    (hc : r.largestBelow? v (r.sizeOf h) = some c) :
    ∃ y, r.get? c = some y ∧ y.entry = v ∧ r.coverage c ⊂ r.coverage h ∧
      y.exit ∈ r.coverage h := by
  obtain ⟨hstart, hsize⟩ := of_largestBelow? hc
  obtain ⟨y, hy, rfl⟩ := mem_startedAt.1 hstart
  obtain ⟨x, hx⟩ := exists_get?_of_mem_coverage hv
  have hne : h ≠ c := by
    -- the walk looks only for smaller hammocks
    rintro rfl
    exact Nat.lt_irrefl _ hsize
  rw [isExit_iff hx] at hexit
  have hsub := (hn.coverage_ssubset hx hy hne hv (Ne.symm hexit)).1
  exact ⟨y, hy, rfl, hsub, hsub.1 ((mem_coverage hy).2 (hn.exit_mem hy))⟩

/-! ## What walks and links keep to -/

/-- A hammock covers its entry. -/
theorem Nests.entry_mem_coverage (hn : r.Nests g) (hx : r.get? c = some x) :
    x.entry ∈ r.coverage c := by
  rw [hn.mem_coverage_iff hx]
  exact FlowGraph.entry_mem_regionBetween g _ _

/-- At every moment of the construction, walks have queued only what their hosts cover. -/
theorem Passes.queue_covered (hn : r.Nests g) (hs : r.Passes g s) :
    ∀ w ∈ s.stack, ∀ v ∈ w.queue, v ∈ r.coverage w.host := by
  refine hs.forall_queued (fun c x hx => hn.entry_mem_coverage hx) ?_
  intro h v l hv honward
  cases honward with
  | stop => simp
  | jump hexit hc hy =>
    obtain ⟨z, hz, _, _, hend⟩ := hn.of_meets hv hexit hc
    obtain rfl := Option.some.inj (hy.symm.trans hz)
    simpa using hend
  | spread hexit hc => exact fun u hu => hn.successor_mem_coverage hv hexit hu

/-- At every moment of the construction, links lead from hammocks to others that cover more. -/
theorem Passes.link_covered (hn : r.Nests g) (hs : r.Passes g s) :
    ∀ p c, s.tree.parent? c = some p ∨ c ∈ s.tree.children p → r.coverage c ⊂ r.coverage p := by
  refine hs.forall_link ?_
  intro s w v c hs hw hv hexit hc
  obtain ⟨_, _, _, hsub, _⟩ := hn.of_meets (hs.queue_covered hn _ hw _ hv) hexit hc
  exact hsub

/-- At every moment of the construction, the root covers what is attached. -/
theorem Passes.root_covers (hn : r.Nests g) (hs : r.Passes g s) :
    ∀ c ∈ s.tree.attached, r.coverage c ⊆ r.coverage s.tree.root := by
  induction hs with
  | start hroot =>
    intro c hc
    rw [IdSet.mem_singleton.1 hc]
    rfl
  | step hs hstep ih =>
    obtain rfl := hs.registry_eq
    cases hstep with
    | finish | stop | jump | spread => exact ih
    | @nest t w below v rest d hq hexit hd hnew =>
      have hv := hs.queue_covered hn w List.mem_cons_self v (hq ▸ List.mem_cons_self)
      obtain ⟨_, _, _, hsub, _⟩ := hn.of_meets hv hexit hd
      intro c hc
      rcases IdSet.mem_insert.1 hc with rfl | hc
      · exact hsub.1.trans (ih _ (hs.linked.host_attached w List.mem_cons_self))
      · exact ih c hc

end HammockRegistry

namespace FlowGraph

open HammockRegistry

/-- A hammock that begins inside another one, before its exit, covers strictly less and not that
exit. So, from the planted root to the finished tree, the walks of attached hammocks take only
vertices that these cover, and every child covers strictly less than its parent. -/
theorem inner_hammocks_stay_inside (g : FlowGraph) (source sink : VertexId)
    (mask : Option BoundaryMask) (mode : SweepMode) {a : BoundaryAnalysis}
    {r : HammockRegistry} (ha : (g.analyseBoundaries source sink mask mode).run.value = .ok a)
    (hr : (register g a.minimal).value = r) :
    (∀ i j x y, r.get? i = some x → r.get? j = some y → i ≠ j → y.entry ∈ r.coverage i →
      y.entry ≠ x.exit → r.coverage j ⊂ r.coverage i ∧ x.exit ∉ r.coverage j) ∧
    ∀ t, (r.nest g).run.value = .ok t →
      r.Passes g ⟨t, []⟩ ∧
      (∀ s, r.Passes g s → (Construction.run g s).value = t ∧
        ∀ w ∈ s.stack, w.host ∈ s.tree.attached ∧ ∀ v ∈ w.queue, v ∈ r.coverage w.host) ∧
      ∀ p c, t.parent? c = some p ∨ c ∈ t.children p → r.coverage c ⊂ r.coverage p := by
  have hn : r.Nests g := hr ▸ nests_register ha
  refine ⟨?_, fun t ht => ⟨passes_of_nest ht, ?_, ?_⟩⟩
  · intro i j x y hi hj hne hentry hexit
    exact hn.coverage_ssubset hi hj hne hentry hexit
  · intro s hs
    refine ⟨hs.run_eq ht, fun w hw => ?_⟩
    exact ⟨hs.linked.host_attached w hw, hs.queue_covered hn w hw⟩
  · exact (passes_of_nest ht).link_covered hn

/-- A line of five vertices with an edge back from the third to the second. -/
def stepBack : FlowGraph :=
  ((new 5).addEdges [(⟨0⟩, ⟨1⟩), (⟨1⟩, ⟨2⟩), (⟨2⟩, ⟨3⟩), (⟨2⟩, ⟨1⟩), (⟨3⟩, ⟨4⟩)]).toOption.getD
    default

/-- The edge back leads the walk of the third hammock of a line to the entry of the second, which
becomes a child although it begins further up. -/
theorem hammock_inside_behind_step_back :
    ∃ a t, (stepBack.analyseBoundaries ⟨0⟩ ⟨4⟩ none .inPlace).run.value = .ok a ∧
      ((register stepBack a.minimal).value.nest stepBack).run.value = .ok t ∧
      t.parent? ⟨1⟩ = some ⟨2⟩ ∧ (register stepBack a.minimal).value.coverage ⟨1⟩ ⊂
        (register stepBack a.minimal).value.coverage ⟨2⟩ := by
  obtain ⟨a, ha, hroot, hdone, hp⟩ : ∃ a,
      (stepBack.analyseBoundaries ⟨0⟩ ⟨4⟩ none .inPlace).run.value = .ok a ∧
      ∃ hroot : (register stepBack a.minimal).value.largest?
        (register stepBack a.minimal).value.ids = some ⟨2⟩,
      let grown := Construction.resumed stepBack 3
        (.start _ ⟨2⟩ (isSome_get?_of_mem_ids (mem_of_largest? hroot)))
      grown.stack = [] ∧ grown.tree.parent? ⟨1⟩ = some ⟨2⟩ :=
    ⟨(stepBack.analyseBoundaries ⟨0⟩ ⟨4⟩ none .inPlace).run.value.toOption.get
      (by decide +kernel), by decide +kernel, by decide +kernel, by decide +kernel⟩
  have ht := value_nest_of_resumed hroot hdone
  have hinside := (inner_hammocks_stay_inside stepBack ⟨0⟩ ⟨4⟩ none .inPlace ha rfl).2 _ ht
  exact ⟨a, _, ha, ht, hp, hinside.2.2 ⟨2⟩ ⟨1⟩ (.inl hp)⟩

end FlowGraph

end FlowRegions
