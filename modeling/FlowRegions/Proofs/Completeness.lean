import FlowRegions.Proofs.Containment
import FlowRegions.Proofs.EdgeOrder

/-!
# Nothing nested in the root is lost

A walk jumps over hammocks, skips those that are attached already and stops at its exit. Whatever it
has passed is visited, or it lies in an attached hammock that the walk has jumped over
(`Explored.passed`). Such a hammock is smaller than every host on the stack, so its own walk is over
and it has attached all that begins inside it (`Exhaustive`). By induction over the construction,
every walk that is over leaves its host complete, and at the end so is the root
(`Nests.attached_iff_subset`).
-/

namespace FlowRegions

open Log

namespace HammockRegistry

variable {r : HammockRegistry} {g : FlowGraph} {i c k : HammockId} {x y : Hammock}
variable {u v : VertexId} {s s' : Construction} {t : HammockTree} {w w' : Walk}
variable {below : List Walk} {rest : List VertexId} {attached attached' : HammockSet}

/-! ## What a walk has passed -/

/-- The walk need not come back to a vertex. -/
inductive Settled (g : FlowGraph) (r : HammockRegistry) (attached : HammockSet) (w : Walk)
    (v : VertexId) : Prop where
  /-- It does not go on from the exit. -/
  | stopped (hexit : r.isExit w.host v = true)
  /-- It has jumped over an attached hammock that begins there. -/
  | jumped {k : HammockId} {y : Hammock} (hk : r.largestBelow? v (r.sizeOf w.host) = some k)
      (hatt : k ∈ attached) (hy : r.get? k = some y) (hexit : y.exit ∈ w.visited)
  /-- No smaller hammock begins there, and it has gone on to the successors. -/
  | spread (hnone : r.largestBelow? v (r.sizeOf w.host) = none)
      (hsucc : ∀ u ∈ g.successors v, u ∈ w.visited)

/-- The walk has visited the entry, and what it has visited is queued or settled. -/
structure Explored (g : FlowGraph) (r : HammockRegistry) (attached : HammockSet) (w : Walk) :
    Prop where
  entry_visited : ∀ x, r.get? w.host = some x → x.entry ∈ w.visited
  settled : ∀ v ∈ w.visited, v ∉ w.queue → Settled g r attached w v

theorem Settled.mono (h : Settled g r attached w v) (hhost : w'.host = w.host)
    (hvisited : w.visited ⊆ w'.visited) (hgrow : attached ⊆ attached') :
    Settled g r attached' w' v := by
  cases h with
  | stopped hexit => exact .stopped (by rwa [hhost])
  | jumped hk hatt hy hexit => exact .jumped (by rwa [hhost]) (hgrow _ hatt) hy (hvisited _ hexit)
  | spread hnone hsucc => exact .spread (by rwa [hhost]) fun u hu => hvisited u (hsucc u hu)

theorem Explored.mono (h : Explored g r attached w) (hgrow : attached ⊆ attached') :
    Explored g r attached' w :=
  ⟨h.entry_visited, fun v hv hq => (h.settled v hv hq).mono rfl (fun _ hu => hu) hgrow⟩

theorem explored_begin (hx : r.get? c = some x) : Explored g r attached (.begin r c) := by
  rw [Walk.begin_of_get? hx]
  -- only the entry has been visited, and it is queued
  refine ⟨fun y hy => ?_, fun v hv hq => ?_⟩
  · obtain rfl : x = y := Option.some.inj (hx.symm.trans hy)
    exact IdSet.mem_singleton.2 rfl
  · rw [IdSet.mem_singleton.1 hv] at hq
    exact absurd List.mem_cons_self hq

/-- A walk stays explored if the vertex that it takes is settled by what it queues. -/
theorem Explored.foldl_enqueue (h : Explored g r attached w) (hq : w.queue = v :: rest)
    (l : List VertexId) (hgrow : attached ⊆ attached')
    (hv : Settled g r attached' (l.foldl Walk.enqueue (w.dequeued rest)) v) :
    Explored g r attached' (l.foldl Walk.enqueue (w.dequeued rest)) := by
  have hvisited : w.visited ⊆ (l.foldl Walk.enqueue (w.dequeued rest)).visited :=
    fun u hu => Walk.mem_visited_foldl_enqueue.2 (.inr hu)
  have hhost := Walk.host_foldl_enqueue (w.dequeued rest) l
  refine ⟨fun x hx => ?_, fun u hu hnew => ?_⟩
  · rw [hhost] at hx
    exact hvisited _ (h.entry_visited x hx)
  · by_cases huv : u = v
    · exact huv ▸ hv
    · -- what is visited and not queued now was so before, as fresh vertices are queued
      rw [Walk.mem_queue_foldl_enqueue, not_or, not_and, not_not] at hnew
      have hold : u ∈ w.visited := (Walk.mem_visited_foldl_enqueue.1 hu).elim hnew.2 fun h => h
      have hout : u ∉ w.queue := by
        rw [hq, List.mem_cons, not_or]
        exact ⟨huv, hnew.1⟩
      exact (h.settled u hold hout).mono hhost hvisited hgrow

/-- A vertex is visited, or it lies, before the exit, in a smaller attached hammock that the walk
has jumped over. -/
inductive Passed (r : HammockRegistry) (attached : HammockSet) (w : Walk) (v : VertexId) :
    Prop where
  | visited (hv : v ∈ w.visited)
  | inside {k : HammockId} {y : Hammock} (hatt : k ∈ attached) (hy : r.get? k = some y)
      (hsize : r.sizeOf k < r.sizeOf w.host) (hv : v ∈ y.body) (hexit : v ≠ y.exit)
      (hpast : y.exit ∈ w.visited)

/-- The successors of what lies in a hammock that the walk has jumped over are passed. -/
theorem Nests.passed_of_inside (hn : r.Nests g) (hatt : k ∈ attached) (hy : r.get? k = some y)
    (hsize : r.sizeOf k < r.sizeOf w.host) (hv : v ∈ y.body) (hexit : v ≠ y.exit)
    (hpast : y.exit ∈ w.visited) (hu : u ∈ g.successors v) : Passed r attached w u := by
  by_cases huy : u = y.exit
  · exact .visited (huy ▸ hpast)
  · refine .inside hatt hy hsize ?_ huy hpast
    rw [hn.body_eq hy] at hv ⊢
    exact FlowGraph.mem_regionBetween_of_successor hv hexit hu

/-- A walk that is over has passed everything that its host covers. -/
theorem Explored.passed (hn : r.Nests g) (h : Explored g r attached w) (hq : w.queue = [])
    (hx : r.get? w.host = some x) (hv : v ∈ x.body) : Passed r attached w v := by
  rw [hn.body_eq hx, FlowGraph.mem_regionBetween] at hv
  -- along the walk that measures the host, one step at a time
  induction hv with
  | refl => exact .visited (h.entry_visited x hx)
  | @tail v u _ hstep ih =>
    obtain ⟨hne, hu⟩ := FlowGraph.mem_stepsUntil.1 hstep
    cases ih with
    | inside hatt hy hsize hv hexit hpast =>
      exact hn.passed_of_inside hatt hy hsize hv hexit hpast hu
    | visited hv =>
      cases h.settled v hv (by simp [hq]) with
      | stopped hexit => exact absurd ((isExit_iff hx).1 hexit).symm hne
      | spread _ hsucc => exact .visited (hsucc u hu)
      | @jumped k y hk hatt hy hexit =>
        -- the step leads into the hammock that the walk has jumped over
        obtain ⟨hstart, hsize⟩ := of_largestBelow? hk
        obtain ⟨z, hz, rfl⟩ := mem_startedAt.1 hstart
        obtain rfl : y = z := Option.some.inj (hy.symm.trans hz)
        have hentry := FlowGraph.entry_mem_regionBetween g y.entry y.exit
        rw [← hn.body_eq hy] at hentry
        exact hn.passed_of_inside hatt hy hsize hentry (hn.entry_ne_exit_self hy) hexit hu

/-! ## Complete hammocks -/

/-- All hammocks that begin inside a hammock, before its exit, are attached. -/
def Complete (r : HammockRegistry) (attached : HammockSet) (k : HammockId) : Prop :=
  ∀ c y, r.get? c = some y → y.entry ∈ r.coverage k → ¬ r.isExit k y.entry = true → c ∈ attached

theorem Complete.mono (h : r.Complete attached k) (hgrow : attached ⊆ attached') :
    r.Complete attached' k := fun c y hy hentry hexit => hgrow c (h c y hy hentry hexit)

/-- The host of a walk that is over is complete, if the smaller attached hammocks are. -/
theorem Explored.complete (hn : r.Nests g) (h : Explored g r attached w) (hq : w.queue = [])
    (hhost : w.host ∈ attached)
    (hinner : ∀ k ∈ attached, r.sizeOf k < r.sizeOf w.host → r.Complete attached k) :
    r.Complete attached w.host := by
  intro c y hy hentry hexit
  by_cases hc : w.host = c
  · exact hc ▸ hhost
  obtain ⟨x, hx⟩ := exists_get?_of_mem_coverage hentry
  rw [isExit_iff hx] at hexit
  have hsub := (hn.coverage_ssubset hx hy hc hentry (Ne.symm hexit)).1
  have hsmall : r.sizeOf c < r.sizeOf w.host := sizeOf_lt_of_ssubset hx hy hsub
  have hstart : c ∈ r.startedAt y.entry := mem_startedAt.2 ⟨y, hy, rfl⟩
  cases h.passed hn hq hx ((mem_coverage hx).1 hentry) with
  | @inside k z hatt hz hsize hv hzexit hpast =>
    -- the hammock begins inside a smaller one, which has attached it
    apply hinner k hatt hsize c y hy ((mem_coverage hz).2 hv)
    rw [isExit_iff hz]
    exact Ne.symm hzexit
  | visited hv =>
    cases h.settled _ hv (by simp [hq]) with
    | stopped hexit' => exact absurd ((isExit_iff hx).1 hexit') hexit
    | spread hnone _ =>
      have hlarge := largestBelow?_eq_none_iff.1 hnone c hstart
      omega
    | @jumped k z hk hatt hz _ =>
      -- only one hammock begins at a vertex, so it is the one that the walk met there
      obtain ⟨z', hz', heq⟩ := exists_get?_of_largestBelow? hk
      exact hn.entry_inj hz' hy heq ▸ hatt

/-! ## The invariant -/

/-- Hosts shrink towards the top of the stack, their walks are explored, and an attached hammock
whose walk is over is complete. -/
structure Exhaustive (g : FlowGraph) (r : HammockRegistry) (s : Construction) : Prop where
  shrinking : s.stack.Pairwise fun w w' => r.sizeOf w.host < r.sizeOf w'.host
  explored : ∀ w ∈ s.stack, Explored g r s.tree.attached w
  complete : ∀ k ∈ s.tree.attached, (∀ w ∈ s.stack, w.host ≠ k) → r.Complete s.tree.attached k

theorem exhaustive_start {root : HammockId} (hroot : (r.get? root).isSome = true) :
    Exhaustive g r (.start r root hroot) := by
  obtain ⟨x, hx⟩ := Option.isSome_iff_exists.1 hroot
  refine ⟨List.pairwise_singleton _ _, fun w hw => ?_, fun k hk hout => ?_⟩
  · obtain rfl := List.mem_singleton.1 hw
    exact explored_begin hx
  · refine absurd ?_ (hout _ (List.mem_singleton.2 rfl))
    rw [Walk.host_begin, IdSet.mem_singleton.1 hk]

/-- The walk on top may be replaced by another explored walk of its host. -/
theorem Exhaustive.replace (hs : Exhaustive g r ⟨t, w :: below⟩) (hhost : w'.host = w.host)
    (hw' : Explored g r t.attached w') : Exhaustive g r ⟨t, w' :: below⟩ where
  shrinking := by
    obtain ⟨htop, hbelow⟩ := List.pairwise_cons.1 hs.shrinking
    exact List.pairwise_cons.2 ⟨by rwa [hhost], hbelow⟩
  explored := List.forall_mem_cons.2 ⟨hw', (List.forall_mem_cons.1 hs.explored).2⟩
  complete k hk hout := by
    obtain ⟨htop, hbelow⟩ := List.forall_mem_cons.1 hout
    exact hs.complete k hk (List.forall_mem_cons.2 ⟨hhost ▸ htop, hbelow⟩)

/-- What is attached and smaller than the host on top is complete: hosts further down are larger, so
nothing smaller is on the stack. -/
theorem Exhaustive.complete_of_lt (hs : Exhaustive g r ⟨t, w :: below⟩) (hk : k ∈ t.attached)
    (hsize : r.sizeOf k < r.sizeOf w.host) : r.Complete t.attached k := by
  refine hs.complete k hk (List.forall_mem_cons.2 ⟨?_, fun u hu => ?_⟩)
  · rintro rfl
    exact Nat.lt_irrefl _ hsize
  · rintro rfl
    exact Nat.lt_asymm hsize ((List.pairwise_cons.1 hs.shrinking).1 u hu)

/-- When the walk on top is over, its host is complete. -/
theorem Exhaustive.finish (hn : r.Nests g) (hs : Exhaustive g r ⟨t, w :: below⟩)
    (hq : w.queue = []) (hhost : w.host ∈ t.attached) :
    Exhaustive g r ⟨t.linkSiblings w.host, below⟩ where
  shrinking := (List.pairwise_cons.1 hs.shrinking).2
  explored := (List.forall_mem_cons.1 hs.explored).2
  complete k hk hout := by
    by_cases hkw : w.host = k
    · subst hkw
      exact (List.forall_mem_cons.1 hs.explored).1.complete hn hq hhost
        fun _ hk hsize => hs.complete_of_lt hk hsize
    · exact hs.complete k hk (List.forall_mem_cons.2 ⟨hkw, hout⟩)

/-- A smaller hammock may be attached while its walk goes on top. -/
theorem Exhaustive.attach (hs : Exhaustive g r ⟨t, w :: below⟩)
    (hsize : t.registry.sizeOf c < t.registry.sizeOf w.host)
    (hlt : r.sizeOf c < r.sizeOf w.host) (hx : r.get? c = some x) (hhost : w'.host = w.host)
    (hw' : Explored g r (insert c t.attached) w') :
    Exhaustive g r ⟨t.attach c w.host hsize, .begin r c :: w' :: below⟩ := by
  have hgrow : t.attached ⊆ insert c t.attached := fun id hid => IdSet.mem_insert.2 (.inr hid)
  obtain ⟨htop, hbelow⟩ := List.pairwise_cons.1 hs.shrinking
  refine ⟨?_, ?_, fun k hk hout => ?_⟩
  · refine List.pairwise_cons.2 ⟨List.forall_mem_cons.2 ⟨?_, fun u hu => ?_⟩,
      List.pairwise_cons.2 ⟨by rwa [hhost], hbelow⟩⟩
    · rwa [Walk.host_begin, hhost]
    · rw [Walk.host_begin]
      exact Nat.lt_trans hlt (htop u hu)
  · refine List.forall_mem_cons.2 ⟨explored_begin hx, List.forall_mem_cons.2 ⟨hw', ?_⟩⟩
    intro u hu
    exact ((List.forall_mem_cons.1 hs.explored).2 u hu).mono hgrow
  · -- the new hammock is on the stack itself, and nothing else has left it
    obtain ⟨hc, hout⟩ := List.forall_mem_cons.1 hout
    obtain ⟨hkw, hbelow⟩ := List.forall_mem_cons.1 hout
    rw [Walk.host_begin] at hc
    have hkold : k ∈ t.attached := (IdSet.mem_insert.1 hk).resolve_left (Ne.symm hc)
    exact (hs.complete k hkold (List.forall_mem_cons.2 ⟨hhost ▸ hkw, hbelow⟩)).mono hgrow

/-- A vertex is settled when the walk queues the exit of an attached hammock that it meets there. -/
theorem settled_of_exit (hc : r.largestBelow? v (r.sizeOf w.host) = some c) (hatt : c ∈ attached)
    (hy : r.get? c = some y) :
    Settled g r attached ([y.exit].foldl Walk.enqueue (w.dequeued rest)) v := by
  refine .jumped ?_ hatt hy (Walk.mem_visited_foldl_enqueue.2 (.inl List.mem_cons_self))
  rwa [Walk.host_foldl_enqueue]

/-- Every step leaves walks explored and hosts of walks that are over complete. -/
theorem Nests.exhaustive_step (hn : r.Nests g) (hreg : s.tree.registry = r) (hlink : r.Linked s)
    (hs : Exhaustive g r s) (h : Construction.Step g s s') : Exhaustive g r s' := by
  subst hreg
  cases h with
  | finish hq => exact hs.finish hn hq (List.forall_mem_cons.1 hlink.host_attached).1
  | @stop t w below v rest hq hexit =>
    have hw := (List.forall_mem_cons.1 hs.explored).1
    exact hs.replace rfl (hw.foldl_enqueue hq [] (fun _ hid => hid) (.stopped hexit))
  | @jump t w below v rest c hq hexit hmeets hatt =>
    have hw := (List.forall_mem_cons.1 hs.explored).1
    obtain ⟨y, hy, _⟩ := exists_get?_of_largestBelow? hmeets
    rw [Walk.enqueueExit_of_get? hy]
    exact hs.replace (Walk.host_enqueue _ _)
      (hw.foldl_enqueue hq [y.exit] (fun _ hid => hid) (settled_of_exit hmeets hatt hy))
  | @nest t w below v rest c hq hexit hmeets hnew =>
    have hw := (List.forall_mem_cons.1 hs.explored).1
    obtain ⟨y, hy, _⟩ := exists_get?_of_largestBelow? hmeets
    rw [Walk.enqueueExit_of_get? hy]
    exact hs.attach _ (of_largestBelow? hmeets).2 hy (Walk.host_enqueue _ _)
      (hw.foldl_enqueue hq [y.exit] (fun _ hid => IdSet.mem_insert.2 (.inr hid))
        (settled_of_exit hmeets (IdSet.mem_insert.2 (.inl rfl)) hy))
  | @spread t w below v rest hq hexit hmeets =>
    have hw := (List.forall_mem_cons.1 hs.explored).1
    refine hs.replace (Walk.host_foldl_enqueue _ _)
      (hw.foldl_enqueue hq _ (fun _ hid => hid) (.spread ?_ fun u hu => ?_))
    · rwa [Walk.host_foldl_enqueue]
    · exact Walk.mem_visited_foldl_enqueue.2 (.inl hu)

theorem Passes.exhaustive (hn : r.Nests g) (hs : r.Passes g s) : Exhaustive g r s := by
  induction hs with
  | start hroot => exact exhaustive_start _
  | step hs h ih => exact hn.exhaustive_step hs.registry_eq hs.linked ih h

/-! ## The attached hammocks -/

theorem get?_root (ht : (r.nest g).run.value = .ok t) : r.get? t.root = some t.rootHammock := by
  have hreg : t.registry = r := (passes_of_nest ht).registry_eq
  rw [← hreg, HammockTree.rootHammock, Option.some_get]

/-- What begins in the root, before its exit, is attached. -/
theorem Nests.attached_of_entry (hn : r.Nests g) (ht : (r.nest g).run.value = .ok t)
    (hy : r.get? c = some y) (hentry : y.entry ∈ r.coverage t.root)
    (hexit : y.entry ≠ t.rootHammock.exit) : c ∈ t.attached := by
  have hs := passes_of_nest ht
  have hroot : t.root ∈ t.attached := hs.root_attached
  apply (hs.exhaustive hn).complete t.root hroot (by simp) c y hy hentry
  rw [isExit_iff (get?_root ht)]
  exact Ne.symm hexit

/-- What the root covers entirely begins in it, before its exit, unless it is the root. -/
theorem Nests.entry_of_subset (hn : r.Nests g) (ht : (r.nest g).run.value = .ok t)
    (hy : r.get? c = some y) (hsub : r.coverage c ⊆ r.coverage t.root) :
    y.entry ∈ r.coverage t.root ∧ y.entry ≠ t.rootHammock.exit := by
  have hroot := get?_root ht
  have hentry : y.entry ∈ r.coverage c := hn.entry_mem_coverage hy
  have hbody : y.body ⊆ t.rootHammock.body := fun v hv =>
    (mem_coverage hroot).1 (hsub ((mem_coverage hy).2 hv))
  exact ⟨hsub hentry, hn.entry_ne_exit hroot hy hbody⟩

/-- The attached hammocks are those that the root covers entirely. -/
theorem Nests.attached_iff_subset (hn : r.Nests g) (ht : (r.nest g).run.value = .ok t)
    (hy : r.get? c = some y) : c ∈ t.attached ↔ r.coverage c ⊆ r.coverage t.root := by
  constructor
  · intro hc
    exact (passes_of_nest ht).root_covers hn c hc
  · intro hsub
    obtain ⟨hentry, hexit⟩ := hn.entry_of_subset ht hy hsub
    exact hn.attached_of_entry ht hy hentry hexit

/-- The attached hammocks are the root and those that begin in it before its exit. -/
theorem Nests.attached_iff_entry (hn : r.Nests g) (ht : (r.nest g).run.value = .ok t)
    (hy : r.get? c = some y) :
    c ∈ t.attached ↔
      c = t.root ∨ (y.entry ∈ r.coverage t.root ∧ y.entry ≠ t.rootHammock.exit) := by
  constructor
  · intro hc
    exact .inr (hn.entry_of_subset ht hy ((hn.attached_iff_subset ht hy).1 hc))
  · rintro (rfl | ⟨hentry, hexit⟩)
    · exact (passes_of_nest ht).root_attached
    · exact hn.attached_of_entry ht hy hentry hexit

/-- Which hammocks are attached depends on the registry alone. -/
theorem Nests.attached_congr {g' : FlowGraph} {t' : HammockTree} (hn : r.Nests g)
    (hn' : r.Nests g') (ht : (r.nest g).run.value = .ok t)
    (ht' : (r.nest g').run.value = .ok t') : t.attached = t'.attached := by
  have hroot : t.root = t'.root := Option.some.inj
    ((passes_of_nest ht).largest.2.symm.trans (passes_of_nest ht').largest.2)
  refine IdSet.ext fun c => ⟨fun hc => ?_, fun hc => ?_⟩
  · obtain ⟨y, hy⟩ := (passes_of_nest ht).linked.registered c hc
    rwa [hn'.attached_iff_subset ht' hy, ← hroot, ← hn.attached_iff_subset ht hy]
  · obtain ⟨y, hy⟩ := (passes_of_nest ht').linked.registered c hc
    rwa [hn.attached_iff_subset ht hy, hroot, ← hn'.attached_iff_subset ht' hy]

end HammockRegistry

namespace FlowGraph

open HammockRegistry

/-- Nothing nested in the root is lost: there is a tree, and it attaches exactly the hammocks that
the root covers entirely, which are the root and those that begin in it before its exit. Another
order of the edges changes neither the hammocks nor which of them are attached. -/
theorem attached_iff_covered_by_root (g : FlowGraph) (source sink : VertexId)
    (mask : Option BoundaryMask) (mode : SweepMode) {a : BoundaryAnalysis} {r : HammockRegistry}
    (hne : source ≠ sink) (ha : (g.analyseBoundaries source sink mask mode).run.value = .ok a)
    (hr : (register g a.minimal).value = r) :
    ∃ t, (r.nest g).run.value = .ok t ∧
      (∀ c y, r.get? c = some y →
        (t.isAttached c = true ↔ r.coverage c ⊆ r.coverage t.root) ∧
        (t.isAttached c = true ↔
          c = t.root ∨ (y.entry ∈ r.coverage t.root ∧ y.entry ≠ t.rootHammock.exit))) ∧
      ∀ g', SameEdges g g' →
        ∃ a' t', (g'.analyseBoundaries source sink mask mode).run.value = .ok a' ∧
          (register g' a'.minimal).value = r ∧ (r.nest g').run.value = .ok t' ∧
          t'.attached = t.attached := by
  have hn : r.Nests g := hr ▸ nests_register ha
  obtain ⟨x, hx⟩ := exists_registered ha hne
  rw [hr] at hx
  have hid := mem_ids_of_get? hx
  obtain ⟨t, ht⟩ := exists_nest g hid
  refine ⟨t, ht, fun c y hy => ?_, fun g' hsame => ?_⟩
  · rw [HammockTree.isAttached, decide_eq_true_iff]
    exact ⟨hn.attached_iff_subset ht hy, hn.attached_iff_entry ht hy⟩
  · obtain ⟨a', ha'⟩ :=
      exists_analyseBoundaries (hsame.flows (flows_of_analyseBoundaries ha)) mask mode
    have hr' : (register g' a'.minimal).value = r := by
      rw [← hsame.minimal_eq ha ha', ← hsame.register_eq, hr]
    have hn' : r.Nests g' := hr' ▸ nests_register ha'
    obtain ⟨t', ht'⟩ := exists_nest g' hid
    exact ⟨a', t', ha', hr', ht', hn'.attached_congr hn ht' ht⟩

/-- The line of five vertices with the edge back listed first. -/
def stepBackFirst : FlowGraph :=
  ((new 5).addEdges [(⟨2⟩, ⟨1⟩), (⟨0⟩, ⟨1⟩), (⟨1⟩, ⟨2⟩), (⟨2⟩, ⟨3⟩), (⟨3⟩, ⟨4⟩)]).toOption.getD
    default

/-- Of the hammocks of a line with an edge back, the third is the root and covers the second, not
the first, in whatever order the edges are listed. -/
theorem attached_behind_step_back :
    ∃ a t a' t', (stepBack.analyseBoundaries ⟨0⟩ ⟨4⟩ none .inPlace).run.value = .ok a ∧
      ((register stepBack a.minimal).value.nest stepBack).run.value = .ok t ∧
      t.isAttached ⟨1⟩ = true ∧ ¬ t.isAttached ⟨0⟩ = true ∧
      (register stepBack a.minimal).value.coverage ⟨1⟩ ⊆
        (register stepBack a.minimal).value.coverage t.root ∧
      ¬ (register stepBack a.minimal).value.coverage ⟨0⟩ ⊆
        (register stepBack a.minimal).value.coverage t.root ∧
      (stepBackFirst.analyseBoundaries ⟨0⟩ ⟨4⟩ none .inPlace).run.value = .ok a' ∧
      ((register stepBackFirst a'.minimal).value.nest stepBackFirst).run.value = .ok t' ∧
      t'.attached = t.attached := by
  obtain ⟨a, ha, hroot, hdone, hin, hout, hsome⟩ : ∃ a,
      (stepBack.analyseBoundaries ⟨0⟩ ⟨4⟩ none .inPlace).run.value = .ok a ∧
      ∃ hroot : (register stepBack a.minimal).value.largest?
        (register stepBack a.minimal).value.ids = some ⟨2⟩,
      let grown := Construction.resumed stepBack 3
        (.start _ ⟨2⟩ (isSome_get?_of_mem_ids (mem_of_largest? hroot)))
      grown.stack = [] ∧ grown.tree.isAttached ⟨1⟩ = true ∧ ¬ grown.tree.isAttached ⟨0⟩ = true ∧
        ∀ i ∈ [⟨0⟩, ⟨1⟩], ((register stepBack a.minimal).value.get? i).isSome = true :=
    ⟨(stepBack.analyseBoundaries ⟨0⟩ ⟨4⟩ none .inPlace).run.value.toOption.get
      (by decide +kernel), by decide +kernel, by decide +kernel, by decide +kernel⟩
  have hne : (⟨0⟩ : VertexId) ≠ ⟨4⟩ := by decide
  obtain ⟨t, ht, hcover, horder⟩ :=
    attached_iff_covered_by_root stepBack ⟨0⟩ ⟨4⟩ none .inPlace hne ha rfl
  have hgrown := Except.ok.inj ((value_nest_of_resumed hroot hdone).symm.trans ht)
  rw [hgrown] at hin hout
  obtain ⟨y, hy⟩ := Option.isSome_iff_exists.1 (hsome ⟨1⟩ (by simp))
  obtain ⟨z, hz⟩ := Option.isSome_iff_exists.1 (hsome ⟨0⟩ (by simp))
  have hsame : SameEdges stepBack stepBackFirst :=
    sameEdges_of_perm (by decide +kernel) (by decide +kernel)
  obtain ⟨a', t', ha', hr', ht', hatt⟩ := horder stepBackFirst hsame
  rw [← hr'] at ht'
  exact ⟨a, t, a', t', ha, ht, hin, hout, (hcover ⟨1⟩ y hy).1.1 hin,
    fun hsub => hout ((hcover ⟨0⟩ z hz).1.2 hsub), ha', ht', hatt⟩

end FlowGraph

end FlowRegions
