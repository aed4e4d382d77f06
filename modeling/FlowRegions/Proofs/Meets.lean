import FlowRegions.Proofs.Completeness
import FlowRegions.Proofs.ContainmentOrder
import FlowRegions.Proofs.Preorder

/-!
# What a walk meets

Which hammocks a walk stops at depends on what has been attached before. `Walk.meets` lists all that
it meets, attached or not, and reads nothing but the graph and the registry. In an acyclic graph a
hammock is met only by the walk of the smallest one around it, and only once, since no vertex is
queued twice (`Walk.Tidy.of_meets`). So a hammock that a walk meets is never attached yet, and at
every moment the children of a host and what its walk has still to meet make up all that its walk
meets (`Unfolded`). In the end the children of an attached hammock are what its walk meets, in that
order (`Laminar.children_eq_meets`).
-/

namespace FlowRegions

open Log

namespace Walk

variable {g : FlowGraph} {r : HammockRegistry} {w : Walk} {u v : VertexId} {rest : List VertexId}
variable {c k : HammockId}

/-- The hammocks that a walk meets, in order, attached or not. -/
def meets (g : FlowGraph) (r : HammockRegistry) (w : Walk) : List HammockId :=
  match _hq : w.queue with
  | [] => []
  | v :: rest =>
    if r.isExit w.host v then meets g r ⟨w.host, rest, w.visited⟩
    else
      match r.largestBelow? v (r.sizeOf w.host) with
      | some c => c :: meets g r (enqueueExit ⟨w.host, rest, w.visited⟩ r c)
      | none => meets g r ((g.successors v).foldl enqueue ⟨w.host, rest, w.visited⟩)
termination_by w.pending
decreasing_by
  · exact pending_dequeue _hq
  · rw [pending_enqueueExit]
    exact pending_dequeue _hq
  · rw [pending_foldl_enqueue]
    exact pending_dequeue _hq

theorem meets_of_nil (hq : w.queue = []) : w.meets g r = [] := by
  unfold meets
  split
  · rfl
  · next h => simp [hq] at h

theorem meets_of_cons (hq : w.queue = v :: rest) :
    w.meets g r =
      if r.isExit w.host v then (w.dequeued rest).meets g r
      else
        match r.largestBelow? v (r.sizeOf w.host) with
        | some c => c :: ((w.dequeued rest).enqueueExit r c).meets g r
        | none => ((g.successors v).foldl enqueue (w.dequeued rest)).meets g r := by
  rw [meets]
  split
  · next h => simp [hq] at h
  · next u rest' h =>
    obtain ⟨rfl, rfl⟩ : v = u ∧ rest = rest' := by simpa [hq] using h
    rfl

/-- Behind the exit nothing is met. -/
theorem meets_of_exit (hq : w.queue = v :: rest) (hexit : r.isExit w.host v = true) :
    w.meets g r = (w.dequeued rest).meets g r := by
  rw [meets_of_cons hq, if_pos hexit]

/-- A smaller hammock is met where it starts, and the walk goes on at its exit. -/
theorem meets_of_some (hq : w.queue = v :: rest) (hexit : ¬ r.isExit w.host v = true)
    (hc : r.largestBelow? v (r.sizeOf w.host) = some c) :
    w.meets g r = c :: ((w.dequeued rest).enqueueExit r c).meets g r := by
  rw [meets_of_cons hq, if_neg hexit, hc]

/-- Where no smaller hammock starts, the walk goes on to the successors. -/
theorem meets_of_none (hq : w.queue = v :: rest) (hexit : ¬ r.isExit w.host v = true)
    (hc : r.largestBelow? v (r.sizeOf w.host) = none) :
    w.meets g r = ((g.successors v).foldl enqueue (w.dequeued rest)).meets g r := by
  rw [meets_of_cons hq, if_neg hexit, hc]

/-! ## No vertex is queued twice -/

/-- The queue repeats no vertex, and everything in it has been visited. -/
structure Tidy (w : Walk) : Prop where
  nodup : w.queue.Nodup
  visited : ∀ v ∈ w.queue, v ∈ w.visited

/-- The walk may still take a vertex from its queue. -/
def Ahead (w : Walk) (v : VertexId) : Prop := v ∈ w.queue ∨ v ∉ w.visited

theorem Tidy.enqueue (hw : w.Tidy) (v : VertexId) : (w.enqueue v).Tidy := by
  constructor
  · unfold Walk.enqueue
    split
    · exact hw.nodup
    · next hv =>
      refine List.nodup_append.2 ⟨hw.nodup, List.nodup_singleton v, fun u hu u' hu' heq => ?_⟩
      rw [List.mem_singleton.1 hu'] at heq
      exact hv (heq ▸ hw.visited u hu)
  · intro u hu
    rw [mem_visited_enqueue]
    rcases mem_queue_enqueue.1 hu with hu | ⟨hu, _⟩
    · exact .inr (hw.visited u hu)
    · exact .inl hu

theorem Tidy.foldl_enqueue (hw : w.Tidy) (l : List VertexId) : (l.foldl Walk.enqueue w).Tidy := by
  induction l generalizing w with
  | nil => exact hw
  | cons v l ih => exact ih (hw.enqueue v)

theorem Tidy.dequeued (hw : w.Tidy) (hq : w.queue = v :: rest) : (w.dequeued rest).Tidy where
  nodup := (List.nodup_cons.1 (hq ▸ hw.nodup)).2
  visited u hu := hw.visited u (hq ▸ List.mem_cons_of_mem v hu)

theorem tidy_begin {x : Hammock} (hx : r.get? c = some x) : (begin r c).Tidy := by
  rw [begin_of_get? hx]
  exact ⟨List.nodup_singleton _, fun v hv => IdSet.mem_singleton.2 (List.mem_singleton.1 hv)⟩

/-- A vertex that has been taken does not come again, and nothing comes that might not have come
before. -/
theorem Tidy.ahead_of_foldl (hw : w.Tidy) (hq : w.queue = v :: rest) (l : List VertexId)
    (hu : (l.foldl Walk.enqueue (w.dequeued rest)).Ahead u) : w.Ahead u ∧ u ≠ v := by
  have hv : v ∈ w.visited := hw.visited v (hq ▸ List.mem_cons_self)
  have hrest : v ∉ rest := (List.nodup_cons.1 (hq ▸ hw.nodup)).1
  rcases hu with hu | hu
  · rcases mem_queue_foldl_enqueue.1 hu with hu | ⟨_, hu⟩
    · exact ⟨.inl (hq ▸ List.mem_cons_of_mem v hu), fun heq => hrest (heq ▸ hu)⟩
    · exact ⟨.inr hu, fun heq => hu (heq ▸ hv)⟩
  · rw [mem_visited_foldl_enqueue, not_or] at hu
    exact ⟨.inr hu.2, fun heq => hu.2 (heq ▸ hv)⟩

/-- A walk meets hammocks where they start, ahead of it, and none of them twice. -/
theorem Tidy.of_meets (hw : w.Tidy) :
    (∀ k ∈ w.meets g r, ∃ y, r.get? k = some y ∧ w.Ahead y.entry) ∧ (w.meets g r).Nodup := by
  fun_induction meets g r w with
  | case1 w hq => simp
  | case2 w v rest hq hexit ih =>
    obtain ⟨hahead, hnodup⟩ := ih (hw.dequeued hq)
    refine ⟨fun k hk => ?_, hnodup⟩
    obtain ⟨y, hy, hentry⟩ := hahead k hk
    exact ⟨y, hy, (hw.ahead_of_foldl hq [] hentry).1⟩
  | case3 w v rest hq hexit c hc ih =>
    obtain ⟨x, hx, hxv⟩ := HammockRegistry.exists_get?_of_largestBelow? hc
    rw [enqueueExit_of_get? hx] at ih ⊢
    obtain ⟨hahead, hnodup⟩ := ih ((hw.dequeued hq).enqueue x.exit)
    refine ⟨List.forall_mem_cons.2 ⟨⟨x, hx, .inl ?_⟩, fun k hk => ?_⟩,
      List.nodup_cons.2 ⟨fun hmem => ?_, hnodup⟩⟩
    · rw [hxv, hq]
      exact List.mem_cons_self
    · obtain ⟨y, hy, hentry⟩ := hahead k hk
      exact ⟨y, hy, (hw.ahead_of_foldl hq [x.exit] hentry).1⟩
    · -- the walk has taken the entry of the hammock and does not come back to it
      obtain ⟨y, hy, hentry⟩ := hahead c hmem
      obtain rfl : x = y := Option.some.inj (hx.symm.trans hy)
      exact (hw.ahead_of_foldl hq [x.exit] hentry).2 hxv
  | case4 w v rest hq hexit hc ih =>
    obtain ⟨hahead, hnodup⟩ := ih ((hw.dequeued hq).foldl_enqueue _)
    refine ⟨fun k hk => ?_, hnodup⟩
    obtain ⟨y, hy, hentry⟩ := hahead k hk
    exact ⟨y, hy, (hw.ahead_of_foldl hq _ hentry).1⟩

end Walk

namespace HammockRegistry

variable {r : HammockRegistry} {g : FlowGraph} {c k p q : HammockId} {x : Hammock}
variable {s s' : Construction} {t : HammockTree} {w w' : Walk} {below : List Walk} {v : VertexId}
variable {rest : List VertexId}

/-- There is at most one smallest hammock around another one. -/
theorem Innermost.unique (hp : r.Innermost p c) (hq : r.Innermost q c) : p = q := by
  rcases hp.2 q hq.1 with rfl | hpq
  · rfl
  · rcases hq.2 p hp.1 with rfl | hqp
    · rfl
    · exact absurd (hpq.trans hqp) (ssubset_irrefl _)

/-- The children of a host and what its walk has still to meet are all that its walk meets, and
those of an attached hammock whose walk is over are all. -/
structure Unfolded (g : FlowGraph) (r : HammockRegistry) (s : Construction) : Prop where
  suspended : ∀ w ∈ s.stack,
    s.tree.children w.host ++ w.meets g r = (Walk.begin r w.host).meets g r
  finished : ∀ k ∈ s.tree.attached, (∀ w ∈ s.stack, w.host ≠ k) →
    s.tree.children k = (Walk.begin r k).meets g r

theorem unfolded_start {root : HammockId} (hroot : (r.get? root).isSome = true) :
    Unfolded g r (.start r root hroot) where
  suspended w hw := by
    obtain rfl := List.mem_singleton.1 hw
    rw [Walk.host_begin]
    simp [Construction.start, HammockTree.planted, HammockTree.children]
  finished k hk hout := by
    refine absurd ?_ (hout _ (List.mem_singleton.2 rfl))
    rw [Walk.host_begin, IdSet.mem_singleton.1 hk]

/-- The walk on top may be replaced by another one of its host that has the same to meet. -/
theorem Unfolded.replace (hs : Unfolded g r ⟨t, w :: below⟩) (hhost : w'.host = w.host)
    (hmeets : w.meets g r = w'.meets g r) : Unfolded g r ⟨t, w' :: below⟩ where
  suspended := by
    obtain ⟨htop, hbelow⟩ := List.forall_mem_cons.1 hs.suspended
    refine List.forall_mem_cons.2 ⟨?_, hbelow⟩
    rwa [hhost, ← hmeets]
  finished k hk hout := by
    obtain ⟨htop, hbelow⟩ := List.forall_mem_cons.1 hout
    exact hs.finished k hk (List.forall_mem_cons.2 ⟨hhost ▸ htop, hbelow⟩)

/-- A walk that is over has nothing to meet. -/
theorem Unfolded.finish (hs : Unfolded g r ⟨t, w :: below⟩) (hq : w.queue = []) :
    Unfolded g r ⟨t.linkSiblings w.host, below⟩ where
  suspended u hu := by
    rw [HammockTree.children_linkSiblings]
    exact (List.forall_mem_cons.1 hs.suspended).2 u hu
  finished k hk hout := by
    rw [HammockTree.children_linkSiblings]
    by_cases hkw : w.host = k
    · have htop := (List.forall_mem_cons.1 hs.suspended).1
      rwa [Walk.meets_of_nil hq, List.append_nil, hkw] at htop
    · exact hs.finished k hk (List.forall_mem_cons.2 ⟨hkw, hout⟩)

/-- A hammock that is met and attached moves from what is still to be met to the children. -/
theorem Unfolded.attach (hs : Unfolded g r ⟨t, w :: below⟩)
    (hsize : t.registry.sizeOf c < t.registry.sizeOf w.host)
    (hrow : w.host.index < t.links.rows.size) (hhost : w'.host = w.host)
    (hmeets : w.meets g r = c :: w'.meets g r) (hleaf : t.children c = [])
    (hbelow : ∀ u ∈ below, u.host ≠ w.host) :
    Unfolded g r ⟨t.attach c w.host hsize, .begin r c :: w' :: below⟩ := by
  have hchildren : ∀ k, (t.attach c w.host hsize).children k =
      if k = w.host then t.children k ++ [c] else t.children k := fun k =>
    HammockTree.children_attach hsize hrow
  have hne : c ≠ w.host := by
    rintro rfl
    exact Nat.lt_irrefl _ hsize
  obtain ⟨htop, hrest⟩ := List.forall_mem_cons.1 hs.suspended
  refine ⟨List.forall_mem_cons.2 ⟨?_, List.forall_mem_cons.2 ⟨?_, fun u hu => ?_⟩⟩,
    fun k hk hout => ?_⟩
  · rw [Walk.host_begin]
    show (t.attach c w.host hsize).children c ++ _ = _
    rw [hchildren, if_neg hne, hleaf, List.nil_append]
  · show (t.attach c w.host hsize).children w'.host ++ _ = _
    rw [hchildren, hhost, if_pos rfl, ← htop, hmeets, List.append_assoc]
    rfl
  · show (t.attach c w.host hsize).children u.host ++ _ = _
    rw [hchildren, if_neg (hbelow u hu)]
    exact hrest u hu
  · obtain ⟨hc, hout⟩ := List.forall_mem_cons.1 hout
    obtain ⟨hkw, hout⟩ := List.forall_mem_cons.1 hout
    rw [Walk.host_begin] at hc
    rw [hhost] at hkw
    show (t.attach c w.host hsize).children k = _
    rw [hchildren, if_neg (Ne.symm hkw)]
    exact hs.finished k ((IdSet.mem_insert.1 hk).resolve_left (Ne.symm hc))
      (List.forall_mem_cons.2 ⟨hkw, hout⟩)

/-- What a walk meets is not attached yet. It lies directly inside the host, so if it were attached
it would be a child of the host, and the walk would have met it before. -/
theorem Laminar.not_attached_of_meets (hl : r.Laminar g) (hs : r.Passes g s)
    (hu : Unfolded g r s) (hw : w ∈ s.stack) (hq : w.queue = v :: rest)
    (hexit : ¬ r.isExit w.host v = true) (hc : r.largestBelow? v (r.sizeOf w.host) = some c) :
    c ∉ s.tree.attached := by
  intro hatt
  have hhost := hs.linked.host_attached w hw
  have hv : v ∈ w.queue := hq ▸ List.mem_cons_self
  have hinner : r.Innermost w.host c :=
    hl.innermost_of_meets (hs.queue_covered hl.toNests w hw v hv) (hs.skirts hl w hw v hv) hexit hc
  have hchild : c ∈ s.tree.children w.host := by
    obtain ⟨p, hp, hparent⟩ := hs.exists_parent_of_ssubset hl hhost hatt hinner.1
    rw [hs.mirrored.mem_children_iff, hp, hparent.unique hinner]
  obtain ⟨x, hx⟩ := hs.linked.registered w.host hhost
  have hnodup : ((Walk.begin r w.host).meets g r).Nodup := (Walk.tidy_begin hx).of_meets.2
  rw [← hu.suspended w hw, Walk.meets_of_some hq hexit hc] at hnodup
  exact List.disjoint_of_nodup_append hnodup hchild List.mem_cons_self

/-- In an acyclic graph, every step moves what a walk meets to the children of its host. -/
theorem Laminar.unfolded_step (hl : r.Laminar g) (hs : r.Passes g s) (hu : Unfolded g r s)
    (h : Construction.Step g s s') : Unfolded g r s' := by
  have hlink := hs.linked
  obtain rfl := hs.registry_eq
  cases h with
  | finish hq => exact hu.finish hq
  | stop hq hexit => exact hu.replace rfl (Walk.meets_of_exit hq hexit)
  | jump hq hexit hc hatt =>
    exact absurd hatt (hl.not_attached_of_meets hs hu List.mem_cons_self hq hexit hc)
  | @nest t w below v rest c hq hexit hc hnew =>
    refine hu.attach (of_largestBelow? hc).2 hlink.host_has_row
      (Walk.host_enqueueExit _ _ _) (Walk.meets_of_some hq hexit hc) ?_ fun u hu heq => ?_
    · -- only attached hammocks have children
      rw [List.eq_nil_iff_forall_not_mem]
      intro k hk
      exact hnew (hlink.parent_attached k c ((hs.mirrored.mem_children_iff c k).1 hk)).2
    · have hlt := (List.pairwise_cons.1 (hs.exhaustive hl.toNests).shrinking).1 u hu
      rw [heq] at hlt
      exact Nat.lt_irrefl _ hlt
  | spread hq hexit hc =>
    exact hu.replace (Walk.host_foldl_enqueue _ _) (Walk.meets_of_none hq hexit hc)

theorem Passes.unfolded (hl : r.Laminar g) (hs : r.Passes g s) : Unfolded g r s := by
  induction hs with
  | start hroot => exact unfolded_start _
  | step hs h ih => exact hl.unfolded_step hs ih h

/-- In an acyclic graph the children of an attached hammock are what its walk meets, in that
order. -/
theorem Laminar.children_eq_meets (hl : r.Laminar g) (ht : (r.nest g).run.value = .ok t)
    (hc : c ∈ t.attached) : t.children c = (Walk.begin r c).meets g r :=
  ((passes_of_nest ht).unfolded hl).finished c hc (by simp)

end HammockRegistry

end FlowRegions
