import FlowRegions.Proofs.Excerpt

/-!
# Regions decompose on their own

A decomposition depends on nothing outside a region when it treats what is inside. The region of a
hammock of an acyclic graph, cut out, has an excerpt of the registry, and a walk through a hammock
inside meets the same hammocks in the same order, as it queues only what the hammock covers
(`Mimics.meets`). Since children are what walks meet, the tree of the region is a part of the whole
tree with new names, the subtree below the hammock (`region_decomposes_alike`).
-/

namespace FlowRegions

open Log Relation

namespace HammockRegistry

variable {r r' : HammockRegistry} {g g' : FlowGraph} {c h p : HammockId} {x y : Hammock}
variable {v : VertexId} {rest : List VertexId} {part : VertexSet} {w w' : Walk}
variable {t t' : HammockTree}

/-! ## Walks through an excerpt -/

/-- A walk has the queue of a walk through a hammock inside, and it has visited the same of what
that hammock covers, all under new names. -/
structure Mimics (r : HammockRegistry) (h : HammockId) (part : VertexSet) (w w' : Walk) :
    Prop where
  host_inside : w.host ∈ r.inside h
  host_eq : w'.host = (r.inside h).rank w.host
  queue_eq : w'.queue = w.queue.map part.rank
  queue_covered : ∀ v ∈ w.queue, v ∈ r.coverage w.host
  visited_iff : ∀ v ∈ r.coverage w.host, part.rank v ∈ w'.visited ↔ v ∈ w.visited

theorem Mimics.dequeued (hw : Mimics r h part w w') (hq : w.queue = v :: rest) :
    Mimics r h part (w.dequeued rest) (w'.dequeued (rest.map part.rank)) where
  host_inside := hw.host_inside
  host_eq := hw.host_eq
  queue_eq := rfl
  queue_covered u hu := hw.queue_covered u (hq ▸ List.mem_cons_of_mem v hu)
  visited_iff := hw.visited_iff

/-- Both walks take the same vertex next, which the hammock covers. -/
theorem Mimics.next (hw : Mimics r h part w w') (hq : w.queue = v :: rest) :
    v ∈ r.coverage w.host ∧ w'.queue = part.rank v :: rest.map part.rank :=
  ⟨hw.queue_covered v (hq ▸ List.mem_cons_self), hw.queue_eq.trans (congrArg _ hq)⟩

section

variable (he : Excerpt g g' r r' h part)

include he

theorem Mimics.enqueue (hw : Mimics r h part w w') (hv : v ∈ r.coverage w.host) :
    Mimics r h part (w.enqueue v) (w'.enqueue (part.rank v)) := by
  unfold Walk.enqueue
  by_cases hvisited : v ∈ w.visited
  · rw [if_pos hvisited, if_pos ((hw.visited_iff v hv).2 hvisited)]
    exact hw
  · rw [if_neg hvisited, if_neg fun h => hvisited ((hw.visited_iff v hv).1 h)]
    refine ⟨hw.host_inside, hw.host_eq, ?_, fun u hu => ?_, fun u hu => ?_⟩
    · rw [hw.queue_eq, List.map_append]
      rfl
    · rcases List.mem_append.1 hu with hu | hu
      · exact hw.queue_covered u hu
      · exact List.mem_singleton.1 hu ▸ hv
    · rw [IdSet.mem_insert, IdSet.mem_insert, hw.visited_iff u hu]
      refine or_congr_left ⟨fun heq => ?_, congrArg part.rank⟩
      exact he.inj u (he.mem_part hw.host_inside hu) v (he.mem_part hw.host_inside hv) heq

theorem Mimics.foldl_enqueue (hw : Mimics r h part w w') (l : List VertexId)
    (hl : ∀ v ∈ l, v ∈ r.coverage w.host) :
    Mimics r h part (l.foldl Walk.enqueue w) ((l.map part.rank).foldl Walk.enqueue w') := by
  induction l generalizing w w' with
  | nil => exact hw
  | cons v l ih =>
    obtain ⟨hv, hl⟩ := List.forall_mem_cons.1 hl
    refine ih (hw.enqueue he hv) fun u hu => ?_
    rw [Walk.host_enqueue]
    exact hl u hu

theorem mimics_begin (hc : c ∈ r.inside h) :
    Mimics r h part (.begin r c) (.begin r' ((r.inside h).rank c)) := by
  obtain ⟨⟨y, hy⟩, _⟩ := mem_inside.1 hc
  obtain ⟨y', hy', hentry, _⟩ := he.exists_get?_rank hc hy
  have hcovered := he.laminar.entry_mem_coverage hy
  rw [Walk.begin_of_get? hy, Walk.begin_of_get? hy', hentry]
  refine ⟨hc, rfl, rfl, fun v hv => List.mem_singleton.1 hv ▸ hcovered, fun v hv => ?_⟩
  rw [IdSet.mem_singleton, IdSet.mem_singleton]
  exact ⟨he.inj v (he.mem_part hc hv) _ (he.mem_part hc hcovered), congrArg part.rank⟩

/-- What the walk takes from its queue is the exit of its host under the same condition. -/
theorem Mimics.isExit_iff (hw : Mimics r h part w w') (hv : v ∈ r.coverage w.host) :
    r'.isExit w'.host (part.rank v) = true ↔ r.isExit w.host v = true := by
  rw [hw.host_eq]
  exact he.isExit_rank_iff hw.host_inside (he.mem_part hw.host_inside hv)

/-- The same smaller hammock starts there, or none. -/
theorem Mimics.largestBelow?_eq (hw : Mimics r h part w w') (hv : v ∈ r.coverage w.host)
    (hexit : ¬ r.isExit w.host v = true) :
    r'.largestBelow? (part.rank v) (r'.sizeOf w'.host) =
      (r.largestBelow? v (r.sizeOf w.host)).map (r.inside h).rank := by
  rw [hw.host_eq, he.sizeOf_rank hw.host_inside]
  exact he.largestBelow?_rank hw.host_inside hv hexit

/-- The successors are the same: they lie in the host. -/
theorem Mimics.successors_eq (hw : Mimics r h part w w') (hv : v ∈ r.coverage w.host)
    (hexit : ¬ r.isExit w.host v = true) :
    g'.successors (part.rank v) = (g.successors v).map part.rank := by
  rw [he.successors_eq v (he.mem_part hw.host_inside hv), List.filter_eq_self.2]
  intro u hu
  have hcovered := he.laminar.successor_mem_coverage hv hexit hu
  exact decide_eq_true (he.mem_part hw.host_inside hcovered)

/-- The walk meets the same hammocks in the same order. -/
theorem Mimics.meets (hw : Mimics r h part w w') :
    w'.meets g' r' = (w.meets g r).map (r.inside h).rank := by
  fun_induction Walk.meets g r w generalizing w' with
  | case1 w hq =>
    rw [Walk.meets_of_nil (hw.queue_eq.trans (congrArg _ hq))]
    rfl
  | case2 w v rest hq hexit ih =>
    obtain ⟨hv, hq'⟩ := hw.next hq
    rw [Walk.meets_of_exit hq' ((hw.isExit_iff he hv).2 hexit)]
    exact ih (hw.dequeued hq)
  | case3 w v rest hq hexit c hc ih =>
    -- what the walk meets lies inside, so its exit has a new name and is covered
    obtain ⟨hv, hq'⟩ := hw.next hq
    obtain ⟨y, hy, _, hsub, hend⟩ := he.laminar.of_meets hv hexit hc
    have hin := mem_inside_of_subset hw.host_inside hy hsub.1
    obtain ⟨y', hy', _, hexit', _⟩ := he.exists_get?_rank hin hy
    have hc' := hw.largestBelow?_eq he hv hexit
    rw [hc, Option.map_some] at hc'
    rw [Walk.meets_of_some hq' (mt (hw.isExit_iff he hv).1 hexit) hc', List.map_cons]
    refine congrArg _ (ih ?_)
    rw [Walk.enqueueExit_of_get? hy, Walk.enqueueExit_of_get? hy', hexit']
    exact (hw.dequeued hq).enqueue he hend
  | case4 w v rest hq hexit hc ih =>
    obtain ⟨hv, hq'⟩ := hw.next hq
    have hc' := hw.largestBelow?_eq he hv hexit
    rw [hc, Option.map_none] at hc'
    rw [Walk.meets_of_none hq' (mt (hw.isExit_iff he hv).1 hexit) hc',
      hw.successors_eq he hv hexit]
    refine ih ((hw.dequeued hq).foldl_enqueue he _ fun u hu => ?_)
    exact he.laminar.successor_mem_coverage hv hexit hu

end

/-! ## The tree of an excerpt -/

/-- A hammock inside an attached one is attached. -/
theorem Nests.attached_of_inside (hn : r.Nests g) (ht : (r.nest g).run.value = .ok t)
    (hh : h ∈ t.attached) (hc : c ∈ r.inside h) : c ∈ t.attached := by
  obtain ⟨⟨y, hy⟩, hsub⟩ := mem_inside.1 hc
  rw [hn.attached_iff_subset ht hy]
  exact hsub.trans ((passes_of_nest ht).root_covers hn h hh)

/-- A child of a hammock inside is inside. -/
theorem Nests.child_inside (hn : r.Nests g) (ht : (r.nest g).run.value = .ok t)
    (hp : p ∈ r.inside h) (hc : c ∈ t.children p) : c ∈ r.inside h := by
  have hs := passes_of_nest ht
  have hatt := (hs.linked.parent_attached c p ((hs.mirrored.mem_children_iff p c).1 hc)).1
  obtain ⟨y, hy⟩ := hs.linked.registered c hatt
  exact mem_inside_of_subset hp hy (hs.link_covered hn p c (.inr hc)).1

/-- In an acyclic graph, the subtree below an attached hammock consists of the hammocks inside. -/
theorem Laminar.mem_subtree_iff (hl : r.Laminar g) (ht : (r.nest g).run.value = .ok t)
    (hh : h ∈ t.attached) : c ∈ t.subtree h ↔ c ∈ r.inside h := by
  have hs := passes_of_nest ht
  obtain ⟨x, hx⟩ := hs.linked.registered h hh
  rw [hs.mirrored.mem_subtree_iff]
  constructor
  · intro hwithin
    induction hwithin using ReflTransGen.head_induction_on with
    | refl => exact self_mem_inside hx
    | head hp _ ih => exact hl.child_inside ht ih ((hs.mirrored.mem_children_iff _ _).2 hp)
  · intro hc
    by_cases hne : c = h
    · exact hne ▸ .refl
    · exact (hl.ancestor_of_ssubset ht hh (hl.attached_of_inside ht hh hc)
        (hl.ssubset_of_mem_inside hx hc hne)).to_reflTransGen

section

variable (he : Excerpt g g' r r' h part) (hx : r.get? h = some x)

include he hx

/-- The hammock that was cut out is the root of an excerpt, and all hammocks are attached. -/
theorem Excerpt.root_and_attached (ht' : (r'.nest g').run.value = .ok t') :
    t'.root = (r.inside h).rank h ∧ ∀ c ∈ r.inside h, (r.inside h).rank c ∈ t'.attached := by
  have hself := self_mem_inside hx
  obtain ⟨x', hx', _⟩ := he.exists_get?_rank hself hx
  obtain ⟨hroot, hatt⟩ := he.laminar'.root_of_ssubset ht' hx' fun j y' hy' hne => by
    obtain ⟨c, hc, rfl⟩ := he.exists_rank_eq hy'
    rw [he.coverage_ssubset_iff hc hself]
    exact he.laminar.ssubset_of_mem_inside hx hc fun heq => hne (congrArg _ heq)
  refine ⟨hroot, fun c hc => ?_⟩
  obtain ⟨⟨y, hy⟩, _⟩ := mem_inside.1 hc
  obtain ⟨y', hy', _⟩ := he.exists_get?_rank hc hy
  exact hatt _ y' hy'

variable (ht : (r.nest g).run.value = .ok t) (ht' : (r'.nest g').run.value = .ok t')
variable (hh : h ∈ t.attached)

include ht ht' hh

/-- The children are the same, in the same order. -/
theorem Excerpt.children_rank (hc : c ∈ r.inside h) :
    t'.children ((r.inside h).rank c) = (t.children c).map (r.inside h).rank := by
  have hatt := he.laminar.attached_of_inside ht hh hc
  have hatt' := (he.root_and_attached hx ht').2 c hc
  rw [he.laminar.children_eq_meets ht hatt, he.laminar'.children_eq_meets ht' hatt']
  exact (mimics_begin he hc).meets he

/-- The parents are the same. -/
theorem Excerpt.parent_rank (hc : c ∈ r.inside h) (hne : c ≠ h) :
    ∃ p ∈ r.inside h, t.parent? c = some p ∧
      t'.parent? ((r.inside h).rank c) = some ((r.inside h).rank p) := by
  have hs := passes_of_nest ht
  have hatt := he.laminar.attached_of_inside ht hh hc
  have hsub := he.laminar.ssubset_of_mem_inside hx hc hne
  obtain ⟨p, hp, _, hinner⟩ := hs.exists_parent_of_ssubset he.laminar hh hatt hsub
  obtain ⟨z, hz⟩ := hs.linked.registered p (hs.linked.parent_attached c p hp).2
  have hin : p ∈ r.inside h := by
    -- the parent is the smallest hammock around, and `h` is around as well
    rcases hinner h hsub with rfl | hph
    · exact self_mem_inside hx
    · exact mem_inside_of_subset (self_mem_inside hx) hz hph.1
  have hmem : (r.inside h).rank c ∈ t'.children ((r.inside h).rank p) := by
    rw [he.children_rank hx ht ht' hh hin]
    exact List.mem_map_of_mem ((hs.mirrored.mem_children_iff p c).2 hp)
  exact ⟨p, hin, hp, ((passes_of_nest ht').mirrored.mem_children_iff _ _).1 hmem⟩

/-- Subtrees are the same. -/
theorem Excerpt.subtree_rank (hc : c ∈ r.inside h) :
    t'.subtree ((r.inside h).rank c) = (t.subtree c).map (r.inside h).rank := by
  induction c using HammockTree.subtree.induct t with
  | case1 c ih =>
    rw [HammockTree.subtree_eq, HammockTree.subtree_eq, he.children_rank hx ht ht' hh hc,
      List.map_cons, List.flatMap_map, List.map_flatMap]
    refine congrArg _ (List.flatMap_congr fun b hb => ?_)
    exact ih ⟨b, hb⟩ (he.laminar.child_inside ht hc hb)

end

end HammockRegistry

namespace FlowGraph

open HammockRegistry

/-- In an acyclic graph, the region of a hammock, cut out and renumbered in ascending order with a
mask restricted to it, decomposes like the hammock in the graph. Its source and sink are the entry
and the exit. It registers exactly the hammocks inside, in the same order and with the same bodies,
and its root is the hammock itself. If the hammock is attached, the tree is its subtree: parents and
children are the same, the latter in the same order. -/
theorem region_decomposes_alike (g : FlowGraph) (config config' : Config)
    (mask : Option BoundaryMask) {d : Decomposition} {r : HammockRegistry} {h : HammockId}
    {x : Hammock} {part : VertexSet} {inner : HammockSet} (hac : g.Acyclic)
    (hd : (g.decompose config mask).run.value = .ok d) (hr : d.tree.registry = r)
    (hx : r.get? h = some x) (hpart : g.kept (r.covers h) = part) (hinner : r.inside h = inner) :
    (∀ v, v ∈ part ↔ v ∈ r.coverage h) ∧
    (∀ c, c ∈ inner ↔ (∃ y, r.get? c = some y) ∧ r.coverage c ⊆ r.coverage h) ∧
    ∃ d', ((g.induced (r.covers h)).decompose config' (mask.map (·.restrict part))).run.value =
        .ok d' ∧
      (d'.source = part.rank x.entry ∧ d'.sink = part.rank x.exit) ∧
      (d'.tree.registry.ids = inner.toList.map inner.rank ∧
        ∀ c ∈ inner, ∀ y, r.get? c = some y → ∃ y', d'.tree.get? (inner.rank c) = some y' ∧
          y'.id = inner.rank c ∧ y'.bounds = y.bounds.map part.rank part.rank ∧
          y'.body.toList = y.body.toList.map part.rank ∧ y'.size = y.size) ∧
      d'.tree.root = inner.rank h ∧
      (d.tree.isAttached h = true →
        (∀ c, c ∈ d.tree.subtree h ↔ c ∈ inner) ∧
        (∀ c ∈ inner, d'.tree.isAttached (inner.rank c) = true) ∧
        d'.tree.parent? (inner.rank h) = none ∧
        (∀ c ∈ inner, c ≠ h → ∃ p ∈ inner, d.tree.parent? c = some p ∧
          d'.tree.parent? (inner.rank c) = some (inner.rank p)) ∧
        (∀ c ∈ inner, d'.tree.children (inner.rank c) = (d.tree.children c).map inner.rank) ∧
        d'.tree.preorder = (d.tree.subtree h).map inner.rank) := by
  obtain ⟨a, ha, ht⟩ := of_decompose hd
  have hreg : (register g a.minimal).value = r := (passes_of_nest ht).registry_eq.symm.trans hr
  have hc := cutOut_induced hac ha hreg hx
  subst hreg hpart hinner
  -- the region has one source and one sink, and all of it lies between them, so no stage fails
  obtain ⟨d', hd'⟩ := exists_decompose_of_flows config'
    (mask.map (·.restrict (g.kept ((register g a.minimal).value.covers h)))) hc.endpoints
    hc.flows_copy
  obtain ⟨hsource, hsink⟩ := Prod.mk.inj
    (Except.ok.inj ((endpoints_of_decompose hd').symm.trans hc.endpoints))
  obtain ⟨a', ha', ht'⟩ := of_decompose hd'
  rw [hsource, hsink] at ha'
  have he := excerpt_register ha hx hc ha'
  have hreg' : d'.tree.registry = _ := (passes_of_nest ht').registry_eq
  obtain ⟨hroot, hatt⟩ := he.root_and_attached hx ht'
  refine ⟨he.mem_part_iff, fun c => mem_inside, d', hd', ⟨hsource, hsink⟩, ⟨?_, ?_⟩, hroot, ?_⟩
  · exact hreg' ▸ he.ids_eq
  · intro c hcin y hy
    obtain ⟨y', hy', hid, hbounds, hbody⟩ := he.get?_rank c hcin y hy
    refine ⟨y', ?_, hid, hbounds, hbody, ?_⟩
    · rw [HammockTree.get?, hreg', hy']
    · rw [← sizeOf_of_get? hy', he.sizeOf_rank hcin, sizeOf_of_get? hy]
  · intro hh
    rw [HammockTree.isAttached, decide_eq_true_iff] at hh
    refine ⟨fun c => he.laminar.mem_subtree_iff ht hh, fun c hcin => decide_eq_true (hatt c hcin),
      hroot ▸ (passes_of_nest ht').mirrored.parent_root,
      fun c hcin hne => he.parent_rank hx ht ht' hh hcin hne,
      fun c hcin => he.children_rank hx ht ht' hh hcin, ?_⟩
    rw [HammockTree.preorder_eq, hroot]
    exact he.subtree_rank hx ht ht' hh (self_mem_inside hx)

/-- The middle one of three nested branches, cut out, goes from its first vertex to its last one and
has two hammocks, itself and below it the inner branch. -/
theorem middle_branch_alone :
    ∃ d d', branches.Acyclic ∧ (branches.decompose .reference none).run.value = .ok d ∧
      d.tree.isAttached ⟨1⟩ = true ∧ d.tree.children ⟨1⟩ = [⟨2⟩] ∧
      ((branches.induced (d.tree.registry.covers ⟨1⟩)).decompose .reference none).run.value =
        .ok d' ∧
      (d'.source = ⟨0⟩ ∧ d'.sink = ⟨3⟩) ∧ d'.tree.registry.ids = [⟨0⟩, ⟨1⟩] ∧
      d'.tree.root = ⟨0⟩ ∧ d'.tree.children ⟨0⟩ = [⟨1⟩] := by
  have hac : branches.Acyclic := by decide +kernel
  have hends : branches.endpoints = .ok (⟨0⟩, ⟨5⟩) := by decide +kernel
  obtain ⟨a, ha, hroot, hdone, hatt, hchildren, hsome, hbounds, hpart, hinner⟩ : ∃ a,
      (branches.analyseBoundaries ⟨0⟩ ⟨5⟩ none .inPlace).run.value = .ok a ∧
      ∃ hroot : (register branches a.minimal).value.largest?
        (register branches a.minimal).value.ids = some ⟨0⟩,
      let grown := Construction.resumed branches 5
        (.start _ ⟨0⟩ (isSome_get?_of_mem_ids (mem_of_largest? hroot)))
      grown.stack = [] ∧ grown.tree.isAttached ⟨1⟩ = true ∧ grown.tree.children ⟨1⟩ = [⟨2⟩] ∧
        (grown.tree.registry.get? ⟨1⟩).isSome = true ∧
        grown.tree.registry.boundsOf ⟨1⟩ = (⟨1⟩, ⟨4⟩) ∧
        branches.kept (grown.tree.registry.covers ⟨1⟩) = .ofList [⟨1⟩, ⟨2⟩, ⟨3⟩, ⟨4⟩] ∧
        grown.tree.registry.inside ⟨1⟩ = .ofList [⟨1⟩, ⟨2⟩] :=
    ⟨(branches.analyseBoundaries ⟨0⟩ ⟨5⟩ none .inPlace).run.value.toOption.get
      (by decide +kernel), by decide +kernel, by decide +kernel, by decide +kernel⟩
  have hd : (branches.decompose .reference none).run.value = .ok _ :=
    decompose_eq_ok_iff.2 ⟨_, hends, a, ha, _, value_nest_of_resumed hroot hdone, rfl⟩
  obtain ⟨x, hx⟩ := Option.isSome_iff_exists.1 hsome
  rw [boundsOf_of_get? hx] at hbounds
  obtain ⟨hentry, hexit⟩ := Prod.mk.inj hbounds
  obtain ⟨_, _, d', hd', ⟨hsource, hsink⟩, ⟨hids, _⟩, htop, htree⟩ :=
    region_decomposes_alike branches .reference .reference none hac hd rfl hx hpart hinner
  obtain ⟨_, _, _, _, hkids, _⟩ := htree hatt
  have hself : ⟨1⟩ ∈ (IdSet.ofList [⟨1⟩, ⟨2⟩] : HammockSet) := by decide
  refine ⟨_, d', hac, hd, hatt, hchildren, hd', ⟨?_, ?_⟩, ?_, ?_, ?_⟩
  · rw [hsource, hentry]
    decide
  · rw [hsink, hexit]
    decide
  · rw [hids]
    decide
  · rw [htop]
    decide
  · have hone := hkids ⟨1⟩ hself
    rw [hchildren] at hone
    exact hone

end FlowGraph

end FlowRegions
