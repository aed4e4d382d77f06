import FlowRegions.Boundary.Mask
import FlowRegions.Passage.Sweep
import FlowRegions.Proofs.Acyclic
import FlowRegions.Proofs.Registry

/-!
# Induced subgraphs

The subgraph that some vertices of a graph induce has the edges between them, in their old order,
and its vertices are numbered anew in ascending order (`FlowGraph.induced`). It is a copy of a part
of the graph (`copy_induced`). Routes inside the part and routes of the copy are the same up to
names. If a part has no route that leaves it and comes back, the copy has all routes between its
vertices, and so it knows what is necessary, and what regions cover, as well as the graph
(`Copy.necessary_iff`, `Copy.mem_regionBetween_iff`).
-/

namespace FlowRegions

namespace IdSet

variable {κ : IdKind} {s t : IdSet κ} {a b u : DenseId κ}

/-! ## Ranks -/

/-- The number of a member when the members are numbered in ascending order. -/
def rank (s : IdSet κ) (a : DenseId κ) : DenseId κ := .ofIndex (s.toList.idxOf a)

theorem index_rank (ha : a ∈ s) : (s.rank a).index = s.toList.idxOf a := by
  have hlt : s.toList.idxOf a < s.toList.length := List.idxOf_lt_length_of_mem ha
  exact DenseId.index_ofIndex_of_lt (Nat.lt_of_lt_of_le hlt s.card_le)

theorem index_rank_lt_card (ha : a ∈ s) : (s.rank a).index < s.card := by
  rw [index_rank ha]
  exact List.idxOf_lt_length_of_mem ha

theorem getElem?_rank (ha : a ∈ s) : s.toList[(s.rank a).index]? = some a := by
  rw [index_rank ha]
  exact List.getElem?_idxOf ha

/-- Different members have different ranks. -/
theorem rank_inj (ha : a ∈ s) (h : s.rank a = s.rank b) (hb : b ∈ s) : a = b := by
  have hget := getElem?_rank ha
  rw [h, getElem?_rank hb] at hget
  exact (Option.some.inj hget).symm

/-- Ranks are in the order of the members. -/
theorem rank_lt_rank (ha : a ∈ s) (hb : b ∈ s) (h : a < b) : s.rank a < s.rank b := by
  rw [DenseId.lt_iff_index_lt, index_rank ha, index_rank hb]
  by_contra hle
  -- otherwise `b` would not stand behind `a` in the ascending list
  rcases Nat.lt_or_eq_of_le (Nat.le_of_not_lt hle) with hlt | heq
  · have hba := List.pairwise_iff_getElem.1 s.ascending _ _ (List.idxOf_lt_length_of_mem hb)
      (List.idxOf_lt_length_of_mem ha) hlt
    rw [List.getElem_idxOf, List.getElem_idxOf] at hba
    exact DenseId.lt_asymm h hba
  · rw [List.idxOf_inj hb] at heq
    exact DenseId.lt_irrefl a (heq ▸ h)

/-- Every number below the number of members is a rank. -/
theorem exists_rank_eq (hu : u.index < s.card) : ∃ a ∈ s, s.rank a = u := by
  have hmem : s.toList[u.index] ∈ s := List.getElem_mem hu
  refine ⟨s.toList[u.index], hmem, DenseId.index_inj.1 ?_⟩
  rw [index_rank hmem]
  exact (nodup_of_ascending s.ascending).idxOf_getElem u.index hu

/-- The ranks of the members, in their order, are the numbers below the number of members. -/
theorem map_rank_toList (s : IdSet κ) : s.toList.map s.rank = (List.range s.card).map .ofIndex := by
  refine List.ext_getElem (by simp [card]) fun i hi _ => ?_
  rw [List.length_map] at hi
  rw [List.getElem_map, List.getElem_map, List.getElem_range, rank,
    (nodup_of_ascending s.ascending).idxOf_getElem i hi]

/-- The image of a set under a map that keeps the order lists the images in order. -/
theorem toList_eq_map {f : DenseId κ → DenseId κ} (hf : ∀ a ∈ s, ∀ b ∈ s, a < b → f a < f b)
    (ht : ∀ b, b ∈ t ↔ ∃ a ∈ s, f a = b) : t.toList = s.toList.map f := by
  have hmap : (s.toList.map f).Pairwise (· < ·) :=
    List.pairwise_map.2 (s.ascending.imp_of_mem fun {a b} ha hb hab => hf a ha b hb hab)
  exact eq_of_mem_iff t.ascending hmap fun b => (ht b).trans List.mem_map.symm

end IdSet

/-- A mask for the numbers that the members of a set get. -/
def BoundaryMask.restrict (m : BoundaryMask) (part : VertexSet) : BoundaryMask :=
  .ofList ((m.toList.filter (· ∈ part)).map part.rank)

/-- The restricted mask lists the members that the mask lists. -/
theorem BoundaryMask.contains_restrict {m : BoundaryMask} {part : VertexSet} {v : VertexId}
    (hv : v ∈ part) : (m.restrict part).contains (part.rank v) = true ↔ m.contains v = true := by
  rw [restrict, contains_ofList, contains, decide_eq_true_iff, List.mem_map]
  constructor
  · rintro ⟨w, hw, heq⟩
    obtain ⟨hmem, hpart⟩ := List.mem_filter.1 hw
    rwa [← IdSet.rank_inj (of_decide_eq_true hpart) heq hv]
  · exact fun hmem => ⟨v, List.mem_filter.2 ⟨hmem, decide_eq_true hv⟩, rfl⟩

namespace FlowGraph

variable {g g' : FlowGraph} {keep : VertexId → Bool} {part : VertexSet} {f : VertexId → VertexId}
variable {s e t u v w x : VertexId} {p q : List VertexId}

/-! ## Induced subgraphs -/

/-- The vertices of a graph that are kept. -/
def kept (g : FlowGraph) (keep : VertexId → Bool) : VertexSet := g.vertexSet.filter keep

theorem mem_kept : v ∈ g.kept keep ↔ g.contains v = true ∧ keep v = true := by
  rw [kept, IdSet.mem_filter, mem_vertexSet]

theorem card_kept_le (g : FlowGraph) (keep : VertexId → Bool) :
    (g.kept keep).card ≤ maxVertexCount := by
  have hsub : g.kept keep ⊆ g.vertexSet := fun v hv => (IdSet.mem_filter.1 hv).1
  have hcount : g.vertexSet.card = g.vertexCount := g.successorTable.length_vertices
  have hle := IdSet.card_le_card hsub
  rw [hcount] at hle
  exact hle.trans g.successorTable.size_le_maxVertexCount

/-- The edges between kept vertices, which are numbered in ascending order. -/
def induced (g : FlowGraph) (keep : VertexId → Bool) : FlowGraph where
  successorTable :=
    { rows := ((g.kept keep).toList.map fun v =>
        ((g.successors v).filter keep).map (g.kept keep).rank).toArray
      size_le := by
        rw [List.size_toArray, List.length_map]
        exact g.card_kept_le keep }
  closed v w hw := by
    rw [VertexTable.getD, VertexTable.get?, List.getElem?_toArray, List.getElem?_map] at hw
    rw [VertexTable.hasRow_iff, VertexTable.size, List.size_toArray, List.length_map]
    cases hv : (g.kept keep).toList[v.index]? with
    | none => simp [hv] at hw
    | some x =>
      rw [hv, Option.map_some, Option.getD_some, List.mem_map] at hw
      obtain ⟨y, hy, rfl⟩ := hw
      obtain ⟨hedge, hkeep⟩ := List.mem_filter.1 hy
      exact IdSet.index_rank_lt_card (mem_kept.2 ⟨contains_of_mem_successors hedge, hkeep⟩)

theorem vertexCount_induced : (g.induced keep).vertexCount = (g.kept keep).card := by
  rw [vertexCount, induced, VertexTable.size, List.size_toArray, List.length_map]
  rfl

theorem successors_induced (hv : v ∈ g.kept keep) :
    (g.induced keep).successors ((g.kept keep).rank v) =
      ((g.successors v).filter keep).map (g.kept keep).rank := by
  rw [successors, induced, VertexTable.getD, VertexTable.get?, List.getElem?_toArray,
    List.getElem?_map, IdSet.getElem?_rank hv]
  rfl

/-! ## Copies of parts -/

/-- The vertices of one graph are those of a part of another one under new names, and its edges are
the edges inside that part in the same order. -/
structure Copy (g g' : FlowGraph) (part : VertexSet) (f : VertexId → VertexId) : Prop where
  part_mem : ∀ v ∈ part, g.contains v = true
  inj : ∀ v ∈ part, ∀ w ∈ part, f v = f w → v = w
  contains_iff : ∀ u, g'.contains u = true ↔ ∃ v ∈ part, f v = u
  successors_eq : ∀ v ∈ part, g'.successors (f v) = ((g.successors v).filter (· ∈ part)).map f

/-- An induced subgraph is a copy of the kept vertices. -/
theorem copy_induced (g : FlowGraph) (keep : VertexId → Bool) :
    g.Copy (g.induced keep) (g.kept keep) (g.kept keep).rank where
  part_mem v hv := (mem_kept.1 hv).1
  inj v hv w hw h := IdSet.rank_inj hv h hw
  contains_iff u := by
    rw [FlowGraph.contains_iff, vertexCount_induced]
    constructor
    · exact IdSet.exists_rank_eq
    · rintro ⟨v, hv, rfl⟩
      exact IdSet.index_rank_lt_card hv
  successors_eq v hv := by
    rw [successors_induced hv]
    refine congrArg (List.map _) (List.filter_congr fun w hw => ?_)
    apply Bool.eq_iff_iff.2
    rw [decide_eq_true_iff, mem_kept, and_iff_right (contains_of_mem_successors hw)]

theorem Copy.contains (hc : g.Copy g' part f) (hv : v ∈ part) : g'.contains (f v) = true :=
  (hc.contains_iff _).2 ⟨v, hv, rfl⟩

/-- The successors in a copy are copies of successors. -/
theorem Copy.mem_successors (hc : g.Copy g' part f) (hv : v ∈ part) :
    u ∈ g'.successors (f v) ↔ ∃ w ∈ part, w ∈ g.successors v ∧ f w = u := by
  rw [hc.successors_eq v hv, List.mem_map]
  simp only [List.mem_filter, decide_eq_true_iff]
  exact exists_congr fun w => ⟨fun ⟨⟨hw, hpart⟩, heq⟩ => ⟨hpart, hw, heq⟩,
    fun ⟨hpart, hw, heq⟩ => ⟨⟨hw, hpart⟩, heq⟩⟩

/-- Routes inside the part are copied. -/
theorem Copy.route (hc : g.Copy g' part f) (hp : g.Route v w p) (hin : ∀ x ∈ p, x ∈ part) :
    g'.Route (f v) (f w) (p.map f) := by
  induction hp with
  | stay => exact .stay (hc.contains (hin _ List.mem_cons_self))
  | @step v u w p hvu hp ih =>
    obtain ⟨hv, hrest⟩ := List.forall_mem_cons.1 hin
    exact .step ((hc.mem_successors hv).2 ⟨u, hrest u hp.source_mem, hvu, rfl⟩) (ih hrest)

/-- Routes of a copy are copies of routes inside the part. -/
theorem Copy.exists_route (hc : g.Copy g' part f) (hq : g'.Route u x q) (hv : v ∈ part)
    (hu : f v = u) :
    ∃ w ∈ part, f w = x ∧ ∃ p, g.Route v w p ∧ (∀ y ∈ p, y ∈ part) ∧ p.map f = q := by
  induction hq generalizing v with
  | stay =>
    subst hu
    exact ⟨v, hv, rfl, [v], .stay (hc.part_mem v hv), by simpa using hv, rfl⟩
  | @step u t x q hut _ ih =>
    subst hu
    obtain ⟨y, hy, hvy, heq⟩ := (hc.mem_successors hv).1 hut
    obtain ⟨w, hw, hwx, p, hp, hin, hpq⟩ := ih hy heq
    refine ⟨w, hw, hwx, v :: p, .step hvy hp, List.forall_mem_cons.2 ⟨hv, hin⟩, ?_⟩
    rw [List.map_cons, hpq]

/-- A copy has no cycles that the graph does not have. -/
theorem Copy.acyclic (hc : g.Copy g' part f) (hac : g.Acyclic) : g'.Acyclic := by
  intro u x hux hback
  obtain ⟨v, hv, rfl⟩ := (hc.contains_iff u).1 (contains_of_successors_ne_nil
    (List.ne_nil_of_mem hux))
  obtain ⟨w, hw, hvw, rfl⟩ := (hc.mem_successors hv).1 hux
  obtain ⟨q, hq⟩ := hback
  obtain ⟨v', hv', heq, p, hp, _⟩ := hc.exists_route hq hw rfl
  obtain rfl := hc.inj v' hv' v hv heq
  exact hac v' w hvw ⟨p, hp⟩

/-! ## Convex parts -/

/-- No route leaves the part and comes back: what lies between two vertices of it belongs to it. -/
def Convex (g : FlowGraph) (part : VertexSet) : Prop :=
  ∀ v ∈ part, ∀ w ∈ part, ∀ x p q, g.Route v x p → g.Route x w q → x ∈ part

theorem Convex.mem_of_route (hconvex : g.Convex part) (hv : v ∈ part) (hw : w ∈ part)
    (hp : g.Route v w p) : ∀ x ∈ p, x ∈ part := by
  intro x hx
  obtain ⟨⟨q, hq, _⟩, r, hr, _⟩ := hp.cut hx
  exact hconvex v hv w hw x q r hq hr

/-- Between vertices of a convex part, the copy has all routes. -/
theorem Copy.route_iff (hc : g.Copy g' part f) (hconvex : g.Convex part) (hv : v ∈ part)
    (hw : w ∈ part) : g'.Route (f v) (f w) q ↔ ∃ p, g.Route v w p ∧ p.map f = q := by
  constructor
  · intro hq
    obtain ⟨w', hw', heq, p, hp, _, hpq⟩ := hc.exists_route hq hv rfl
    obtain rfl := hc.inj w' hw' w hw heq
    exact ⟨p, hp, hpq⟩
  · rintro ⟨p, hp, rfl⟩
    exact hc.route hp (hconvex.mem_of_route hv hw hp)

theorem Copy.exists_route_iff (hc : g.Copy g' part f) (hconvex : g.Convex part) (hv : v ∈ part)
    (hw : w ∈ part) : (∃ q, g'.Route (f v) (f w) q) ↔ ∃ p, g.Route v w p := by
  simp only [hc.route_iff hconvex hv hw]
  exact ⟨fun ⟨_, p, hp, _⟩ => ⟨p, hp⟩, fun ⟨p, hp⟩ => ⟨_, p, hp, rfl⟩⟩

/-- In a convex part, the copy knows what is necessary. -/
theorem Copy.necessary_iff (hc : g.Copy g' part f) (hconvex : g.Convex part) (hv : v ∈ part)
    (hw : w ∈ part) (hx : x ∈ part) : g'.Necessary (f v) (f w) (f x) ↔ g.Necessary v w x := by
  have hmem : ∀ {p}, g.Route v w p → (f x ∈ p.map f ↔ x ∈ p) := by
    intro p hp
    refine ⟨fun hfx => ?_, List.mem_map_of_mem⟩
    obtain ⟨y, hy, heq⟩ := List.mem_map.1 hfx
    exact hc.inj y (hconvex.mem_of_route hv hw hp y hy) x hx heq ▸ hy
  constructor
  · intro h p hp
    exact (hmem hp).1 (h _ ((hc.route_iff hconvex hv hw).2 ⟨p, hp, rfl⟩))
  · intro h q hq
    obtain ⟨p, hp, rfl⟩ := (hc.route_iff hconvex hv hw).1 hq
    exact (hmem hp).2 (h p hp)

/-- The regions of a copy are copies of regions, as far as these lie in the part. -/
theorem Copy.mem_regionBetween_iff (hc : g.Copy g' part f) (hconvex : g.Convex part)
    (hs : s ∈ part) (he : e ∈ part) (hv : v ∈ part) :
    f v ∈ g'.regionBetween (f s) (f e) ↔ v ∈ g.regionBetween s e := by
  by_cases hve : v = e
  · -- the exit belongs to the region when it can be reached
    subst hve
    have hroute := hc.exists_route_iff hconvex hs hv
    constructor
    · intro h
      obtain ⟨p, hp⟩ := hroute.1 (exists_route_of_mem_region (hc.contains hs) h)
      exact exit_mem_regionBetween hp
    · intro h
      obtain ⟨q, hq⟩ := hroute.2 (exists_route_of_mem_region (hc.part_mem s hs) h)
      exact exit_mem_regionBetween hq
  · have hne : f v ≠ f e := fun heq => hve (hc.inj v hv e he heq)
    rw [mem_regionBetween_iff_bypass (hc.contains hs) hne,
      mem_regionBetween_iff_bypass (hc.part_mem s hs) hve, ← not_necessary_iff,
      ← not_necessary_iff, hc.necessary_iff hconvex hs hv he]

/-- What a region of a copy covers are copies. -/
theorem Copy.exists_of_mem_regionBetween (hc : g.Copy g' part f) (hs : s ∈ part)
    (hu : u ∈ g'.regionBetween (f s) x) : ∃ v ∈ part, f v = u := by
  obtain ⟨q, hq⟩ := exists_route_of_mem_region (hc.contains hs) hu
  exact (hc.contains_iff u).1 hq.contains_target

end FlowGraph

end FlowRegions
