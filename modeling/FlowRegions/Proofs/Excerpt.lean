import FlowRegions.Proofs.CutOut
import FlowRegions.Proofs.Meets
import FlowRegions.Proofs.SpanningRoot

/-!
# The registry of a region cut out

The region of a hammock of an acyclic graph, cut out and renumbered, has the hammocks that lie
inside that one (`inside`). They are registered in the same order, with new names for their bounds
and bodies (`excerpt_register`): the minimal pairs of the region are those of the graph between its
vertices, and the order of pairs does not depend on the names. From the excerpt of a registry on,
sizes, inclusions and what starts at a vertex are the same up to names.
-/

namespace FlowRegions

open Log

namespace HammockRegistry

variable {r r' : HammockRegistry} {g g' : FlowGraph} {c h i j k : HammockId} {x y y' : Hammock}
variable {v : VertexId} {part : VertexSet}

/-! ## Hammocks inside a hammock -/

theorem covers_iff : r.covers h v = true ↔ v ∈ r.coverage h := by
  rw [coverage, Set.mem_ofPred_eq, mem_containing, covers]
  cases r.get? h <;> simp

/-- The hammocks that cover nothing but what another one covers, itself included. -/
def inside (r : HammockRegistry) (h : HammockId) : HammockSet :=
  .ofList (r.ids.filter fun c => (r.get? c).any fun y => y.body.toList.all (r.covers h))

theorem mem_inside : c ∈ r.inside h ↔ (∃ y, r.get? c = some y) ∧ r.coverage c ⊆ r.coverage h := by
  rw [inside, IdSet.mem_ofList, List.mem_filter, mem_ids]
  cases hy : r.get? c with
  | none => simp
  | some y =>
    simp only [Option.isSome_some, Option.any_some, List.all_eq_true, covers_iff, true_and,
      Option.some.injEq, exists_eq']
    exact forall_congr' fun v => imp_congr_left (mem_coverage hy).symm

/-- What lies in a hammock inside is inside. -/
theorem mem_inside_of_subset (hk : k ∈ r.inside h) (hy : r.get? c = some y)
    (hsub : r.coverage c ⊆ r.coverage k) : c ∈ r.inside h :=
  mem_inside.2 ⟨⟨y, hy⟩, hsub.trans (mem_inside.1 hk).2⟩

theorem self_mem_inside (hx : r.get? h = some x) : h ∈ r.inside h :=
  mem_inside.2 ⟨⟨x, hx⟩, fun _ hv => hv⟩

/-- Other hammocks inside a hammock cover strictly less. -/
theorem Nests.ssubset_of_mem_inside (hn : r.Nests g) (hx : r.get? h = some x)
    (hc : c ∈ r.inside h) (hne : c ≠ h) : r.coverage c ⊂ r.coverage h := by
  obtain ⟨⟨y, hy⟩, hsub⟩ := mem_inside.1 hc
  have hbody : y.body ⊆ x.body := fun v hv =>
    (mem_coverage hx).1 (hsub ((mem_coverage hy).2 hv))
  have hentry := hsub (hn.entry_mem_coverage hy)
  exact (hn.coverage_ssubset hx hy (Ne.symm hne) hentry (hn.entry_ne_exit hx hy hbody)).1

/-- The bounds of a hammock, with a default for what is not registered. -/
def boundsOf (r : HammockRegistry) (id : HammockId) : VertexId × VertexId :=
  ((r.get? id).map Hammock.bounds).getD default

theorem boundsOf_of_get? (hx : r.get? i = some x) : r.boundsOf i = x.bounds := by
  rw [boundsOf, hx, Option.map_some, Option.getD_some]

/-! ## The registry of a cut-out region -/

/-- What a hammock of an acyclic graph covers can be cut out. -/
theorem cutOut_induced {source sink : VertexId} {mask : Option BoundaryMask} {mode : SweepMode}
    {a : BoundaryAnalysis} (hac : g.Acyclic)
    (ha : (g.analyseBoundaries source sink mask mode).run.value = .ok a)
    (hr : (register g a.minimal).value = r) (hx : r.get? h = some x) :
    g.CutOut (g.induced (r.covers h)) source sink (admittedBy mask source sink) x.entry x.exit
      (g.kept (r.covers h)) (g.kept (r.covers h)).rank where
  toCopy := g.copy_induced _
  acyclic := hac
  flows := FlowGraph.flows_of_analyseBoundaries ha
  candidate := (minimalPair_of_get? ha (hr ▸ hx)).1.toCandidate
  mem_part_iff v := by
    subst hr
    have hpair := (minimalPair_of_get? ha hx).1
    rw [FlowGraph.mem_kept, covers_iff, (nests_register ha).mem_coverage_iff hx]
    refine and_iff_right_of_imp fun hv => ?_
    obtain ⟨p, hp⟩ := FlowGraph.exists_route_of_mem_region hpair.entry_mem hv
    exact hp.contains_target

section

variable {source sink : VertexId} {mask : Option BoundaryMask} {mode mode' : SweepMode}
variable {a a' : BoundaryAnalysis}

variable (ha : (g.analyseBoundaries source sink mask mode).run.value = .ok a)
variable (hx : (register g a.minimal).value.get? h = some x)
variable (hc : g.CutOut g' source sink (admittedBy mask source sink) x.entry x.exit part part.rank)

include ha hx hc

/-- What the hammock covers is the part cut out. -/
theorem mem_part_iff_coverage : v ∈ part ↔ v ∈ (register g a.minimal).value.coverage h := by
  rw [hc.mem_part_iff, (nests_register ha).mem_coverage_iff hx]

/-- The hammocks inside are those with both bounds in the part cut out. -/
theorem mem_inside_iff_bounds (hy : (register g a.minimal).value.get? c = some y) :
    c ∈ (register g a.minimal).value.inside h ↔ y.entry ∈ part ∧ y.exit ∈ part := by
  have hn := nests_register ha
  rw [mem_inside, and_iff_right ⟨y, hy⟩, mem_part_iff_coverage ha hx hc,
    mem_part_iff_coverage ha hx hc]
  constructor
  · intro hsub
    exact ⟨hsub (hn.entry_mem_coverage hy), hsub ((mem_coverage hy).2 (hn.exit_mem hy))⟩
  · rintro ⟨hentry, hexit⟩ v hv
    rw [← mem_part_iff_coverage ha hx hc] at hentry hexit ⊢
    rw [hn.mem_coverage_iff hy] at hv
    exact hc.region_subset hentry hexit (minimalPair_of_get? ha hy).1.toCandidate hv

/-- Hammocks are numbered in the order of their bounds, and new names keep that order. -/
theorem pairwise_bounds_inside :
    (((register g a.minimal).value.inside h).toList.map fun c =>
      ((register g a.minimal).value.boundsOf c).map part.rank part.rank).Pairwise
        (Prod.Lex (· < ·) (· < ·)) := by
  refine List.pairwise_map.2 ((IdSet.ascending _).imp_of_mem fun {c d} hcin hdin hlt => ?_)
  obtain ⟨⟨y, hy⟩, _⟩ := mem_inside.1 hcin
  obtain ⟨⟨z, hz⟩, _⟩ := mem_inside.1 hdin
  obtain ⟨hys, hye⟩ := (mem_inside_iff_bounds ha hx hc hy).1 hcin
  obtain ⟨hzs, hze⟩ := (mem_inside_iff_bounds ha hx hc hz).1 hdin
  rw [boundsOf_of_get? hy, boundsOf_of_get? hz]
  rcases Prod.lex_def.1 (lex_bounds_of_lt hy hz hlt) with hlex | ⟨heq, hlex⟩
  · exact Prod.lex_def.2 (.inl (IdSet.rank_lt_rank hys hzs hlex))
  · exact Prod.lex_def.2 (.inr ⟨congrArg part.rank heq, IdSet.rank_lt_rank hye hze hlex⟩)

variable (ha' : (g'.analyseBoundaries (part.rank x.entry) (part.rank x.exit)
  (mask.map (·.restrict part)) mode').run.value = .ok a')

include ha'

/-- The minimal pairs of the region are those of the graph that have both vertices in it, so they
are the bounds of the hammocks inside. -/
theorem mem_bounds_inside_iff {u w : VertexId} :
    (∃ c ∈ (register g a.minimal).value.inside h,
      ((register g a.minimal).value.boundsOf c).map part.rank part.rank = (u, w)) ↔
      w ∈ a'.minimal.exits u := by
  have hadm : ∀ v ∈ part, admittedBy (mask.map (·.restrict part)) (part.rank x.entry)
      (part.rank x.exit) (part.rank v) = admittedBy mask source sink v :=
    fun v hv => hc.admittedBy_restrict hv
  rw [FlowGraph.mem_exits_minimal_iff ha']
  constructor
  · rintro ⟨c, hcin, heq⟩
    obtain ⟨⟨y, hy⟩, _⟩ := mem_inside.1 hcin
    obtain ⟨hentry, hexit⟩ := (mem_inside_iff_bounds ha hx hc hy).1 hcin
    rw [boundsOf_of_get? hy] at heq
    obtain ⟨rfl, rfl⟩ := Prod.mk.inj heq
    exact (hc.minimalPair_iff hadm hentry hexit).2 (minimalPair_of_get? ha hy).1
  · intro huw
    obtain ⟨s, hs, rfl⟩ := (hc.contains_iff u).1 huw.entry_mem
    obtain ⟨e, he, rfl⟩ := (hc.contains_iff w).1 huw.exit_mem
    obtain ⟨c, y, hy, hbounds⟩ :=
      (exists_get?_iff_minimalPair ha).2 ((hc.minimalPair_iff hadm hs he).1 huw)
    obtain ⟨rfl, rfl⟩ := Prod.mk.inj hbounds
    refine ⟨c, (mem_inside_iff_bounds ha hx hc hy).2 ⟨hs, he⟩, ?_⟩
    rw [boundsOf_of_get? hy]
    rfl

/-- The minimal pairs of the region are the bounds of the hammocks inside, in the same order. -/
theorem pairs_minimal_eq :
    a'.minimal.pairs = ((register g a.minimal).value.inside h).toList.map fun c =>
      ((register g a.minimal).value.boundsOf c).map part.rank part.rank := by
  refine BoundaryRelation.pairs_eq_of_mem_iff (pairwise_bounds_inside ha hx hc) fun u w => ?_
  rw [List.mem_map]
  exact mem_bounds_inside_iff ha hx hc ha'

end

/-- One registry has the hammocks of another one that lie inside one of them. These and the vertices
that they cover are numbered anew in ascending order. -/
structure Excerpt (g g' : FlowGraph) (r r' : HammockRegistry) (h : HammockId) (part : VertexSet) :
    Prop extends g.Copy g' part part.rank where
  laminar : r.Laminar g
  laminar' : r'.Laminar g'
  mem_part_iff : ∀ v, v ∈ part ↔ v ∈ r.coverage h
  get?_rank : ∀ c ∈ r.inside h, ∀ y, r.get? c = some y → ∃ y',
    r'.get? ((r.inside h).rank c) = some y' ∧ y'.id = (r.inside h).rank c ∧
      y'.bounds = y.bounds.map part.rank part.rank ∧ y'.body.toList = y.body.toList.map part.rank
  size_eq : r'.size = (r.inside h).card

/-- The registry of a region cut out is an excerpt. -/
theorem excerpt_register {source sink : VertexId} {mask : Option BoundaryMask}
    {mode mode' : SweepMode} {a a' : BoundaryAnalysis}
    (ha : (g.analyseBoundaries source sink mask mode).run.value = .ok a)
    (hx : (register g a.minimal).value.get? h = some x)
    (hc : g.CutOut g' source sink (admittedBy mask source sink) x.entry x.exit part part.rank)
    (ha' : (g'.analyseBoundaries (part.rank x.entry) (part.rank x.exit)
      (mask.map (·.restrict part)) mode').run.value = .ok a') :
    Excerpt g g' (register g a.minimal).value (register g' a'.minimal).value h part where
  toCopy := hc.toCopy
  laminar := laminar_register hc.acyclic ha
  laminar' := laminar_register (hc.toCopy.acyclic hc.acyclic) ha'
  mem_part_iff v := mem_part_iff_coverage ha hx hc
  get?_rank c hcin y hy := by
    obtain ⟨hentry, hexit⟩ := (mem_inside_iff_bounds ha hx hc hy).1 hcin
    obtain ⟨hpair, hbody⟩ := minimalPair_of_get? ha hy
    refine ⟨_, get?_register.2 ⟨part.rank y.entry, part.rank y.exit, ?_, rfl⟩, rfl, rfl, ?_⟩
    · rw [pairs_minimal_eq ha hx hc ha', List.getElem?_map, IdSet.getElem?_rank hcin,
        Option.map_some, boundsOf_of_get? hy]
      rfl
    · have hsub : ∀ v ∈ y.body, v ∈ part := fun v hv =>
        hc.region_subset hentry hexit hpair.toCandidate (hbody ▸ hv)
      refine IdSet.toList_eq_map (fun v hv w hw => IdSet.rank_lt_rank (hsub v hv) (hsub w hw))
        fun u => ⟨fun hu => ?_, ?_⟩
      · obtain ⟨v, hv, rfl⟩ := hc.exists_of_mem_regionBetween hentry hu
        rw [hc.mem_regionBetween_iff hc.convex hentry hexit hv, ← hbody] at hu
        exact ⟨v, hu, rfl⟩
      · rintro ⟨v, hv, rfl⟩
        rw [hc.mem_regionBetween_iff hc.convex hentry hexit (hsub v hv), ← hbody]
        exact hv
  size_eq := by
    rw [size_register, ← BoundaryRelation.length_pairs, pairs_minimal_eq ha hx hc ha',
      List.length_map]
    rfl

namespace Excerpt

variable (he : Excerpt g g' r r' h part)

include he

/-! ## Hammocks under their new names -/

/-- There are no other hammocks. -/
theorem exists_rank_eq (hy' : r'.get? k = some y') :
    ∃ c ∈ r.inside h, (r.inside h).rank c = k := by
  have hlt := index_lt_of_get? hy'
  rw [he.size_eq] at hlt
  exact IdSet.exists_rank_eq hlt

/-- The hammocks are numbered in the same order. -/
theorem ids_eq : r'.ids = (r.inside h).toList.map (r.inside h).rank := by
  rw [ids, he.size_eq, IdSet.map_rank_toList]

/-- What a hammock inside covers belongs to the part. -/
theorem mem_part (hc : c ∈ r.inside h) (hv : v ∈ r.coverage c) : v ∈ part :=
  (he.mem_part_iff v).2 ((mem_inside.1 hc).2 hv)

theorem exists_get?_rank (hc : c ∈ r.inside h) (hy : r.get? c = some y) :
    ∃ y', r'.get? ((r.inside h).rank c) = some y' ∧ y'.entry = part.rank y.entry ∧
      y'.exit = part.rank y.exit ∧ y'.body.toList = y.body.toList.map part.rank := by
  obtain ⟨y', hy', _, hbounds, hbody⟩ := he.get?_rank c hc y hy
  obtain ⟨hentry, hexit⟩ := Prod.mk.inj hbounds
  exact ⟨y', hy', hentry, hexit, hbody⟩

/-- Sizes stay the same. -/
theorem sizeOf_rank (hc : c ∈ r.inside h) : r'.sizeOf ((r.inside h).rank c) = r.sizeOf c := by
  obtain ⟨⟨y, hy⟩, _⟩ := mem_inside.1 hc
  obtain ⟨y', hy', _, _, hbody⟩ := he.exists_get?_rank hc hy
  rw [sizeOf_of_get? hy', sizeOf_of_get? hy, Hammock.size, Hammock.size, IdSet.card, hbody,
    List.length_map]
  rfl

/-- What a hammock covers is renamed. -/
theorem coverage_rank (hc : c ∈ r.inside h) :
    r'.coverage ((r.inside h).rank c) = part.rank '' r.coverage c := by
  obtain ⟨⟨y, hy⟩, _⟩ := mem_inside.1 hc
  obtain ⟨y', hy', _, _, hbody⟩ := he.exists_get?_rank hc hy
  ext u
  rw [mem_coverage hy', ← IdSet.mem_toList, hbody, List.mem_map, Set.mem_image]
  exact exists_congr fun v => and_congr_left fun _ => (mem_coverage hy).symm

theorem injOn_rank : Set.InjOn part.rank (r.coverage h) := fun v hv w hw heq =>
  he.inj v ((he.mem_part_iff v).2 hv) w ((he.mem_part_iff w).2 hw) heq

/-- Inclusions stay the same. -/
theorem coverage_ssubset_iff (hc : c ∈ r.inside h) (hk : k ∈ r.inside h) :
    r'.coverage ((r.inside h).rank c) ⊂ r'.coverage ((r.inside h).rank k) ↔
      r.coverage c ⊂ r.coverage k := by
  rw [he.coverage_rank hc, he.coverage_rank hk]
  exact he.injOn_rank.image_ssubset_image_iff (mem_inside.1 hc).2 (mem_inside.1 hk).2

theorem isExit_rank_iff (hc : c ∈ r.inside h) (hv : v ∈ part) :
    r'.isExit ((r.inside h).rank c) (part.rank v) = true ↔ r.isExit c v = true := by
  obtain ⟨⟨y, hy⟩, _⟩ := mem_inside.1 hc
  obtain ⟨y', hy', _, hexit, _⟩ := he.exists_get?_rank hc hy
  have hmem := he.mem_part hc ((mem_coverage hy).2 (he.laminar.exit_mem hy))
  rw [isExit_iff hy', isExit_iff hy, hexit]
  exact ⟨fun heq => he.inj _ hmem v hv heq, congrArg part.rank⟩

/-- A walk through a hammock inside meets the same hammocks. -/
theorem largestBelow?_rank (hk : k ∈ r.inside h) (hv : v ∈ r.coverage k)
    (hexit : ¬ r.isExit k v = true) :
    r'.largestBelow? (part.rank v) (r.sizeOf k) =
      (r.largestBelow? v (r.sizeOf k)).map (r.inside h).rank := by
  refine Option.ext fun d => ?_
  rw [he.laminar'.largestBelow?_eq_some_iff, Option.map_eq_some_iff]
  constructor
  · rintro ⟨hstart, hsize⟩
    obtain ⟨y', hy', hentry'⟩ := mem_startedAt.1 hstart
    obtain ⟨c, hc, rfl⟩ := he.exists_rank_eq hy'
    obtain ⟨⟨y, hy⟩, _⟩ := mem_inside.1 hc
    obtain ⟨z, hz, hentry, _⟩ := he.exists_get?_rank hc hy
    obtain rfl := Option.some.inj (hy'.symm.trans hz)
    rw [hentry] at hentry'
    have hmem := he.mem_part hc (he.laminar.entry_mem_coverage hy)
    have hstart : c ∈ r.startedAt v :=
      mem_startedAt.2 ⟨y, hy, he.inj _ hmem v (he.mem_part hk hv) hentry'⟩
    rw [he.sizeOf_rank hc] at hsize
    exact ⟨c, he.laminar.largestBelow?_eq_some_iff.2 ⟨hstart, hsize⟩, rfl⟩
  · rintro ⟨c, hc, rfl⟩
    obtain ⟨y, hy, rfl, hsub, _⟩ := he.laminar.of_meets hv hexit hc
    have hin := mem_inside_of_subset hk hy hsub.1
    obtain ⟨y', hy', hentry, _⟩ := he.exists_get?_rank hin hy
    rw [he.sizeOf_rank hin]
    exact ⟨mem_startedAt.2 ⟨y', hy', hentry⟩, (of_largestBelow? hc).2⟩

end Excerpt

end HammockRegistry

end FlowRegions
