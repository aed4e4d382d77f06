import FlowRegions.Proofs.SpanningRoot
import Mathlib.Algebra.Group.End

/-!
# The names of vertices

Sweeps in place and the removal of redundant pairs go through the vertices in ascending order, so
under other names of the vertices they go through other intermediate states. Their results do not
depend on the order: passage sets, candidates, minimal pairs and regions are said by routes, and
renaming a graph renames its routes (`Renames.exists_route_map_iff`). So it renames what is
necessary (`Renames.necessary_iff`) and whatever else the analysis finds
(`analysis_commutes_with_renaming`). A permutation of the vertices leaves all other numbers as they
are (`renames_renamed`).
-/

namespace FlowRegions

open Log

namespace IdSet

variable {κ : IdKind} {s : IdSet κ} {f : DenseId κ → DenseId κ} {a b : DenseId κ}

/-- The values of a function at the members of a set. -/
def image (f : DenseId κ → DenseId κ) (s : IdSet κ) : IdSet κ := .ofList (s.toList.map f)

@[simp] theorem mem_image : b ∈ s.image f ↔ ∃ a ∈ s, f a = b := by
  rw [image, mem_ofList, List.mem_map]
  exact Iff.rfl

theorem apply_mem_image (hf : f.Injective) : f a ∈ s.image f ↔ a ∈ s := by
  rw [mem_image]
  exact ⟨fun ⟨b, hb, heq⟩ => hf heq ▸ hb, fun ha => ⟨a, ha, rfl⟩⟩

/-- Different members have different values, so no value counts twice. -/
theorem card_image (hf : f.Injective) : (s.image f).card = s.card := by
  have hmap : (s.toList.map f).Nodup := (nodup_of_ascending s.ascending).map hf
  have hperm : (s.image f).toList.Perm (s.toList.map f) :=
    (List.perm_ext_iff_of_nodup (nodup_of_ascending (s.image f).ascending) hmap).2 fun b =>
      mem_image.trans List.mem_map.symm
  rw [card, hperm.length_eq, List.length_map, card]

end IdSet

/-- The mask of the renamed vertices. -/
def BoundaryMask.renamed (ρ : Equiv.Perm VertexId) (m : BoundaryMask) : BoundaryMask :=
  ⟨m.vertices.image ρ⟩

theorem BoundaryMask.contains_renamed {ρ : Equiv.Perm VertexId} {m : BoundaryMask} {v : VertexId} :
    (m.renamed ρ).contains (ρ v) = m.contains v := by
  rw [contains, contains, renamed]
  exact decide_eq_decide.2 (IdSet.apply_mem_image ρ.injective)

/-- Under a renamed mask a vertex may bound a hammock under its new name when it may do so under the
mask. -/
theorem admittedBy_renamed {ρ : Equiv.Perm VertexId} {mask : Option BoundaryMask}
    {source sink v : VertexId} :
    admittedBy (mask.map (.renamed ρ)) (ρ source) (ρ sink) (ρ v) =
      admittedBy mask source sink v := by
  apply Bool.eq_iff_iff.2
  rw [admittedBy_iff, admittedBy_iff, ρ.injective.eq_iff, ρ.injective.eq_iff]
  cases mask <;> simp [BoundaryMask.contains_renamed]

namespace FlowGraph

variable {g g' : FlowGraph} {ρ : Equiv.Perm VertexId} {s e t u v w source sink : VertexId}
variable {p q : List VertexId} {admitted admitted' : VertexId → Bool} {mode : SweepMode}

/-! ## Renamed graphs -/

/-- The vertices of one graph are those of the other under new names, and so are its edges, in
whatever order. -/
structure Renames (ρ : Equiv.Perm VertexId) (g g' : FlowGraph) : Prop where
  contains_eq : ∀ v, g'.contains (ρ v) = g.contains v
  mem_successors_iff : ∀ v w, ρ w ∈ g'.successors (ρ v) ↔ w ∈ g.successors v

theorem Renames.symm (h : Renames ρ g g') : Renames ρ.symm g' g where
  contains_eq v := by rw [← h.contains_eq, ρ.apply_symm_apply]
  mem_successors_iff v w := by
    rw [← h.mem_successors_iff, ρ.apply_symm_apply, ρ.apply_symm_apply]

theorem Renames.transpose (h : Renames ρ g g') : Renames ρ g.transpose g'.transpose where
  contains_eq v := by rw [contains_transpose, contains_transpose, h.contains_eq]
  mem_successors_iff v w := by
    rw [mem_successors_transpose, mem_successors_transpose, h.mem_successors_iff]

/-- The graph whose vertices are permuted; the successors of a vertex keep their order. -/
def renamed (g : FlowGraph) (σ : Equiv.Perm {v // g.contains v = true}) : FlowGraph where
  successorTable := g.successorTable.mapVertices fun v _ =>
    (g.successors ((Equiv.Perm.ofSubtype σ).symm v)).map (Equiv.Perm.ofSubtype σ)
  closed := closed_mapVertices fun v w hw => by
    obtain ⟨u, hu, rfl⟩ := List.mem_map.1 hw
    exact (Equiv.Perm.ofSubtype_apply_mem_iff_mem σ u).2 (contains_of_mem_successors hu)

theorem contains_renamed (σ : Equiv.Perm {v // g.contains v = true}) :
    (g.renamed σ).contains v = g.contains v :=
  VertexTable.hasRow_congr (VertexTable.size_mapVertices _ g.successorTable) v

/-- A permutation of the vertices, the identity elsewhere, renames the graph. -/
theorem renames_renamed (g : FlowGraph) (σ : Equiv.Perm {v // g.contains v = true}) :
    Renames (Equiv.Perm.ofSubtype σ) g (g.renamed σ) where
  contains_eq v := by
    rw [contains_renamed]
    exact Bool.eq_iff_iff.2 (Equiv.Perm.ofSubtype_apply_mem_iff_mem σ v)
  mem_successors_iff v w := by
    have hrow := Equiv.Perm.ofSubtype_apply_mem_iff_mem σ v
    rw [successors, renamed, VertexTable.getD, VertexTable.get?_mapVertices]
    by_cases hv : g.contains v = true
    · rw [VertexTable.get?_eq_some_getD (hrow.2 hv) [], Option.map_some, Option.getD_some,
        Equiv.symm_apply_apply, List.mem_map_of_injective (Equiv.injective _)]
    · rw [VertexTable.get?_eq_none_iff.2 (Bool.eq_false_iff.2 (mt hrow.1 hv))]
      refine iff_of_false (by simp) fun hw => hv ?_
      exact contains_of_successors_ne_nil (List.ne_nil_of_mem hw)

/-! ## What is said by routes -/

/-- Routes are renamed vertex by vertex. -/
theorem Renames.route (h : Renames ρ g g') (hp : g.Route v w p) :
    g'.Route (ρ v) (ρ w) (p.map ρ) := by
  induction hp with
  | stay hv => exact .stay ((h.contains_eq _).trans hv)
  | step hvu _ ih => exact .step ((h.mem_successors_iff _ _).2 hvu) ih

/-- The routes of the renamed graph are renamed routes. -/
theorem Renames.exists_route_map_iff (h : Renames ρ g g') :
    g'.Route (ρ v) (ρ w) q ↔ ∃ p, g.Route v w p ∧ p.map ρ = q := by
  constructor
  · intro hq
    have hp := h.symm.route hq
    rw [ρ.symm_apply_apply, ρ.symm_apply_apply] at hp
    exact ⟨_, hp, by simp⟩
  · rintro ⟨p, hp, rfl⟩
    exact h.route hp

theorem Renames.exists_route_iff (h : Renames ρ g g') :
    (∃ q, g'.Route (ρ v) (ρ w) q) ↔ ∃ p, g.Route v w p := by
  simp only [h.exists_route_map_iff]
  exact ⟨fun ⟨_, p, hp, _⟩ => ⟨p, hp⟩, fun ⟨p, hp⟩ => ⟨_, p, hp, rfl⟩⟩

theorem Renames.necessary_iff (h : Renames ρ g g') :
    g'.Necessary (ρ v) (ρ t) (ρ w) ↔ g.Necessary v t w := by
  constructor
  · intro hw p hp
    exact (List.mem_map_of_injective ρ.injective).1 (hw _ (h.route hp))
  · intro hw q hq
    obtain ⟨p, hp, rfl⟩ := h.exists_route_map_iff.1 hq
    exact List.mem_map_of_mem (hw p hp)

theorem Renames.flows (h : Renames ρ g g') (hg : g.Flows source sink) :
    g'.Flows (ρ source) (ρ sink) where
  source_mem := (h.contains_eq source).trans hg.source_mem
  sink_mem := (h.contains_eq sink).trans hg.sink_mem
  reached u hu := by
    obtain ⟨v, rfl⟩ := ρ.surjective u
    exact h.exists_route_iff.2 (hg.reached v ((h.contains_eq v).symm.trans hu))
  reaching u hu := by
    obtain ⟨v, rfl⟩ := ρ.surjective u
    exact h.exists_route_iff.2 (hg.reaching v ((h.contains_eq v).symm.trans hu))

theorem Renames.flows_iff (h : Renames ρ g g') :
    g'.Flows (ρ source) (ρ sink) ↔ g.Flows source sink := by
  refine ⟨fun hg => ?_, h.flows⟩
  have hback := h.symm.flows hg
  rwa [ρ.symm_apply_apply, ρ.symm_apply_apply] at hback

theorem Renames.candidate_iff (h : Renames ρ g g') (hadm : ∀ v, admitted' (ρ v) = admitted v) :
    g'.Candidate (ρ source) (ρ sink) admitted' (ρ s) (ρ e) ↔
      g.Candidate source sink admitted s e := by
  constructor
  · rintro ⟨hs, he, hsadm, headm, hne, hdom, hpost⟩
    rw [h.contains_eq] at hs he
    rw [hadm] at hsadm headm
    exact ⟨hs, he, hsadm, headm, fun heq => hne (congrArg ρ heq), h.necessary_iff.1 hdom,
      h.necessary_iff.1 hpost⟩
  · rintro ⟨hs, he, hsadm, headm, hne, hdom, hpost⟩
    rw [← h.contains_eq] at hs he
    rw [← hadm] at hsadm headm
    exact ⟨hs, he, hsadm, headm, ρ.injective.ne hne, h.necessary_iff.2 hdom,
      h.necessary_iff.2 hpost⟩

theorem Renames.minimalPair_iff (h : Renames ρ g g') (hadm : ∀ v, admitted' (ρ v) = admitted v) :
    g'.MinimalPair (ρ source) (ρ sink) admitted' (ρ s) (ρ e) ↔
      g.MinimalPair source sink admitted s e := by
  rw [FlowGraph.minimalPair_iff, FlowGraph.minimalPair_iff, ρ.surjective.exists]
  simp only [h.candidate_iff hadm]

theorem Renames.mem_regionBetween (h : Renames ρ g g') (hv : v ∈ g.regionBetween s e) :
    ρ v ∈ g'.regionBetween (ρ s) (ρ e) := by
  rw [FlowGraph.mem_regionBetween] at hv
  induction hv with
  | refl => exact entry_mem_regionBetween g' _ _
  | tail _ hstep ih =>
    obtain ⟨hexit, hw⟩ := mem_stepsUntil.1 hstep
    exact mem_regionBetween_of_successor ih (ρ.injective.ne hexit) ((h.mem_successors_iff _ _).2 hw)

/-- The region between two renamed vertices is the renamed region. -/
theorem Renames.regionBetween_eq (h : Renames ρ g g') (s e : VertexId) :
    g'.regionBetween (ρ s) (ρ e) = (g.regionBetween s e).image ρ := by
  apply IdSet.ext
  intro u
  obtain ⟨v, rfl⟩ := ρ.surjective u
  rw [IdSet.apply_mem_image ρ.injective]
  refine ⟨fun hv => ?_, h.mem_regionBetween⟩
  have hback := h.symm.mem_regionBetween hv
  rwa [ρ.symm_apply_apply, ρ.symm_apply_apply, ρ.symm_apply_apply] at hback

/-! ## What the analysis finds -/

/-- The sets of a successful analysis belong to its target and have a row for each vertex. -/
theorem sound_of_passageSets {sets : PassageSets}
    (h : (g.passageSets t mode).run.value = .ok sets) : sets.target = t ∧ g.Sound t sets.sets := by
  obtain ⟨ht, hreach⟩ := exists_passageSets_iff.1 ⟨sets, h⟩
  rw [passageSets_of_reaching ht hreach] at h
  obtain ⟨htarget, hsound, _⟩ := settle_stable mode 0 (Sound.initialSets ht)
  exact Except.ok.inj h ▸ ⟨htarget, hsound⟩

/-- The passage sets towards the renamed target are the renamed sets. -/
theorem Renames.get?_passageSets (h : Renames ρ g g') {sets sets' : PassageSets}
    (hsets : (g.passageSets t mode).run.value = .ok sets)
    (hsets' : (g'.passageSets (ρ t) mode).run.value = .ok sets') (v : VertexId) :
    sets'.get? (ρ v) = (sets.get? v).map (.image ρ) := by
  have hrow : sets.sets.hasRow v = g.contains v := (sound_of_passageSets hsets).2.hasRow
  have hrow' : sets'.sets.hasRow (ρ v) = g.contains v :=
    (sound_of_passageSets hsets').2.hasRow.trans (h.contains_eq v)
  rw [PassageSets.get?, PassageSets.get?]
  by_cases hv : g.contains v = true
  · rw [VertexTable.get?_eq_some_getD (hrow.trans hv) ∅,
      VertexTable.get?_eq_some_getD (hrow'.trans hv) ∅, Option.map_some]
    refine congrArg some (IdSet.ext fun u => ?_)
    obtain ⟨w, rfl⟩ := ρ.surjective u
    have hmem := contains_passageSets_iff (w := w) hsets hv
    have hmem' := contains_passageSets_iff (w := ρ w) hsets' ((h.contains_eq v).trans hv)
    rw [PassageSets.contains, decide_eq_true_iff] at hmem hmem'
    rw [IdSet.apply_mem_image ρ.injective, hmem, hmem', h.necessary_iff]
  · have hout := Bool.eq_false_iff.2 hv
    rw [VertexTable.get?_eq_none_iff.2 (hrow.trans hout),
      VertexTable.get?_eq_none_iff.2 (hrow'.trans hout), Option.map_none]

open HammockRegistry

/-- Hammocks with renamed bounds cover what is renamed. -/
theorem Renames.coverage_eq (h : Renames ρ g g') {b b' : BoundaryRelation} {i i' : HammockId}
    {x x' : Hammock} (hx : (register g b).value.get? i = some x)
    (hx' : (register g' b').value.get? i' = some x')
    (hbounds : x'.bounds = (ρ x.entry, ρ x.exit)) :
    x'.size = x.size ∧
      (register g' b').value.coverage i' = ρ '' (register g b).value.coverage i := by
  have hbody : x'.body = x.body.image ρ := by
    obtain ⟨s, e, _, rfl⟩ := get?_register.1 hx
    obtain ⟨s', e', _, rfl⟩ := get?_register.1 hx'
    obtain ⟨rfl, rfl⟩ := Prod.mk.inj hbounds
    exact h.regionBetween_eq s e
  constructor
  · rw [Hammock.size, hbody, IdSet.card_image ρ.injective, Hammock.size]
  · ext u
    rw [mem_coverage hx', hbody, IdSet.mem_image, Set.mem_image]
    exact exists_congr fun v => and_congr_left fun _ => (mem_coverage hx).symm

/-- The analysis of a renamed graph between renamed bounds under a renamed mask succeeds exactly
when the original one does, and all that it finds are the images: the passage sets, the candidates,
the minimal pairs and the registered hammocks, which have the same sizes. -/
theorem analysis_commutes_with_renaming (g g' : FlowGraph) (ρ : Equiv.Perm VertexId)
    (source sink : VertexId) (mask : Option BoundaryMask) (mode : SweepMode)
    (hrenames : Renames ρ g g') :
    ((∃ a, (g.analyseBoundaries source sink mask mode).run.value = .ok a) ↔
      ∃ a', (g'.analyseBoundaries (ρ source) (ρ sink) (mask.map (.renamed ρ)) mode).run.value =
        .ok a') ∧
    ∀ a a' r r', (g.analyseBoundaries source sink mask mode).run.value = .ok a →
      (g'.analyseBoundaries (ρ source) (ρ sink) (mask.map (.renamed ρ)) mode).run.value = .ok a' →
      (register g a.minimal).value = r → (register g' a'.minimal).value = r' →
      (a'.postdominators.target = ρ a.postdominators.target ∧
        ∀ v, a'.postdominators.get? (ρ v) = (a.postdominators.get? v).map (.image ρ)) ∧
      (a'.dominators.target = ρ a.dominators.target ∧
        ∀ v, a'.dominators.get? (ρ v) = (a.dominators.get? v).map (.image ρ)) ∧
      (∀ s e, a'.candidates.contains (ρ s) (ρ e) = true ↔ a.candidates.contains s e = true) ∧
      (∀ s e, a'.minimal.contains (ρ s) (ρ e) = true ↔ a.minimal.contains s e = true) ∧
      (∀ s e, (∃ i x, r.get? i = some x ∧ x.bounds = (s, e)) ↔
        ∃ i' x', r'.get? i' = some x' ∧ x'.bounds = (ρ s, ρ e)) ∧
      ∀ i x i' x', r.get? i = some x → r'.get? i' = some x' →
        x'.bounds = (ρ x.entry, ρ x.exit) →
        x'.size = x.size ∧ r'.coverage i' = ρ '' r.coverage i := by
  refine ⟨?_, fun a a' r r' ha ha' hr hr' => ?_⟩
  · rw [exists_analyseBoundaries_iff, exists_analyseBoundaries_iff, hrenames.flows_iff]
  obtain ⟨hpost, hdom, _⟩ := of_analyseBoundaries ha
  obtain ⟨hpost', hdom', _⟩ := of_analyseBoundaries ha'
  have hadm : ∀ v, admittedBy (mask.map (.renamed ρ)) (ρ source) (ρ sink) (ρ v) =
      admittedBy mask source sink v := fun v => admittedBy_renamed
  subst hr hr'
  refine ⟨⟨?_, hrenames.get?_passageSets hpost hpost'⟩,
    ⟨?_, hrenames.transpose.get?_passageSets hdom hdom'⟩, fun s e => ?_, fun s e => ?_,
    fun s e => ?_, fun i x i' x' hx hx' hbounds => hrenames.coverage_eq hx hx' hbounds⟩
  · rw [(sound_of_passageSets hpost).1, (sound_of_passageSets hpost').1]
  · rw [(sound_of_passageSets hdom).1, (sound_of_passageSets hdom').1]
  · rw [contains_candidates_iff ha, contains_candidates_iff ha', hrenames.candidate_iff hadm]
  · rw [contains_minimal_iff ha, contains_minimal_iff ha', hrenames.minimalPair_iff hadm]
  · rw [exists_get?_iff_minimalPair ha, exists_get?_iff_minimalPair ha',
      hrenames.minimalPair_iff hadm]

/-- Exchanges the vertex with the loop and its detour. -/
def detourFirst : Equiv.Perm {v // loops.contains v = true} :=
  Equiv.swap ⟨⟨1⟩, by decide⟩ ⟨⟨2⟩, by decide⟩

/-- When the vertex with the loop and its detour exchange their numbers, the hammock behind that
vertex begins at the other number, and it covers the detour under its new number. -/
theorem loops_renamed :
    Renames (Equiv.Perm.ofSubtype detourFirst) loops (loops.renamed detourFirst) ∧
    ∃ a a', (loops.analyseBoundaries ⟨0⟩ ⟨3⟩ (some (.ofList [⟨1⟩])) .inPlace).run.value = .ok a ∧
      ((loops.renamed detourFirst).analyseBoundaries ⟨0⟩ ⟨3⟩ (some (.ofList [⟨2⟩]))
        .inPlace).run.value = .ok a' ∧
      a.minimal.contains ⟨1⟩ ⟨3⟩ = true ∧ a'.minimal.contains ⟨2⟩ ⟨3⟩ = true ∧
      ∃ i x, (register (loops.renamed detourFirst) a'.minimal).value.get? i = some x ∧
        x.bounds = (⟨2⟩, ⟨3⟩) ∧ x.size = 3 ∧
        ⟨1⟩ ∈ (register (loops.renamed detourFirst) a'.minimal).value.coverage i := by
  obtain ⟨a, ha, hpair, hbounds, hsize, hcover⟩ : ∃ a,
      (loops.analyseBoundaries ⟨0⟩ ⟨3⟩ (some (.ofList [⟨1⟩])) .inPlace).run.value = .ok a ∧
      a.minimal.contains ⟨1⟩ ⟨3⟩ = true ∧
      ((register loops a.minimal).value.get? ⟨1⟩).map Hammock.bounds = some (⟨1⟩, ⟨3⟩) ∧
      (register loops a.minimal).value.sizeOf ⟨1⟩ = 3 ∧
      ⟨1⟩ ∈ (register loops a.minimal).value.containing ⟨2⟩ :=
    ⟨(loops.analyseBoundaries ⟨0⟩ ⟨3⟩ (some (.ofList [⟨1⟩])) .inPlace).run.value.toOption.get
      (by decide +kernel), by decide +kernel, by decide +kernel, by decide +kernel,
      by decide +kernel, by decide +kernel⟩
  obtain ⟨ρ, hρ⟩ : ∃ ρ, ρ = Equiv.Perm.ofSubtype detourFirst := ⟨_, rfl⟩
  have hnames : ρ ⟨0⟩ = ⟨0⟩ ∧ ρ ⟨1⟩ = ⟨2⟩ ∧ ρ ⟨2⟩ = ⟨1⟩ ∧ ρ ⟨3⟩ = ⟨3⟩ := by
    rw [hρ]
    decide +kernel
  obtain ⟨hzero, hone, htwo, hthree⟩ := hnames
  have hmask : (BoundaryMask.ofList [⟨1⟩]).renamed ρ = .ofList [⟨2⟩] := by
    rw [hρ]
    decide +kernel
  have hrenames : Renames ρ loops (loops.renamed detourFirst) := hρ ▸ loops.renames_renamed _
  obtain ⟨hsucceed, hfinds⟩ := analysis_commutes_with_renaming loops (loops.renamed detourFirst) ρ
    ⟨0⟩ ⟨3⟩ (some (.ofList [⟨1⟩])) .inPlace hrenames
  rw [Option.map_some, hmask, hzero, hthree] at hsucceed hfinds
  obtain ⟨a', ha'⟩ := hsucceed.1 ⟨a, ha⟩
  obtain ⟨_, _, _, hminimal, hregistered, hregions⟩ := hfinds a a' _ _ ha ha' rfl rfl
  obtain ⟨x, hx, hbounds⟩ := Option.map_eq_some_iff.1 hbounds
  obtain ⟨i, y, hy, hybounds⟩ := (hregistered ⟨1⟩ ⟨3⟩).1 ⟨⟨1⟩, x, hx, hbounds⟩
  obtain ⟨hentry, hexit⟩ : x.entry = ⟨1⟩ ∧ x.exit = ⟨3⟩ := Prod.mk.inj hbounds
  obtain ⟨hysize, hycover⟩ := hregions ⟨1⟩ x i y hx hy (by rw [hentry, hexit, hybounds])
  refine ⟨loops.renames_renamed _, a, a', ha, ha', hpair, ?_, i, y, hy, ?_, ?_, ?_⟩
  · rw [← hone, ← hthree, hminimal, hpair]
  · rw [hybounds, hone, hthree]
  · rw [hysize, ← sizeOf_of_get? hx, hsize]
  · rw [hycover, ← htwo]
    exact Set.mem_image_of_mem ρ hcover

end FlowGraph

end FlowRegions
