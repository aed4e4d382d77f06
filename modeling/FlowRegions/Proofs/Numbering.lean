import FlowRegions.Proofs.Recomposition
import FlowRegions.Proofs.Registry
import Mathlib.Data.List.Perm.Subperm

/-!
# The numbers of the registered hammocks

Registration numbers the pairs of a relation by position, counting modulo the number of identifiers
(`getElem?_register`). A graph has fewer minimal pairs than vertices, as no two of them share an
entry and the sink is no entry (`size_minimal_lt`). So the count never starts again, and every
hammock carries its own position (`hammocks_numbered_by_position`).
-/

namespace FlowRegions

namespace IdSet

variable {κ : IdKind} {s : IdSet κ}

/-- A set with no two different members has at most one. -/
theorem card_le_one (h : ∀ a ∈ s, ∀ b ∈ s, a = b) : s.card ≤ 1 := by
  have hnodup := nodup_of_ascending s.ascending
  rw [card]
  match hs : s.toList with
  | [] => simp
  | [_] => simp
  | a :: b :: l =>
    have hab : a = b := by
      refine h a ?_ b ?_ <;> rw [← mem_toList, hs] <;> simp
    rw [hs, hab] at hnodup
    simp at hnodup

end IdSet

namespace BoundaryRelation

variable {r : BoundaryRelation} {v : VertexId}

/-- All pairs are counted, and each once. -/
theorem length_pairs (r : BoundaryRelation) : r.pairs.length = r.size := by
  rw [pairs, List.length_flatMap, List.sum_eq_foldr, List.foldr_map]
  simp only [List.length_map]
  exact (r.exitTable.total_eq_foldr_vertices IdSet.card ∅).symm

/-- Where every entry has at most one exit and some vertex has none, there are fewer pairs than
vertices. -/
theorem size_lt_vertexCount (hexit : Relator.RightUnique fun s e => e ∈ r.exits s)
    (hv : v ∈ r.vertices) (hnone : ∀ e, e ∉ r.exits v) : r.size < r.vertexCount := by
  -- the entries and the vertex without exit are different vertices
  have hnodup : (v :: r.pairs.map Prod.fst).Nodup := by
    refine List.nodup_cons.2 ⟨fun hmem => ?_, r.nodup_pairs.map_on ?_⟩
    · obtain ⟨⟨s, e⟩, hpair, rfl⟩ := List.mem_map.1 hmem
      exact hnone e (mem_pairs.1 hpair)
    · rintro ⟨s, e₁⟩ h₁ ⟨s', e₂⟩ h₂ rfl
      rw [hexit (mem_pairs.1 h₁) (mem_pairs.1 h₂)]
  have hsub : (v :: r.pairs.map Prod.fst) ⊆ r.vertices := by
    refine List.cons_subset.2 ⟨hv, fun s hmem => ?_⟩
    obtain ⟨⟨s, e⟩, hpair, rfl⟩ := List.mem_map.1 hmem
    exact mem_vertices_of_mem_exits (mem_pairs.1 hpair)
  have hle := (hnodup.subperm hsub).length_le
  rwa [List.length_cons, List.length_map, length_pairs, vertices, VertexTable.length_vertices]
    at hle

end BoundaryRelation

namespace HammockRegistry

variable {g : FlowGraph} {b : BoundaryRelation} {i : Nat} {x : Hammock}

/-- Hammocks are numbered by position as far as the identifiers go. -/
theorem getElem?_register :
    (register g b).value.hammocks[i]? =
      b.pairs[i]?.map fun p => ⟨.ofIndex i, p.1, p.2, g.regionBetween p.1 p.2⟩ := by
  have hfirst : (DenseId.first : HammockId) = .ofIndex 0 := rfl
  rw [register, List.getElem?_toArray, hfirst, getElem?_number, Nat.zero_add]

theorem length_number (g : FlowGraph) (id : HammockId) (ps : List (VertexId × VertexId)) :
    (number g id ps).length = ps.length := by
  induction ps generalizing id with
  | nil => rfl
  | cons p ps ih =>
    obtain ⟨s, e⟩ := p
    rw [number, List.length_cons, ih, List.length_cons]

/-- Every pair is registered. -/
theorem size_register (g : FlowGraph) (b : BoundaryRelation) :
    (register g b).value.size = b.size := by
  rw [size, register, List.size_toArray, length_number, BoundaryRelation.length_pairs]

/-- If any pairs are registered, one of them is the largest. -/
theorem exists_largest?_register (g : FlowGraph) (hne : 0 < b.size) :
    ∃ root, (register g b).value.largest? (register g b).value.ids = some root := by
  rw [← Option.ne_none_iff_exists', Ne, largest?_eq_none_iff, ids, List.map_eq_nil_iff,
    List.range_eq_nil, size_register]
  exact Nat.ne_of_gt hne

/-- The hammocks are registered in the order of their identifiers. -/
theorem map_id_register (g : FlowGraph) (b : BoundaryRelation) :
    (register g b).value.hammocks.toList.map Hammock.id = (register g b).value.ids := by
  refine List.ext_getElem? fun i => ?_
  rw [List.getElem?_map, Array.getElem?_toList, getElem?_register, ids, size_register,
    List.getElem?_map, ← b.length_pairs]
  by_cases hi : i < b.pairs.length
  · simp [hi]
  · simp [hi]

/-- A hammock carries its position, and the next identifier the next position, as long as there are
fewer pairs than identifiers. -/
theorem index_of_getElem?_register (hb : b.size < idCount)
    (hx : (register g b).value.hammocks[i]? = some x) :
    x.id.index = i ∧ x.id.next.index = i + 1 := by
  rw [getElem?_register, Option.map_eq_some_iff] at hx
  obtain ⟨p, hp, rfl⟩ := hx
  have hi : i < b.size := b.length_pairs ▸ (List.getElem?_eq_some_iff.1 hp).1
  have hindex : (DenseId.ofIndex i : HammockId).index = i :=
    DenseId.index_ofIndex_of_lt (by omega)
  refine ⟨hindex, ?_⟩
  rw [DenseId.index_next, hindex]
  exact Nat.mod_eq_of_lt (by omega)

/-- At most one of the nested hammocks starts at a vertex. -/
theorem Nests.card_startedAt_le_one {r : HammockRegistry} (hn : r.Nests g) (v : VertexId) :
    (r.startedAt v).card ≤ 1 := by
  apply IdSet.card_le_one
  intro i hi j hj
  obtain ⟨x, hx, hxv⟩ := mem_startedAt.1 hi
  obtain ⟨y, hy, hyv⟩ := mem_startedAt.1 hj
  exact hn.entry_inj hx hy (hxv.trans hyv.symm)

end HammockRegistry

namespace FlowGraph

open HammockRegistry

variable {g : FlowGraph} {source sink : VertexId} {mask : Option BoundaryMask} {mode : SweepMode}
variable {a : BoundaryAnalysis}

/-- There are fewer minimal pairs than vertices. -/
theorem size_minimal_lt (h : (g.analyseBoundaries source sink mask mode).run.value = .ok a) :
    a.minimal.size < g.vertexCount := by
  have hcount := vertexCount_minimal_of_analyse h
  have hsink : sink ∈ a.minimal.vertices := by
    have hmem := (flows_of_analyseBoundaries h).sink_mem
    rw [contains_iff, ← hcount] at hmem
    exact VertexTable.mem_vertices.2 (VertexTable.hasRow_iff.2 hmem)
  rw [← hcount]
  refine BoundaryRelation.size_lt_vertexCount (minimal_rightUnique h) hsink fun e he => ?_
  exact ((mem_exits_minimal_iff h).1 he).entry_ne_sink rfl

/-- No two minimal pairs share an entry or an exit, and there are fewer of them than vertices. So
registration never runs out of identifiers, every hammock carries its own position, and at most one
hammock starts at a vertex. -/
theorem hammocks_numbered_by_position (g : FlowGraph) (source sink : VertexId)
    (mask : Option BoundaryMask) (mode : SweepMode) {a : BoundaryAnalysis} {r : HammockRegistry}
    (ha : (g.analyseBoundaries source sink mask mode).run.value = .ok a)
    (hr : (register g a.minimal).value = r) :
    ((∀ s e₁ e₂, a.minimal.contains s e₁ = true → a.minimal.contains s e₂ = true → e₁ = e₂) ∧
      (∀ s₁ s₂ e, a.minimal.contains s₁ e = true → a.minimal.contains s₂ e = true → s₁ = s₂) ∧
      a.minimal.size + 1 ≤ g.vertexCount) ∧
    r.size = a.minimal.size ∧
    (∀ i x, r.hammocks[i]? = some x → x.id.index = i ∧ x.id.next.index = i + 1) ∧
    ∀ v, (r.startedAt v).card ≤ 1 := by
  have hsize := size_minimal_lt ha
  subst hr
  simp only [BoundaryRelation.contains_iff]
  refine ⟨⟨fun s e₁ e₂ h₁ h₂ => minimal_rightUnique ha h₁ h₂,
    fun s₁ s₂ e h₁ h₂ => minimal_leftUnique ha h₁ h₂, hsize⟩, size_register g a.minimal,
    fun i x hx => ?_, (nests_register ha).card_startedAt_le_one⟩
  have hcount : g.vertexCount < idCount := g.successorTable.size_lt_idCount
  exact index_of_getElem?_register (hsize.trans hcount) hx

/-- Down the line of five vertices there are four hammocks, as many as there can be. -/
theorem descent_numbered :
    ∃ a, (descent.analyseBoundaries ⟨4⟩ ⟨0⟩ none .inPlace).run.value = .ok a ∧
      a.minimal.size + 1 = descent.vertexCount ∧
      (∀ e, a.minimal.contains ⟨3⟩ e = true → e = ⟨2⟩) ∧
      (∀ s, a.minimal.contains s ⟨2⟩ = true → s = ⟨3⟩) ∧
      (∃ x, (register descent a.minimal).value.hammocks[3]? = some x ∧ x.id.index = 3 ∧
        x.id.next.index = 4) ∧
      ((register descent a.minimal).value.startedAt ⟨4⟩).card = 1 := by
  obtain ⟨a, ha, hpair, hsome, hmem⟩ : ∃ a,
      (descent.analyseBoundaries ⟨4⟩ ⟨0⟩ none .inPlace).run.value = .ok a ∧
      a.minimal.contains ⟨3⟩ ⟨2⟩ = true ∧
      ((register descent a.minimal).value.hammocks[3]?).isSome = true ∧
      ((register descent a.minimal).value.startedAt ⟨4⟩).isEmpty = false :=
    ⟨(descent.analyseBoundaries ⟨4⟩ ⟨0⟩ none .inPlace).run.value.toOption.get (by decide +kernel),
      by decide +kernel, by decide +kernel, by decide +kernel, by decide +kernel⟩
  obtain ⟨⟨hexit, hentry, hsize⟩, hcount, hnumber, hstart⟩ :=
    hammocks_numbered_by_position descent ⟨4⟩ ⟨0⟩ none .inPlace ha rfl
  obtain ⟨x, hx⟩ := Option.isSome_iff_exists.1 hsome
  refine ⟨a, ha, ?_, fun e he => hexit _ _ _ he hpair, fun s hs => hentry _ _ _ hs hpair,
    ⟨x, hx, hnumber 3 x hx⟩, ?_⟩
  · have hfour : 3 < (register descent a.minimal).value.size :=
      (Array.getElem?_eq_some_iff.1 hx).1
    have hfive : descent.vertexCount = 5 := by decide +kernel
    omega
  · have hpos := IdSet.card_pos_of_not_isEmpty (Bool.eq_false_iff.1 hmem)
    have hle := hstart ⟨4⟩
    omega

end FlowGraph

end FlowRegions
