import FlowRegions.Hammock.Registry
import FlowRegions.Proofs.Regions
import Mathlib.Data.Set.BooleanAlgebra
import Mathlib.Order.CompletePartialOrder

/-!
# The registered hammocks

What the queries of a registry answer (`mem_startedAt`, `mem_containing`, `of_largestBelow?`), and
what registration puts into it (`get?_register`). The vertices that a hammock covers are read off
the index of the hammocks that cover a vertex (`coverage`). `Nests` collects what the hammocks of
minimal pairs have in common as far as the construction of the tree depends on it.
-/

namespace FlowRegions

open Log Relation

namespace BoundaryRelation

variable {r : BoundaryRelation} {s e : VertexId}

theorem mem_pairs : (s, e) ∈ r.pairs ↔ e ∈ r.exits s := by
  rw [pairs, List.mem_flatMap]
  constructor
  · rintro ⟨v, _, h⟩
    obtain ⟨w, hw, heq⟩ := List.mem_map.1 h
    obtain ⟨rfl, rfl⟩ := Prod.mk.inj heq
    exact hw
  · intro h
    exact ⟨s, mem_vertices_of_mem_exits h, List.mem_map.2 ⟨e, h, rfl⟩⟩

/-- Pairs are listed in ascending order of entry and exit. -/
theorem pairwise_pairs (r : BoundaryRelation) :
    r.pairs.Pairwise (Prod.Lex (· < ·) (· < ·)) := by
  rw [pairs, List.pairwise_flatMap]
  constructor
  · intro v _
    exact List.pairwise_map.2 ((r.exits v).ascending.imp fun hlt => .right v hlt)
  · refine r.exitTable.pairwise_vertices.imp fun hvw p hp q hq => ?_
    obtain ⟨_, _, rfl⟩ := List.mem_map.1 hp
    obtain ⟨_, _, rfl⟩ := List.mem_map.1 hq
    exact .left _ _ hvw

theorem lex_asymm {p q : VertexId × VertexId} (hpq : Prod.Lex (· < ·) (· < ·) p q) :
    ¬ Prod.Lex (· < ·) (· < ·) q p := by
  intro hqp
  rcases Prod.lex_def.1 hpq with hlt | ⟨heq, hlt⟩
  · rcases Prod.lex_def.1 hqp with hgt | ⟨heq, _⟩
    · exact DenseId.lt_asymm hlt hgt
    · exact DenseId.lt_irrefl _ (heq ▸ hlt)
  · rcases Prod.lex_def.1 hqp with hgt | ⟨_, hgt⟩
    · exact DenseId.lt_irrefl _ (heq ▸ hgt)
    · exact DenseId.lt_asymm hlt hgt

theorem nodup_of_pairwise_lex {l : List (VertexId × VertexId)}
    (hl : l.Pairwise (Prod.Lex (· < ·) (· < ·))) : l.Nodup := by
  apply hl.imp
  intro p q hpq
  rintro rfl
  exact lex_asymm hpq hpq

/-- No pair is listed twice. -/
theorem nodup_pairs (r : BoundaryRelation) : r.pairs.Nodup :=
  nodup_of_pairwise_lex r.pairwise_pairs

/-- The pairs are listed in the only ascending order there is. -/
theorem pairs_eq_of_mem_iff {l : List (VertexId × VertexId)}
    (hl : l.Pairwise (Prod.Lex (· < ·) (· < ·))) (h : ∀ s e, (s, e) ∈ l ↔ e ∈ r.exits s) :
    r.pairs = l := by
  have hperm : r.pairs.Perm l :=
    (List.perm_ext_iff_of_nodup r.nodup_pairs (nodup_of_pairwise_lex hl)).2 fun p =>
      mem_pairs.trans (h p.1 p.2).symm
  exact hperm.eq_of_pairwise (fun _ _ _ _ hpq hqp => absurd hqp (lex_asymm hpq))
    r.pairwise_pairs hl

end BoundaryRelation

namespace HammockRegistry

variable {r : HammockRegistry} {g : FlowGraph} {id i j c : HammockId} {x y : Hammock}
variable {v : VertexId} {bound : Nat}

/-! ## Queries -/

theorem mem_ids : id ∈ r.ids ↔ (r.get? id).isSome = true := by
  refine ⟨isSome_get?_of_mem_ids, fun h => ?_⟩
  rw [get?, Option.isSome_iff_exists] at h
  obtain ⟨a, ha⟩ := h
  have hlt : id.index < r.size := (Array.getElem?_eq_some_iff.1 ha).1
  exact List.mem_map.2 ⟨id.index, List.mem_range.2 hlt, DenseId.ofIndex_index id⟩

theorem mem_ids_of_get? (hx : r.get? id = some x) : id ∈ r.ids := by
  rw [mem_ids, hx]
  rfl

theorem mem_startedAt : id ∈ r.startedAt v ↔ ∃ x, r.get? id = some x ∧ x.entry = v := by
  rw [startedAt, IdSet.mem_ofList, List.mem_filter, mem_ids, isEntry]
  cases r.get? id <;> simp

theorem mem_containing : id ∈ r.containing v ↔ ∃ x, r.get? id = some x ∧ v ∈ x.body := by
  rw [containing, IdSet.mem_ofList, List.mem_filter, mem_ids, covers]
  cases r.get? id <;> simp

/-- The vertices that a hammock covers, read off the index of the hammocks that cover a vertex. -/
def coverage (r : HammockRegistry) (id : HammockId) : Set VertexId := {v | id ∈ r.containing v}

theorem mem_coverage (hx : r.get? id = some x) : v ∈ r.coverage id ↔ v ∈ x.body := by
  rw [coverage, Set.mem_ofPred_eq, mem_containing, hx]
  simp

theorem sizeOf_of_get? (hx : r.get? id = some x) : r.sizeOf id = x.size := by
  rw [sizeOf, hx, Option.map_some, Option.getD_some]

theorem isExit_iff (hx : r.get? id = some x) : r.isExit id v = true ↔ x.exit = v := by
  rw [isExit, hx, Option.any_some, decide_eq_true_iff]

/-- What is covered properly is smaller. -/
theorem sizeOf_lt_of_ssubset (hi : r.get? i = some x) (hj : r.get? j = some y)
    (h : r.coverage j ⊂ r.coverage i) : r.sizeOf j < r.sizeOf i := by
  have hsub : y.body ⊆ x.body := fun v hv =>
    (mem_coverage hi).1 (h.1 ((mem_coverage hj).2 hv))
  rw [sizeOf_of_get? hi, sizeOf_of_get? hj]
  -- a part of the same size would be the whole
  refine Nat.lt_of_le_of_ne (IdSet.card_le_card hsub) fun hcard => h.2 fun v hv => ?_
  have hbody : y.body = x.body := IdSet.eq_of_subset_of_card_le hsub (Nat.le_of_eq hcard.symm)
  rw [mem_coverage hj, hbody]
  exact (mem_coverage hi).1 hv

/-! ## Choices -/

/-- The better of the best so far and one more hammock; the former if they are equal. -/
def larger (r : HammockRegistry) (best : Option HammockId) (id : HammockId) : Option HammockId :=
  match best with
  | none => some id
  | some b => if r.sizeOf b < r.sizeOf id then some id else some b

theorem largest?_eq (r : HammockRegistry) (ids : List HammockId) :
    r.largest? ids = ids.foldl r.larger none := rfl

/-- The choice goes on to something at least as large as what it has. -/
theorem foldl_larger_some (r : HammockRegistry) (ids : List HammockId) (b : HammockId) :
    ∃ m, ids.foldl r.larger (some b) = some m ∧ r.sizeOf b ≤ r.sizeOf m ∧
      ∀ id ∈ ids, r.sizeOf id ≤ r.sizeOf m := by
  induction ids generalizing b with
  | nil => exact ⟨b, rfl, Nat.le_refl _, by simp⟩
  | cons a ids ih =>
    rw [List.foldl_cons, larger]
    split
    · next hlt =>
      obtain ⟨m, hm, ham, hall⟩ := ih a
      exact ⟨m, hm, by omega, List.forall_mem_cons.2 ⟨ham, hall⟩⟩
    · next hle =>
      obtain ⟨m, hm, hbm, hall⟩ := ih b
      exact ⟨m, hm, hbm, List.forall_mem_cons.2 ⟨by omega, hall⟩⟩

theorem largest?_eq_none_iff {ids : List HammockId} : r.largest? ids = none ↔ ids = [] := by
  cases ids with
  | nil => simp [largest?]
  | cons a ids =>
    obtain ⟨m, hm, _⟩ := foldl_larger_some r ids a
    rw [largest?_eq, List.foldl_cons, larger, hm]
    simp

/-- No hammock is larger than the largest. -/
theorem sizeOf_le_of_largest? {ids : List HammockId} (h : r.largest? ids = some c)
    (hid : id ∈ ids) : r.sizeOf id ≤ r.sizeOf c := by
  cases ids with
  | nil => cases hid
  | cons a ids =>
    obtain ⟨m, hm, ham, hall⟩ := foldl_larger_some r ids a
    rw [largest?_eq, List.foldl_cons, larger, hm] at h
    obtain rfl := Option.some.inj h
    rcases List.mem_cons.1 hid with rfl | hid
    · exact ham
    · exact hall id hid

theorem of_largestBelow? (h : r.largestBelow? v bound = some c) :
    c ∈ r.startedAt v ∧ r.sizeOf c < bound := by
  have hmem := mem_of_largest? h
  rw [List.mem_filter] at hmem
  exact ⟨hmem.1, of_decide_eq_true hmem.2⟩

theorem exists_get?_of_largestBelow? (h : r.largestBelow? v bound = some c) :
    ∃ y, r.get? c = some y ∧ y.entry = v := mem_startedAt.1 (of_largestBelow? h).1

theorem largestBelow?_eq_none_iff :
    r.largestBelow? v bound = none ↔ ∀ id ∈ r.startedAt v, bound ≤ r.sizeOf id := by
  rw [largestBelow?, largest?_eq_none_iff, List.filter_eq_nil_iff]
  simp

/-! ## Registration -/

theorem getElem?_number (g : FlowGraph) (k i : Nat) (ps : List (VertexId × VertexId)) :
    (number g (.ofIndex k) ps)[i]? =
      ps[i]?.map fun p => ⟨.ofIndex (k + i), p.1, p.2, g.regionBetween p.1 p.2⟩ := by
  induction ps generalizing k i with
  | nil => rfl
  | cons p ps ih =>
    -- numbers and positions go up together, also where the numbers start again from zero
    have hnext : (DenseId.ofIndex k : HammockId).next = .ofIndex (k + 1) := by
      rw [← DenseId.index_inj, DenseId.index_next, DenseId.index_ofIndex, DenseId.index_ofIndex,
        Nat.mod_add_mod]
    rw [number, hnext]
    cases i with
    | zero => rfl
    | succ i =>
      rw [List.getElem?_cons_succ, List.getElem?_cons_succ, ih, Nat.add_assoc, Nat.add_comm 1 i]

/-- The registered hammocks are the pairs by position, each with its region. -/
theorem get?_register {b : BoundaryRelation} :
    (register g b).value.get? id = some x ↔
      ∃ s e, b.pairs[id.index]? = some (s, e) ∧ x = ⟨id, s, e, g.regionBetween s e⟩ := by
  have hfirst : (DenseId.first : HammockId) = .ofIndex 0 := rfl
  rw [get?, register, List.getElem?_toArray, hfirst, getElem?_number, Nat.zero_add,
    DenseId.ofIndex_index, Option.map_eq_some_iff]
  constructor
  · rintro ⟨⟨s, e⟩, hp, rfl⟩
    exact ⟨s, e, hp, rfl⟩
  · rintro ⟨s, e, hp, rfl⟩
    exact ⟨(s, e), hp, rfl⟩

/-- Hammocks are numbered in the order of their bounds. -/
theorem lex_bounds_of_lt {b : BoundaryRelation} (hx : (register g b).value.get? i = some x)
    (hy : (register g b).value.get? j = some y) (hij : i < j) :
    Prod.Lex (· < ·) (· < ·) x.bounds y.bounds := by
  obtain ⟨s, e, hi, rfl⟩ := get?_register.1 hx
  obtain ⟨s', e', hj, rfl⟩ := get?_register.1 hy
  obtain ⟨hilt, hi⟩ := List.getElem?_eq_some_iff.1 hi
  obtain ⟨hjlt, hj⟩ := List.getElem?_eq_some_iff.1 hj
  have hlex := List.pairwise_iff_getElem.1 b.pairwise_pairs _ _ hilt hjlt
    (DenseId.lt_iff_index_lt.1 hij)
  rwa [hi, hj] at hlex

/-! ## Nested hammocks -/

/-- The bodies are the regions between entries and exits, no two hammocks share an entry, and a
hammock that begins inside another one, before its exit, lies inside and leaves out that exit. -/
structure Nests (r : HammockRegistry) (g : FlowGraph) : Prop where
  body_eq : ∀ {id x}, r.get? id = some x → x.body = g.regionBetween x.entry x.exit
  exit_mem : ∀ {id x}, r.get? id = some x → x.exit ∈ x.body
  entry_inj : ∀ {i j x y}, r.get? i = some x → r.get? j = some y → x.entry = y.entry → i = j
  inside : ∀ {i j x y}, r.get? i = some x → r.get? j = some y → i ≠ j → y.entry ∈ x.body →
    y.entry ≠ x.exit → y.body ⊆ x.body ∧ x.exit ∉ y.body
  entry_ne_exit : ∀ {i j x y}, r.get? i = some x → r.get? j = some y → y.body ⊆ x.body →
    y.entry ≠ x.exit

/-- A hammock covers the region between its entry and its exit. -/
theorem Nests.mem_coverage_iff (hn : r.Nests g) (hx : r.get? i = some x) :
    v ∈ r.coverage i ↔ v ∈ g.regionBetween x.entry x.exit := by
  rw [mem_coverage hx, hn.body_eq hx]

/-- What a walk may meet at a vertex is the only hammock that starts there. -/
theorem Nests.largestBelow?_eq_some_iff (hn : r.Nests g) :
    r.largestBelow? v bound = some c ↔ c ∈ r.startedAt v ∧ r.sizeOf c < bound := by
  refine ⟨of_largestBelow?, fun ⟨hstart, hsize⟩ => ?_⟩
  cases hd : r.largestBelow? v bound with
  | none => exact absurd hsize (Nat.not_lt_of_le (largestBelow?_eq_none_iff.1 hd c hstart))
  | some d =>
    obtain ⟨x, hx, hxv⟩ := exists_get?_of_largestBelow? hd
    obtain ⟨y, hy, hyv⟩ := mem_startedAt.1 hstart
    exact congrArg some (hn.entry_inj hx hy (hxv.trans hyv.symm))

variable {source sink : VertexId} {mask : Option BoundaryMask} {mode : SweepMode}
variable {a : BoundaryAnalysis}

/-- The registered hammocks of an analysis are its minimal pairs with their regions. -/
theorem minimalPair_of_get?
    (h : (g.analyseBoundaries source sink mask mode).run.value = .ok a)
    (hx : (register g a.minimal).value.get? id = some x) :
    g.MinimalPair source sink (admittedBy mask source sink) x.entry x.exit ∧
      x.body = g.regionBetween x.entry x.exit := by
  obtain ⟨s, e, hp, rfl⟩ := get?_register.1 hx
  have he := BoundaryRelation.mem_pairs.1 (List.mem_of_getElem? hp)
  exact ⟨(FlowGraph.mem_exits_minimal_iff h).1 he, rfl⟩

/-- Hammocks with the same bounds are the same hammock. -/
theorem eq_of_bounds_eq {b : BoundaryRelation} (hx : (register g b).value.get? i = some x)
    (hy : (register g b).value.get? j = some y) (hentry : x.entry = y.entry)
    (hexit : x.exit = y.exit) : i = j := by
  obtain ⟨s, e, hi, rfl⟩ := get?_register.1 hx
  obtain ⟨s', e', hj, rfl⟩ := get?_register.1 hy
  simp only at hentry hexit
  subst hentry hexit
  have hlt := (List.getElem?_eq_some_iff.1 hi).1
  exact DenseId.index_inj.1 ((List.getElem?_inj hlt b.nodup_pairs).1 (hi.trans hj.symm))

/-- The hammocks of an analysis are nested. -/
theorem nests_register (h : (g.analyseBoundaries source sink mask mode).run.value = .ok a) :
    (register g a.minimal).value.Nests g := by
  have hg := FlowGraph.flows_of_analyseBoundaries h
  have hinj : ∀ {i j x y}, (register g a.minimal).value.get? i = some x →
      (register g a.minimal).value.get? j = some y → x.entry = y.entry → i = j := by
    intro i j x y hx hy hentry
    have hexit := (minimalPair_of_get? h hx).1.exit_unique hg
      (hentry ▸ (minimalPair_of_get? h hy).1)
    exact eq_of_bounds_eq hx hy hentry hexit
  refine ⟨fun hx => (minimalPair_of_get? h hx).2, fun hx => ?_, hinj,
    fun hx hy hne hmem hexit => ?_, fun hx hy hsub => ?_⟩
  · obtain ⟨hpair, hbody⟩ := minimalPair_of_get? h hx
    rw [hbody]
    exact hpair.toCandidate.exit_mem_region hg
  · obtain ⟨hpair, hbody⟩ := minimalPair_of_get? h hx
    obtain ⟨hpair', hbody'⟩ := minimalPair_of_get? h hy
    rw [hbody] at hmem ⊢
    rw [hbody']
    have hentry := fun heq => hne (hinj hx hy heq)
    exact ⟨hpair.region_subset hg hpair' hmem hexit hentry,
      hpair.exit_not_mem hg hpair' hmem hexit hentry⟩
  · obtain ⟨hpair, hbody⟩ := minimalPair_of_get? h hx
    obtain ⟨hpair', hbody'⟩ := minimalPair_of_get? h hy
    rw [hbody, hbody'] at hsub
    exact hpair.entry_ne_exit_of_subset hg hpair' hsub

/-- Between a source and another sink there is a hammock. -/
theorem exists_registered (h : (g.analyseBoundaries source sink mask mode).run.value = .ok a)
    (hne : source ≠ sink) : ∃ x, (register g a.minimal).value.get? .first = some x := by
  have hg := FlowGraph.flows_of_analyseBoundaries h
  -- the source and the sink are a candidate, so minimal pairs lead from one to the other
  have hleads : a.minimal.Leads source sink := by
    rw [FlowGraph.leads_minimal_iff h, FlowGraph.contains_candidates_iff h]
    exact hg.candidate hne
  obtain ⟨e, he, _⟩ := TransGen.head'_iff.1 hleads
  have hpair := BoundaryRelation.mem_pairs.2 he
  cases hpairs : a.minimal.pairs with
  | nil => simp [hpairs] at hpair
  | cons p ps =>
    refine ⟨⟨.first, p.1, p.2, g.regionBetween p.1 p.2⟩, get?_register.2 ⟨p.1, p.2, ?_, rfl⟩⟩
    rw [hpairs]
    rfl

end HammockRegistry

end FlowRegions
