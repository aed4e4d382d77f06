import FlowRegions.Proofs.Irredundance
import FlowRegions.QueueSearch

/-!
# The search for a detour

A detour from an entry to an exit is a series that does not use the pair of the two. The search for
one takes vertices from a queue and leaves out the direct step where it is at the entry, so it finds
exactly the series of the relation without that pair (`series_removeExits_iff`). It may come back to
the entry, but it need not: whatever the search would find from there it has found before. A series
of one pair could only be the direct one, so every detour has at least two pairs
(`reachesAvoidingDirect_iff_exists_series`).
-/

namespace FlowRegions

open Relation

namespace BoundaryRelation

variable {r : BoundaryRelation} {s e v w x y : VertexId} {between : List VertexId}

/-! ## Series without a pair -/

/-- The pairs of which a series is made, in order. -/
def pairsOf (s e : VertexId) (between : List VertexId) : List (VertexId × VertexId) :=
  (s :: between).zip (between ++ [e])

theorem mem_exits_removeExits_singleton :
    w ∈ (r.removeExits x {y}).exits v ↔ w ∈ r.exits v ∧ ¬ (v = x ∧ w = y) := by
  rw [exits_removeExits]
  by_cases hv : v = x <;> simp [hv]

/-- The series that are left without a pair are those that do not use it. -/
theorem series_removeExits_iff :
    (r.removeExits x {y}).Series s e between ↔
      r.Series s e between ∧ (x, y) ∉ pairsOf s e between := by
  induction between generalizing s with
  | nil =>
    rw [series_nil, series_nil, mem_exits_removeExits_singleton]
    simp [pairsOf, eq_comm]
  | cons m ms ih =>
    rw [series_cons, series_cons, ih, mem_exits_removeExits_singleton]
    have hpairs : pairsOf s e (m :: ms) = (s, m) :: pairsOf m e ms := rfl
    rw [hpairs, List.mem_cons, Prod.mk.injEq, not_or, eq_comm (a := x), eq_comm (a := y)]
    tauto

/-- There is a detour exactly when the relation without the direct pair leads to the exit. -/
theorem reachesAvoidingDirect_iff_leads :
    r.reachesAvoidingDirect s e = true ↔ s = e ∨ (r.removeExits s {e}).Leads s e := by
  rw [reachesAvoidingDirect_iff_connected, reflTransGen_iff_eq_or_transGen, eq_comm]
  have hsteps : (fun a b => r.contains a b = true ∧ ¬ (a = s ∧ b = e)) =
      fun a b => b ∈ (r.removeExits s {e}).exits a := by
    funext a b
    rw [contains_iff, mem_exits_removeExits_singleton]
  rw [hsteps]
  rfl

/-- Detours are the series of two pairs or more that do not use the direct pair. -/
theorem reachesAvoidingDirect_iff_exists_series :
    r.reachesAvoidingDirect s e = true ↔
      s = e ∨ ∃ between, between ≠ [] ∧ r.Series s e between ∧
        (s, e) ∉ pairsOf s e between := by
  rw [reachesAvoidingDirect_iff_leads, leads_iff_exists_series]
  simp only [series_removeExits_iff]
  refine or_congr_right (exists_congr fun between => ⟨fun h => ⟨?_, h⟩, And.right⟩)
  -- the only pair of a series through no vertex is the direct one
  rintro rfl
  exact h.2 (List.mem_singleton.2 rfl)

/-! ## The search with a queue -/

/-- The vertices that the search for a detour visits from a vertex, in order. -/
def nextAvoiding (r : BoundaryRelation) (s e v : VertexId) : List VertexId :=
  (r.stepsAvoiding s e v).toList

/-- Whether a search with a queue comes from an entry to an exit without the direct step. -/
def searchAvoidingDirect (r : BoundaryRelation) (s e : VertexId) : Bool :=
  QueueSearch.meets (r.nextAvoiding s e) e (.start s)

theorem searchAvoidingDirect_eq (r : BoundaryRelation) (s e : VertexId) :
    r.searchAvoidingDirect s e = r.reachesAvoidingDirect s e := by
  have hsteps : (fun v => IdSet.ofList (r.nextAvoiding s e v)) = r.stepsAvoiding s e :=
    funext fun _ => IdSet.ofList_toList _
  rw [Bool.eq_iff_iff, reachesAvoidingDirect_iff, searchAvoidingDirect, QueueSearch.meets_start,
    hsteps]

/-- Whatever the relation, with cycles, pairs of a vertex with itself and exits out of range: there
is no endless sequence of turns in the search for a detour. It answers yes exactly when the two
vertices are one or a series of two pairs or more leads from one to the other that does not use the
pair of the two. -/
theorem detour_search_answers (r : BoundaryRelation) (s e : VertexId) :
    (WellFounded fun q' q : QueueSearch .vertex =>
      ∃ v, q.turn? (r.nextAvoiding s e) = some (v, q')) ∧
    r.searchAvoidingDirect s e = r.reachesAvoidingDirect s e ∧
    (r.reachesAvoidingDirect s e = true ↔
      s = e ∨ ∃ between, between ≠ [] ∧ r.Series s e between ∧
        (s, e) ∉ pairsOf s e between) :=
  ⟨QueueSearch.wellFounded_turn? _, r.searchAvoidingDirect_eq s e,
    reachesAvoidingDirect_iff_exists_series⟩

/-- The search finds a detour between two vertices that are paired both ways. It finds none to the
exit out of range, to which every series ends with the direct pair, also one that comes back to the
entry before. -/
theorem whirl_searched :
    (∃ between, between ≠ [] ∧ whirl.Series ⟨0⟩ ⟨1⟩ between ∧
        (⟨0⟩, ⟨1⟩) ∉ pairsOf ⟨0⟩ ⟨1⟩ between) ∧
      whirl.Series ⟨2⟩ ⟨9⟩ [⟨0⟩, ⟨2⟩] ∧ whirl.searchAvoidingDirect ⟨2⟩ ⟨9⟩ = false ∧
      ¬ ∃ between, between ≠ [] ∧ whirl.Series ⟨2⟩ ⟨9⟩ between ∧
        (⟨2⟩, ⟨9⟩) ∉ pairsOf ⟨2⟩ ⟨9⟩ between := by
  obtain ⟨_, _, hfound⟩ := detour_search_answers whirl ⟨0⟩ ⟨1⟩
  obtain ⟨_, hsearch, hnone⟩ := detour_search_answers whirl ⟨2⟩ ⟨9⟩
  have hanswer : whirl.reachesAvoidingDirect ⟨2⟩ ⟨9⟩ = false := by decide +kernel
  refine ⟨(hfound.1 (by decide +kernel)).resolve_left (by decide), ?_, hsearch.trans hanswer,
    fun h => ?_⟩
  · simp only [series_cons, series_nil]
    decide +kernel
  · rw [hanswer] at hnone
    exact absurd (hnone.2 (.inr h)) Bool.false_ne_true

end BoundaryRelation

end FlowRegions
