import FlowRegions.Hammock.Registry

/-! # Measuring hammocks on one index

All hammocks of a graph can be measured on one index that lists, for every vertex, the hammocks that
cover it. A breadth-first walk from the entry notes its hammock at every vertex that it queues, and
it queues no vertex where its hammock is noted already. So one index serves all walks as the record
of what they have visited. A walk counts the vertices that it takes from its queue, and it does not
go on from the exit.
-/

namespace FlowRegions

namespace VertexTable

/-- The vertices at which a hammock is noted. -/
def coveredBy (t : VertexTable HammockSet) (id : HammockId) : VertexSet :=
  .ofList (t.vertices.filter fun v => id ∈ t.getD v ∅)

variable {t : VertexTable HammockSet} {id id' : HammockId} {v w : VertexId}

@[simp] theorem mem_coveredBy : v ∈ t.coveredBy id ↔ id ∈ t.getD v ∅ := by
  rw [coveredBy, IdSet.mem_ofList, List.mem_filter, mem_vertices, decide_eq_true_iff]
  refine and_iff_right_of_imp fun hid => Decidable.of_not_not fun hrow => ?_
  rw [getD_eq_default (Bool.eq_false_iff.2 hrow)] at hid
  exact IdSet.not_mem_empty id hid

/-- One more vertex is covered where a hammock is noted. -/
theorem coveredBy_modify_insert (hv : t.hasRow v = true) :
    (t.modify v (insert id)).coveredBy id = insert v (t.coveredBy id) := by
  refine IdSet.ext fun w => ?_
  rw [mem_coveredBy, getD_modify hv, IdSet.mem_insert, mem_coveredBy]
  split
  · next hwv => simp [hwv]
  · next hwv => simp [hwv]

/-- What is noted of one hammock says nothing about the others. -/
theorem coveredBy_modify_insert_of_ne (hne : id' ≠ id) :
    (t.modify v (insert id)).coveredBy id' = t.coveredBy id' := by
  refine IdSet.ext fun w => ?_
  rw [mem_coveredBy, mem_coveredBy, getD, get?_modify]
  split
  · next hwv =>
    subst hwv
    cases h : t.get? w <;> simp [getD, h, hne]
  · rfl

end VertexTable

/-- A walk that measures a hammock: what is noted on the index, and the vertices to be considered,
in order. -/
structure MeasuringWalk where
  containing : VertexTable HammockSet
  queue : List VertexId

namespace MeasuringWalk

variable {id id' : HammockId} {w : MeasuringWalk} {v : VertexId} {vs : List VertexId}

/-- Notes the hammock at a vertex and queues the vertex, unless this has been done before. -/
def visit (id : HammockId) (w : MeasuringWalk) (v : VertexId) : MeasuringWalk :=
  if w.containing.hasRow v && id ∉ w.containing.getD v ∅ then
    ⟨w.containing.modify v (insert id), w.queue ++ [v]⟩
  else w

/-- The vertices that the walk has ever queued. -/
def visited (w : MeasuringWalk) (id : HammockId) : VertexSet := w.containing.coveredBy id

/-- How many vertices the walk may still consider. -/
def pending (w : MeasuringWalk) (id : HammockId) : Nat :=
  w.queue.length + (idCount - (w.visited id).card)

theorem visit_of_not_mem (hv : w.containing.hasRow v = true) (hnew : v ∉ w.visited id) :
    w.visit id v = ⟨w.containing.modify v (insert id), w.queue ++ [v]⟩ := by
  rw [visited, VertexTable.mem_coveredBy] at hnew
  rw [visit, hv, Bool.true_and, if_pos (decide_eq_true hnew)]

theorem visit_eq_self (h : ¬ (w.containing.hasRow v = true ∧ v ∉ w.visited id)) :
    w.visit id v = w := by
  rw [visited, VertexTable.mem_coveredBy] at h
  rw [visit, if_neg]
  rwa [Bool.and_eq_true, decide_eq_true_iff]

/-- As many vertices are queued as are visited for the first time. -/
theorem length_queue_visit (id : HammockId) (w : MeasuringWalk) (v : VertexId) :
    (w.visit id v).queue.length + (w.visited id).card =
      w.queue.length + ((w.visit id v).visited id).card := by
  by_cases h : w.containing.hasRow v = true ∧ v ∉ w.visited id
  · have hcard := IdSet.card_insert h.2
    rw [visited, ← VertexTable.coveredBy_modify_insert h.1] at hcard
    rw [visit_of_not_mem h.1 h.2]
    simp only [visited, hcard, List.length_append, List.length_singleton]
    omega
  · rw [visit_eq_self h]

theorem length_queue_foldl_visit (id : HammockId) (w : MeasuringWalk) (vs : List VertexId) :
    (vs.foldl (visit id) w).queue.length + (w.visited id).card =
      w.queue.length + ((vs.foldl (visit id) w).visited id).card := by
  induction vs generalizing w with
  | nil => rfl
  | cons v vs ih =>
    have hfirst := length_queue_visit id w v
    have hrest := ih (w.visit id v)
    rw [List.foldl_cons]
    omega

theorem pending_foldl_visit (id : HammockId) (w : MeasuringWalk) (vs : List VertexId) :
    (vs.foldl (visit id) w).pending id = w.pending id := by
  have hlen := length_queue_foldl_visit id w vs
  have hle := (w.visited id).card_le
  have hle' := ((vs.foldl (visit id) w).visited id).card_le
  simp only [pending]
  omega

/-- Takes vertices from the queue until there are none, counts them and does not go on from the
exit. -/
def run (g : FlowGraph) (id : HammockId) (exit : VertexId) (w : MeasuringWalk) (count : Nat) :
    VertexTable HammockSet × Nat :=
  match _hq : w.queue with
  | [] => (w.containing, count)
  | v :: rest =>
    if v = exit then run g id exit ⟨w.containing, rest⟩ (count + 1)
    else run g id exit ((g.successors v).foldl (visit id) ⟨w.containing, rest⟩) (count + 1)
termination_by w.pending id
decreasing_by
  · simp only [pending, visited, _hq, List.length_cons]
    omega
  · rw [pending_foldl_visit]
    simp only [pending, visited, _hq, List.length_cons]
    omega

end MeasuringWalk

/-- For every vertex the hammocks that cover it and the hammocks that start there, as far as they
have been measured. -/
structure VertexIndex where
  containing : VertexTable HammockSet
  startedAt : VertexTable HammockSet
deriving DecidableEq

namespace VertexIndex

/-- The index of the vertices of a graph before any hammock has been measured. -/
def empty (g : FlowGraph) : VertexIndex :=
  ⟨g.successorTable.map fun _ => ∅, g.successorTable.map fun _ => ∅⟩

/-- Measures a hammock by a walk from its entry, and returns its size with the index. -/
def measure (g : FlowGraph) (x : VertexIndex) (id : HammockId) (entry exit : VertexId) :
    VertexIndex × Nat :=
  let (containing, size) :=
    MeasuringWalk.run g id exit ⟨x.containing.modify entry (insert id), [entry]⟩ 0
  (⟨containing, x.startedAt.modify entry (insert id)⟩, size)

/-- Measures hammocks of which only the bounds are known, one after the other on the same index. -/
def measureAll (g : FlowGraph) (x : VertexIndex) :
    List (HammockId × VertexId × VertexId) → VertexIndex × List Nat
  | [] => (x, [])
  | (id, entry, exit) :: rest =>
    let (next, size) := x.measure g id entry exit
    let (last, sizes) := next.measureAll g rest
    (last, size :: sizes)

end VertexIndex

/-- What is known of the hammocks before they are measured. -/
def HammockRegistry.outline (r : HammockRegistry) : List (HammockId × VertexId × VertexId) :=
  r.hammocks.toList.map fun x => (x.id, x.bounds)

end FlowRegions
