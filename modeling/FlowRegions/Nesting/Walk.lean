import FlowRegions.Hammock.Registry

/-! # Walks in search of nested hammocks

The children of a hammock are found by a breadth-first walk from its entry. Where a smaller
hammock starts, the walk jumps over its body to its exit; elsewhere it goes on to the successors.
It never goes on from the exit of its own hammock. A walk stops at each hammock that is not
attached yet and can be resumed after it (`Walk.advance`).
-/

namespace FlowRegions

/-- A breadth-first walk through the body of a hammock that may be resumed. -/
structure Walk where
  /-- The hammock whose children are sought. -/
  host : HammockId
  /-- The vertices still to be considered, in order. -/
  queue : List VertexId
  /-- The vertices that have ever been queued. -/
  visited : VertexSet
deriving DecidableEq

namespace Walk

/-- Queues a vertex unless it has been queued before. -/
def enqueue (w : Walk) (v : VertexId) : Walk :=
  if v ∈ w.visited then w
  else { w with queue := w.queue ++ [v], visited := insert v w.visited }

/-- Queues the exit of a hammock. -/
def enqueueExit (w : Walk) (r : HammockRegistry) (id : HammockId) : Walk :=
  match r.get? id with
  | some h => w.enqueue h.exit
  | none => w

/-- The walk through a hammock before its first step. -/
def begin (r : HammockRegistry) (id : HammockId) : Walk :=
  match r.get? id with
  | some h => enqueue ⟨id, [], ∅⟩ h.entry
  | none => ⟨id, [], ∅⟩

/-- How many vertices the walk may still consider. -/
def pending (w : Walk) : Nat := w.queue.length + (idCount - w.visited.card)

@[simp] theorem host_enqueue (w : Walk) (v : VertexId) : (w.enqueue v).host = w.host := by
  rw [enqueue]
  split <;> rfl

@[simp] theorem pending_enqueue (w : Walk) (v : VertexId) : (w.enqueue v).pending = w.pending := by
  rw [enqueue]
  split
  · rfl
  · next h =>
    have hcard := IdSet.card_insert h
    have hle := (insert v w.visited).card_le
    simp only [pending, List.length_append, List.length_singleton]
    omega

@[simp] theorem host_foldl_enqueue (w : Walk) (vs : List VertexId) :
    (vs.foldl enqueue w).host = w.host := by
  induction vs generalizing w with
  | nil => rfl
  | cons v vs ih => rw [List.foldl_cons, ih, host_enqueue]

@[simp] theorem pending_foldl_enqueue (w : Walk) (vs : List VertexId) :
    (vs.foldl enqueue w).pending = w.pending := by
  induction vs generalizing w with
  | nil => rfl
  | cons v vs ih => rw [List.foldl_cons, ih, pending_enqueue]

@[simp] theorem host_enqueueExit (w : Walk) (r : HammockRegistry) (id : HammockId) :
    (w.enqueueExit r id).host = w.host := by
  rw [enqueueExit]
  split
  · exact host_enqueue w _
  · rfl

@[simp] theorem pending_enqueueExit (w : Walk) (r : HammockRegistry) (id : HammockId) :
    (w.enqueueExit r id).pending = w.pending := by
  rw [enqueueExit]
  split
  · exact pending_enqueue w _
  · rfl

@[simp] theorem host_begin (r : HammockRegistry) (id : HammockId) : (begin r id).host = id := by
  rw [begin]
  split
  · exact host_enqueue _ _
  · rfl

theorem pending_dequeue {w : Walk} {v : VertexId} {rest : List VertexId}
    (h : w.queue = v :: rest) : (⟨w.host, rest, w.visited⟩ : Walk).pending < w.pending := by
  simp only [pending, h, List.length_cons]
  omega

/-- Resumes a walk until it meets a hammock that is not attached yet, which it returns together
with the rest of the walk, or until there are no more vertices. -/
def advance (g : FlowGraph) (r : HammockRegistry) (attached : HammockSet) (w : Walk) :
    Option (HammockId × Walk) :=
  match _hq : w.queue with
  | [] => none
  | v :: rest =>
    if r.isExit w.host v then advance g r attached ⟨w.host, rest, w.visited⟩
    else
      match r.largestBelow? v (r.sizeOf w.host) with
      | some c =>
        if c ∈ attached then
          advance g r attached (enqueueExit ⟨w.host, rest, w.visited⟩ r c)
        else some (c, enqueueExit ⟨w.host, rest, w.visited⟩ r c)
      | none => advance g r attached ((g.successors v).foldl enqueue ⟨w.host, rest, w.visited⟩)
termination_by w.pending
decreasing_by
  · exact pending_dequeue _hq
  · rw [pending_enqueueExit]
    exact pending_dequeue _hq
  · rw [pending_foldl_enqueue]
    exact pending_dequeue _hq

/-- A walk stops only at hammocks that are not attached and smaller than its own, and it goes on
in the same hammock. -/
theorem of_advance {g : FlowGraph} {r : HammockRegistry} {attached : HammockSet} {w w' : Walk}
    {c : HammockId} (h : w.advance g r attached = some (c, w')) :
    c ∉ attached ∧ r.sizeOf c < r.sizeOf w.host ∧ w'.host = w.host := by
  fun_induction advance g r attached w with
  | case1 w hq => cases h
  | case2 w v rest hq hexit ih => exact ih h
  | case3 w v rest hq hexit c hc hatt ih =>
    rw [host_enqueueExit] at ih
    exact ih h
  | case4 w v rest hq hexit c hc hatt =>
    cases h
    exact ⟨hatt, HammockRegistry.sizeOf_lt_of_largestBelow? hc, host_enqueueExit _ _ _⟩
  | case5 w v rest hq hexit hc ih =>
    rw [host_foldl_enqueue] at ih
    exact ih h

end Walk

end FlowRegions
