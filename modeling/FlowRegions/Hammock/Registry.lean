import FlowRegions.Boundary.Relation
import FlowRegions.Log.Logged

/-! # The registry of hammocks

The pairs of a boundary relation become hammocks numbered in ascending order of entry and exit,
each with its body in the graph. The registry answers which hammocks cover a vertex and which
start there.
-/

namespace FlowRegions

open Log

/-- The hammocks of a graph, a hammock's identifier being its position. -/
structure HammockRegistry where
  /-- The number of vertices of the graph. -/
  vertexCount : Nat
  hammocks : Array Hammock
deriving DecidableEq

namespace HammockRegistry

/-- The number of hammocks. -/
def size (r : HammockRegistry) : Nat := r.hammocks.size

/-- Whether there are no hammocks. -/
def isEmpty (r : HammockRegistry) : Bool := r.size == 0

/-- The hammock with an identifier. -/
def get? (r : HammockRegistry) (id : HammockId) : Option Hammock := r.hammocks[id.index]?

/-- The identifiers of the hammocks, ascending. -/
def ids (r : HammockRegistry) : List HammockId := (List.range r.size).map .ofIndex

/-- The size of a hammock; nothing has no size. -/
def sizeOf (r : HammockRegistry) (id : HammockId) : Nat := ((r.get? id).map Hammock.size).getD 0

/-- Whether a hammock starts at a vertex. -/
def isEntry (r : HammockRegistry) (id : HammockId) (v : VertexId) : Bool :=
  (r.get? id).any (·.entry = v)

/-- Whether a hammock ends at a vertex. -/
def isExit (r : HammockRegistry) (id : HammockId) (v : VertexId) : Bool :=
  (r.get? id).any (·.exit = v)

/-- Whether a hammock covers a vertex. -/
def covers (r : HammockRegistry) (id : HammockId) (v : VertexId) : Bool :=
  (r.get? id).any (v ∈ ·.body)

/-- The hammocks that cover a vertex. -/
def containing (r : HammockRegistry) (v : VertexId) : HammockSet :=
  .ofList (r.ids.filter (r.covers · v))

/-- The hammocks that start at a vertex. -/
def startedAt (r : HammockRegistry) (v : VertexId) : HammockSet :=
  .ofList (r.ids.filter (r.isEntry · v))

/-- Whether the exit of one of two different hammocks is the entry of the other. -/
def adjoin (r : HammockRegistry) (a b : HammockId) : Bool :=
  match r.get? a, r.get? b with
  | some ha, some hb => b ≠ a && (ha.exit = hb.entry || ha.entry = hb.exit)
  | _, _ => false

/-- The hammock of greatest size, the first of several. -/
def largest? (r : HammockRegistry) (ids : List HammockId) : Option HammockId :=
  ids.foldl (fun best id =>
    match best with
    | none => some id
    | some b => if r.sizeOf b < r.sizeOf id then some id else some b) none

/-- The largest of the hammocks that start at a vertex and are smaller than a bound; of several,
the one with the lowest identifier. -/
def largestBelow? (r : HammockRegistry) (v : VertexId) (bound : Nat) : Option HammockId :=
  r.largest? ((r.startedAt v).toList.filter (r.sizeOf · < bound))

/-- The hammocks of some boundaries, numbered from an identifier on. -/
def number (g : FlowGraph) : HammockId → List (VertexId × VertexId) → List Hammock
  | _, [] => []
  | id, (entry, exit) :: rest =>
    ⟨id, entry, exit, g.regionBetween entry exit⟩ :: number g id.next rest

/-- Numbers and measures the hammocks with the given boundaries and reports each. -/
def register (g : FlowGraph) (boundaries : BoundaryRelation) : Logged HammockRegistry :=
  let hammocks := number g .first boundaries.pairs
  ⟨⟨g.vertexCount, hammocks.toArray⟩,
    hammocks.map .registered ++ [.registryComplete hammocks.length g.vertexCount]⟩

/-! ## Sizes and choices -/

theorem sizeOf_le (r : HammockRegistry) (id : HammockId) : r.sizeOf id ≤ idCount := by
  rw [sizeOf]
  cases r.get? id with
  | none => exact Nat.zero_le _
  | some h => exact h.body.card_le

theorem isSome_get?_of_mem_ids {r : HammockRegistry} {id : HammockId} (h : id ∈ r.ids) :
    (r.get? id).isSome = true := by
  rw [ids, List.mem_map] at h
  obtain ⟨i, hi, rfl⟩ := h
  rw [List.mem_range] at hi
  have hlt : (DenseId.ofIndex i : HammockId).index < r.hammocks.size := by
    rw [DenseId.index_ofIndex]
    exact Nat.lt_of_le_of_lt (Nat.mod_le _ _) hi
  rw [get?, Array.getElem?_eq_getElem hlt]
  rfl

/-- The largest of some hammocks is one of them. -/
theorem mem_of_largest? {r : HammockRegistry} {ids : List HammockId} {id : HammockId}
    (h : r.largest? ids = some id) : id ∈ ids := by
  suffices hgen : ∀ (best : Option HammockId), (ids.foldl (fun best id =>
      match best with
      | none => some id
      | some b => if r.sizeOf b < r.sizeOf id then some id else some b) best) = some id →
      id ∈ ids ∨ best = some id by
    rcases hgen none h with h | h
    · exact h
    · cases h
  clear h
  induction ids with
  | nil => exact fun best h => .inr h
  | cons a ids ih =>
    intro best h
    rw [List.foldl_cons] at h
    rcases ih _ h with h | h
    · exact .inl (List.mem_cons_of_mem a h)
    · cases best with
      | none => exact .inl (Option.some.inj h ▸ List.mem_cons_self)
      | some b =>
        dsimp only at h
        split at h
        · exact .inl (Option.some.inj h ▸ List.mem_cons_self)
        · exact .inr h

theorem sizeOf_lt_of_largestBelow? {r : HammockRegistry} {v : VertexId} {bound : Nat}
    {id : HammockId} (h : r.largestBelow? v bound = some id) : r.sizeOf id < bound := by
  have := mem_of_largest? h
  rw [List.mem_filter] at this
  exact of_decide_eq_true this.2

end HammockRegistry

end FlowRegions
