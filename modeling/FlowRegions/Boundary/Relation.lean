import FlowRegions.Search
import FlowRegions.VertexTable

/-! # Boundary relations

A boundary relation pairs entries with exits: for every vertex below some count it holds the set
of the exits paired with it. Exits are arbitrary vertices. A relation is determined by its pairs,
which are listed in ascending order of entry and exit.
-/

namespace FlowRegions

/-- A set of pairs of an entry and an exit. -/
@[ext] structure BoundaryRelation where
  /-- The exits paired with each entry. -/
  exitTable : VertexTable VertexSet
deriving DecidableEq

namespace BoundaryRelation

/-- The relation without pairs whose entries are the vertices below a count. -/
def new (count : UInt32) : BoundaryRelation := ⟨.replicate count ∅⟩

/-- The number of vertices that may be entries. -/
def vertexCount (r : BoundaryRelation) : Nat := r.exitTable.size

/-- The vertices that may be entries, ascending. -/
def vertices (r : BoundaryRelation) : List VertexId := r.exitTable.vertices

/-- The exits paired with a vertex. -/
def exits (r : BoundaryRelation) (entry : VertexId) : VertexSet := r.exitTable.getD entry ∅

/-- Whether an entry and an exit are paired. -/
def contains (r : BoundaryRelation) (entry exit : VertexId) : Bool := exit ∈ r.exits entry

/-- The pairs in ascending order of entry, then exit. -/
def pairs (r : BoundaryRelation) : List (VertexId × VertexId) :=
  r.vertices.flatMap fun entry => (r.exits entry).toList.map fun exit => (entry, exit)

/-- The number of pairs. -/
def size (r : BoundaryRelation) : Nat := r.exitTable.total IdSet.card

/-- Whether there are no pairs. -/
def isEmpty (r : BoundaryRelation) : Bool := r.size == 0

/-- The relation with one more pair, unless its entry is out of range. -/
def insert (r : BoundaryRelation) (entry exit : VertexId) : BoundaryRelation :=
  ⟨r.exitTable.modify entry (Insert.insert exit)⟩

/-- Whether inserting a pair adds it: its entry is in range and the pair is new. -/
def accepts (r : BoundaryRelation) (entry exit : VertexId) : Bool :=
  r.exitTable.hasRow entry && !r.contains entry exit

/-- The relation without some of the exits of an entry. -/
def removeExits (r : BoundaryRelation) (entry : VertexId) (exits : VertexSet) : BoundaryRelation :=
  ⟨r.exitTable.modify entry (· \ exits)⟩

/-- The exits of a vertex, less the direct step from one vertex to another. -/
def stepsAvoiding (r : BoundaryRelation) (entry exit v : VertexId) : VertexSet :=
  if v = entry then (r.exits v).erase exit else r.exits v

/-- Whether the pairs lead from an entry to an exit without the direct step between the two. Every
vertex leads to itself. -/
def reachesAvoidingDirect (r : BoundaryRelation) (entry exit : VertexId) : Bool :=
  entry = exit || Search.finds (r.stepsAvoiding entry exit) exit {entry} {entry}

/-! ## Pairs -/

theorem contains_iff {r : BoundaryRelation} {s e : VertexId} :
    r.contains s e = true ↔ e ∈ r.exits s := decide_eq_true_iff

theorem exits_removeExits (r : BoundaryRelation) (s : VertexId) (es : VertexSet) (v : VertexId) :
    (r.removeExits s es).exits v = if v = s then r.exits v \ es else r.exits v := by
  rw [exits, removeExits, VertexTable.getD, VertexTable.get?_modify]
  by_cases hv : v = s
  · subst hv
    cases h : r.exitTable.get? v with
    | none =>
      have hempty : (∅ : VertexSet) = ∅ \ es := IdSet.ext fun a => by simp
      simpa [exits, VertexTable.getD, h] using hempty
    | some row => simp [exits, VertexTable.getD, h]
  · simp [hv, exits, VertexTable.getD]

@[simp] theorem mem_stepsAvoiding {r : BoundaryRelation} {s e v w : VertexId} :
    w ∈ r.stepsAvoiding s e v ↔ w ∈ r.exits v ∧ ¬ (v = s ∧ w = e) := by
  by_cases h : v = s <;> simp [stepsAvoiding, h]

/-- Other pairs lead from an entry to an exit exactly when a chain of them does. -/
theorem reachesAvoidingDirect_iff {r : BoundaryRelation} {s e : VertexId} :
    r.reachesAvoidingDirect s e = true ↔ Search.Chain (r.stepsAvoiding s e) s e := by
  rw [reachesAvoidingDirect, Bool.or_eq_true, decide_eq_true_iff]
  by_cases hse : s = e
  · subst hse
    exact ⟨fun _ => .refl, fun _ => .inl rfl⟩
  · have hne : e ∉ ({s} : VertexSet) := fun h => hse (IdSet.mem_singleton.1 h).symm
    rw [Search.finds_iff (Search.Layered.start _ s) hne]
    constructor
    · rintro (h | ⟨a, ha, h⟩)
      · exact absurd h hse
      · exact IdSet.mem_singleton.1 ha ▸ h
    · exact fun h => .inr ⟨s, IdSet.mem_singleton.2 rfl, h⟩

end BoundaryRelation

end FlowRegions
