import FlowRegions.FlowGraph.Basic

/-! # Sweeps towards the necessary-passage sets

A sweep narrows, for every vertex but the target, the set of vertices through which its paths to
the target are known to lead: to the vertex itself and to what its old set shares with the sets of
all its successors. Sweeps differ in whether they read the sets that they have already narrowed.
A sweep that narrows nothing is the last. It is known by the total size of the sets (`weight`), or
as a sweep goes along by the size of every single set (`sweepNoting`).
-/

namespace FlowRegions

/-- The order in which a sweep updates the sets. -/
inductive SweepMode where
  /-- One vertex after the other in ascending order, reading what is already updated. -/
  | inPlace
  /-- All vertices from the sets before the sweep. -/
  | snapshot
  /-- All vertices from the sets before the sweep, independently of each other. -/
  | parallelSnapshot
deriving DecidableEq, Repr, Inhabited

/-- The name of a sweep mode. -/
def SweepMode.name : SweepMode → String
  | .inPlace => "InPlace"
  | .snapshot => "Snapshot"
  | .parallelSnapshot => "ParallelSnapshot"

namespace FlowGraph

/-- The set of all vertices. -/
def vertexSet (g : FlowGraph) : VertexSet := ⟨g.vertices, g.successorTable.pairwise_vertices⟩

/-- The sets before the first sweep: every vertex for all but the target, which has itself only. -/
def initialSets (g : FlowGraph) (target : VertexId) : VertexTable VertexSet :=
  let all := g.vertexSet
  g.successorTable.mapVertices fun v _ => if v = target then {target} else all

/-- The narrowed set of a vertex: itself, and what its set shares with those of its other
successors. -/
def meet (g : FlowGraph) (sets : VertexTable VertexSet) (v : VertexId) : VertexSet :=
  insert v ((g.successors v).foldl
    (fun shared w => if w = v then shared else shared ∩ sets.getD w ∅) (sets.getD v ∅))

/-- A sweep that reads the sets it has already narrowed. -/
def sweepInPlace (g : FlowGraph) (target : VertexId) (sets : VertexTable VertexSet) :
    VertexTable VertexSet :=
  g.vertices.foldl (fun sets v => if v = target then sets else sets.set v (g.meet sets v)) sets

/-- A sweep that reads only the sets before it. -/
def sweepSnapshot (g : FlowGraph) (target : VertexId) (sets : VertexTable VertexSet) :
    VertexTable VertexSet :=
  sets.mapVertices fun v old => if v = target then old else g.meet sets v

/-- One sweep in the given mode. Independent updates give the same sets in any schedule. -/
def sweep (g : FlowGraph) (mode : SweepMode) (target : VertexId)
    (sets : VertexTable VertexSet) : VertexTable VertexSet :=
  match mode with
  | .inPlace => g.sweepInPlace target sets
  | .snapshot => g.sweepSnapshot target sets
  | .parallelSnapshot => g.sweepSnapshot target sets

/-! ## Sweeps that note changes -/

/-- Updates the set of a vertex, the target's excepted, and notes whether its size has changed. -/
def narrowNoting (g : FlowGraph) (target : VertexId) (s : VertexTable VertexSet × Bool)
    (v : VertexId) : VertexTable VertexSet × Bool :=
  if v = target then s
  else
    let narrowed := g.meet s.1 v
    (s.1.set v narrowed, s.2 || narrowed.card != (s.1.getD v ∅).card)

/-- Whether some set has another size in a second table. -/
def resized (before after : VertexTable VertexSet) : Bool :=
  (before.toList.zip after.toList).any fun s => s.1.card != s.2.card

/-- One sweep that notes whether some set has changed its size: set by set where it reads what is
already updated, otherwise when all are updated. -/
def sweepNoting (g : FlowGraph) (mode : SweepMode) (target : VertexId)
    (sets : VertexTable VertexSet) : VertexTable VertexSet × Bool :=
  match mode with
  | .inPlace => g.vertices.foldl (g.narrowNoting target) (sets, false)
  | .snapshot | .parallelSnapshot =>
    let swept := g.sweepSnapshot target sets
    (swept, resized sets swept)

/-! ## The test for a quiet sweep -/

/-- The total number of members; sets only shrink, so a sweep that keeps it changes nothing. -/
def weight (sets : VertexTable VertexSet) : Nat := sets.total IdSet.card

/-! ## Narrowed sets -/

@[simp] theorem mem_vertexSet {g : FlowGraph} {v : VertexId} :
    v ∈ g.vertexSet ↔ g.contains v = true := mem_vertices

theorem get?_initialSets (g : FlowGraph) (target v : VertexId) :
    (g.initialSets target).get? v =
      if g.contains v then some (if v = target then {target} else g.vertexSet) else none := by
  rw [initialSets, VertexTable.get?_mapVertices, contains, ← VertexTable.isSome_get?]
  cases g.successorTable.get? v <;> rfl

/-- A narrowed set keeps the vertex itself and what all the sets have in common. -/
theorem mem_meet {g : FlowGraph} {sets : VertexTable VertexSet} {v u : VertexId} :
    u ∈ g.meet sets v ↔ u = v ∨
      (u ∈ sets.getD v ∅ ∧ ∀ w ∈ g.successors v, w ≠ v → u ∈ sets.getD w ∅) := by
  suffices hfold : ∀ (ws : List VertexId) (shared : VertexSet),
      u ∈ ws.foldl (fun shared w => if w = v then shared else shared ∩ sets.getD w ∅) shared ↔
        u ∈ shared ∧ ∀ w ∈ ws, w ≠ v → u ∈ sets.getD w ∅ by
    rw [meet, IdSet.mem_insert, hfold]
  intro ws
  induction ws with
  | nil => simp
  | cons w ws ih =>
    intro shared
    rw [List.foldl_cons, ih]
    by_cases hw : w = v
    · simp [hw]
    · simp [hw, and_assoc]

end FlowGraph

end FlowRegions
