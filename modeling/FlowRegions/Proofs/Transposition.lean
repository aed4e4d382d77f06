import FlowRegions.FlowGraph.Transpose
import Mathlib.Algebra.BigOperators.Group.List.Basic
import Mathlib.Data.List.Count
import Mathlib.Data.List.Sort

/-!
# The edges of the reversed graph

Reversing keeps every edge and forgets in which order the edges of a vertex were added: an edge is
in the reversed graph as often as it was in the graph the other way round (`count_transpose`), and
the successors of a vertex come in ascending order (`ordered_transpose`). An ascending list is
determined by how often each vertex is in it, so reversing twice sorts the successors of every
vertex (`transpose_transpose`) and changes nothing where they are sorted (`sorted_eq_self_iff`).

One pass over the edges visits each row with the origins of the edges to its vertex
(`get?_scatter`), so pushing them gives the rows of the reversed graph and counting them the
in-degrees (`pushOrigins_eq`, `toList_countTargets`).
-/

namespace FlowRegions

namespace FlowGraph

variable {g : FlowGraph} {v w : VertexId} {l m : List VertexId}

/-! ## Ascending lists with repetitions -/

/-- Puts vertices in ascending order and keeps repeated ones. -/
def sortVertices (l : List VertexId) : List VertexId :=
  l.mergeSort fun v w => decide (v.index ≤ w.index)

theorem perm_sortVertices (l : List VertexId) : (sortVertices l).Perm l := l.mergeSort_perm _

theorem pairwise_sortVertices (l : List VertexId) :
    (sortVertices l).Pairwise fun v w => v.index ≤ w.index := by
  have htrans : ∀ a b c : VertexId, decide (a.index ≤ b.index) = true →
      decide (b.index ≤ c.index) = true → decide (a.index ≤ c.index) = true := by
    intro a b c hab hbc
    exact decide_eq_true ((of_decide_eq_true hab).trans (of_decide_eq_true hbc))
  have htotal : ∀ a b : VertexId,
      (decide (a.index ≤ b.index) || decide (b.index ≤ a.index)) = true := by
    intro a b
    rw [Bool.or_eq_true, decide_eq_true_iff, decide_eq_true_iff]
    exact Nat.le_total _ _
  exact (List.pairwise_mergeSort htrans htotal l).imp of_decide_eq_true

/-- There is one ascending order of the vertices of a list. -/
theorem eq_of_perm_of_ascending (h : l.Perm m) (hl : l.Pairwise fun v w => v.index ≤ w.index)
    (hm : m.Pairwise fun v w => v.index ≤ w.index) : l = m :=
  h.eq_of_pairwise (fun _ _ _ _ hab hba => DenseId.index_inj.1 (Nat.le_antisymm hab hba)) hl hm

/-! ## Edges -/

/-- How often an edge is in a graph is counted among the successors of its origin. -/
theorem count_edges (g : FlowGraph) (v w : VertexId) :
    g.edges.count (v, w) = (g.successors v).count w := by
  have hrow : ∀ u, ((g.successors u).map fun x => (u, x)).count (v, w) =
      if u = v then (g.successors v).count w else 0 := by
    intro u
    split
    · next h =>
      subst h
      exact List.count_map_of_injective _ _ (fun _ _ h => (Prod.mk.inj h).2) w
    · next h =>
      refine List.count_eq_zero_of_not_mem fun hmem => h ?_
      obtain ⟨x, _, hx⟩ := List.mem_map.1 hmem
      exact (Prod.mk.inj hx).1
  have hsum : g.edges.count (v, w) =
      (g.vertices.map fun u => if u = v then (g.successors v).count w else 0).sum := by
    rw [edges, List.count_flatMap]
    exact congrArg List.sum (List.map_congr_left fun u _ => hrow u)
  rw [hsum, List.sum_map_eq_nsmul_single v _ fun u hu _ => if_neg hu, if_pos rfl]
  by_cases hv : v ∈ g.vertices
  · have hnodup : g.vertices.Nodup := IdSet.nodup_of_ascending g.successorTable.pairwise_vertices
    rw [List.count_eq_one_of_mem hnodup hv, one_nsmul]
  · -- a vertex outside the graph has no successors
    have hnone : w ∉ g.successors v := fun h =>
      hv (mem_vertices.2 (contains_of_successors_ne_nil (List.ne_nil_of_mem h)))
    rw [List.count_eq_zero_of_not_mem hnone, nsmul_zero]

/-- Edges are listed in the order of their origins. -/
theorem pairwise_edges (g : FlowGraph) :
    g.edges.Pairwise fun e f => e.1.index ≤ f.1.index := by
  rw [edges, List.pairwise_flatMap]
  refine ⟨fun v _ => List.pairwise_map.2 (List.pairwise_of_forall fun _ _ => Nat.le_refl _), ?_⟩
  refine g.successorTable.pairwise_vertices.imp fun hvw e he f hf => ?_
  obtain ⟨_, _, rfl⟩ := List.mem_map.1 he
  obtain ⟨_, _, rfl⟩ := List.mem_map.1 hf
  exact Nat.le_of_lt (DenseId.lt_iff_index_lt.1 hvw)

/-! ## Reversed edges -/

/-- The successors of every vertex come in ascending order. -/
def Ordered (g : FlowGraph) : Prop :=
  ∀ v, (g.successors v).Pairwise fun u w => u.index ≤ w.index

/-- An edge is as often in the reversed graph as the other way round in the graph. -/
theorem count_transpose (g : FlowGraph) (v w : VertexId) :
    (g.transpose.successors w).count v = (g.successors v).count w := by
  rw [successors_transpose, predecessors, originsOf, List.count_filterMap, ← count_edges,
    List.count_eq_countP]
  refine List.countP_congr fun e _ => ?_
  by_cases he : e.2 = w <;> simp [he, Prod.ext_iff]

theorem ordered_transpose (g : FlowGraph) : g.transpose.Ordered := by
  intro w
  rw [successors_transpose, predecessors, originsOf, List.pairwise_filterMap]
  refine g.pairwise_edges.imp fun hle v hv v' hv' => ?_
  rw [Option.ite_none_right_eq_some] at hv hv'
  rw [← Option.some.inj hv.2, ← Option.some.inj hv'.2]
  exact hle

/-- There is one predecessor for each edge to a vertex. -/
theorem length_predecessors (g : FlowGraph) (w : VertexId) :
    (g.predecessors w).length = g.inDegree w := by
  rw [predecessors, originsOf, List.length_filterMap_eq_countP, inDegree, countInto]
  refine List.countP_congr fun e _ => ?_
  by_cases he : e.2 = w <;> simp [he]

theorem length_successors_transpose (g : FlowGraph) (w : VertexId) :
    (g.transpose.successors w).length = g.inDegree w := by
  rw [successors_transpose, length_predecessors]

/-- The edges of the reversed graph are the edges the other way round. -/
theorem perm_edges_transpose (g : FlowGraph) :
    g.transpose.edges.Perm (g.edges.map Prod.swap) := by
  refine List.perm_iff_count.2 fun e => ?_
  rw [← Prod.swap_swap e, List.count_map_of_injective _ _ Prod.swap_injective]
  obtain ⟨w, v⟩ := e
  exact (count_edges _ w v).trans ((count_transpose g v w).trans (count_edges g v w).symm)

theorem edgeCount_transpose (g : FlowGraph) : g.transpose.edgeCount = g.edgeCount := by
  rw [← length_edges, ← length_edges, g.perm_edges_transpose.length_eq, List.length_map]

/-! ## One pass over the edges -/

theorem originsOf_cons (e : VertexId × VertexId) (edges : List (VertexId × VertexId))
    (w : VertexId) : originsOf (e :: edges) w =
      if e.2 = w then e.1 :: originsOf edges w else originsOf edges w := by
  rw [originsOf, originsOf, List.filterMap_cons]
  by_cases he : e.2 = w <;> simp [he]

/-- The edges to a vertex change its row one after the other. -/
theorem get?_scatter {α : Type} (f : VertexId → α → α) (edges : List (VertexId × VertexId))
    (t : VertexTable α) (w : VertexId) : (scatter f edges t).get? w =
      (t.get? w).map fun a => (originsOf edges w).foldl (fun a v => f v a) a := by
  rw [scatter]
  induction edges generalizing t with
  | nil => exact Option.map_id'.symm
  | cons e edges ih =>
    rw [List.foldl_cons, ih, VertexTable.get?_modify, originsOf_cons]
    by_cases hw : e.2 = w
    · rw [if_pos hw.symm, if_pos hw, hw, Option.map_map]
      rfl
    · rw [if_neg (Ne.symm hw), if_neg hw]

theorem size_scatter {α : Type} (f : VertexId → α → α) (edges : List (VertexId × VertexId))
    (t : VertexTable α) : (scatter f edges t).size = t.size := by
  rw [scatter]
  induction edges generalizing t with
  | nil => rfl
  | cons e edges ih => rw [List.foldl_cons, ih, VertexTable.size_modify]

theorem toNat_ofNat_vertexCount (g : FlowGraph) :
    (UInt32.ofNat g.vertexCount).toNat = g.vertexCount :=
  UInt32.toNat_ofNat_of_lt' g.successorTable.size_lt_idCount

/-- Each row is what the predecessors have made of its beginning. -/
theorem get?_scatter_edges {α : Type} (f : VertexId → α → α) (a : α) (g : FlowGraph)
    (w : VertexId) : (scatter f g.edges (.replicate (.ofNat g.vertexCount) a)).get? w =
      if g.contains w then some ((g.predecessors w).foldl (fun a v => f v a) a) else none := by
  rw [get?_scatter, VertexTable.get?_replicate, toNat_ofNat_vertexCount]
  by_cases hw : g.contains w = true
  · rw [if_pos (contains_iff.1 hw), if_pos hw]
    rfl
  · rw [if_neg (mt contains_iff.2 hw), if_neg hw]
    rfl

/-- Pushing the origins of the edges gives the rows of the reversed graph. -/
theorem pushOrigins_eq (g : FlowGraph) : g.pushOrigins = g.transpose.successorTable := by
  refine VertexTable.ext_get? fun w => ?_
  have hpush : (g.predecessors w).foldl (fun row v => row ++ [v]) [] = g.predecessors w := by
    rw [List.foldl_append_eq_append, ← List.flatMap_def, List.flatMap_singleton', List.nil_append]
  rw [pushOrigins, get?_scatter_edges, hpush, ← successors_transpose, ← contains_transpose]
  by_cases hw : g.transpose.contains w = true
  · rw [if_pos hw]
    exact (VertexTable.get?_eq_some_getD hw []).symm
  · rw [if_neg hw]
    exact (VertexTable.get?_eq_none_iff.2 (Bool.eq_false_iff.2 hw)).symm

/-- Adding one for each edge gives the numbers of the edges to the vertices. -/
theorem toList_countTargets (g : FlowGraph) : g.countTargets.toList = g.inDegrees := by
  have hsize : g.countTargets.size = g.successorTable.size := by
    rw [countTargets, size_scatter, VertexTable.size_replicate, toNat_ofNat_vertexCount]
    rfl
  rw [← g.countTargets.map_getD_vertices 0, inDegrees, vertices, VertexTable.vertices_congr hsize]
  refine List.map_congr_left fun w hw => ?_
  rw [VertexTable.getD, countTargets, get?_scatter_edges, if_pos (mem_vertices.1 hw),
    Option.getD_some, List.foldl_add_const, Nat.zero_add, Nat.one_mul, length_predecessors]
  rfl

/-! ## Reversing twice -/

/-- The graph with the successors of every vertex put in ascending order. -/
def sorted (g : FlowGraph) : FlowGraph where
  successorTable := g.successorTable.mapVertices fun _ => sortVertices
  closed := closed_mapVertices fun v _ hw =>
    contains_of_mem_successors ((perm_sortVertices (g.successors v)).mem_iff.1 hw)

@[simp] theorem vertexCount_sorted (g : FlowGraph) : g.sorted.vertexCount = g.vertexCount :=
  VertexTable.size_mapVertices _ g.successorTable

theorem successors_sorted (g : FlowGraph) (v : VertexId) :
    g.sorted.successors v = sortVertices (g.successors v) := by
  rw [successors, sorted, VertexTable.getD, VertexTable.get?_mapVertices, successors,
    VertexTable.getD]
  cases g.successorTable.get? v with
  | none => exact List.mergeSort_nil.symm
  | some row => rfl

theorem ordered_sorted (g : FlowGraph) : g.sorted.Ordered := by
  intro v
  rw [successors_sorted]
  exact pairwise_sortVertices _

/-- Sorting changes nothing exactly where the successors are in order. -/
theorem sorted_eq_self_iff : g.sorted = g ↔ g.Ordered := by
  constructor
  · intro h
    rw [← h]
    exact ordered_sorted g
  · intro h
    refine ext_successors (vertexCount_sorted g) fun v => ?_
    rw [successors_sorted]
    exact eq_of_perm_of_ascending (perm_sortVertices _) (pairwise_sortVertices _) (h v)

/-- Reversing twice sorts the successors of every vertex. -/
theorem transpose_transpose (g : FlowGraph) : g.transpose.transpose = g.sorted := by
  have hcount : g.transpose.transpose.vertexCount = g.sorted.vertexCount := by
    rw [vertexCount_transpose, vertexCount_transpose, vertexCount_sorted]
  refine ext_successors hcount fun v => ?_
  have hperm : (g.transpose.transpose.successors v).Perm (g.successors v) := by
    refine List.perm_iff_count.2 fun w => ?_
    rw [count_transpose, count_transpose]
  rw [successors_sorted]
  exact eq_of_perm_of_ascending (hperm.trans (perm_sortVertices _).symm)
    (ordered_transpose _ v) (pairwise_sortVertices _)

/-- In the reversed graph the successors of a vertex are in ascending order and each of them is
listed as often as the vertex is among its successors in the graph. So there is one for every edge
to the vertex, and no edge is lost. The rows and the in-degrees are what one pass over the edges
pushes and counts. Reversing twice sorts the successors of every vertex. Hence
reversing three times is the same as reversing once, and reversing twice gives back exactly the
graphs whose successors are in order. -/
theorem reversing_twice_sorts (g : FlowGraph) :
    (g.transpose.Ordered ∧
      (∀ u w, (g.transpose.successors w).count u = (g.successors u).count w) ∧
      (∀ w, g.contains w = true →
        g.inDegrees[w.index]? = some (g.transpose.successors w).length) ∧
      g.transpose.vertexCount = g.vertexCount ∧ g.transpose.edgeCount = g.edgeCount ∧
      g.pushOrigins = g.transpose.successorTable ∧ g.countTargets.toList = g.inDegrees) ∧
    (g.transpose.transpose = g.sorted ∧ g.sorted.vertexCount = g.vertexCount ∧ g.sorted.Ordered ∧
      ∀ v, (g.sorted.successors v).Perm (g.successors v)) ∧
    g.transpose.transpose.transpose = g.transpose ∧
    (g.transpose.transpose = g ↔ g.Ordered) := by
  refine ⟨⟨ordered_transpose g, count_transpose g, fun w hw => ?_, vertexCount_transpose g,
    edgeCount_transpose g, pushOrigins_eq g, toList_countTargets g⟩,
    ⟨transpose_transpose g, vertexCount_sorted g, ordered_sorted g, fun v => ?_⟩, ?_, ?_⟩
  · rw [inDegrees, List.getElem?_map, vertices, VertexTable.getElem?_vertices hw,
      length_successors_transpose]
    rfl
  · rw [successors_sorted]
    exact perm_sortVertices _
  · rw [transpose_transpose]
    exact sorted_eq_self_iff.2 (ordered_transpose g)
  · rw [transpose_transpose]
    exact sorted_eq_self_iff

/-- Two parallel edges with another one between them, a loop and an edge back. -/
def tangle : FlowGraph :=
  ((new 3).addEdges [(⟨0⟩, ⟨2⟩), (⟨0⟩, ⟨1⟩), (⟨0⟩, ⟨2⟩), (⟨1⟩, ⟨1⟩), (⟨2⟩, ⟨0⟩)]).toOption.getD
    default

/-- Two edges lead to the last vertex. Reversing twice brings the parallel edges together, and
reversing once more changes nothing. -/
theorem parallel_edges_brought_together :
    tangle.contains ⟨2⟩ = true ∧
      tangle.inDegrees[2]? = some (tangle.transpose.successors ⟨2⟩).length ∧
      (tangle.transpose.successors ⟨2⟩).count ⟨0⟩ = 2 ∧
      tangle.transpose.transpose ≠ tangle ∧
      tangle.transpose.transpose.transpose = tangle.transpose := by
  have htwo : tangle.contains ⟨2⟩ = true := by decide +kernel
  obtain ⟨⟨_, hcount, hdegree, _⟩, _, hthrice, htwice⟩ := reversing_twice_sorts tangle
  refine ⟨htwo, hdegree ⟨2⟩ htwo, (hcount ⟨0⟩ ⟨2⟩).trans (by decide +kernel), fun h => ?_, hthrice⟩
  have hzero := htwice.1 h ⟨0⟩
  revert hzero
  decide +kernel

end FlowGraph

end FlowRegions
