import FlowRegions.FlowGraph.Construction
import FlowRegions.FlowGraph.Growth
import Mathlib.Data.List.Induction

/-!
# Graphs from edges and from rows

A list of edges can be added to a graph exactly when each of them joins two of its vertices, and
otherwise the first one that does not is reported (`addEdges_eq_error_iff`). What has been added
comes behind the successors of its origins, in order (`Grown`), and this leaves no choice of the
graph (`Grown.unique`). So calls that add the same edges to a graph at hand, and others that are
refused in between, come to the same graph (`grown_pushEdges`).

Rows of successors are edges that are grouped by their origins (`rowEdges`). All of these are
vertices of the graph, so the first edge that is refused is refused for the first vertex in the rows
that is not (`findSome?_rowEdges`), and a row is what is added to its vertex
(`targetsFrom_rowEdges`). The edges of a graph are those of its rows (`rowEdges_map_successors`), so
it is built again from either (`ofDocument_document`, `ofAdjacency_successors`).
-/

namespace FlowRegions

namespace FlowGraph

variable {g g' h : FlowGraph} {n : Nat} {u v w : VertexId} {e : VertexId × VertexId}
variable {edges : List (VertexId × VertexId)} {rows : List (List VertexId)} {x : GraphError}

/-! ## Edges that are refused -/

/-- What is wrong with an edge in a graph with a number of vertices, if anything: its origin is
outside, or else its target. -/
def refusal? (n : Nat) (e : VertexId × VertexId) : Option GraphError :=
  if ¬ e.1.index < n then some (.vertexOutOfRange e.1 n)
  else if ¬ e.2.index < n then some (.vertexOutOfRange e.2 n)
  else none

theorem refusal?_eq_none_iff : refusal? n e = none ↔ e.1.index < n ∧ e.2.index < n := by
  unfold refusal?
  split
  · next hv => simp [hv]
  · next hv =>
    split
    · next hw => simp [hw]
    · next hw => simp_all

/-- An edge is not added exactly when something is wrong with it. -/
theorem addEdge_eq_error_iff :
    g.addEdge v w = .error x ↔ refusal? g.vertexCount (v, w) = some x := by
  unfold addEdge refusal?
  simp only [contains_iff]
  by_cases hv : v.index < g.vertexCount
  · by_cases hw : w.index < g.vertexCount
    · simp [hv, hw]
    · simp [hv, hw]
  · simp [hv]

theorem refusal?_eq_none_of_addEdge (h : g.addEdge v w = .ok g') :
    refusal? g.vertexCount (v, w) = none := by
  obtain ⟨hv, hw, _⟩ := addEdge_eq_ok_iff.1 h
  exact refusal?_eq_none_iff.2 ⟨contains_iff.1 hv, contains_iff.1 hw⟩

/-! ## Edges that are added -/

/-- The targets of the edges of a list that begin at a vertex, in order. -/
def targetsFrom (edges : List (VertexId × VertexId)) (v : VertexId) : List VertexId :=
  (edges.filter (·.1 = v)).map (·.2)

/-- The graph `g'` is `g` with some edges added, one after the other. -/
structure Grown (g : FlowGraph) (edges : List (VertexId × VertexId)) (g' : FlowGraph) : Prop where
  vertexCount_eq : g'.vertexCount = g.vertexCount
  successors_eq : ∀ v, g'.successors v = g.successors v ++ targetsFrom edges v

theorem targetsFrom_append (first last : List (VertexId × VertexId)) (v : VertexId) :
    targetsFrom (first ++ last) v = targetsFrom first v ++ targetsFrom last v := by
  rw [targetsFrom, List.filter_append, List.map_append]
  rfl

theorem grown_nil (g : FlowGraph) : g.Grown [] g := ⟨rfl, fun _ => (List.append_nil _).symm⟩

theorem vertexCount_of_addEdge (h : g.addEdge v w = .ok g') : g'.vertexCount = g.vertexCount := by
  obtain ⟨_, _, rfl⟩ := addEdge_eq_ok_iff.1 h
  exact vertexCount_appendEdge g v w _

/-- The edges that are added to a graph come behind the one that has been added before. -/
theorem Grown.cons (hvw : g.addEdge v w = .ok h) (hgrown : h.Grown edges g') :
    g.Grown ((v, w) :: edges) g' := by
  have hcount := vertexCount_of_addEdge hvw
  obtain ⟨hv, hw, rfl⟩ := addEdge_eq_ok_iff.1 hvw
  refine ⟨hgrown.vertexCount_eq.trans hcount, fun u => ?_⟩
  rw [hgrown.successors_eq, successors_appendEdge hv hw, targetsFrom, targetsFrom, List.filter_cons]
  by_cases hu : u = v
  · subst hu
    simp
  · simp [hu, Ne.symm hu]

/-- There is one graph that comes of adding edges. -/
theorem Grown.unique (hg : h.Grown edges g) (hg' : h.Grown edges g') : g = g' := by
  apply ext_successors
  · rw [hg.vertexCount_eq, hg'.vertexCount_eq]
  · intro v
    rw [hg.successors_eq, hg'.successors_eq]

theorem addEdges_cons (g : FlowGraph) (v w : VertexId) (edges : List (VertexId × VertexId)) :
    g.addEdges ((v, w) :: edges) = (g.addEdge v w).bind (·.addEdges edges) := rfl

theorem grown_of_addEdges (hedges : g.addEdges edges = .ok g') : g.Grown edges g' := by
  induction edges generalizing g with
  | nil =>
    obtain rfl := Except.ok.inj hedges
    exact grown_nil g
  | cons e edges ih =>
    rw [addEdges_cons] at hedges
    cases he : g.addEdge e.1 e.2 with
    | error x =>
      rw [he] at hedges
      cases hedges
    | ok h =>
      rw [he] at hedges
      exact .cons he (ih hedges)

/-- The first edge with which something is wrong is reported. -/
theorem addEdges_eq_error_iff :
    g.addEdges edges = .error x ↔ edges.findSome? (refusal? g.vertexCount) = some x := by
  induction edges generalizing g with
  | nil => exact ⟨fun h => (nomatch h), fun h => (nomatch h)⟩
  | cons e edges ih =>
    rw [addEdges_cons, List.findSome?_cons]
    cases he : g.addEdge e.1 e.2 with
    | error y =>
      rw [addEdge_eq_error_iff.1 he]
      simp [Except.bind]
    | ok h =>
      rw [refusal?_eq_none_of_addEdge he, ← vertexCount_of_addEdge he]
      exact ih

/-- Edges can be added exactly when they join vertices of the graph. -/
theorem exists_addEdges_iff :
    (∃ g', g.addEdges edges = .ok g') ↔
      ∀ e ∈ edges, e.1.index < g.vertexCount ∧ e.2.index < g.vertexCount := by
  have hnone : (∀ e ∈ edges, e.1.index < g.vertexCount ∧ e.2.index < g.vertexCount) ↔
      edges.findSome? (refusal? g.vertexCount) = none := by
    simp only [List.findSome?_eq_none_iff, refusal?_eq_none_iff]
  rw [hnone]
  cases hadd : g.addEdges edges with
  | error x => simp [addEdges_eq_error_iff.1 hadd]
  | ok g' =>
    cases hfind : edges.findSome? (refusal? g.vertexCount) with
    | none => simp
    | some x =>
      rw [← addEdges_eq_error_iff, hadd] at hfind
      cases hfind

theorem addEdges_eq_ok_iff :
    g.addEdges edges = .ok g' ↔
      (∀ e ∈ edges, e.1.index < g.vertexCount ∧ e.2.index < g.vertexCount) ∧ g.Grown edges g' := by
  constructor
  · intro hadd
    exact ⟨exists_addEdges_iff.1 ⟨g', hadd⟩, grown_of_addEdges hadd⟩
  · rintro ⟨hedges, hgrown⟩
    obtain ⟨h, hadd⟩ := exists_addEdges_iff.2 hedges
    rw [hadd, (grown_of_addEdges hadd).unique hgrown]

/-- Calls one after the other add the edges with which nothing is wrong, and tell of the others what
is wrong with them. -/
theorem grown_pushEdges (g : FlowGraph) (edges : List (VertexId × VertexId)) :
    g.Grown (edges.filter fun e => refusal? g.vertexCount e = none) (g.pushEdges edges).1 ∧
      (g.pushEdges edges).2 = edges.map (refusal? g.vertexCount) := by
  induction edges generalizing g with
  | nil => exact ⟨grown_nil g, rfl⟩
  | cons e edges ih =>
    rw [List.filter_cons, List.map_cons]
    cases he : g.addEdge e.1 e.2 with
    | error x =>
      obtain ⟨hgrown, hrefusals⟩ := ih g
      rw [pushEdges_cons_of_error he, addEdge_eq_error_iff.1 he]
      exact ⟨hgrown, congrArg (some x :: ·) hrefusals⟩
    | ok h =>
      obtain ⟨hgrown, hrefusals⟩ := ih h
      rw [vertexCount_of_addEdge he] at hgrown hrefusals
      rw [pushEdges_cons_of_ok he, refusal?_eq_none_of_addEdge he]
      exact ⟨.cons he hgrown, congrArg (none :: ·) hrefusals⟩

/-! ## Documents -/

theorem vertexCount_new_ofNat (hn : n ≤ maxVertexCount) : (new (.ofNat n)).vertexCount = n := by
  have hlt : n < UInt32.size := by
    show n < 4294967296
    unfold maxVertexCount idCount at hn
    omega
  rw [vertexCount_new, UInt32.toNat_ofNat_of_lt' hlt]

theorem ofDocument_of_le (hn : n ≤ maxVertexCount) (edges : List (VertexId × VertexId)) :
    ofDocument ⟨.ofNat n, edges⟩ = (new (.ofNat n)).addEdges edges := by
  have hlt : n < UInt64.size := by
    show n < 18446744073709551616
    unfold maxVertexCount idCount at hn
    omega
  have hvertices : (UInt64.ofNat n).toNat = n := UInt64.toNat_ofNat_of_lt' hlt
  unfold ofDocument
  simp only [hvertices]
  exact if_pos hn

/-! ## Rows -/

/-- The edges from each vertex to what is in its row, row by row. -/
def rowEdges (rows : List (List VertexId)) : List (VertexId × VertexId) :=
  rows.zipIdx.flatMap fun (row, i) => row.map fun w => (.ofIndex i, w)

theorem rowEdges_append_singleton (rows : List (List VertexId)) (row : List VertexId) :
    rowEdges (rows ++ [row]) = rowEdges rows ++ row.map fun w => (.ofIndex rows.length, w) := by
  simp [rowEdges, List.zipIdx_append]

theorem map_snd_rowEdges (rows : List (List VertexId)) :
    (rowEdges rows).map Prod.snd = rows.flatten := by
  induction rows using List.reverseRecOn with
  | nil => rfl
  | append_singleton rows row ih =>
    rw [rowEdges_append_singleton, List.map_append, ih, List.flatten_append, List.map_map]
    simp [Function.comp_def]

theorem index_fst_lt_of_mem_rowEdges (he : e ∈ rowEdges rows) : e.1.index < rows.length := by
  induction rows using List.reverseRecOn with
  | nil => cases he
  | append_singleton rows row ih =>
    rw [rowEdges_append_singleton, List.mem_append, List.mem_map] at he
    rw [List.length_append, List.length_singleton]
    rcases he with he | ⟨w, _, rfl⟩
    · exact Nat.lt_succ_of_lt (ih he)
    · rw [DenseId.index_ofIndex]
      exact Nat.lt_succ_of_le (Nat.mod_le _ _)

theorem targetsFrom_map_prodMk (u : VertexId) (row : List VertexId) (v : VertexId) :
    targetsFrom (row.map fun w => (u, w)) v = if u = v then row else [] := by
  rw [targetsFrom, List.filter_map, List.map_map]
  by_cases hu : u = v
  · simp [Function.comp_def, hu]
  · simp [Function.comp_def, hu]

/-- What is added to a vertex is its row. -/
theorem targetsFrom_rowEdges (hrows : rows.length ≤ idCount) (v : VertexId) :
    targetsFrom (rowEdges rows) v = (rows[v.index]?).getD [] := by
  induction rows using List.reverseRecOn with
  | nil => rfl
  | append_singleton rows row ih =>
    rw [List.length_append, List.length_singleton] at hrows
    have hlast : (DenseId.ofIndex rows.length : VertexId) = v ↔ rows.length = v.index := by
      rw [← DenseId.index_inj, DenseId.index_ofIndex_of_lt hrows]
    rw [rowEdges_append_singleton, targetsFrom_append, targetsFrom_map_prodMk, ih (by omega)]
    rcases Nat.lt_trichotomy v.index rows.length with hv | hv | hv
    · rw [if_neg (by rw [hlast]; omega), List.append_nil, List.getElem?_append_left hv]
    · rw [if_pos (hlast.2 hv.symm), hv, List.getElem?_concat_length,
        List.getElem?_eq_none (by omega)]
      rfl
    · rw [if_neg (by rw [hlast]; omega), List.getElem?_eq_none (by omega),
        List.getElem?_eq_none (by simp; omega)]
      rfl

theorem findSome?_refusal? (horigins : ∀ e ∈ edges, e.1.index < n) :
    edges.findSome? (refusal? n) =
      ((edges.map Prod.snd).find? fun w => !decide (w.index < n)).map (.vertexOutOfRange · n) := by
  induction edges with
  | nil => rfl
  | cons e edges ih =>
    obtain ⟨he, hedges⟩ := List.forall_mem_cons.1 horigins
    rw [List.findSome?_cons, List.map_cons, List.find?_cons, refusal?, if_neg (not_not_intro he)]
    by_cases hw : e.2.index < n
    · simp [hw, ih hedges]
    · simp [hw]

/-- The first of the edges of some rows that is refused is refused for the first vertex in the rows
that is out of range. -/
theorem findSome?_rowEdges (rows : List (List VertexId)) :
    (rowEdges rows).findSome? (refusal? rows.length) =
      (firstStray? rows).map (.vertexOutOfRange · rows.length) := by
  rw [findSome?_refusal? fun e => index_fst_lt_of_mem_rowEdges, map_snd_rowEdges, firstStray?]

/-- The graph of some rows has a row for each vertex. -/
theorem vertexCount_and_successors_of_ofAdjacency (hg : ofAdjacency rows = .ok g) :
    g.vertexCount = rows.length ∧ ∀ v, g.successors v = (rows[v.index]?).getD [] := by
  unfold ofAdjacency at hg
  split at hg
  · split at hg
    · cases hg
    · obtain rfl := Except.ok.inj hg
      refine ⟨List.size_toArray, fun v => ?_⟩
      rw [successors, VertexTable.getD, VertexTable.get?, List.getElem?_toArray]
  · cases hg

/-- What is added for the rows of a graph to one without edges makes the graph. -/
theorem grown_of_ofAdjacency (hrows : rows.length ≤ maxVertexCount)
    (hg : ofAdjacency rows = .ok g) : (new (.ofNat rows.length)).Grown (rowEdges rows) g := by
  obtain ⟨hcount, hsucc⟩ := vertexCount_and_successors_of_ofAdjacency hg
  have hle : rows.length ≤ idCount := Nat.le_trans hrows (Nat.sub_le _ _)
  refine ⟨hcount.trans (vertexCount_new_ofNat hrows).symm, fun v => ?_⟩
  rw [hsucc, successors_new, List.nil_append, targetsFrom_rowEdges hle]

theorem ofAdjacency_eq_error_iff (hrows : rows.length ≤ maxVertexCount) :
    ofAdjacency rows = .error x ↔
      (firstStray? rows).map (.vertexOutOfRange · rows.length) = some x := by
  unfold ofAdjacency
  rw [dif_pos hrows]
  split
  · next w hw => simp [hw]
  · next hnone => simp [hnone]

/-- Rows make the graph that their edges make, and fail for the reason for which these fail. -/
theorem ofAdjacency_eq_addEdges (hrows : rows.length ≤ maxVertexCount) :
    ofAdjacency rows = (new (.ofNat rows.length)).addEdges (rowEdges rows) := by
  have herror : ∀ x, ofAdjacency rows = .error x ↔
      (new (.ofNat rows.length)).addEdges (rowEdges rows) = .error x := by
    intro x
    rw [ofAdjacency_eq_error_iff hrows, addEdges_eq_error_iff, vertexCount_new_ofNat hrows,
      findSome?_rowEdges]
  cases hadj : ofAdjacency rows with
  | error x => exact ((herror x).1 hadj).symm
  | ok g =>
    cases hadd : (new (.ofNat rows.length)).addEdges (rowEdges rows) with
    | error x =>
      rw [(herror x).2 hadd] at hadj
      cases hadj
    | ok h => rw [(grown_of_ofAdjacency hrows hadj).unique (grown_of_addEdges hadd)]

/-! ## The edges and the rows of a graph -/

theorem rowEdges_map_range (f : Nat → List VertexId) (n : Nat) :
    rowEdges ((List.range n).map f) =
      (List.range n).flatMap fun i => (f i).map fun w => (.ofIndex i, w) := by
  induction n with
  | zero => rfl
  | succ n ih =>
    rw [List.range_succ, List.map_append, List.map_singleton, rowEdges_append_singleton, ih,
      List.flatMap_append, List.flatMap_singleton, List.length_map, List.length_range]

/-- The edges of a graph are grouped as its rows are. -/
theorem rowEdges_map_successors (g : FlowGraph) :
    rowEdges (g.vertices.map g.successors) = g.edges := by
  rw [edges, vertices, VertexTable.vertices, List.map_map, rowEdges_map_range, List.flatMap_map]
  rfl

theorem map_successors_vertices (g : FlowGraph) :
    g.vertices.map g.successors = g.successorTable.rows.toList :=
  g.successorTable.map_getD_vertices []

/-- A row of a graph has the targets of the edges that begin at its vertex. -/
theorem targetsFrom_edges (g : FlowGraph) (v : VertexId) :
    targetsFrom g.edges v = g.successors v := by
  have hsize := g.successorTable.size_lt_idCount
  rw [← rowEdges_map_successors, map_successors_vertices,
    targetsFrom_rowEdges (Nat.le_of_lt hsize), Array.getElem?_toList]
  rfl

theorem vertexCount_le (g : FlowGraph) : g.vertexCount ≤ maxVertexCount :=
  g.successorTable.size_le_maxVertexCount

theorem ofDocument_document (g : FlowGraph) : ofDocument g.document = .ok g := by
  have hcount := vertexCount_new_ofNat g.vertexCount_le
  rw [document, ofDocument_of_le g.vertexCount_le, addEdges_eq_ok_iff, hcount]
  refine ⟨fun e he => ?_, hcount.symm, fun v => ?_⟩
  · have hsucc := mem_edges.1 he
    exact ⟨contains_iff.1 (contains_of_successors_ne_nil (List.ne_nil_of_mem hsucc)),
      contains_iff.1 (contains_of_mem_successors hsucc)⟩
  · rw [successors_new, List.nil_append, targetsFrom_edges]

theorem ofAdjacency_successors (g : FlowGraph) :
    ofAdjacency (g.vertices.map g.successors) = .ok g := by
  have hlength : (g.vertices.map g.successors).length = g.vertexCount := by
    rw [map_successors_vertices]
    rfl
  rw [ofAdjacency_eq_addEdges (hlength ▸ g.vertexCount_le), hlength, rowEdges_map_successors,
    ← ofDocument_of_le g.vertexCount_le]
  exact ofDocument_document g

/-! ## The constructions -/

/-- For every number of vertices that a graph can have and every list of edges: a document has a
graph exactly when both ends of each edge are vertices, and otherwise fails for the first edge with
which something is wrong. The successors of a vertex are the targets of its edges in the order of
the list, and calls that add these edges in order come to the same graph, whatever other calls are
refused in between; a call that is refused leaves the graph as it was. As many rows come to what the
document of their edges comes to, be it a graph or an error. A graph is built again by its number of
vertices with its edges, and by its rows. -/
theorem constructions_agree (hn : n ≤ maxVertexCount) (edges : List (VertexId × VertexId)) :
    ((∃ g, ofDocument ⟨.ofNat n, edges⟩ = .ok g) ↔
      ∀ e ∈ edges, e.1.index < n ∧ e.2.index < n) ∧
    (∀ x, ofDocument ⟨.ofNat n, edges⟩ = .error x ↔
      ∃ before e after, edges = before ++ e :: after ∧ refusal? n e = some x ∧
        ∀ d ∈ before, refusal? n d = none) ∧
    (∀ g, ofDocument ⟨.ofNat n, edges⟩ = .ok g →
      g.vertexCount = n ∧ (∀ v, g.successors v = targetsFrom edges v) ∧
        ∀ calls, (calls.filter fun e => refusal? n e = none) = edges →
          (new (.ofNat n)).pushEdges calls = (g, calls.map (refusal? n))) ∧
    (∀ (h : FlowGraph) v w x, refusal? h.vertexCount (v, w) = some x →
      (pushEdge v w).run h = .error x h) ∧
    (∀ rows, rows.length = n → ofAdjacency rows = ofDocument ⟨.ofNat n, rowEdges rows⟩) ∧
    ∀ g : FlowGraph, ofDocument g.document = .ok g ∧
      ofAdjacency (g.vertices.map g.successors) = .ok g := by
  have hcount := vertexCount_new_ofNat hn
  simp only [ofDocument_of_le hn]
  refine ⟨?_, fun x => ?_, fun g hg => ?_, fun h v w x hx => ?_, fun rows hrows => ?_,
    fun g => ⟨g.ofDocument_document, g.ofAdjacency_successors⟩⟩
  · rw [exists_addEdges_iff, hcount]
  · rw [addEdges_eq_error_iff, hcount, List.findSome?_eq_some_iff]
  · have hgrown := grown_of_addEdges hg
    refine ⟨hgrown.vertexCount_eq.trans hcount, fun v => ?_, fun calls hcalls => ?_⟩
    · rw [hgrown.successors_eq, successors_new, List.nil_append]
    · obtain ⟨hpushed, hrefusals⟩ := grown_pushEdges (new (.ofNat n)) calls
      rw [hcount] at hpushed hrefusals
      rw [hcalls] at hpushed
      exact Prod.ext (hpushed.unique hgrown) hrefusals
  · rw [run_pushEdge, addEdge_eq_error_iff.2 hx]
  · subst hrows
    exact ofAdjacency_eq_addEdges hn

/-- Parallel edges of the last of three vertices, with edges of the first one in between. -/
def scattered : List (VertexId × VertexId) := [(⟨2⟩, ⟨0⟩), (⟨0⟩, ⟨2⟩), (⟨2⟩, ⟨0⟩), (⟨0⟩, ⟨1⟩)]

/-- Two calls are refused in between, one for its origin and one for its target. The rows group the
edges by their origins and come to the same graph. An edge with both its ends out of range is
reported for its origin. -/
theorem scattered_grouped :
    3 ≤ maxVertexCount ∧
    (∃ g, ofDocument ⟨.ofNat 3, scattered⟩ = .ok g ∧
      g.successors ⟨2⟩ = [⟨0⟩, ⟨0⟩] ∧
      (new (.ofNat 3)).pushEdges ((⟨3⟩, ⟨4⟩) :: scattered ++ [(⟨0⟩, ⟨5⟩)]) =
        (g, [some (.vertexOutOfRange ⟨3⟩ 3), none, none, none, none,
          some (.vertexOutOfRange ⟨5⟩ 3)]) ∧
      g.edges = [(⟨0⟩, ⟨2⟩), (⟨0⟩, ⟨1⟩), (⟨2⟩, ⟨0⟩), (⟨2⟩, ⟨0⟩)] ∧
      ofAdjacency [[⟨2⟩, ⟨1⟩], [], [⟨0⟩, ⟨0⟩]] = .ok g) ∧
    ofDocument ⟨.ofNat 3, [(⟨0⟩, ⟨1⟩), (⟨7⟩, ⟨9⟩), (⟨1⟩, ⟨5⟩)]⟩ =
      .error (.vertexOutOfRange ⟨7⟩ 3) := by
  have hthree : 3 ≤ maxVertexCount := by decide
  obtain ⟨hok, _, hgraph, _, _, hback⟩ := constructions_agree hthree scattered
  obtain ⟨_, herror, _⟩ := constructions_agree hthree [(⟨0⟩, ⟨1⟩), (⟨7⟩, ⟨9⟩), (⟨1⟩, ⟨5⟩)]
  obtain ⟨g, hg⟩ := hok.2 (by decide)
  obtain ⟨hcount, hsucc, hcalls⟩ := hgraph g hg
  have hvertices : g.vertices = [⟨0⟩, ⟨1⟩, ⟨2⟩] := by
    show (List.range g.vertexCount).map DenseId.ofIndex = _
    rw [hcount]
    decide
  have hrows : g.vertices.map g.successors = [[⟨2⟩, ⟨1⟩], [], [⟨0⟩, ⟨0⟩]] := by
    rw [hvertices, funext hsucc]
    decide
  refine ⟨hthree, ⟨g, hg, ?_, ?_, ?_, ?_⟩, ?_⟩
  · rw [hsucc]
    decide
  · rw [hcalls _ (by decide)]
    rfl
  · rw [edges, hvertices, funext hsucc]
    decide
  · rw [← hrows]
    exact (hback g).2
  · exact (herror _).2 ⟨[(⟨0⟩, ⟨1⟩)], (⟨7⟩, ⟨9⟩), [(⟨1⟩, ⟨5⟩)], rfl, by decide, by decide⟩

end FlowGraph

end FlowRegions
