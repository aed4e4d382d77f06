import FlowRegions.FlowNet.NodeTable

/-!
# The table of the nodes and the order of their declaration

Entering nodes gives the table in which each node stands at the position of its declaration, or it
ends at the first repeated name (`foldlM_declare`). So a lookup in the table is a search among the
declared names (`find?_numbered`), and looking up nodes in the table or in the declarations is the
same for vertices, names and kinds. Arc by arc this gives the same edges (`edge_numbered`), and in
the end the same conversion (`FlowNet.convertByTable_eq`).
-/

namespace FlowRegions

/-- The table in which the nodes stand at the positions of their declaration. -/
def numbered (nodes : List (String × NodeKind)) : NodeTable :=
  ⟨nodes.mapIdx fun i node => ⟨node.1, .ofIndex i, node.2⟩⟩

namespace NodeTable

variable {nodes : List (String × NodeKind)} {seen : List String}

theorem getElem?_numbered (nodes : List (String × NodeKind)) (i : Nat) :
    (numbered nodes).entries[i]? = nodes[i]?.map fun node => ⟨node.1, .ofIndex i, node.2⟩ :=
  List.getElem?_mapIdx

theorem map_name_numbered (nodes : List (String × NodeKind)) :
    (numbered nodes).entries.map NodeEntry.name = nodes.map Prod.fst := by
  refine List.ext_getElem? fun i => ?_
  rw [List.getElem?_map, getElem?_numbered, Option.map_map, List.getElem?_map]
  rfl

/-- A name is found where it has been declared first. -/
theorem find?_numbered (nodes : List (String × NodeKind)) (name : String) :
    (numbered nodes).find? name =
      ((nodes.map Prod.fst).idxOf? name).bind ((numbered nodes).entries[·]?) := by
  rw [find?, List.find?_eq_bind_findIdx?_getElem?, ← map_name_numbered, List.idxOf?,
    List.findIdx?_map]
  rfl

theorem find?_numbered_eq_none_iff {name : String} :
    (numbered nodes).find? name = none ↔ name ∉ nodes.map Prod.fst := by
  rw [← map_name_numbered, find?, List.find?_eq_none]
  simp

/-- A new name is entered behind the others with the number of their positions. -/
theorem declare_numbered (nodes : List (String × NodeKind)) (node : String × NodeKind) :
    (numbered nodes).declare node =
      if node.1 ∈ nodes.map Prod.fst then .error (.duplicateNode node.1)
      else .ok (numbered (nodes ++ [node])) := by
  rw [declare]
  by_cases hnode : node.1 ∈ nodes.map Prod.fst
  · obtain ⟨entry, hentry⟩ := Option.ne_none_iff_exists'.1
      (mt find?_numbered_eq_none_iff.1 (not_not_intro hnode))
    rw [hentry, if_pos hnode]
  · rw [find?_numbered_eq_none_iff.2 hnode, if_neg hnode, numbered, numbered, List.length_mapIdx,
      List.mapIdx_concat]

/-- Entering nodes ends at the first repeated name, or numbers them all. -/
theorem foldlM_declare (hseen : ∀ name, name ∈ seen ↔ name ∈ nodes.map Prod.fst)
    (rest : List (String × NodeKind)) :
    rest.foldlM declare (numbered nodes) =
      match FlowNet.firstRepeat? seen (rest.map Prod.fst) with
      | some name => .error (.duplicateNode name)
      | none => .ok (numbered (nodes ++ rest)) := by
  induction rest generalizing nodes seen with
  | nil =>
    rw [List.append_nil]
    rfl
  | cons node rest ih =>
    rw [List.foldlM_cons, declare_numbered, List.map_cons, FlowNet.firstRepeat?]
    by_cases hnode : node.1 ∈ seen
    · rw [if_pos hnode, if_pos ((hseen _).1 hnode)]
      rfl
    · have hseen' : ∀ name, name ∈ node.1 :: seen ↔ name ∈ (nodes ++ [node]).map Prod.fst := by
        intro name
        rw [List.mem_cons, hseen, List.map_append, List.mem_append, List.map_singleton,
          List.mem_singleton, or_comm]
      rw [if_neg hnode, if_neg (mt (hseen _).2 hnode), List.append_cons nodes node rest,
        ← ih hseen']
      rfl

end NodeTable

namespace FlowNet

variable {n : FlowNet} {table : NodeTable} {name : String}

theorem map_fst_declared (n : FlowNet) : n.declared.map Prod.fst = n.names := by
  simp [declared, names, Function.comp_def]

theorem length_entries_numbered (n : FlowNet) :
    (numbered n.declared).entries.length = n.names.length := by
  rw [← map_fst_declared, ← NodeTable.map_name_numbered, List.length_map]

/-- The declared kind at a position is the kind of its vertex: the places come first. -/
theorem map_snd_getElem?_declared (n : FlowNet) (v : VertexId) :
    n.declared[v.index]?.map Prod.snd = n.kind? v := by
  rw [declared, kind?, names, List.length_append]
  by_cases hplace : v.index < n.places.length
  · rw [if_pos hplace, List.getElem?_append_left (by rwa [List.length_map]), List.getElem?_map,
      List.getElem?_eq_getElem hplace]
    rfl
  · rw [if_neg hplace, List.getElem?_append_right (by rwa [List.length_map, ← Nat.not_lt]),
      List.getElem?_map, List.length_map]
    by_cases htransition : v.index < n.places.length + n.transitions.length
    · rw [if_pos htransition, List.getElem?_eq_getElem (by omega)]
      rfl
    · rw [if_neg htransition, List.getElem?_eq_none (by omega)]
      rfl

/-- The table of the nodes is there unless a name is repeated. -/
theorem nodeTable_eq (n : FlowNet) : n.nodeTable =
    match firstRepeat? [] n.names with
    | some name => .error (.duplicateNode name)
    | none => .ok (numbered n.declared) := by
  have hstart : ∀ name : String, name ∈ [] ↔ name ∈ ([] : List (String × NodeKind)).map Prod.fst :=
    fun _ => Iff.rfl
  have hrun := NodeTable.foldlM_declare hstart n.declared
  rw [map_fst_declared] at hrun
  exact hrun

theorem eq_numbered_of_nodeTable (h : n.nodeTable = .ok table) : table = numbered n.declared := by
  rw [nodeTable_eq] at h
  split at h
  · cases h
  · exact (Except.ok.inj h).symm

/-! ## Lookups -/

theorem label?_numbered (n : FlowNet) (v : VertexId) :
    (numbered n.declared).label? v = n.label? v := by
  rw [NodeTable.label?, NodeTable.at?, NodeTable.getElem?_numbered, Option.map_map, label?,
    ← map_fst_declared, List.getElem?_map]
  rfl

theorem kind?_numbered (n : FlowNet) (v : VertexId) :
    (numbered n.declared).kind? v = n.kind? v := by
  rw [NodeTable.kind?, NodeTable.at?, NodeTable.getElem?_numbered, Option.map_map,
    ← map_snd_getElem?_declared]
  rfl

/-- A name is found with the vertex of its position and the kind of that vertex. -/
theorem find?_numbered_of_vertex? (hn : n.names.length < idCount) (h : n.vertex? name = some v) :
    ∃ kind, n.kind? v = some kind ∧ (numbered n.declared).find? name = some ⟨name, v, kind⟩ := by
  obtain ⟨i, hi, rfl⟩ := Option.map_eq_some_iff.1 h
  obtain ⟨hlt, hname, _⟩ := List.idxOf?_eq_some_iff.1 hi
  have hindex : (DenseId.ofIndex i : VertexId).index = i :=
    DenseId.index_ofIndex_of_lt (Nat.lt_trans hlt hn)
  have hdeclared : n.declared[i]?.map Prod.fst = some name := by
    rw [← List.getElem?_map, map_fst_declared, List.getElem?_eq_getElem hlt, hname]
  obtain ⟨node, hnode, rfl⟩ := Option.map_eq_some_iff.1 hdeclared
  refine ⟨node.2, ?_, ?_⟩
  · rw [← map_snd_getElem?_declared, hindex, hnode]
    rfl
  · rw [NodeTable.find?_numbered, map_fst_declared, hi, Option.bind_some,
      NodeTable.getElem?_numbered, hnode]
    rfl

theorem find?_numbered_of_not_vertex? (h : n.vertex? name = none) :
    (numbered n.declared).find? name = none := by
  rw [NodeTable.find?_numbered, map_fst_declared, Option.map_eq_none_iff.1 h, Option.bind_none]

theorem vertex?_numbered (hn : n.names.length < idCount) (name : String) :
    (numbered n.declared).vertex? name = n.vertex? name := by
  rw [NodeTable.vertex?]
  cases h : n.vertex? name with
  | none => rw [find?_numbered_of_not_vertex? h, Option.map_none]
  | some v =>
    obtain ⟨kind, _, hfind⟩ := find?_numbered_of_vertex? hn h
    rw [hfind, Option.map_some]

/-! ## Arcs -/

/-- An arc has the same edge in the table. -/
theorem edge_numbered (hn : n.names.length < idCount) (arc : FlowArc) :
    (numbered n.declared).edge arc = n.edge arc := by
  rw [NodeTable.edge, edge, NodeTable.resolve, NodeTable.resolve, resolve, resolve]
  cases horigin : n.vertex? arc.origin with
  | none =>
    rw [find?_numbered_of_not_vertex? horigin]
    rfl
  | some v =>
    obtain ⟨kind, hkind, hfind⟩ := find?_numbered_of_vertex? hn horigin
    rw [hfind]
    cases htarget : n.vertex? arc.target with
    | none =>
      rw [find?_numbered_of_not_vertex? htarget]
      rfl
    | some w =>
      obtain ⟨kind', hkind', hfind'⟩ := find?_numbered_of_vertex? hn htarget
      rw [hfind']
      show (if kind = kind' then _ else _) = if n.kind? v = n.kind? w then _ else _
      rw [hkind, hkind']
      simp only [Option.some.injEq]

theorem addArcs_numbered (hn : n.names.length < idCount) (g : FlowGraph) (arcs : List FlowArc) :
    (numbered n.declared).addArcs g arcs = n.addArcs g arcs := by
  rw [NodeTable.addArcs, addArcs]
  simp only [edge_numbered hn]

/-- Drawing arcs adds no vertices. -/
theorem vertexCount_addArcs {g g' : FlowGraph} {arcs : List FlowArc}
    (h : n.addArcs g arcs = .ok g') : g'.vertexCount = g.vertexCount := by
  induction arcs generalizing g with
  | nil =>
    obtain rfl := Except.ok.inj h
    rfl
  | cons arc arcs ih =>
    rw [addArcs, List.foldlM_cons] at h
    cases hedge : n.edge arc with
    | error x =>
      rw [hedge] at h
      cases h
    | ok e =>
      rw [hedge] at h
      change ((g.addEdge e.1 e.2).mapError NetError.graph).bind _ = _ at h
      cases hnext : g.addEdge e.1 e.2 with
      | error x =>
        rw [hnext] at h
        cases h
      | ok next =>
        rw [hnext] at h
        rw [ih h]
        obtain ⟨_, _, rfl⟩ := FlowGraph.addEdge_eq_ok_iff.1 hnext
        exact FlowGraph.vertexCount_appendEdge ..

/-- The entered transitions are the vertices of transitions. -/
theorem mask_numbered (hn : n.names.length < idCount) {g : FlowGraph}
    (hg : g.vertexCount = n.names.length) :
    (numbered n.declared).mask = n.transitionMask g := by
  refine congrArg BoundaryMask.mk (IdSet.ext fun v => ?_)
  rw [IdSet.mem_ofList, IdSet.mem_ofList, List.mem_map, List.mem_filter, FlowGraph.mem_vertices,
    FlowGraph.contains_iff, hg, decide_eq_true_iff]
  constructor
  · rintro ⟨entry, hentry, rfl⟩
    obtain ⟨hmem, hkind⟩ := List.mem_filter.1 hentry
    obtain ⟨i, hi⟩ := List.mem_iff_getElem?.1 hmem
    obtain ⟨hlt, _⟩ := List.getElem?_eq_some_iff.1 hi
    rw [length_entries_numbered] at hlt
    have hvertex : entry.vertex.index = i := by
      rw [NodeTable.getElem?_numbered, Option.map_eq_some_iff] at hi
      obtain ⟨node, _, rfl⟩ := hi
      exact DenseId.index_ofIndex_of_lt (Nat.lt_trans hlt hn)
    refine ⟨hvertex ▸ hlt, ?_⟩
    rw [← kind?_numbered, NodeTable.kind?, NodeTable.at?, hvertex, hi, Option.map_some,
      of_decide_eq_true hkind]
  · rintro ⟨_, hkind⟩
    rw [← kind?_numbered, NodeTable.kind?, Option.map_eq_some_iff] at hkind
    obtain ⟨entry, hentry, hkind⟩ := hkind
    refine ⟨entry, List.mem_filter.2 ⟨List.mem_of_getElem? hentry, decide_eq_true hkind⟩, ?_⟩
    rw [NodeTable.at?, NodeTable.getElem?_numbered, Option.map_eq_some_iff] at hentry
    obtain ⟨node, _, rfl⟩ := hentry
    exact DenseId.ofIndex_index v

/-- The conversion with a table is the one without. -/
theorem convertByTable_eq (hn : n.names.length < idCount) : n.convertByTable = n.convert := by
  rw [convertByTable, convert, nodeTable_eq]
  cases firstRepeat? [] n.names with
  | some name => rfl
  | none =>
    show ((numbered n.declared).addArcs _ n.arcs).bind _ = (n.addArcs _ n.arcs).bind _
    rw [addArcs_numbered hn, length_entries_numbered]
    cases hg : n.addArcs (.new (.ofNat n.names.length)) n.arcs with
    | error x => rfl
    | ok g =>
      have hcount : g.vertexCount = n.names.length := by
        rw [vertexCount_addArcs hg, FlowGraph.vertexCount_new, UInt32.toNat_ofNat_of_lt' hn]
      simp only [Except.bind, mask_numbered hn hcount]

end FlowNet

end FlowRegions
