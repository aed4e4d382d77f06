import FlowRegions.Proofs.NodeTable
import FlowRegions.Proofs.Stages
import FlowRegions.Proofs.Terminals
import Mathlib.Data.List.Nodup

/-!
# What becomes of a flow net

A conversion fails at the first name that is declared before, otherwise at the first arc that is not
proper, otherwise for the endpoints of the graph (`Defect`). The names of a proper net are numbered
by their position, so names and vertices determine each other (`vertex?_eq_some_iff_label?`). Arc by
arc, the edges drawn so far are the arcs so far (`Drawn.addEdge`), and so they are in the end
(`exists_addArcs`). Names and arcs leave no choice of the graph (`Drawn.unique`), and its endpoints
decide what is left open.
-/

namespace FlowRegions

open Log

namespace FlowNet

variable {n : FlowNet} {name : String} {l before after : List String} {v w : VertexId}
variable {arc : FlowArc} {arcs : List FlowArc} {g g' : FlowGraph} {x : NetError}

/-! ## Repeated names -/

/-- The name stands behind itself in the list, and no name before that place does. -/
def FirstRepeat (l : List String) (name : String) : Prop :=
  ∃ before after, l = before ++ name :: after ∧ before.Nodup ∧ name ∈ before

theorem of_firstRepeat? {seen : List String} (h : firstRepeat? seen l = some name) :
    ∃ before after, l = before ++ name :: after ∧ before.Nodup ∧ (∀ b ∈ before, b ∉ seen) ∧
      (name ∈ seen ∨ name ∈ before) := by
  fun_induction firstRepeat? seen l with
  | case1 => cases h
  | case2 seen b rest hseen =>
    obtain rfl := Option.some.inj h
    exact ⟨[], rest, rfl, List.nodup_nil, by simp, .inl hseen⟩
  | case3 seen b rest hnew ih =>
    obtain ⟨before, after, hsplit, hnodup, hfresh, hname⟩ := ih h
    have hb : b ∉ before := fun hmem => hfresh b hmem List.mem_cons_self
    refine ⟨b :: before, after, congrArg (b :: ·) hsplit, List.nodup_cons.2 ⟨hb, hnodup⟩, ?_, ?_⟩
    · refine List.forall_mem_cons.2 ⟨hnew, fun c hc hmem => ?_⟩
      exact hfresh c hc (List.mem_cons_of_mem b hmem)
    · rcases hname with hname | hname
      · rcases List.mem_cons.1 hname with rfl | hname
        · exact .inr List.mem_cons_self
        · exact .inl hname
      · exact .inr (List.mem_cons_of_mem b hname)

theorem firstRepeat?_append {seen : List String} (hnodup : before.Nodup)
    (hfresh : ∀ b ∈ before, b ∉ seen) (hname : name ∈ seen ∨ name ∈ before) :
    firstRepeat? seen (before ++ name :: after) = some name := by
  induction before generalizing seen with
  | nil =>
    rw [List.nil_append, firstRepeat?, if_pos (hname.resolve_right List.not_mem_nil)]
  | cons b before ih =>
    obtain ⟨hb, hbefore⟩ := List.forall_mem_cons.1 hfresh
    obtain ⟨hne, hrest⟩ := List.nodup_cons.1 hnodup
    rw [List.cons_append, firstRepeat?, if_neg hb]
    refine ih hrest (fun c hc hmem => ?_) ?_
    · rcases List.mem_cons.1 hmem with rfl | hmem
      · exact hne hc
      · exact hbefore c hc hmem
    · rcases hname with hname | hname
      · exact .inl (List.mem_cons_of_mem b hname)
      · rcases List.mem_cons.1 hname with rfl | hname
        · exact .inl List.mem_cons_self
        · exact .inr hname

/-- The scan finds the first name that repeats an earlier one. -/
theorem firstRepeat?_eq_some_iff : firstRepeat? [] l = some name ↔ FirstRepeat l name := by
  constructor
  · intro h
    obtain ⟨before, after, hsplit, hnodup, _, hname⟩ := of_firstRepeat? h
    exact ⟨before, after, hsplit, hnodup, hname.resolve_left List.not_mem_nil⟩
  · rintro ⟨before, after, rfl, hnodup, hname⟩
    exact firstRepeat?_append hnodup (fun _ _ => List.not_mem_nil) (.inr hname)

theorem firstRepeat?_eq_none {seen : List String} (h : firstRepeat? seen l = none) :
    l.Nodup ∧ ∀ b ∈ l, b ∉ seen := by
  fun_induction firstRepeat? seen l with
  | case1 => exact ⟨List.nodup_nil, by simp⟩
  | case2 => cases h
  | case3 seen b rest hnew ih =>
    obtain ⟨hnodup, hfresh⟩ := ih h
    refine ⟨List.nodup_cons.2 ⟨fun hmem => hfresh b hmem List.mem_cons_self, hnodup⟩, ?_⟩
    exact List.forall_mem_cons.2 ⟨hnew, fun c hc hmem => hfresh c hc (List.mem_cons_of_mem b hmem)⟩

theorem not_firstRepeat_of_nodup (h : l.Nodup) : ¬ FirstRepeat l name := by
  rintro ⟨before, after, rfl, _, hname⟩
  exact (List.nodup_append.1 h).2.2 name hname name List.mem_cons_self rfl

/-! ## Names and vertices -/

theorem mem_names : name ∈ n.names ↔ name ∈ n.places ∨ name ∈ n.transitions := List.mem_append

/-- Names and their vertices determine each other. -/
theorem vertex?_eq_some_iff_label? (hn : n.names.length < idCount) (hnodup : n.names.Nodup) :
    n.vertex? name = some v ↔ n.label? v = some name := by
  rw [vertex?, label?, Option.map_eq_some_iff]
  constructor
  · rintro ⟨i, hi, rfl⟩
    obtain ⟨hlt, rfl, _⟩ := List.idxOf?_eq_some_iff.1 hi
    rw [DenseId.index_ofIndex_of_lt (Nat.lt_trans hlt hn), List.getElem?_eq_getElem hlt]
  · intro hv
    obtain ⟨hlt, rfl⟩ := List.getElem?_eq_some_iff.1 hv
    refine ⟨v.index, List.idxOf?_eq_some_iff.2 ⟨hlt, rfl, fun j hj heq => ?_⟩,
      DenseId.ofIndex_index v⟩
    exact Nat.ne_of_lt hj ((hnodup.getElem_inj_iff).1 heq)

theorem exists_vertex?_iff : (∃ v, n.vertex? name = some v) ↔ name ∈ n.names := by
  rw [← List.isSome_idxOf?, Option.isSome_iff_exists, vertex?]
  simp

theorem vertex?_eq_none_iff : n.vertex? name = none ↔ name ∉ n.names := by
  rw [← exists_vertex?_iff, Option.eq_none_iff_forall_ne_some, not_exists]

theorem exists_label?_iff : (∃ name, n.label? v = some name) ↔ v.index < n.names.length := by
  rw [label?, ← Option.isSome_iff_exists, isSome_getElem?]

/-- The places come first. -/
theorem kind?_eq_place_iff : n.kind? v = some .place ↔ v.index < n.places.length := by
  unfold kind?
  split
  · next h => simp [h]
  · next h => split <;> simp [h]

theorem kind?_eq_transition_iff :
    n.kind? v = some .transition ↔
      n.places.length ≤ v.index ∧ v.index < n.names.length := by
  unfold kind?
  split
  · next h => simp [Nat.not_le_of_lt h]
  · next h =>
    split
    · next h' => simp [h', Nat.le_of_not_lt h]
    · next h' => simp [h']

theorem kind?_eq_none_iff : n.kind? v = none ↔ n.names.length ≤ v.index := by
  have hle : n.places.length ≤ n.names.length := by simp [names]
  unfold kind?
  split
  · next h => simp [Nat.lt_of_lt_of_le h hle]
  · next h => split <;> simp_all

/-- The names of places are the labels of the first vertices. -/
theorem index_lt_places_iff (hnodup : n.names.Nodup) (hv : n.label? v = some name) :
    v.index < n.places.length ↔ name ∈ n.places := by
  rw [label?, names] at hv
  constructor
  · intro hlt
    rw [List.getElem?_append_left hlt] at hv
    exact List.mem_of_getElem? hv
  · intro hplace
    by_contra hle
    -- the name would be that of a transition too
    rw [List.getElem?_append_right (Nat.le_of_not_lt hle)] at hv
    exact (List.nodup_append.1 hnodup).2.2 name hplace name (List.mem_of_getElem? hv) rfl

/-- Labelled vertices are of one kind when both or neither of their names are names of places. -/
theorem kind?_eq_iff {name' : String} (hnodup : n.names.Nodup) (hv : n.label? v = some name)
    (hw : n.label? w = some name') :
    n.kind? v = n.kind? w ↔ (name ∈ n.places ↔ name' ∈ n.places) := by
  rw [← index_lt_places_iff hnodup hv, ← index_lt_places_iff hnodup hw]
  have hvlt := exists_label?_iff.1 ⟨_, hv⟩
  have hwlt := exists_label?_iff.1 ⟨_, hw⟩
  by_cases hvplace : v.index < n.places.length <;> by_cases hwplace : w.index < n.places.length <;>
    simp [kind?, hvlt, hwlt, hvplace, hwplace]

/-! ## Arcs that are not proper -/

/-- What is wrong with an arc: a name that is not declared, that of the origin before that of the
target, or two names of one kind. -/
inductive ArcFault (n : FlowNet) (arc : FlowArc) : NetError → Prop where
  /-- The origin is not declared. -/
  | origin (h : arc.origin ∉ n.names) : ArcFault n arc (.unknownNode arc.origin)
  /-- The origin is declared, the target is not. -/
  | target (h : arc.origin ∈ n.names) (h' : arc.target ∉ n.names) :
      ArcFault n arc (.unknownNode arc.target)
  /-- Both are places or both are transitions. -/
  | sameKind (h : arc.origin ∈ n.names) (h' : arc.target ∈ n.names)
      (hkind : arc.origin ∈ n.places ↔ arc.target ∈ n.places) :
      ArcFault n arc (.notBipartite arc.origin arc.target)

/-- At most one thing is wrong with an arc. -/
theorem ArcFault.unique {y : NetError} (hx : n.ArcFault arc x) (hy : n.ArcFault arc y) : x = y := by
  cases hx with
  | origin h =>
    cases hy with
    | origin => rfl
    | target h' | sameKind h' => exact absurd h' h
  | target h h' =>
    cases hy with
    | origin hundeclared => exact absurd h hundeclared
    | target => rfl
    | sameKind _ hdeclared => exact absurd hdeclared h'
  | sameKind h h' =>
    cases hy with
    | origin hundeclared => exact absurd h hundeclared
    | target _ hundeclared => exact absurd h' hundeclared
    | sameKind => rfl

theorem resolve_of_vertex? (h : n.vertex? name = some v) : n.resolve name = .ok v := by
  rw [resolve, h]

theorem resolve_of_not_mem (h : name ∉ n.names) : n.resolve name = .error (.unknownNode name) := by
  rw [resolve, vertex?_eq_none_iff.2 h]

/-- The edge of an arc between declared names. -/
theorem edge_of_vertex? (hv : n.vertex? arc.origin = some v) (hw : n.vertex? arc.target = some w) :
    n.edge arc = if n.kind? v = n.kind? w then .error (.notBipartite arc.origin arc.target)
      else .ok (v, w) := by
  rw [edge, resolve_of_vertex? hv, resolve_of_vertex? hw]
  rfl

/-- An arc has an edge exactly when nothing is wrong with it. -/
theorem edge_cases (hn : n.names.length < idCount) (hnodup : n.names.Nodup) (arc : FlowArc) :
    (∃ x, n.ArcFault arc x ∧ n.edge arc = .error x) ∨
      (∀ x, ¬ n.ArcFault arc x) ∧ ∃ v w, n.vertex? arc.origin = some v ∧
        n.vertex? arc.target = some w ∧ n.edge arc = .ok (v, w) := by
  by_cases horigin : arc.origin ∈ n.names
  · obtain ⟨v, hv⟩ := exists_vertex?_iff.2 horigin
    by_cases htarget : arc.target ∈ n.names
    · obtain ⟨w, hw⟩ := exists_vertex?_iff.2 htarget
      have hkind := kind?_eq_iff hnodup ((vertex?_eq_some_iff_label? hn hnodup).1 hv)
        ((vertex?_eq_some_iff_label? hn hnodup).1 hw)
      rw [edge_of_vertex? hv hw]
      by_cases hsame : n.kind? v = n.kind? w
      · exact .inl ⟨_, .sameKind horigin htarget (hkind.1 hsame), if_pos hsame⟩
      · refine .inr ⟨fun x hx => ?_, v, w, hv, hw, if_neg hsame⟩
        cases hx with
        | origin h => exact h horigin
        | target _ h => exact h htarget
        | sameKind _ _ h => exact hsame (hkind.2 h)
    · refine .inl ⟨_, .target horigin htarget, ?_⟩
      rw [edge, resolve_of_vertex? hv, resolve_of_not_mem htarget]
      rfl
  · refine .inl ⟨_, .origin horigin, ?_⟩
    rw [edge, resolve_of_not_mem horigin]
    rfl

/-! ## Drawing the arcs -/

/-- The targets of the arcs that begin at a node, in the order of the arcs. -/
def targetsFrom (arcs : List FlowArc) (name : String) : List String :=
  (arcs.filter (·.origin = name)).map (·.target)

/-- The graph has a vertex for each name, and the successors of each are the targets of its arcs. -/
structure Drawn (n : FlowNet) (arcs : List FlowArc) (g : FlowGraph) : Prop where
  vertexCount_eq : g.vertexCount = n.names.length
  successors_eq : ∀ v name, n.label? v = some name →
    (g.successors v).map some = (targetsFrom arcs name).map n.vertex?

theorem Drawn.contains_iff (h : n.Drawn arcs g) :
    g.contains v = true ↔ ∃ name, n.label? v = some name := by
  rw [FlowGraph.contains_iff, h.vertexCount_eq, exists_label?_iff]

/-- The names and the arcs leave no choice of the graph. -/
theorem Drawn.unique (h : n.Drawn arcs g) (h' : n.Drawn arcs g') : g = g' := by
  refine FlowGraph.ext_successors (h.vertexCount_eq.trans h'.vertexCount_eq.symm) fun v => ?_
  by_cases hv : g.contains v = true
  · obtain ⟨name, hname⟩ := h.contains_iff.1 hv
    apply List.map_injective_iff.2 fun _ _ => Option.some.inj
    rw [h.successors_eq v name hname, h'.successors_eq v name hname]
  · -- vertices outside have no successors
    have hv' : ¬ g'.contains v = true := fun hv' => hv (h.contains_iff.2 (h'.contains_iff.1 hv'))
    rw [Not.imp_symm FlowGraph.contains_of_successors_ne_nil hv,
      Not.imp_symm FlowGraph.contains_of_successors_ne_nil hv']

theorem drawn_new (hn : n.names.length < idCount) :
    n.Drawn [] (.new (.ofNat n.names.length)) where
  vertexCount_eq := by rw [FlowGraph.vertexCount_new, UInt32.toNat_ofNat_of_lt' hn]
  successors_eq v name _ := by rw [FlowGraph.successors_new]; rfl

/-- The edge of one more arc is drawn behind those of the arcs before. -/
theorem Drawn.addEdge (hn : n.names.length < idCount) (hnodup : n.names.Nodup)
    (h : n.Drawn arcs g) (hv : n.vertex? arc.origin = some v) (hw : n.vertex? arc.target = some w) :
    ∃ g', g.addEdge v w = .ok g' ∧ n.Drawn (arcs ++ [arc]) g' := by
  have hlabel := (vertex?_eq_some_iff_label? hn hnodup).1 hv
  have hvmem : g.contains v = true := h.contains_iff.2 ⟨_, hlabel⟩
  have hwmem : g.contains w = true :=
    h.contains_iff.2 ⟨_, (vertex?_eq_some_iff_label? hn hnodup).1 hw⟩
  refine ⟨_, FlowGraph.addEdge_eq_ok_iff.2 ⟨hvmem, hwmem, rfl⟩, ?_, fun u name hu => ?_⟩
  · rw [FlowGraph.vertexCount_appendEdge, h.vertexCount_eq]
  · rw [FlowGraph.successors_appendEdge hvmem, targetsFrom, List.filter_append, List.map_append,
      List.map_append]
    by_cases hname : arc.origin = name
    · -- the name has one vertex, from which the new edge leads on
      obtain rfl : u = v := by
        rw [← vertex?_eq_some_iff_label? hn hnodup, ← hname, hv] at hu
        exact (Option.some.inj hu).symm
      rw [if_pos rfl, List.map_append, h.successors_eq u name hu]
      simp [targetsFrom, hname, hw]
    · have hne : u ≠ v := by
        rintro rfl
        exact hname (Option.some.inj (hlabel.symm.trans hu))
      rw [if_neg hne, h.successors_eq u name hu]
      simp [targetsFrom, hname]

/-- All arcs are drawn, if nothing is wrong with any of them. -/
theorem Drawn.exists_addArcs (hn : n.names.length < idCount) (hnodup : n.names.Nodup)
    {rest : List FlowArc} (h : n.Drawn arcs g) (hrest : ∀ arc ∈ rest, ∀ x, ¬ n.ArcFault arc x) :
    ∃ g', n.addArcs g rest = .ok g' ∧ n.Drawn (arcs ++ rest) g' := by
  induction rest generalizing arcs g with
  | nil => exact ⟨g, rfl, (List.append_nil arcs).symm ▸ h⟩
  | cons arc rest ih =>
    obtain ⟨harc, hrest⟩ := List.forall_mem_cons.1 hrest
    obtain ⟨v, w, hv, hw, hedge⟩ := ((edge_cases hn hnodup arc).resolve_left
      fun ⟨x, hx, _⟩ => harc x hx).2
    obtain ⟨next, hnext, hdrawn⟩ := h.addEdge hn hnodup hv hw
    obtain ⟨g', hg', hdrawn'⟩ := ih hdrawn hrest
    refine ⟨g', ?_, ?_⟩
    · rw [addArcs, List.foldlM_cons, hedge]
      show ((g.addEdge v w).mapError NetError.graph).bind _ = _
      rw [hnext]
      exact hg'
    · rwa [List.append_assoc] at hdrawn'

/-- The first arc that is not proper ends the drawing. -/
theorem Drawn.addArcs_of_fault (hn : n.names.length < idCount) (hnodup : n.names.Nodup)
    {rest behind : List FlowArc} (h : n.Drawn arcs g)
    (hrest : ∀ arc ∈ rest, ∀ x, ¬ n.ArcFault arc x) (hfault : n.ArcFault arc x) :
    n.addArcs g (rest ++ arc :: behind) = .error x := by
  obtain ⟨y, hy, hedge⟩ := (edge_cases hn hnodup arc).resolve_right fun hok => hok.1 x hfault
  obtain ⟨g', hg', _⟩ := h.exists_addArcs hn hnodup hrest
  rw [addArcs] at hg'
  rw [addArcs, List.foldlM_append, hg']
  show n.addArcs g' (arc :: behind) = _
  rw [addArcs, List.foldlM_cons, hedge, hfault.unique hy]
  rfl

/-! ## The conversion -/

/-- What is wrong with a net. -/
inductive Defect (n : FlowNet) : NetError → Prop where
  /-- A name is declared twice. -/
  | names {name : String} (h : FirstRepeat n.names name) : Defect n (.duplicateNode name)
  /-- The names are declared once each, and the arc is the first that is not proper. -/
  | arcs {before after : List FlowArc} {arc : FlowArc} {x : NetError} (hnodup : n.names.Nodup)
      (hsplit : n.arcs = before ++ arc :: after)
      (hbefore : ∀ b ∈ before, ∀ y, ¬ n.ArcFault b y) (hfault : n.ArcFault arc x) : Defect n x
  /-- Names and arcs are proper, and their graph has no unique source or no unique sink. -/
  | endpoints {g : FlowGraph} {x : GraphError} (hnodup : n.names.Nodup)
      (hproper : ∀ arc ∈ n.arcs, ∀ y, ¬ n.ArcFault arc y) (hdrawn : n.Drawn n.arcs g)
      (h : g.endpoints = .error x) : Defect n (.graph x)

/-- What a net without defects is converted into. -/
structure Converted (n : FlowNet) (ng : NetGraph) : Prop where
  net_eq : ng.net = n
  nodup : n.names.Nodup
  proper : ∀ arc ∈ n.arcs, ∀ x, ¬ n.ArcFault arc x
  drawn : n.Drawn n.arcs ng.graph
  endpoints_eq : ng.graph.endpoints = .ok (ng.source, ng.sink)
  mask_eq : ng.mask = n.transitionMask ng.graph

theorem value_toGraph (n : FlowNet) : n.toGraph.run.value = n.convert := by
  rw [toGraph, Attempt.value_bind, Attempt.run_ofExcept, Logged.value_pure]
  cases n.convert <;> rfl

theorem convert_of_firstRepeat (h : FirstRepeat n.names name) :
    n.convert = .error (.duplicateNode name) := by
  rw [convert, firstRepeat?_eq_some_iff.2 h]

/-- With the names declared once each, arcs are drawn and endpoints are looked for. -/
theorem convert_of_nodup (hnodup : n.names.Nodup) :
    n.convert = (n.addArcs (.new (.ofNat n.names.length)) n.arcs).bind fun g =>
      (g.endpoints.mapError .graph).map fun ends =>
        ⟨n, g, ends.1, ends.2, n.transitionMask g⟩ := by
  have hnone : firstRepeat? [] n.names = none := by
    cases h : firstRepeat? [] n.names with
    | none => rfl
    | some name => exact absurd (firstRepeat?_eq_some_iff.1 h) (not_firstRepeat_of_nodup hnodup)
  rw [convert, hnone]
  show Except.bind _ _ = _
  refine congrArg _ (funext fun g => ?_)
  cases g.endpoints <;> rfl

/-- Proper names and arcs have a graph, and its endpoints are all that is still to be found. -/
theorem exists_drawn (hn : n.names.length < idCount) (hnodup : n.names.Nodup)
    (hproper : ∀ arc ∈ n.arcs, ∀ x, ¬ n.ArcFault arc x) :
    ∃ g, n.Drawn n.arcs g ∧ n.convert = (g.endpoints.mapError .graph).map fun ends =>
      ⟨n, g, ends.1, ends.2, n.transitionMask g⟩ := by
  obtain ⟨g, hg, hdrawn⟩ := (drawn_new hn).exists_addArcs hn hnodup hproper
  refine ⟨g, hdrawn, ?_⟩
  rw [convert_of_nodup hnodup, hg]
  rfl

theorem convert_of_defect (hn : n.names.length < idCount) (h : n.Defect x) :
    n.convert = .error x := by
  cases h with
  | names h => exact convert_of_firstRepeat h
  | arcs hnodup hsplit hbefore hfault =>
    rw [convert_of_nodup hnodup, hsplit,
      (drawn_new hn).addArcs_of_fault hn hnodup hbefore hfault]
    rfl
  | endpoints hnodup hproper hdrawn h =>
    obtain ⟨g, hdrawn', hconvert⟩ := exists_drawn hn hnodup hproper
    obtain rfl := hdrawn.unique hdrawn'
    rw [hconvert, h]
    rfl

/-- The first arc that is not proper, if there is one. -/
theorem exists_first_fault (n : FlowNet) (arcs : List FlowArc) :
    (∀ arc ∈ arcs, ∀ x, ¬ n.ArcFault arc x) ∨
      ∃ before arc after x, arcs = before ++ arc :: after ∧
        (∀ b ∈ before, ∀ y, ¬ n.ArcFault b y) ∧ n.ArcFault arc x := by
  classical
  cases hfind : arcs.find? fun arc => ∃ x, n.ArcFault arc x with
  | none =>
    refine .inl fun arc harc x hx => ?_
    exact List.find?_eq_none.1 hfind arc harc (decide_eq_true ⟨x, hx⟩)
  | some arc =>
    obtain ⟨hfault, before, after, hsplit, hbefore⟩ := List.find?_eq_some_iff_append.1 hfind
    obtain ⟨x, hx⟩ := of_decide_eq_true hfault
    refine .inr ⟨before, arc, after, x, hsplit, fun b hb y hy => ?_, hx⟩
    have hnone := hbefore b hb
    rw [Bool.not_eq_true', decide_eq_false_iff_not] at hnone
    exact hnone ⟨y, hy⟩

/-- A net has a defect, or it is converted. -/
theorem defect_or_converted (hn : n.names.length < idCount) :
    (∃ x, n.Defect x) ∨ ∃ ng, n.Converted ng ∧ n.convert = .ok ng := by
  cases hfirst : firstRepeat? [] n.names with
  | some name => exact .inl ⟨_, .names (firstRepeat?_eq_some_iff.1 hfirst)⟩
  | none =>
    have hnodup := (firstRepeat?_eq_none hfirst).1
    rcases n.exists_first_fault n.arcs with hproper | ⟨_, _, _, x, hsplit, hbefore, hfault⟩
    · obtain ⟨g, hdrawn, hconvert⟩ := exists_drawn hn hnodup hproper
      cases hends : g.endpoints with
      | error x => exact .inl ⟨_, .endpoints hnodup hproper hdrawn hends⟩
      | ok ends =>
        refine .inr ⟨⟨n, g, ends.1, ends.2, n.transitionMask g⟩,
          ⟨rfl, hnodup, hproper, hdrawn, hends, rfl⟩, ?_⟩
        rw [hconvert, hends]
        rfl
    · exact .inl ⟨x, .arcs hnodup hsplit hbefore hfault⟩

/-- A conversion fails exactly for the defect of its net. -/
theorem toGraph_eq_error_iff (hn : n.names.length < idCount) :
    n.toGraph.run.value = .error x ↔ n.Defect x := by
  rw [value_toGraph]
  refine ⟨fun h => ?_, convert_of_defect hn⟩
  rcases defect_or_converted hn with ⟨y, hy⟩ | ⟨ng, _, hng⟩
  · rw [convert_of_defect hn hy] at h
    exact Except.error.inj h ▸ hy
  · rw [hng] at h
    cases h

theorem of_toGraph {ng : NetGraph} (hn : n.names.length < idCount)
    (h : n.toGraph.run.value = .ok ng) : n.Converted ng := by
  rw [value_toGraph] at h
  rcases defect_or_converted hn with ⟨y, hy⟩ | ⟨ng', hconverted, hng⟩
  · rw [convert_of_defect hn hy] at h
    cases h
  · rw [hng] at h
    exact Except.ok.inj h ▸ hconverted

/-- The mask lists the vertices of the transitions. -/
theorem Converted.contains_mask_iff {ng : NetGraph} (h : n.Converted ng) :
    ng.mask.contains v = true ↔ n.kind? v = some .transition := by
  rw [h.mask_eq, transitionMask, BoundaryMask.contains_ofList, List.mem_filter,
    FlowGraph.mem_vertices, FlowGraph.contains_iff, h.drawn.vertexCount_eq, decide_eq_true_iff,
    and_iff_right_iff_imp, kind?_eq_transition_iff]
  exact And.right

/-- The graph of a defect has no source or no sink, or several of one kind. -/
theorem Defect.graph_cases {y : GraphError} (h : n.Defect (.graph y)) :
    y = .noStart ∨ y = .noEnd ∨ (∃ first second, y = .multipleStarts first second) ∨
      ∃ first second, y = .multipleEnds first second := by
  cases h with
  | arcs _ _ _ hfault => cases hfault
  | endpoints _ _ _ hends => exact FlowGraph.endpoints_error_cases hends

/-- A conversion reports the first name that repeats an earlier one, otherwise what is wrong with
the first arc that is not proper, and otherwise what is wrong with the endpoints of the graph, which
is determined by names and arcs. It is the conversion with a table in which the nodes are entered
one after the other, and the table finds what the positions of the names say. If it succeeds, names
and vertices determine each other, the names being numbered by their positions, places first; the
mask lists the transitions; and the successors of a vertex are the targets of its arcs in their
order. -/
theorem toGraph_outcome (n : FlowNet) (hn : n.names.length < idCount) :
    (∀ x, n.toGraph.run.value = .error x ↔ n.Defect x) ∧
    (n.names.Nodup → (∀ arc ∈ n.arcs, ∀ x, ¬ n.ArcFault arc x) →
      ∃ g, n.Drawn n.arcs g ∧
        (∀ x, n.toGraph.run.value = .error (.graph x) ↔ g.endpoints = .error x) ∧
        ∀ s t, g.endpoints = .ok (s, t) → ∃ ng, n.toGraph.run.value = .ok ng ∧ ng.graph = g) ∧
    (∀ x, n.toGraph.run.value = .error (.graph x) →
      x = .noStart ∨ x = .noEnd ∨ (∃ first second, x = .multipleStarts first second) ∨
        ∃ first second, x = .multipleEnds first second) ∧
    (n.toGraph.run.value = n.convertByTable ∧ ∀ table, n.nodeTable = .ok table →
      (∀ name, table.vertex? name = n.vertex? name) ∧
      ∀ v, table.label? v = n.label? v ∧ table.kind? v = n.kind? v) ∧
    ∀ ng, n.toGraph.run.value = .ok ng →
      (∀ name v, ng.vertex? name = some v ↔ ng.label? v = some name) ∧
      (∀ name, (∃ v, ng.vertex? name = some v) ↔ name ∈ n.places ∨ name ∈ n.transitions) ∧
      (∀ v, ng.label? v = (n.places ++ n.transitions)[v.index]?) ∧
      ng.graph.vertexCount = n.places.length + n.transitions.length ∧
      (∀ v, (ng.kind? v = some .place ↔ v.index < n.places.length) ∧
        (ng.kind? v = none ↔ ng.graph.contains v = false)) ∧
      (∀ v, ng.mask.contains v = true ↔ ng.kind? v = some .transition) ∧
      ng.graph.endpoints = .ok (ng.source, ng.sink) ∧
      ∀ v name, ng.label? v = some name →
        (ng.graph.successors v).map some = (targetsFrom n.arcs name).map ng.vertex? := by
  refine ⟨fun x => toGraph_eq_error_iff hn, fun hnodup hproper => ?_, fun x hx => ?_,
    ⟨?_, fun table htable => ?_⟩, fun ng hng => ?_⟩
  · obtain ⟨g, hdrawn, hconvert⟩ := exists_drawn hn hnodup hproper
    refine ⟨g, hdrawn, fun x => ?_, fun s t hends => ⟨⟨n, g, s, t, n.transitionMask g⟩, ?_, rfl⟩⟩
    · rw [value_toGraph, hconvert]
      cases g.endpoints <;> simp [Except.mapError, Except.map]
    · rw [value_toGraph, hconvert, hends]
      rfl
  · exact ((toGraph_eq_error_iff hn).1 hx).graph_cases
  · rw [value_toGraph, convertByTable_eq hn]
  · obtain rfl := eq_numbered_of_nodeTable htable
    exact ⟨vertex?_numbered hn, fun v => ⟨label?_numbered n v, kind?_numbered n v⟩⟩
  · have h := of_toGraph hn hng
    have hcount := h.drawn.vertexCount_eq
    have hmask := fun v => h.contains_mask_iff (v := v)
    have hdrawn := h.drawn.successors_eq
    obtain rfl := h.net_eq
    refine ⟨fun name v => vertex?_eq_some_iff_label? hn h.nodup,
      fun name => exists_vertex?_iff.trans mem_names, fun v => rfl, ?_,
      fun v => ⟨kind?_eq_place_iff, ?_⟩, hmask, h.endpoints_eq, hdrawn⟩
    · rw [hcount, names, List.length_append]
    · rw [NetGraph.kind?, kind?_eq_none_iff, ← Bool.not_eq_true, FlowGraph.contains_iff, hcount,
        Nat.not_lt]

/-- A toll is paid, twice if need be, before one passes. -/
def toll : FlowNet where
  places := ["enter", "paid", "leave"]
  transitions := ["pay", "pass"]
  arcs := [⟨"enter", "pay"⟩, ⟨"pay", "paid"⟩, ⟨"paid", "pass"⟩, ⟨"pay", "paid"⟩, ⟨"pass", "leave"⟩]

/-- The transitions of the toll come behind its places, and the repeated arc is kept. With a name
declared again the net is refused for that name, also when an arc is not proper. -/
theorem toll_converted :
    toll.names.length < idCount ∧
      (∃ ng, toll.toGraph.run.value = .ok ng ∧ ng.label? ⟨3⟩ = some "pay" ∧
        ng.vertex? "pay" = some ⟨3⟩ ∧ ng.mask.contains ⟨3⟩ = true ∧ ¬ ng.mask.contains ⟨1⟩ = true ∧
        ng.graph.successors ⟨3⟩ = [⟨1⟩, ⟨1⟩] ∧ ng.graph.endpoints = .ok (⟨0⟩, ⟨2⟩)) ∧
      ((toll.addPlace "pay").addArc "exit" "pay").toGraph.run.value =
        .error (.duplicateNode "pay") := by
  have hn : toll.names.length < idCount := by decide
  obtain ⟨ng, hng, hsource, hsink, hpay, hplace⟩ : ∃ ng, toll.toGraph.run.value = .ok ng ∧
      ng.source = ⟨0⟩ ∧ ng.sink = ⟨2⟩ ∧ ng.kind? ⟨3⟩ = some .transition ∧
      ng.kind? ⟨1⟩ = some .place :=
    ⟨toll.toGraph.run.value.toOption.get (by decide +kernel), by decide +kernel,
      by decide +kernel, by decide +kernel, by decide +kernel, by decide +kernel⟩
  obtain ⟨hinverse, _, hlabels, _, _, hmask, hends, hdrawn⟩ :=
    (toGraph_outcome toll hn).2.2.2.2 ng hng
  have hthree : ng.label? ⟨3⟩ = some "pay" := hlabels ⟨3⟩
  have hone : ng.vertex? "paid" = some ⟨1⟩ := (hinverse "paid" ⟨1⟩).2 (hlabels ⟨1⟩)
  have htargets : targetsFrom toll.arcs "pay" = ["paid", "paid"] := by decide
  refine ⟨hn, ⟨ng, hng, hthree, (hinverse "pay" ⟨3⟩).2 hthree, (hmask ⟨3⟩).2 hpay, ?_, ?_, ?_⟩, ?_⟩
  · rw [hmask, hplace]
    decide
  · apply List.map_injective_iff.2 fun _ _ => Option.some.inj
    rw [hdrawn ⟨3⟩ "pay" hthree, htargets, List.map_cons, List.map_cons, List.map_nil, hone]
    rfl
  · rw [hends, hsource, hsink]
  · have hrepeat : FirstRepeat ((toll.addPlace "pay").addArc "exit" "pay").names "pay" :=
      ⟨["enter", "paid", "leave", "pay"], ["pass"], rfl, by decide, by decide⟩
    exact ((toGraph_outcome _ (by decide)).1 _).2 (.names hrepeat)

end FlowNet

end FlowRegions
