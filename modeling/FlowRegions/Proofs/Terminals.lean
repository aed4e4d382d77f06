import FlowRegions.FlowGraph.Endpoints

/-!
# The source and the sink of a graph

At every point the scan of the vertices has kept all sources and all sinks that it has passed, as a
second one of either kind would have ended it (`Scanned.note`). So the endpoints of a graph are its
only source and its only sink (`filter_of_endpoints`), two vertices of the graph of which the former
has successors and the latter none. The scan finds them whenever there is one of each kind and the
two are different (`endpoints_eq_ok_iff`).
-/

namespace FlowRegions

namespace FlowGraph

variable {g back : FlowGraph} {vs ws : List VertexId} {t t' : Terminals} {v s e : VertexId}
variable {p : VertexId → Bool} {clash : VertexId → VertexId → GraphError}
variable {found found' : Option VertexId}

/-! ## The scan -/

/-- Keeps one more vertex if it is of a kind. -/
def claimIf (p : VertexId → Bool) (clash : VertexId → VertexId → GraphError)
    (found : Option VertexId) (v : VertexId) : Except GraphError (Option VertexId) :=
  if p v then claimUnique clash found v else .ok found

/-- The two kinds are looked at one after the other. -/
theorem note_eq : t.note g back v =
    (claimIf (endsAt back g) .multipleStarts t.source v).bind fun source =>
      (claimIf (endsAt g back) .multipleEnds t.sink v).map fun sink => ⟨source, sink⟩ := by
  unfold Terminals.note claimIf
  by_cases hsource : endsAt back g v = true
  · rw [if_pos hsource, if_pos hsource]
    split <;> rfl
  · rw [if_neg hsource, if_neg hsource]
    split <;> rfl

/-- The vertices of a kind among some are those that have been kept, at most one. -/
theorem filter_append_of_claimIf (h : vs.filter p = found.toList)
    (hv : claimIf p clash found v = .ok found') : (vs ++ [v]).filter p = found'.toList := by
  unfold claimIf at hv
  rw [List.filter_append, h]
  split at hv
  · next hp =>
    -- a vertex is kept only as the first of its kind
    cases found with
    | none =>
      obtain rfl : some v = found' := Except.ok.inj hv
      simp [hp]
    | some first => cases hv
  · next hp =>
    obtain rfl : found = found' := Except.ok.inj hv
    simp [hp]

/-- The sources and the sinks among some vertices are those that a scan has found. -/
structure Scanned (g back : FlowGraph) (vs : List VertexId) (t : Terminals) : Prop where
  sources : vs.filter (endsAt back g) = t.source.toList
  sinks : vs.filter (endsAt g back) = t.sink.toList

/-- Taking one more vertex into account keeps all sources and sinks. -/
theorem Scanned.note (h : Scanned g back vs t) (ht : t.note g back v = .ok t') :
    Scanned g back (vs ++ [v]) t' := by
  rw [note_eq] at ht
  cases hsource : claimIf (endsAt back g) .multipleStarts t.source v with
  | error x =>
    rw [hsource] at ht
    cases ht
  | ok source =>
    cases hsink : claimIf (endsAt g back) .multipleEnds t.sink v with
    | error x =>
      rw [hsource, hsink] at ht
      cases ht
    | ok sink =>
      rw [hsource, hsink] at ht
      obtain rfl : ⟨source, sink⟩ = t' := Except.ok.inj ht
      exact ⟨filter_append_of_claimIf h.sources hsource, filter_append_of_claimIf h.sinks hsink⟩

/-- A scan that does not fail keeps all sources and sinks. -/
theorem Scanned.foldlM_note (h : Scanned g back vs t)
    (ht : ws.foldlM (Terminals.note g back) t = .ok t') : Scanned g back (vs ++ ws) t' := by
  induction ws generalizing vs t with
  | nil =>
    obtain rfl : t = t' := Except.ok.inj ht
    rwa [List.append_nil]
  | cons v ws ih =>
    rw [List.foldlM_cons] at ht
    cases hv : t.note g back v with
    | error x =>
      rw [hv] at ht
      cases ht
    | ok next =>
      rw [hv] at ht
      rw [List.append_cons]
      exact ih (h.note hv) ht

theorem scanned_of_scanTerminals (h : g.scanTerminals = .ok t) :
    g.vertices.filter g.isSource = t.source.toList ∧
      g.vertices.filter g.isSink = t.sink.toList := by
  have hstart : Scanned g g.transpose [] ⟨none, none⟩ := ⟨rfl, rfl⟩
  have hall := hstart.foldlM_note h
  exact ⟨hall.sources, hall.sinks⟩

/-- At most one vertex of a kind has been kept or is still to come, so keeping the next one does not
fail. -/
theorem exists_claimIf (clash : VertexId → VertexId → GraphError)
    (h : (found.toList ++ (v :: vs).filter p).length ≤ 1) :
    ∃ found', claimIf p clash found v = .ok found' ∧
      found'.toList ++ vs.filter p = found.toList ++ (v :: vs).filter p := by
  unfold claimIf
  by_cases hp : p v = true
  · rw [if_pos hp]
    rw [List.filter_cons_of_pos hp] at h ⊢
    cases found with
    | none => exact ⟨some v, rfl, rfl⟩
    | some first => simp at h
  · exact ⟨found, if_neg hp, by rw [List.filter_cons_of_neg hp]⟩

/-- A scan fails only at a second source or a second sink. -/
theorem exists_foldlM_note
    (hsource : (t.source.toList ++ vs.filter (endsAt back g)).length ≤ 1)
    (hsink : (t.sink.toList ++ vs.filter (endsAt g back)).length ≤ 1) :
    ∃ t', vs.foldlM (Terminals.note g back) t = .ok t' := by
  induction vs generalizing t with
  | nil => exact ⟨t, rfl⟩
  | cons v vs ih =>
    obtain ⟨source, hv, hkept⟩ := exists_claimIf .multipleStarts hsource
    obtain ⟨sink, hv', hkept'⟩ := exists_claimIf .multipleEnds hsink
    have hnote : t.note g back v = .ok ⟨source, sink⟩ := by
      rw [note_eq, hv, hv']
      rfl
    rw [List.foldlM_cons, hnote]
    exact ih (hkept ▸ hsource) (hkept' ▸ hsink)

/-! ## The endpoints -/

/-- What a scan has found decides, unless it is one vertex. -/
theorem endpoints_of_scanTerminals {first last : VertexId}
    (h : g.scanTerminals = .ok ⟨some first, some last⟩) :
    g.endpoints = if first = last then .error (.startIsEnd first) else .ok (first, last) := by
  rw [endpoints, h]
  rfl

/-- The endpoints of a graph are its only source and its only sink. -/
theorem filter_of_endpoints (h : g.endpoints = .ok (s, e)) :
    g.vertices.filter g.isSource = [s] ∧ g.vertices.filter g.isSink = [e] := by
  have hfound : g.scanTerminals = .ok ⟨some s, some e⟩ := by
    cases hscan : g.scanTerminals with
    | error x =>
      rw [endpoints, hscan] at h
      cases h
    | ok t =>
      match t with
      | ⟨none, _⟩ | ⟨some _, none⟩ =>
        rw [endpoints, hscan] at h
        cases h
      | ⟨some first, some last⟩ =>
        rw [endpoints_of_scanTerminals hscan] at h
        split at h
        · cases h
        · cases h
          rfl
  exact scanned_of_scanTerminals hfound

/-- The source of a graph has successors and no predecessors. -/
theorem isSource_of_endpoints (h : g.endpoints = .ok (s, e)) :
    g.predecessors s = [] ∧ g.successors s ≠ [] := by
  have hmem : s ∈ g.vertices.filter g.isSource :=
    (filter_of_endpoints h).1 ▸ List.mem_singleton.2 rfl
  exact isSource_iff.1 (List.mem_filter.1 hmem).2

/-- The sink of a graph has predecessors and no successors. -/
theorem isSink_of_endpoints (h : g.endpoints = .ok (s, e)) :
    g.successors e = [] ∧ g.predecessors e ≠ [] := by
  have hmem : e ∈ g.vertices.filter g.isSink :=
    (filter_of_endpoints h).2 ▸ List.mem_singleton.2 rfl
  exact isSink_iff.1 (List.mem_filter.1 hmem).2

theorem contains_source_of_endpoints (h : g.endpoints = .ok (s, e)) : g.contains s = true :=
  contains_of_successors_ne_nil (isSource_of_endpoints h).2

theorem contains_sink_of_endpoints (h : g.endpoints = .ok (s, e)) : g.contains e = true := by
  obtain ⟨v, hv⟩ := List.exists_mem_of_ne_nil _ (isSink_of_endpoints h).2
  exact contains_of_mem_successors (mem_predecessors.1 hv)

/-- The source goes on, and the sink does not. -/
theorem source_ne_sink_of_endpoints (h : g.endpoints = .ok (s, e)) : s ≠ e := by
  rintro rfl
  exact (isSource_of_endpoints h).2 (isSink_of_endpoints h).1

/-- A graph has endpoints exactly when it has one source and one sink, which are different. -/
theorem endpoints_eq_ok_iff :
    g.endpoints = .ok (s, e) ↔
      g.vertices.filter g.isSource = [s] ∧ g.vertices.filter g.isSink = [e] ∧ s ≠ e := by
  constructor
  · intro h
    exact ⟨(filter_of_endpoints h).1, (filter_of_endpoints h).2, source_ne_sink_of_endpoints h⟩
  · rintro ⟨hsource, hsink, hne⟩
    obtain ⟨⟨first, last⟩, hscan⟩ : ∃ t, g.scanTerminals = .ok t :=
      exists_foldlM_note (Nat.le_of_eq (congrArg List.length hsource))
        (Nat.le_of_eq (congrArg List.length hsink))
    obtain ⟨hfirst, hlast⟩ := scanned_of_scanTerminals hscan
    rw [hsource] at hfirst
    rw [hsink] at hlast
    obtain rfl : first = some s := Option.toList_eq_singleton_iff.1 hfirst.symm
    obtain rfl : last = some e := Option.toList_eq_singleton_iff.1 hlast.symm
    rw [endpoints_of_scanTerminals hscan, if_neg hne]

/-- A kind that a single vertex is of. -/
theorem filter_vertices_eq_singleton (h : ∀ u, (g.contains u = true ∧ p u = true) ↔ u = v) :
    g.vertices.filter p = [v] := by
  refine IdSet.eq_of_mem_iff (g.successorTable.pairwise_vertices.filter p)
    (List.pairwise_singleton _ v) fun u => ?_
  rw [List.mem_filter, List.mem_singleton, ← h u]
  exact and_congr_left fun _ => mem_vertices

/-! ## Why there are no endpoints -/

theorem exists_clash_of_claimIf {x : GraphError} (h : claimIf p clash found v = .error x) :
    ∃ first, x = clash first v := by
  unfold claimIf at h
  split at h
  · cases found with
    | none => cases h
    | some first => exact ⟨first, (Except.error.inj h).symm⟩
  · cases h

/-- A vertex is refused only because another one is of the same kind. -/
theorem clash_of_note {x : GraphError} (h : t.note g back v = .error x) :
    (∃ first, x = .multipleStarts first v) ∨ ∃ first, x = .multipleEnds first v := by
  rw [note_eq] at h
  cases hsource : claimIf (endsAt back g) .multipleStarts t.source v with
  | error y =>
    rw [hsource] at h
    cases h
    exact .inl (exists_clash_of_claimIf hsource)
  | ok source =>
    cases hsink : claimIf (endsAt g back) .multipleEnds t.sink v with
    | error y =>
      rw [hsource, hsink] at h
      cases h
      exact .inr (exists_clash_of_claimIf hsink)
    | ok sink =>
      rw [hsource, hsink] at h
      cases h

/-- A scan fails only at two vertices of one kind. -/
theorem clash_of_foldlM_note {x : GraphError}
    (h : ws.foldlM (Terminals.note g back) t = .error x) :
    (∃ first second, x = .multipleStarts first second) ∨
      ∃ first second, x = .multipleEnds first second := by
  induction ws generalizing t with
  | nil => cases h
  | cons v ws ih =>
    rw [List.foldlM_cons] at h
    cases hv : t.note g back v with
    | error y =>
      rw [hv] at h
      cases h
      exact (clash_of_note hv).imp (fun ⟨first, hx⟩ => ⟨first, v, hx⟩)
        fun ⟨first, hx⟩ => ⟨first, v, hx⟩
    | ok next =>
      rw [hv] at h
      exact ih h

/-- A graph without endpoints has none or several of one kind. In particular no vertex is both
source and sink. -/
theorem endpoints_error_cases {x : GraphError} (h : g.endpoints = .error x) :
    x = .noStart ∨ x = .noEnd ∨ (∃ first second, x = .multipleStarts first second) ∨
      ∃ first second, x = .multipleEnds first second := by
  cases hscan : g.scanTerminals with
  | error y =>
    rw [endpoints, hscan] at h
    cases h
    exact .inr (.inr (clash_of_foldlM_note hscan))
  | ok t =>
    obtain ⟨hsources, hsinks⟩ := scanned_of_scanTerminals hscan
    match t with
    | ⟨none, _⟩ =>
      rw [endpoints, hscan] at h
      cases h
      exact .inl rfl
    | ⟨some _, none⟩ =>
      rw [endpoints, hscan] at h
      cases h
      exact .inr (.inl rfl)
    | ⟨some s, some e⟩ =>
      have hsource : s ∈ g.vertices.filter g.isSource := hsources ▸ List.mem_singleton.2 rfl
      have hsink : e ∈ g.vertices.filter g.isSink := hsinks ▸ List.mem_singleton.2 rfl
      have hne : s ≠ e := by
        rintro rfl
        exact (isSource_iff.1 (List.mem_filter.1 hsource).2).2
          (isSink_iff.1 (List.mem_filter.1 hsink).2).1
      rw [endpoints_of_scanTerminals hscan, if_neg hne] at h
      cases h

end FlowGraph

end FlowRegions
