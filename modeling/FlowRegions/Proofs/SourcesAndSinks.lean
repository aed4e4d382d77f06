import FlowRegions.Proofs.Terminals
import FlowRegions.Proofs.Transposition

/-!
# Graphs with and without endpoints

The vertices are scanned in ascending order, and the scan stops at the first that is a second source
or a second sink. It has passed at most one vertex of the other kind by then (`Scanned.stopped`).
So the sources and the sinks, listed in ascending order, decide the outcome (`verdict`,
`endpoints_eq_verdict`): of a second source and a second sink, the lower one is reported. Reversing
all edges exchanges sources and sinks, and with them the ends of the graph or what is wrong with
them, unless both are missing (`verdict_swap`).
-/

namespace FlowRegions

/-- The same about the other end of a graph. -/
def GraphError.exchanged : GraphError → GraphError
  | .noStart => .noEnd
  | .noEnd => .noStart
  | .multipleStarts first second => .multipleEnds first second
  | .multipleEnds first second => .multipleStarts first second
  | x => x

namespace FlowGraph

variable {g back : FlowGraph} {us vs ws k l m : List VertexId} {t : Terminals}
variable {a b v : VertexId} {p : VertexId → Bool} {clash : VertexId → VertexId → GraphError}
variable {found : Option VertexId} {x : GraphError}

/-! ## Sources and sinks -/

/-- The vertices with successors to which no edge leads, ascending. -/
def sources (g : FlowGraph) : List VertexId :=
  g.vertices.filter fun v => g.inDegree v = 0 ∧ g.successors v ≠ []

/-- The vertices without successors to which edges lead, ascending. -/
def sinks (g : FlowGraph) : List VertexId :=
  g.vertices.filter fun v => g.successors v = [] ∧ g.inDegree v ≠ 0

theorem mem_sources :
    v ∈ g.sources ↔ g.contains v = true ∧ g.inDegree v = 0 ∧ g.successors v ≠ [] := by
  rw [sources, List.mem_filter, mem_vertices, decide_eq_true_iff]

theorem mem_sinks :
    v ∈ g.sinks ↔ g.contains v = true ∧ g.successors v = [] ∧ g.inDegree v ≠ 0 := by
  rw [sinks, List.mem_filter, mem_vertices, decide_eq_true_iff]

theorem not_mem_sinks_of_mem_sources (h : v ∈ g.sources) : v ∉ g.sinks := fun h' =>
  (mem_sources.1 h).2.2 (mem_sinks.1 h').2.1

theorem inDegree_eq_zero_iff : g.inDegree v = 0 ↔ g.predecessors v = [] := by
  rw [← length_successors_transpose, successors_transpose, List.length_eq_zero_iff]

theorem sources_eq (g : FlowGraph) : g.sources = g.vertices.filter g.isSource := by
  refine List.filter_congr fun v _ => ?_
  rw [Bool.eq_iff_iff, decide_eq_true_iff, isSource_iff, inDegree_eq_zero_iff]

theorem sinks_eq (g : FlowGraph) : g.sinks = g.vertices.filter g.isSink := by
  refine List.filter_congr fun v _ => ?_
  rw [Bool.eq_iff_iff, decide_eq_true_iff, isSink_iff, Ne, inDegree_eq_zero_iff]

theorem inDegree_transpose (g : FlowGraph) (v : VertexId) :
    g.transpose.inDegree v = (g.successors v).length := by
  rw [← length_successors_transpose, transpose_transpose, successors_sorted,
    (perm_sortVertices _).length_eq]

/-- The sources of the reversed graph are the sinks. -/
theorem sources_transpose (g : FlowGraph) : g.transpose.sources = g.sinks := by
  rw [sources, vertices_transpose]
  refine List.filter_congr fun v _ => ?_
  rw [Bool.eq_iff_iff, decide_eq_true_iff, decide_eq_true_iff, inDegree_transpose,
    List.length_eq_zero_iff, successors_transpose, Ne, Ne, inDegree_eq_zero_iff]

/-- The sinks of the reversed graph are the sources. -/
theorem sinks_transpose (g : FlowGraph) : g.transpose.sinks = g.sources := by
  rw [sinks, vertices_transpose]
  refine List.filter_congr fun v _ => ?_
  rw [Bool.eq_iff_iff, decide_eq_true_iff, decide_eq_true_iff, inDegree_transpose, Ne,
    List.length_eq_zero_iff, successors_transpose, inDegree_eq_zero_iff]

/-! ## Where the scan stops -/

/-- A vertex is refused when it is the second of its kind. -/
theorem second_of_claimIf (h : vs.filter p = found.toList)
    (hv : claimIf p clash found v = .error x) :
    ∃ first, x = clash first v ∧ p v = true ∧ (vs ++ [v]).filter p = [first, v] := by
  unfold claimIf at hv
  split at hv
  · next hp =>
    cases found with
    | none => cases hv
    | some first =>
      refine ⟨first, (Except.error.inj hv).symm, hp, ?_⟩
      rw [List.filter_append, h, List.filter_singleton, hp]
      rfl
  · cases hv

/-- What is of one kind is not of the other. -/
theorem endsAt_eq_false (h : endsAt back g v = true) : endsAt g back v = false := by
  refine Bool.eq_false_iff.2 fun h' => ?_
  exact (endsAt_iff.1 h).2 (endsAt_iff.1 h').1

/-- A scan that has passed some vertices stops at the second of one kind, having passed at most one
of the other. -/
inductive Stopped (g back : FlowGraph) (vs : List VertexId) (v : VertexId) : GraphError → Prop where
  | starts {first : VertexId} (hfirst : (vs ++ [v]).filter (endsAt back g) = [first, v])
      (hother : ((vs ++ [v]).filter (endsAt g back)).length ≤ 1) :
      Stopped g back vs v (.multipleStarts first v)
  | ends {first : VertexId} (hfirst : (vs ++ [v]).filter (endsAt g back) = [first, v])
      (hother : ((vs ++ [v]).filter (endsAt back g)).length ≤ 1) :
      Stopped g back vs v (.multipleEnds first v)

theorem Scanned.stopped (h : Scanned g back vs t) (ht : t.note g back v = .error x) :
    Stopped g back vs v x := by
  rw [note_eq] at ht
  cases hsource : claimIf (endsAt back g) .multipleStarts t.source v with
  | error y =>
    rw [hsource] at ht
    obtain rfl : y = x := Except.error.inj ht
    obtain ⟨first, rfl, hv, hsources⟩ := second_of_claimIf h.sources hsource
    refine .starts hsources ?_
    rw [List.filter_append, h.sinks, List.filter_singleton, endsAt_eq_false hv]
    cases t.sink <;> simp
  | ok source =>
    cases hsink : claimIf (endsAt g back) .multipleEnds t.sink v with
    | error y =>
      rw [hsource, hsink] at ht
      obtain rfl : y = x := Except.error.inj ht
      obtain ⟨first, rfl, _, hsinks⟩ := second_of_claimIf h.sinks hsink
      refine .ends hsinks ?_
      rw [filter_append_of_claimIf h.sources hsource]
      cases source <;> simp
    | ok sink =>
      rw [hsource, hsink] at ht
      cases ht

/-- A scan that fails has stopped at some vertex. -/
theorem Scanned.exists_stopped (h : Scanned g back vs t)
    (hx : ws.foldlM (Terminals.note g back) t = .error x) :
    ∃ us v rest, vs ++ ws = us ++ v :: rest ∧ Stopped g back us v x := by
  induction ws generalizing vs t with
  | nil => cases hx
  | cons w ws ih =>
    rw [List.foldlM_cons] at hx
    cases hw : t.note g back w with
    | error y =>
      rw [hw] at hx
      obtain rfl : y = x := Except.error.inj hx
      exact ⟨vs, w, ws, rfl, h.stopped hw⟩
    | ok next =>
      rw [hw] at hx
      rw [List.append_cons]
      exact ih (h.note hw) hx

/-! ## What the sources and the sinks decide -/

/-- The endpoints, if there is one source and one sink. Otherwise two of a kind are reported, if
there are several of both kinds those of which the second is lower, or else that there is no source,
or else that there is no sink. -/
def verdict : List VertexId → List VertexId → Except GraphError (VertexId × VertexId)
  | a :: b :: _, c :: d :: _ => .error (if b < d then .multipleStarts a b else .multipleEnds c d)
  | a :: b :: _, [_] => .error (.multipleStarts a b)
  | a :: b :: _, [] => .error (.multipleStarts a b)
  | [_], c :: d :: _ => .error (.multipleEnds c d)
  | [], c :: d :: _ => .error (.multipleEnds c d)
  | [s], [e] => .ok (s, e)
  | [_], [] => .error .noEnd
  | [], [_] => .error .noStart
  | [], [] => .error .noStart

/-- Two sources are reported if there is at most one sink up to the second. -/
theorem verdict_of_starts (hk : k.length ≤ 1) (hm : ∀ d ∈ m, b < d) :
    verdict (a :: b :: l) (k ++ m) = .error (.multipleStarts a b) := by
  match k, m with
  | [], [] | [], [_] | [_], [] => rfl
  | [], c :: d :: m =>
    exact congrArg Except.error (if_pos (hm d (List.mem_cons_of_mem c List.mem_cons_self)))
  | [c], d :: m => exact congrArg Except.error (if_pos (hm d List.mem_cons_self))

/-- Two sinks are reported if there is at most one source up to the second. -/
theorem verdict_of_ends (hk : k.length ≤ 1) (hm : ∀ d ∈ m, b < d) :
    verdict (k ++ m) (a :: b :: l) = .error (.multipleEnds a b) := by
  match k, m with
  | [], [] | [], [_] | [_], [] => rfl
  | [], c :: d :: m =>
    have hd := DenseId.lt_asymm (hm d (List.mem_cons_of_mem c List.mem_cons_self))
    exact congrArg Except.error (if_neg hd)
  | [c], d :: m =>
    exact congrArg Except.error (if_neg (DenseId.lt_asymm (hm d List.mem_cons_self)))

/-- What a scan that does not fail has found decides. -/
theorem endpoints_of_scanned (h : g.scanTerminals = .ok t) :
    g.endpoints = verdict g.sources g.sinks := by
  obtain ⟨hsources, hsinks⟩ := scanned_of_scanTerminals h
  rw [← sources_eq] at hsources
  rw [← sinks_eq] at hsinks
  rw [hsources, hsinks]
  match t with
  | ⟨none, none⟩ | ⟨none, some _⟩ | ⟨some _, none⟩ =>
    rw [endpoints, h]
    rfl
  | ⟨some s, some e⟩ =>
    have hne : s ≠ e := by
      rintro rfl
      have hsource : s ∈ g.sources := hsources.symm ▸ List.mem_cons_self
      have hsink : s ∈ g.sinks := hsinks.symm ▸ List.mem_cons_self
      exact not_mem_sinks_of_mem_sources hsource hsink
    rw [endpoints_of_scanTerminals h, if_neg hne]
    rfl

/-- Where a scan has stopped decides. -/
theorem endpoints_of_stopped (h : g.scanTerminals = .error x) :
    g.endpoints = verdict g.sources g.sinks := by
  have hend : g.endpoints = .error x := by
    rw [endpoints, h]
    rfl
  have hstart : Scanned g g.transpose [] ⟨none, none⟩ := ⟨rfl, rfl⟩
  obtain ⟨us, v, rest, hvertices, hstop⟩ := hstart.exists_stopped h
  have hsplit : g.vertices = (us ++ [v]) ++ rest := by
    rw [← List.append_cons]
    exact hvertices
  -- what has not been passed is greater than the vertex at which the scan has stopped
  have hrest : ∀ p : VertexId → Bool, ∀ d ∈ rest.filter p, v < d := by
    intro p d hd
    have hpair := g.successorTable.pairwise_vertices
    rw [show g.successorTable.vertices = (us ++ [v]) ++ rest from hsplit] at hpair
    exact (List.pairwise_append.1 hpair).2.2 v (List.mem_append_right us List.mem_cons_self) d
      (List.mem_of_mem_filter hd)
  have hsources : g.sources =
      (us ++ [v]).filter (endsAt g.transpose g) ++ rest.filter g.isSource := by
    rw [sources_eq, hsplit, List.filter_append]
    rfl
  have hsinks : g.sinks = (us ++ [v]).filter (endsAt g g.transpose) ++ rest.filter g.isSink := by
    rw [sinks_eq, hsplit, List.filter_append]
    rfl
  rw [hend, hsources, hsinks]
  cases hstop with
  | starts hfirst hother =>
    rw [hfirst]
    exact (verdict_of_starts hother (hrest _)).symm
  | ends hfirst hother =>
    rw [hfirst]
    exact (verdict_of_ends hother (hrest _)).symm

/-- The sources and the sinks decide what the endpoints are, and why there are none. -/
theorem endpoints_eq_verdict (g : FlowGraph) : g.endpoints = verdict g.sources g.sinks := by
  cases h : g.scanTerminals with
  | ok t => exact endpoints_of_scanned h
  | error x => exact endpoints_of_stopped h

variable {c d s e : VertexId}

theorem verdict_eq_ok_iff : verdict l m = .ok (s, e) ↔ l = [s] ∧ m = [e] := by
  fun_cases verdict l m <;> simp

theorem verdict_eq_starts_iff : verdict l m = .error (.multipleStarts a b) ↔
    (∃ l', l = a :: b :: l') ∧ ∀ c d m', m = c :: d :: m' → b < d := by
  fun_cases verdict l m with
  | case1 a' b' l' c d m' =>
    constructor
    · intro h
      split at h
      · next hlt =>
        cases h
        refine ⟨⟨l', rfl⟩, ?_⟩
        rintro _ _ _ ⟨⟩
        exact hlt
      · cases h
    · rintro ⟨⟨_, ⟨⟩⟩, hlower⟩
      rw [if_pos (hlower c d m' rfl)]
  | _ => simp

/-- The second of one kind is not the second of the other. -/
theorem second_lt_second (hne : ∀ v ∈ a :: b :: l, v ∉ c :: d :: m) (h : ¬ b < d) : d < b := by
  refine Decidable.of_not_not fun hgt => hne b (by simp) ?_
  rw [DenseId.eq_of_not_lt h hgt]
  simp

theorem verdict_eq_ends_iff (hne : ∀ v ∈ l, v ∉ m) : verdict l m = .error (.multipleEnds c d) ↔
    (∃ m', m = c :: d :: m') ∧ ∀ a b l', l = a :: b :: l' → d < b := by
  fun_cases verdict l m with
  | case1 a b l' c' d' m' =>
    constructor
    · intro h
      split at h
      · cases h
      · next hlt =>
        cases h
        refine ⟨⟨m', rfl⟩, ?_⟩
        rintro _ _ _ ⟨⟩
        exact second_lt_second hne hlt
    · rintro ⟨⟨_, ⟨⟩⟩, hlower⟩
      rw [if_neg (DenseId.lt_asymm (hlower a b l' rfl))]
  | _ => simp

theorem verdict_eq_noStart_iff : verdict l m = .error .noStart ↔ l = [] ∧ m.length ≤ 1 := by
  fun_cases verdict l m with
  | case1 => split <;> simp
  | _ => simp

theorem verdict_eq_noEnd_iff : verdict l m = .error .noEnd ↔ l.length = 1 ∧ m = [] := by
  fun_cases verdict l m with
  | case1 => split <;> simp
  | _ => simp

/-- The outcome for the graph with all edges reversed. -/
def exchanged : Except GraphError (VertexId × VertexId) → Except GraphError (VertexId × VertexId)
  | .ok (s, e) => .ok (e, s)
  | .error x => .error x.exchanged

/-- Exchanging sources and sinks exchanges the outcome, unless there are neither. -/
theorem verdict_swap (hne : ∀ v ∈ l, v ∉ m) :
    verdict m l = if l = [] ∧ m = [] then .error .noStart else exchanged (verdict l m) := by
  fun_cases verdict l m with
  | case1 a b l' c d m' =>
    by_cases hlt : b < d
    · simp [verdict, exchanged, GraphError.exchanged, hlt, DenseId.lt_asymm hlt]
    · simp [verdict, exchanged, GraphError.exchanged, hlt, second_lt_second hne hlt]
  | _ => simp [verdict, exchanged, GraphError.exchanged]

/-- A graph has endpoints exactly if it has one source and one sink. If there are several of either
kind, the two lowest are reported, and if there are several of both kinds those of which the second
is lower. Otherwise it is reported that there is no source, or else that there is no sink. The
endpoints are never the same vertex. Reversing all edges exchanges the endpoints or what is wrong
with them, but a source is missed first if there is neither source nor sink. -/
theorem endpoints_reported (g : FlowGraph) :
    ((g.sources.Pairwise (· < ·) ∧ ∀ v, v ∈ g.sources ↔
        g.contains v = true ∧ g.inDegree v = 0 ∧ g.successors v ≠ []) ∧
      g.sinks.Pairwise (· < ·) ∧ ∀ v, v ∈ g.sinks ↔
        g.contains v = true ∧ g.successors v = [] ∧ g.inDegree v ≠ 0) ∧
    (∀ s e, g.endpoints = .ok (s, e) ↔ g.sources = [s] ∧ g.sinks = [e]) ∧
    ((∀ a b, g.endpoints = .error (.multipleStarts a b) ↔
        (∃ l, g.sources = a :: b :: l) ∧ ∀ c d m, g.sinks = c :: d :: m → b < d) ∧
      ∀ c d, g.endpoints = .error (.multipleEnds c d) ↔
        (∃ m, g.sinks = c :: d :: m) ∧ ∀ a b l, g.sources = a :: b :: l → d < b) ∧
    ((g.endpoints = .error .noStart ↔ g.sources = [] ∧ g.sinks.length ≤ 1) ∧
      (g.endpoints = .error .noEnd ↔ g.sources.length = 1 ∧ g.sinks = []) ∧
      ∀ v, g.endpoints ≠ .error (.startIsEnd v)) ∧
    g.transpose.endpoints =
      if g.sources = [] ∧ g.sinks = [] then .error .noStart else exchanged g.endpoints := by
  have hascending : g.vertices.Pairwise (· < ·) := g.successorTable.pairwise_vertices
  have hne : ∀ v ∈ g.sources, v ∉ g.sinks := fun v => not_mem_sinks_of_mem_sources
  refine ⟨⟨⟨hascending.filter _, fun v => mem_sources⟩, hascending.filter _, fun v => mem_sinks⟩,
    fun s e => ?_, ⟨fun a b => ?_, fun c d => ?_⟩, ⟨?_, ?_, fun v h => ?_⟩, ?_⟩
  · rw [endpoints_eq_verdict, verdict_eq_ok_iff]
  · rw [endpoints_eq_verdict, verdict_eq_starts_iff]
  · rw [endpoints_eq_verdict, verdict_eq_ends_iff hne]
  · rw [endpoints_eq_verdict, verdict_eq_noStart_iff]
  · rw [endpoints_eq_verdict, verdict_eq_noEnd_iff]
  · rcases endpoints_error_cases h with h | h | ⟨_, _, h⟩ | ⟨_, _, h⟩ <;> cases h
  · rw [endpoints_eq_verdict, endpoints_eq_verdict, sources_transpose, sinks_transpose,
      verdict_swap hne]

/-- Two edges meet and two others part, beside a vertex with an edge to itself alone and an isolated
one. -/
def crossing : FlowGraph :=
  ((new 6).addEdges [(⟨3⟩, ⟨2⟩), (⟨0⟩, ⟨2⟩), (⟨0⟩, ⟨1⟩), (⟨5⟩, ⟨5⟩)]).toOption.getD default

/-- The second sink comes before the second source and is reported, and as a source if all edges are
reversed. -/
theorem second_sink_reported :
    crossing.sources = [⟨0⟩, ⟨3⟩] ∧ crossing.sinks = [⟨1⟩, ⟨2⟩] ∧
      crossing.endpoints = .error (.multipleEnds ⟨1⟩ ⟨2⟩) ∧
      crossing.transpose.endpoints = .error (.multipleStarts ⟨1⟩ ⟨2⟩) := by
  have hsources : crossing.sources = [⟨0⟩, ⟨3⟩] := by decide +kernel
  have hsinks : crossing.sinks = [⟨1⟩, ⟨2⟩] := by decide +kernel
  obtain ⟨_, _, ⟨_, hends⟩, _, hswap⟩ := endpoints_reported crossing
  have hreported : crossing.endpoints = .error (.multipleEnds ⟨1⟩ ⟨2⟩) := by
    refine (hends ⟨1⟩ ⟨2⟩).2 ⟨⟨[], hsinks⟩, fun a b l h => ?_⟩
    obtain ⟨rfl, rfl, rfl⟩ : ⟨0⟩ = a ∧ ⟨3⟩ = b ∧ [] = l := by simpa [hsources] using h
    decide
  refine ⟨hsources, hsinks, hreported, ?_⟩
  rw [hswap, if_neg (by rw [hsources]; simp), hreported]
  rfl

end FlowGraph

end FlowRegions
