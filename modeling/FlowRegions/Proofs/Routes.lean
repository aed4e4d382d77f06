import FlowRegions.FlowGraph.Reachability
import Mathlib.Tactic.ByContra

/-!
# Routes through a flow graph

A route is a nonempty list of vertices, each followed by one of its successors. `Necessary v t w`
says that every route from `v` to `t` visits `w`, and `Bypass w v t` that some route does not.

Two arguments carry everything that is said about dominance later. Routes that avoid a vertex can
be joined (`Bypass.trans`), and a route that has to visit a vertex can be cut there
(`Bypass.cut`). With a route cut behind the last visit of its first vertex (`Route.leave`) they
make necessary passage a partial order (`Necessary.antisymm`). Reversing all edges exchanges the
two ends of a route (`Route.reverse`).
-/

namespace FlowRegions

namespace FlowGraph

variable {g : FlowGraph} {u v w x y t : VertexId} {p q : List VertexId}

/-- The vertices of `p` lead along edges of `g` from `v` to `w`, both of them included. -/
inductive Route (g : FlowGraph) : VertexId → VertexId → List VertexId → Prop where
  /-- A vertex of the graph is a route to itself. -/
  | stay {v : VertexId} (hv : g.contains v = true) : Route g v v [v]
  /-- A route continues backwards along an edge. -/
  | step {v u w : VertexId} {p : List VertexId} (hvu : u ∈ g.successors v)
      (hp : Route g u w p) : Route g v w (v :: p)

/-- Every route from `v` to `t` visits `w`. -/
def Necessary (g : FlowGraph) (v t w : VertexId) : Prop := ∀ p, g.Route v t p → w ∈ p

/-- Some route from `v` to `t` does not visit `w`. -/
def Bypass (g : FlowGraph) (w v t : VertexId) : Prop := ∃ p, g.Route v t p ∧ w ∉ p

/-! ## Joining and cutting routes -/

/-- A route begins at its source. -/
theorem Route.source_mem (h : g.Route v w p) : v ∈ p := by
  cases h <;> exact List.mem_cons_self

/-- A route ends at its target. -/
theorem Route.target_mem (h : g.Route v w p) : w ∈ p := by
  induction h with
  | stay => exact List.mem_cons_self
  | step _ _ ih => exact List.mem_cons_of_mem _ ih

/-- A route begins in the graph. -/
theorem Route.contains_source (h : g.Route v w p) : g.contains v = true := by
  cases h with
  | stay hv => exact hv
  | step hvu _ => exact contains_of_successors_ne_nil (List.ne_nil_of_mem hvu)

/-- A route ends in the graph. -/
theorem Route.contains_target (h : g.Route v w p) : g.contains w = true := by
  induction h with
  | stay hv => exact hv
  | step _ _ ih => exact ih

/-- A route continues along another one from its target. -/
theorem Route.append (hp : g.Route v x p) (hq : g.Route x w q) :
    g.Route v w (p ++ q.tail) := by
  induction hp with
  | stay => cases hq with
    | stay hx => exact .stay hx
    | step hxu hq => exact .step hxu hq
  | step hvu _ ih => exact .step hvu (ih hq)

/-- Routes that meet can be joined, and the joined route visits nothing else. -/
theorem Route.join (hp : g.Route v x p) (hq : g.Route x w q) :
    ∃ r, g.Route v w r ∧ ∀ z ∈ r, z ∈ p ∨ z ∈ q :=
  ⟨p ++ q.tail, hp.append hq, fun _ hz => (List.mem_append.1 hz).imp_right List.mem_of_mem_tail⟩

/-- A route continues forwards along an edge. -/
theorem Route.snoc (hp : g.Route v x p) (hxw : w ∈ g.successors x) :
    g.Route v w (p ++ [w]) := by
  induction hp with
  | stay => exact .step hxw (.stay (contains_of_mem_successors hxw))
  | step hvu _ ih => exact .step hvu (ih hxw)

/-- A route can be cut at any vertex that it visits. -/
theorem Route.cut (hp : g.Route v w p) (hx : x ∈ p) :
    (∃ q, g.Route v x q ∧ ∀ z ∈ q, z ∈ p) ∧ ∃ r, g.Route x w r ∧ ∀ z ∈ r, z ∈ p := by
  induction hp with
  | stay hv =>
    rcases List.mem_singleton.1 hx
    exact ⟨⟨_, .stay hv, fun z hz => hz⟩, ⟨_, .stay hv, fun z hz => hz⟩⟩
  | @step v u w p hvu hp ih =>
    by_cases hxv : x = v
    · subst hxv
      refine ⟨⟨[x], .stay (Route.step hvu hp).contains_source, fun z hz => ?_⟩,
        ⟨x :: p, .step hvu hp, fun z hz => hz⟩⟩
      exact List.mem_singleton.1 hz ▸ List.mem_cons_self
    · have hxp : x ∈ p := (List.mem_cons.1 hx).resolve_left hxv
      obtain ⟨⟨q, hq, hqp⟩, r, hr, hrp⟩ := ih hxp
      refine ⟨⟨v :: q, .step hvu hq, fun z hz => ?_⟩,
        ⟨r, hr, fun z hz => List.mem_cons_of_mem v (hrp z hz)⟩⟩
      rcases List.mem_cons.1 hz with rfl | hz
      · exact List.mem_cons_self
      · exact List.mem_cons_of_mem v (hqp z hz)

/-- Behind its last visit of a vertex that is not its target, a route avoids that vertex. -/
theorem Route.leave (hp : g.Route v w p) (hx : x ∈ p) (hxw : x ≠ w) :
    ∃ u ∈ g.successors x, g.Bypass x u w := by
  induction hp with
  | stay => exact absurd (List.mem_singleton.1 hx) hxw
  | @step v u w p hvu hp ih =>
    by_cases hxp : x ∈ p
    · exact ih hxp hxw
    · have hxv : x = v := (List.mem_cons.1 hx).resolve_right hxp
      exact ⟨u, hxv ▸ hvu, p, hp, hxp⟩

/-! ## Routes that avoid a vertex -/

/-- A vertex bypasses every other one. -/
theorem Bypass.stay (hv : g.contains v = true) (hvx : v ≠ x) : g.Bypass x v v :=
  ⟨[v], .stay hv, fun h => hvx (List.mem_singleton.1 h).symm⟩

/-- The avoided vertex is not the source. -/
theorem Bypass.source_ne (h : g.Bypass x v w) : v ≠ x := by
  obtain ⟨p, hp, hx⟩ := h
  rintro rfl
  exact hx hp.source_mem

/-- The avoided vertex is not the target. -/
theorem Bypass.target_ne (h : g.Bypass x v w) : w ≠ x := by
  obtain ⟨p, hp, hx⟩ := h
  rintro rfl
  exact hx hp.target_mem

/-- A bypass ends in the graph. -/
theorem Bypass.contains_target (h : g.Bypass x v w) : g.contains w = true :=
  h.elim fun _ hp => hp.1.contains_target

/-- Bypasses of one vertex can be joined. -/
theorem Bypass.trans (hvu : g.Bypass x v u) (huw : g.Bypass x u w) : g.Bypass x v w := by
  obtain ⟨p, hp, hxp⟩ := hvu
  obtain ⟨q, hq, hxq⟩ := huw
  obtain ⟨r, hr, hsub⟩ := hp.join hq
  exact ⟨r, hr, fun hx => (hsub x hx).elim hxp hxq⟩

/-- A bypass continues backwards along an edge. -/
theorem Bypass.cons (hvu : u ∈ g.successors v) (hvx : v ≠ x) (h : g.Bypass x u w) :
    g.Bypass x v w := by
  obtain ⟨p, hp, hxp⟩ := h
  exact ⟨v :: p, .step hvu hp, List.not_mem_cons_of_ne_of_not_mem hvx.symm hxp⟩

/-- A bypass continues forwards along an edge. -/
theorem Bypass.snoc (h : g.Bypass x v u) (huw : w ∈ g.successors u) (hwx : w ≠ x) :
    g.Bypass x v w := by
  have hu : u ≠ x := h.target_ne
  have huw' : g.Bypass x u w := .cons huw hu (.stay (contains_of_mem_successors huw) hwx)
  exact h.trans huw'

/-- A bypass can be cut at every vertex that all routes between its ends visit. -/
theorem Bypass.cut (h : g.Bypass y v w) (hx : g.Necessary v w x) :
    g.Bypass y v x ∧ g.Bypass y x w := by
  obtain ⟨p, hp, hy⟩ := h
  obtain ⟨⟨q, hq, hqp⟩, r, hr, hrp⟩ := hp.cut (hx p hp)
  exact ⟨⟨q, hq, fun h => hy (hqp y h)⟩, ⟨r, hr, fun h => hy (hrp y h)⟩⟩

/-- Where there is no bypass, passage is necessary. -/
theorem not_bypass_iff : ¬ g.Bypass w v t ↔ g.Necessary v t w := by
  constructor
  · intro h p hp
    by_contra hw
    exact h ⟨p, hp, hw⟩
  · rintro h ⟨p, hp, hw⟩
    exact hw (h p hp)

/-- Where passage is not necessary, there is a bypass. -/
theorem not_necessary_iff : ¬ g.Necessary v t w ↔ g.Bypass w v t := by
  rw [← not_bypass_iff, not_not]

/-! ## Reversing all edges -/

theorem mem_successors_transpose : v ∈ g.transpose.successors w ↔ w ∈ g.successors v := by
  rw [successors_transpose, mem_predecessors]

/-- Routes read backwards are the routes of the transposed graph. -/
theorem Route.reverse (h : g.Route v w p) : g.transpose.Route w v p.reverse := by
  induction h with
  | stay hv => exact .stay (by rwa [contains_transpose])
  | step hvu _ ih =>
    rw [List.reverse_cons]
    exact ih.snoc (mem_successors_transpose.2 hvu)

/-- The routes of the transposed graph read backwards are routes. -/
theorem Route.of_transpose (h : g.transpose.Route w v p) : g.Route v w p.reverse := by
  induction h with
  | stay hv => exact .stay (by rwa [contains_transpose] at hv)
  | step hvu _ ih =>
    rw [List.reverse_cons]
    exact ih.snoc (mem_successors_transpose.1 hvu)

/-- Reversing all edges exchanges the ends of the routes. -/
theorem exists_route_transpose : (∃ p, g.transpose.Route w v p) ↔ ∃ p, g.Route v w p :=
  ⟨fun ⟨_, hp⟩ => ⟨_, hp.of_transpose⟩, fun ⟨_, hp⟩ => ⟨_, hp.reverse⟩⟩

/-- Reversing all edges exchanges the ends of a bypass. -/
theorem bypass_transpose : g.transpose.Bypass x w v ↔ g.Bypass x v w := by
  constructor
  · rintro ⟨p, hp, hx⟩
    exact ⟨p.reverse, hp.of_transpose, by rwa [List.mem_reverse]⟩
  · rintro ⟨p, hp, hx⟩
    exact ⟨p.reverse, hp.reverse, by rwa [List.mem_reverse]⟩

/-- Reversing all edges exchanges the ends of a necessary passage. -/
theorem necessary_transpose : g.transpose.Necessary w v x ↔ g.Necessary v w x := by
  rw [← not_bypass_iff, ← not_bypass_iff, bypass_transpose]

/-- Before its first visit of its target, a route from another vertex avoids the target. -/
theorem Route.arrive (hp : g.Route v w p) (hvw : v ≠ w) :
    ∃ u, w ∈ g.successors u ∧ g.Bypass w v u := by
  obtain ⟨u, hu, hbypass⟩ := hp.reverse.leave hp.reverse.source_mem hvw.symm
  exact ⟨u, mem_successors_transpose.1 hu, bypass_transpose.1 hbypass⟩

/-! ## Necessary passage -/

/-- Every route visits its source. -/
theorem Necessary.source (g : FlowGraph) (v t : VertexId) : g.Necessary v t v :=
  fun _ hp => hp.source_mem

/-- Every route visits its target. -/
theorem Necessary.target (g : FlowGraph) (v t : VertexId) : g.Necessary v t t :=
  fun _ hp => hp.target_mem

/-- What is necessary behind a necessary vertex is necessary. -/
theorem Necessary.trans (hu : g.Necessary v t u) (hw : g.Necessary u t w) :
    g.Necessary v t w := by
  rw [← not_bypass_iff] at hw ⊢
  exact fun h => hw (h.cut hu).2

/-- What is necessary before a necessary vertex is necessary. -/
theorem Necessary.trans_left (hu : g.Necessary v t u) (hw : g.Necessary v u w) :
    g.Necessary v t w := by
  rw [← not_bypass_iff] at hw ⊢
  exact fun h => hw (h.cut hu).1

/-- What is necessary remains so for a vertex that is reached around it. -/
theorem Necessary.of_bypass (hw : g.Necessary v t w) (h : g.Bypass w v u) :
    g.Necessary u t w := by
  rw [← not_bypass_iff] at hw ⊢
  exact fun hut => hw (h.trans hut)

/-- What is necessary on the way to the target is necessary on the way to every vertex from which
the target is reached around it. -/
theorem Necessary.before (hw : g.Necessary v t w) (h : g.Bypass w u t) :
    g.Necessary v u w := by
  rw [← not_bypass_iff] at hw ⊢
  exact fun hvu => hw (hvu.trans h)

/-- Two vertices of which each is necessary for the other are one. -/
theorem Necessary.antisymm (hv : g.Necessary v t w) (hw : g.Necessary w t v)
    (hroute : g.Route v t p) : v = w := by
  by_contra hne
  have hvt : v ≠ t := by
    -- the route that stays at `v` would have to visit `w`
    rintro rfl
    exact hne (List.mem_singleton.1 (hv [v] (.stay hroute.contains_source))).symm
  obtain ⟨u, hu, hut⟩ := hroute.leave hroute.source_mem hvt
  have hwut : g.Necessary u t w := by
    rw [← not_bypass_iff] at hv ⊢
    exact fun h => hv (.cons hu hne h)
  exact not_bypass_iff.2 hw (hut.cut hwut).2

/-- Two vertices of which each is necessary on the way to the other are one. -/
theorem Necessary.antisymm_left (hv : g.Necessary t v w) (hw : g.Necessary t w v)
    (hroute : g.Route t v p) : v = w :=
  Necessary.antisymm (necessary_transpose.2 hv) (necessary_transpose.2 hw) hroute.reverse

/-- Of two vertices that are necessary on the way to a target, one is necessary for the other. -/
theorem Necessary.total (hu : g.Necessary v t u) (hw : g.Necessary v t w)
    (hroute : g.Route v t p) : g.Necessary u t w ∨ g.Necessary w t u := by
  by_contra h
  -- around either of them the target can be reached from the other, so each is necessary on the
  -- way to the other
  rw [not_or, not_necessary_iff, not_necessary_iff] at h
  obtain ⟨⟨q, hq, _⟩, _⟩ := hroute.cut (hu p hroute)
  have huw : u = w := Necessary.antisymm_left (hw.before h.1) (hu.before h.2) hq
  exact h.1.source_ne huw

/-- Of two vertices that are necessary on the way from a source, one is necessary on the way to
the other. -/
theorem Necessary.total_left (hu : g.Necessary t v u) (hw : g.Necessary t v w)
    (hroute : g.Route t v p) : g.Necessary t u w ∨ g.Necessary t w u :=
  (Necessary.total (necessary_transpose.2 hu) (necessary_transpose.2 hw) hroute.reverse).imp
    necessary_transpose.1 necessary_transpose.1

/-! ## Routes and chains of edges -/

/-- Along a route, a chain of edges leads from its source to its target. -/
theorem Route.chain (h : g.Route v w p) : Search.Chain g.successorSet v w := by
  induction h with
  | stay => exact .refl
  | step hvu _ ih => exact .trans (.tail .refl (mem_successorSet.2 hvu)) ih

/-- A chain of edges from a vertex of the graph is a route. -/
theorem exists_route_of_chain (hv : g.contains v = true) (h : Search.Chain g.successorSet v w) :
    ∃ p, g.Route v w p := by
  induction h with
  | refl => exact ⟨[v], .stay hv⟩
  | tail _ hstep ih =>
    obtain ⟨p, hp⟩ := ih
    exact ⟨_, hp.snoc (mem_successorSet.1 hstep)⟩

/-- A vertex reaches exactly the targets of its routes. -/
theorem mem_reachableFrom_iff_route : w ∈ g.reachableFrom v ↔ ∃ p, g.Route v w p := by
  rw [mem_reachableFrom]
  exact ⟨fun h => exists_route_of_chain h.1 h.2,
    fun ⟨_, hp⟩ => ⟨hp.contains_source, hp.chain⟩⟩

/-- A vertex can be reached exactly from the sources of its routes. -/
theorem mem_canReach_iff_route : v ∈ g.canReach w ↔ ∃ p, g.Route v w p := by
  rw [canReach, mem_reachableFrom_iff_route, exists_route_transpose]

end FlowGraph

end FlowRegions
