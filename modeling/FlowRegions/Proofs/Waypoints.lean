import FlowRegions.Proofs.Recomposition
import Mathlib.Data.List.Chain

/-!
# The waypoints between the source and the sink

The admitted vertices that lie on every route from the source to the sink are met in the same order
on each of them. Nothing computes this order. It is that of the candidates: where one of two
vertices dominates the other, every route first meets the former (`Necessary.idxOf_lt`), and the
series of minimal pairs that recomposes the pair of the source and the sink passes all waypoints
(`exists_series_waypoints`). So neighbouring waypoints are minimal pairs, and since minimal pairs
share neither entries nor exits there is no other at a waypoint
(`waypoints_joined_by_minimal_pairs`).
-/

namespace FlowRegions

open BoundaryRelation

namespace FlowGraph

variable {g : FlowGraph} {source sink s e t v w x : VertexId} {p vs ws : List VertexId}
variable {mask : Option BoundaryMask} {mode : SweepMode} {a : BoundaryAnalysis}

/-- The admitted vertices on all routes from the source to the sink, in the order in which every
such route meets them for the first time. -/
structure Waypoints (g : FlowGraph) (source sink : VertexId) (mask : Option BoundaryMask)
    (vs : List VertexId) : Prop where
  mem_iff : ∀ v, v ∈ vs ↔ ((∀ m ∈ mask, m.contains v = true) ∨ v = source ∨ v = sink) ∧
    ∀ p, g.Route source sink p → v ∈ p
  met_in_order : ∀ p, g.Route source sink p → vs.Pairwise fun v w => p.idxOf v < p.idxOf w

/-! ## First visits -/

/-- Up to its first visit of a vertex, a route is a route to that vertex. -/
theorem Route.take (hp : g.Route v w p) (hx : x ∈ p) :
    g.Route v x (p.take (p.idxOf x + 1)) := by
  induction hp with
  | stay hv =>
    obtain rfl := List.mem_singleton.1 hx
    simpa using Route.stay hv
  | @step v u w p hvu hp ih =>
    by_cases hxv : v = x
    · subst hxv
      simpa using Route.stay (Route.step hvu hp).contains_source
    · have hxp : x ∈ p := (List.mem_cons.1 hx).resolve_left (Ne.symm hxv)
      rw [List.idxOf_cons_ne p hxv, List.take_succ_cons]
      exact .step hvu (ih hxp)

/-- A vertex that is necessary on the way to another one is met before it. -/
theorem Necessary.idxOf_lt (hv : g.Necessary s w v) (hvw : v ≠ w) (hp : g.Route s t p)
    (hw : w ∈ p) : p.idxOf v < p.idxOf w := by
  have hbefore : v ∈ p.take (p.idxOf w + 1) := hv _ (hp.take hw)
  have hmem : v ∈ p := List.mem_of_mem_take hbefore
  have hle : p.idxOf v < p.idxOf w + 1 := (List.mem_take_iff_idxOf_lt hmem).1 hbefore
  have hne : p.idxOf v ≠ p.idxOf w := fun heq => hvw ((List.idxOf_inj hmem).1 heq)
  omega

/-! ## Waypoints -/

/-- A single route decides the order of the waypoints. -/
theorem Waypoints.unique (hvs : g.Waypoints source sink mask vs)
    (hws : g.Waypoints source sink mask ws) (hp : g.Route source sink p) : vs = ws := by
  have hnodup : ∀ us : List VertexId, (us.Pairwise fun v w => p.idxOf v < p.idxOf w) →
      us.Nodup := by
    intro us hus
    refine hus.imp fun hvw => ?_
    rintro rfl
    exact Nat.lt_irrefl _ hvw
  have hperm : vs.Perm ws :=
    (List.perm_ext_iff_of_nodup (hnodup vs (hvs.met_in_order p hp))
      (hnodup ws (hws.met_in_order p hp))).2 fun v => (hvs.mem_iff v).trans (hws.mem_iff v).symm
  exact hperm.eq_of_pairwise (fun _ _ _ _ hvw hwv => absurd hvw (Nat.lt_asymm hwv))
    (hvs.met_in_order p hp) (hws.met_in_order p hp)

/-- Along a series of minimal pairs, every earlier vertex and every later one are a candidate. -/
theorem pairwise_candidate_of_isChain
    (ha : (g.analyseBoundaries source sink mask mode).run.value = .ok a)
    (h : vs.IsChain fun b c => a.minimal.contains b c = true) :
    vs.Pairwise (g.Candidate source sink (admittedBy mask source sink)) := by
  have htrans : IsTrans VertexId (g.Candidate source sink (admittedBy mask source sink)) :=
    ⟨fun _ _ _ => Candidate.trans (flows_of_analyseBoundaries ha)⟩
  refine List.isChain_iff_pairwise.1 (h.imp fun b c hbc => ?_)
  exact ((contains_minimal_iff ha).1 hbc).toCandidate

/-- A series of minimal pairs passes the waypoints. -/
theorem exists_series_waypoints (hne : source ≠ sink)
    (ha : (g.analyseBoundaries source sink mask mode).run.value = .ok a) :
    ∃ between, a.minimal.Series source sink between ∧
      g.Waypoints source sink mask (source :: (between ++ [sink])) := by
  have hg := flows_of_analyseBoundaries ha
  have hends : a.minimal.Leads source sink := by
    rw [leads_minimal_iff ha, contains_candidates_iff ha]
    exact hg.candidate hne
  obtain ⟨between, hseries⟩ := leads_iff_exists_series.1 hends
  have hmem : ∀ v, v ∈ source :: (between ++ [sink]) ↔ v = source ∨ v ∈ between ∨ v = sink := by
    simp
  refine ⟨between, hseries, fun v => ?_, fun p hp => ?_⟩
  · rw [hmem, mem_series_minimal_iff ha hseries, ← admittedBy_iff]
    constructor
    · rintro (rfl | ⟨hsource, _⟩ | rfl)
      · exact ⟨(hg.candidate hne).entry_admitted, Necessary.source g v sink⟩
      · exact ⟨hsource.exit_admitted, hsource.postdominates⟩
      · exact ⟨(hg.candidate hne).exit_admitted, Necessary.target g source v⟩
    · rintro ⟨hadm, hway⟩
      by_cases hsource : v = source
      · exact .inl hsource
      · by_cases hsink : v = sink
        · exact .inr (.inr hsink)
        · exact .inr (.inl (hg.candidates_of_necessary hne hadm hsource hsink hway))
  · refine (pairwise_candidate_of_isChain ha hseries).imp_of_mem fun {v w} _ hw hvw => ?_
    -- the later of two vertices is on every route, and its candidate dominates it
    have hway : w ∈ p := by
      rcases (hmem w).1 hw with rfl | hw | rfl
      · exact hp.source_mem
      · exact ((mem_series_minimal_iff ha hseries).1 hw).1.postdominates p hp
      · exact hp.target_mem
    exact hvw.dominates.idxOf_lt hvw.ne hp hway

/-! ## Minimal pairs at waypoints -/

/-- A minimal pair that begins on a series which ends in the sink is one of the series. -/
theorem infix_of_entry_mem (ha : (g.analyseBoundaries source sink mask mode).run.value = .ok a)
    (h : vs.IsChain fun b c => a.minimal.contains b c = true) (hlast : vs.getLast? = some sink)
    (hpair : a.minimal.contains s e = true) (hs : s ∈ vs) : [s, e] <:+: vs := by
  obtain ⟨before, behind, rfl⟩ := List.append_of_mem hs
  cases behind with
  | nil =>
    -- the sink is no entry
    obtain rfl : s = sink := by simpa using hlast
    exact absurd rfl ((contains_minimal_iff ha).1 hpair).toCandidate.entry_ne_sink
  | cons e' behind =>
    have hinfix : [s, e'] <:+: before ++ s :: e' :: behind := ⟨before, behind, by simp⟩
    have hpair' : a.minimal.contains s e' = true := by simpa using h.infix hinfix
    rwa [((contains_minimal_iff ha).1 hpair).exit_unique (flows_of_analyseBoundaries ha)
      ((contains_minimal_iff ha).1 hpair')]

/-- A minimal pair that ends on a series which begins in the source is one of the series. -/
theorem infix_of_exit_mem (ha : (g.analyseBoundaries source sink mask mode).run.value = .ok a)
    (h : vs.IsChain fun b c => a.minimal.contains b c = true) (hfirst : vs.head? = some source)
    (hpair : a.minimal.contains s e = true) (he : e ∈ vs) : [s, e] <:+: vs := by
  obtain ⟨before, behind, rfl⟩ := List.append_of_mem he
  rcases List.eq_nil_or_concat' before with rfl | ⟨before, s', rfl⟩
  · -- the source is no exit
    obtain rfl : e = source := by simpa using hfirst
    exact absurd rfl ((contains_minimal_iff ha).1 hpair).toCandidate.exit_ne_source
  · have hinfix : [s', e] <:+: before ++ [s'] ++ e :: behind := ⟨before, behind, by simp⟩
    have hpair' : a.minimal.contains s' e = true := by simpa using h.infix hinfix
    rwa [((contains_minimal_iff ha).1 hpair).entry_unique (flows_of_analyseBoundaries ha)
      ((contains_minimal_iff ha).1 hpair')]

/-- The admitted vertices on all routes from the source to another sink have exactly one order in
which every route meets them. They begin with the source and end with the sink, neighbours among
them are minimal pairs, and no other minimal pair begins or ends at one of them. -/
theorem waypoints_joined_by_minimal_pairs (g : FlowGraph) (source sink : VertexId)
    (mask : Option BoundaryMask) (mode : SweepMode) {a : BoundaryAnalysis} (hne : source ≠ sink)
    (ha : (g.analyseBoundaries source sink mask mode).run.value = .ok a) :
    (∃! vs, g.Waypoints source sink mask vs) ∧
    ∀ vs, g.Waypoints source sink mask vs →
      (vs.head? = some source ∧ vs.getLast? = some sink ∧ 2 ≤ vs.length) ∧
      (vs.IsChain fun b c => a.minimal.contains b c = true) ∧
      ∀ s e, a.minimal.contains s e = true → s ∈ vs ∨ e ∈ vs → [s, e] <:+: vs := by
  have hg := flows_of_analyseBoundaries ha
  obtain ⟨p, hp⟩ := hg.reached sink hg.sink_mem
  obtain ⟨between, hseries, hway⟩ := exists_series_waypoints hne ha
  refine ⟨⟨_, hway, fun vs hvs => hvs.unique hway hp⟩, fun vs hvs => ?_⟩
  obtain rfl := hvs.unique hway hp
  have hfirst : (source :: (between ++ [sink])).head? = some source := rfl
  have hlast : (source :: (between ++ [sink])).getLast? = some sink := by
    rw [← List.cons_append, List.getLast?_concat]
  refine ⟨⟨hfirst, hlast, by simp⟩, hseries, fun s e hpair => ?_⟩
  rintro (hs | he)
  · exact infix_of_entry_mem ha hseries hlast hpair hs
  · exact infix_of_exit_mem ha hseries hfirst hpair he

/-- Down the line, the waypoints are the source, the two vertices that the mask admits and the sink,
against the order of their numbers. The vertex with the edge back lies on all routes too, but the
mask leaves it out. -/
theorem descent_waypoints :
    ∃ a vs,
      (descent.analyseBoundaries ⟨4⟩ ⟨0⟩ (some (.ofList [⟨3⟩, ⟨1⟩])) .inPlace).run.value = .ok a ∧
      descent.Waypoints ⟨4⟩ ⟨0⟩ (some (.ofList [⟨3⟩, ⟨1⟩])) vs ∧
      [⟨4⟩, ⟨3⟩] <:+: vs ∧ [⟨3⟩, ⟨1⟩] <:+: vs ∧ [⟨1⟩, ⟨0⟩] <:+: vs ∧ ⟨2⟩ ∉ vs := by
  obtain ⟨a, ha, hfirst, hsecond, hthird⟩ : ∃ a,
      (descent.analyseBoundaries ⟨4⟩ ⟨0⟩ (some (.ofList [⟨3⟩, ⟨1⟩])) .inPlace).run.value = .ok a ∧
      a.minimal.contains ⟨4⟩ ⟨3⟩ = true ∧ a.minimal.contains ⟨3⟩ ⟨1⟩ = true ∧
      a.minimal.contains ⟨1⟩ ⟨0⟩ = true :=
    ⟨(descent.analyseBoundaries ⟨4⟩ ⟨0⟩ (some (.ofList [⟨3⟩, ⟨1⟩])) .inPlace).run.value.toOption.get
      (by decide +kernel), by decide +kernel, by decide +kernel, by decide +kernel,
      by decide +kernel⟩
  obtain ⟨⟨vs, hvs, _⟩, hall⟩ :=
    waypoints_joined_by_minimal_pairs descent ⟨4⟩ ⟨0⟩ (some (.ofList [⟨3⟩, ⟨1⟩])) .inPlace
      (by decide) ha
  obtain ⟨_, _, honly⟩ := hall vs hvs
  have hsource : ⟨4⟩ ∈ vs := (hvs.mem_iff _).2 ⟨.inr (.inl rfl), Necessary.source descent _ _⟩
  have hsink : ⟨0⟩ ∈ vs := (hvs.mem_iff _).2 ⟨.inr (.inr rfl), Necessary.target descent _ _⟩
  have hinfix := honly _ _ hfirst (.inl hsource)
  have hthree : ⟨3⟩ ∈ vs := hinfix.subset (by simp)
  refine ⟨a, vs, ha, hvs, hinfix, honly _ _ hsecond (.inl hthree),
    honly _ _ hthird (.inr hsink), fun htwo => ?_⟩
  have hadm := ((hvs.mem_iff _).1 htwo).1
  revert hadm
  decide

end FlowGraph

end FlowRegions
