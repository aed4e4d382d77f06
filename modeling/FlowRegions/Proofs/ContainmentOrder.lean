import FlowRegions.Proofs.Acyclic
import FlowRegions.Proofs.Containment
import FlowRegions.Proofs.Stages

/-!
# Trees of acyclic graphs are containment orders

In an acyclic graph the walk of a hammock skirts the interiors of all hammocks inside it
(`Passes.skirts`): it meets each at the entry and jumps over it. So what it meets is nowhere between
its host and something smaller (`Laminar.innermost_of_meets`), and the links are those of the
containment order.
-/

namespace FlowRegions

open Log Relation

/-- The vertices of a hammock other than its entry and its exit. -/
def Hammock.Interior (x : Hammock) (v : VertexId) : Prop :=
  v ∈ x.body ∧ v ≠ x.entry ∧ v ≠ x.exit

/-- Links lead upwards from one hammock to the other. -/
def HammockTree.Ancestor (t : HammockTree) (a c : HammockId) : Prop :=
  TransGen (fun x p => t.parent? x = some p) c a

namespace HammockRegistry

variable {r : HammockRegistry} {g : FlowGraph} {i j c p q h k : HammockId} {x y z : Hammock}
variable {u v : VertexId} {s : Construction} {t : HammockTree}

/-! ## Hammocks of acyclic graphs -/

/-- Nested hammocks whose interiors are entered only from the hammock, of which one begins inside
the other if they overlap before their exits. -/
structure Laminar (r : HammockRegistry) (g : FlowGraph) : Prop extends r.Nests g where
  entry_antisymm : ∀ {i j x y}, r.get? i = some x → r.get? j = some y → y.entry ∈ x.body →
    x.entry ∈ y.body → x.entry = y.entry
  mem_of_successor : ∀ {i x u v}, r.get? i = some x → x.Interior u → u ∈ g.successors v →
    v ∈ x.body ∧ v ≠ x.exit
  begins_inside : ∀ {i j x y v}, r.get? i = some x → r.get? j = some y → v ∈ x.body →
    v ∈ y.body → v ≠ x.exit → v ≠ y.exit →
    (y.entry ∈ x.body ∧ y.entry ≠ x.exit) ∨ (x.entry ∈ y.body ∧ x.entry ≠ y.exit)

/-- The hammocks of an acyclic graph are laminar. -/
theorem laminar_register {source sink : VertexId} {mask : Option BoundaryMask} {mode : SweepMode}
    {a : BoundaryAnalysis} (hac : g.Acyclic)
    (h : (g.analyseBoundaries source sink mask mode).run.value = .ok a) :
    (register g a.minimal).value.Laminar g := by
  have hg := FlowGraph.flows_of_analyseBoundaries h
  refine ⟨nests_register h, ?_, ?_, ?_⟩
  · intro i j x y hx hy hentry hentry'
    obtain ⟨hpair, hbody⟩ := minimalPair_of_get? h hx
    obtain ⟨hpair', hbody'⟩ := minimalPair_of_get? h hy
    rw [hbody] at hentry
    rw [hbody'] at hentry'
    obtain ⟨p, hp⟩ := FlowGraph.exists_route_of_mem_region hpair.entry_mem hentry
    obtain ⟨p', hp'⟩ := FlowGraph.exists_route_of_mem_region hpair'.entry_mem hentry'
    exact hac.antisymm hp hp'
  · intro i x u v hx hu hvu
    obtain ⟨hpair, hbody⟩ := minimalPair_of_get? h hx
    obtain ⟨hmem, hentry, hexit⟩ := hu
    rw [hbody] at hmem ⊢
    exact hpair.toCandidate.mem_of_successor hac hg hmem hentry hexit hvu
  · intro i j x y v hx hy hvx hvy hexit hexit'
    obtain ⟨hpair, hbody⟩ := minimalPair_of_get? h hx
    obtain ⟨hpair', hbody'⟩ := minimalPair_of_get? h hy
    rw [hbody] at hvx ⊢
    rw [hbody'] at hvy ⊢
    exact hpair.toCandidate.begins_inside hac hg hpair'.toCandidate hvx hvy hexit hexit'

/-! ## Walks skirt what is inside -/

/-- A vertex lies in the interior of no hammock that is strictly inside another. -/
def Skirts (r : HammockRegistry) (h : HammockId) (v : VertexId) : Prop :=
  ∀ q y, r.get? q = some y → r.coverage q ⊂ r.coverage h → ¬ y.Interior v

/-- The entry of a hammock is not inside any hammock within it, as there are no cycles. -/
theorem Laminar.skirts_entry (hl : r.Laminar g) (hx : r.get? c = some x) : r.Skirts c x.entry := by
  rintro q y hy hsub ⟨hmem, hne, _⟩
  have hentry : y.entry ∈ x.body := (mem_coverage hx).1 (hsub.1 (hl.entry_mem_coverage hy))
  exact hne (hl.entry_antisymm hx hy hentry hmem)

/-- A walk that goes on to successors does not enter a hammock: it would have met it. -/
theorem Laminar.skirts_successor (hl : r.Laminar g) (hv : r.Skirts h v)
    (hnone : r.largestBelow? v (r.sizeOf h) = none) (hu : u ∈ g.successors v) : r.Skirts h u := by
  intro q y hy hsub hinner
  obtain ⟨hmem, hexit⟩ := hl.mem_of_successor hy hinner hu
  by_cases hentry : v = y.entry
  · -- a smaller hammock would begin where none does
    obtain ⟨x, hx⟩ := exists_get?_of_mem_coverage (hsub.1 (hl.entry_mem_coverage hy))
    have hstart : q ∈ r.startedAt v := mem_startedAt.2 ⟨y, hy, hentry.symm⟩
    have hsmall := sizeOf_lt_of_ssubset hx hy hsub
    have hlarge := largestBelow?_eq_none_iff.1 hnone q hstart
    omega
  · exact hv q y hy hsub ⟨hmem, hentry, hexit⟩

/-- A walk that jumps over a hammock does not enter another one: the jump would begin inside it or
lead over it. -/
theorem Laminar.skirts_exit (hl : r.Laminar g) (hv : r.Skirts h y.entry)
    (hy : r.get? k = some y) : r.Skirts h y.exit := by
  rintro q z hz hsub ⟨hmem, hentry, hexit⟩
  have hkq : k ≠ q := by
    rintro rfl
    exact hexit (congrArg Hammock.exit (Option.some.inj (hy.symm.trans hz)))
  have hreach := hl.exit_mem hy
  rw [hl.body_eq hy] at hreach
  obtain ⟨u, hu, hue, hstep⟩ := FlowGraph.exists_before_exit (hl.entry_ne_exit_self hy) hreach
  rw [← hl.body_eq hy] at hu
  obtain ⟨huz, hue'⟩ := hl.mem_of_successor hz ⟨hmem, hentry, hexit⟩ hstep
  rcases hl.begins_inside hy hz hu huz hue hue' with ⟨hin, hout⟩ | ⟨hin, hout⟩
  · -- the other hammock begins in the one jumped over and leaves out its exit
    exact (hl.inside hy hz hkq hin hout).2 hmem
  · -- the jump begins in the other hammock, which the walk has skirted so far
    by_cases heq : y.entry = z.entry
    · exact hkq (hl.entry_inj hy hz heq)
    · exact hv q z hz hsub ⟨hin, heq, hout⟩

/-- At every moment of the construction, walks have skirted what is inside their hosts. -/
theorem Passes.skirts (hl : r.Laminar g) (hs : r.Passes g s) :
    ∀ w ∈ s.stack, ∀ v ∈ w.queue, r.Skirts w.host v := by
  refine hs.forall_queued (fun c x hx => hl.skirts_entry hx) ?_
  intro h v l hv honward
  cases honward with
  | stop => simp
  | @jump c y hexit hc hy =>
    obtain ⟨z, hz, rfl⟩ := exists_get?_of_largestBelow? hc
    obtain rfl : y = z := Option.some.inj (hy.symm.trans hz)
    simpa using hl.skirts_exit hv hy
  | spread hexit hc => exact fun u hu => hl.skirts_successor hv hc hu

/-! ## Links of the containment order -/

/-- A hammock covers another one strictly, and so does only what covers the former strictly. -/
def Innermost (r : HammockRegistry) (p c : HammockId) : Prop :=
  r.coverage c ⊂ r.coverage p ∧
    ∀ q, r.coverage c ⊂ r.coverage q → q = p ∨ r.coverage p ⊂ r.coverage q

/-- What a walk meets where it may go on lies directly inside its host. -/
theorem Laminar.innermost_of_meets (hl : r.Laminar g) (hv : v ∈ r.coverage h)
    (hskirts : r.Skirts h v) (hexit : ¬ r.isExit h v = true)
    (hc : r.largestBelow? v (r.sizeOf h) = some c) : r.Innermost h c := by
  obtain ⟨y, hy, rfl, hsub, _⟩ := hl.of_meets hv hexit hc
  refine ⟨hsub, fun q hq => ?_⟩
  obtain ⟨x, hx⟩ := exists_get?_of_mem_coverage hv
  have hvq : y.entry ∈ r.coverage q := hq.1 (hl.entry_mem_coverage hy)
  obtain ⟨z, hz⟩ := exists_get?_of_mem_coverage hvq
  have hbody : y.body ⊆ z.body := fun u hu =>
    (mem_coverage hz).1 (hq.1 ((mem_coverage hy).2 hu))
  have hout : y.entry ≠ z.exit := hl.entry_ne_exit hz hy hbody
  rw [isExit_iff hx] at hexit
  have hinside := hl.begins_inside hx hz ((mem_coverage hx).1 hv) ((mem_coverage hz).1 hvq)
    (Ne.symm hexit) hout
  by_cases hqh : q = h
  · exact .inl hqh
  · right
    rcases hinside with ⟨hin, hne⟩ | ⟨hin, hne⟩
    · -- the walk would have come from the interior of `q`, or `q` would begin with the met hammock
      have hqsub := (hl.coverage_ssubset hx hz (Ne.symm hqh) ((mem_coverage hx).2 hin) hne).1
      have hentry : y.entry = z.entry := by
        by_contra hentry
        exact hskirts q z hz hqsub ⟨(mem_coverage hz).1 hvq, hentry, hout⟩
      obtain rfl := hl.entry_inj hy hz hentry
      exact absurd hq (ssubset_irrefl _)
    · exact (hl.coverage_ssubset hz hx hqh ((mem_coverage hz).2 hin) hne).1

/-- Parents are innermost. -/
theorem Passes.innermost (hl : r.Laminar g) (hs : r.Passes g s) :
    ∀ p c, s.tree.parent? c = some p ∨ c ∈ s.tree.children p → r.Innermost p c := by
  refine hs.forall_link ?_
  intro s w v c hs hw hv hexit hc
  exact hl.innermost_of_meets (hs.queue_covered hl.toNests _ hw _ hv) (hs.skirts hl _ hw _ hv)
    hexit hc

/-- What lies strictly in an attached hammock is not the root, so if it is attached, its parent is
the innermost hammock around it. -/
theorem Passes.exists_parent_of_ssubset (hl : r.Laminar g) (hs : r.Passes g s)
    (hh : h ∈ s.tree.attached) (hc : c ∈ s.tree.attached) (hsub : r.coverage c ⊂ r.coverage h) :
    ∃ p, s.tree.parent? c = some p ∧ r.Innermost p c := by
  have hroot : c ≠ s.tree.root := by
    rintro rfl
    exact hsub.2 (hs.root_covers hl.toNests h hh)
  obtain ⟨p, hp⟩ := hs.linked.exists_parent c hc hroot
  exact ⟨p, hp, hs.innermost hl p c (.inl hp)⟩

/-- Of two attached hammocks, what covers the other strictly is its ancestor: it is the parent, or
it covers the parent strictly. -/
theorem Laminar.ancestor_of_ssubset (hl : r.Laminar g) (ht : (r.nest g).run.value = .ok t)
    {a : HammockId} (ha : a ∈ t.attached) (hc : c ∈ t.attached)
    (hsub : r.coverage c ⊂ r.coverage a) : t.Ancestor a c := by
  have hs := passes_of_nest ht
  suffices hall : ∀ c ∈ t.attached, r.coverage c ⊂ r.coverage a → t.Ancestor a c from hall c hc hsub
  refine hs.linked.attached_induction (fun hsub => ?_) fun c p hp _ ih hsub => ?_
  · -- nothing attached covers more than the root
    exact absurd (hs.root_covers hl.toNests a ha) hsub.2
  · rcases (hs.innermost hl p c (.inl hp)).2 a hsub with rfl | hpa
    · exact .single hp
    · exact .head hp (ih hpa)

/-- An ancestor covers more. -/
theorem Nests.ssubset_of_ancestor (hn : r.Nests g) (ht : (r.nest g).run.value = .ok t)
    {a : HammockId} (h : t.Ancestor a c) : r.coverage c ⊂ r.coverage a := by
  have hlink := (passes_of_nest ht).link_covered hn
  induction h with
  | single hp => exact hlink _ _ (.inl hp)
  | tail _ hp ih => exact ih.trans (hlink _ _ (.inl hp))

end HammockRegistry

namespace FlowGraph

open HammockRegistry

/-- In an acyclic graph the tree is the containment order of the hammocks: the parent of an attached
hammock is the smallest of all that cover it strictly, and the ancestors of an attached hammock are
the attached ones that cover it strictly. -/
theorem tree_is_containment_order (g : FlowGraph) (config : Config) (mask : Option BoundaryMask)
    {d : Decomposition} {r : HammockRegistry} (hac : g.Acyclic)
    (hd : (g.decompose config mask).run.value = .ok d) (hr : d.tree.registry = r) :
    (∀ c, d.tree.isAttached c = true → c ≠ d.tree.root →
      ∃ p, d.tree.parent? c = some p ∧ r.coverage c ⊂ r.coverage p ∧
        ∀ q, r.coverage c ⊂ r.coverage q → q ≠ p →
          r.coverage p ⊂ r.coverage q ∧ r.sizeOf p < r.sizeOf q) ∧
    ∀ a c, d.tree.isAttached a = true → d.tree.isAttached c = true →
      (d.tree.Ancestor a c ↔ r.coverage c ⊂ r.coverage a) := by
  obtain ⟨a, ha, ht⟩ := of_decompose hd
  have hs := passes_of_nest ht
  obtain rfl : (register g a.minimal).value = r := hs.registry_eq.symm.trans hr
  have hl := laminar_register hac ha
  refine ⟨fun c hc hroot => ?_, fun b c hb hc => ⟨?_, ?_⟩⟩
  · obtain ⟨p, hp⟩ := hs.linked.exists_parent c (of_decide_eq_true hc) hroot
    obtain ⟨hsub, hinner⟩ := hs.innermost hl p c (.inl hp)
    refine ⟨p, hp, hsub, fun q hq hqp => ?_⟩
    have hpq := (hinner q hq).resolve_left hqp
    obtain ⟨x, hx⟩ := hs.linked.registered p (hs.linked.parent_attached c p hp).2
    obtain ⟨v, hv, _⟩ := Set.exists_of_ssubset hpq
    obtain ⟨y, hy⟩ := exists_get?_of_mem_coverage hv
    exact ⟨hpq, sizeOf_lt_of_ssubset hy hx hpq⟩
  · exact hl.ssubset_of_ancestor ht
  · exact hl.ancestor_of_ssubset ht (of_decide_eq_true hb) (of_decide_eq_true hc)

/-- Three nested branches: around each, one edge leads from its first to its last vertex. -/
def branches : FlowGraph :=
  ((new 6).addEdges [(⟨0⟩, ⟨1⟩), (⟨0⟩, ⟨5⟩), (⟨1⟩, ⟨2⟩), (⟨1⟩, ⟨4⟩), (⟨2⟩, ⟨3⟩), (⟨3⟩, ⟨4⟩),
    (⟨4⟩, ⟨5⟩)]).toOption.getD default

/-- The tree of three nested branches is a chain, and the outer one is an ancestor of the inner
one. -/
theorem branches_in_containment_order :
    ∃ d, branches.Acyclic ∧ (branches.decompose .reference none).run.value = .ok d ∧
      (d.tree.isAttached ⟨1⟩ = true ∧ ⟨1⟩ ≠ d.tree.root ∧ d.tree.parent? ⟨1⟩ = some ⟨0⟩) ∧
      (d.tree.isAttached ⟨2⟩ = true ∧ ⟨2⟩ ≠ d.tree.root ∧ d.tree.parent? ⟨2⟩ = some ⟨1⟩) ∧
      d.tree.registry.coverage ⟨1⟩ ⊂ d.tree.registry.coverage ⟨0⟩ ∧
      d.tree.isAttached ⟨0⟩ = true ∧ d.tree.Ancestor ⟨0⟩ ⟨2⟩ := by
  have hac : branches.Acyclic := by decide +kernel
  have hends : branches.endpoints = .ok (⟨0⟩, ⟨5⟩) := by decide +kernel
  obtain ⟨a, ha, hroot, hdone, hone, htwo, hzero⟩ : ∃ a,
      (branches.analyseBoundaries ⟨0⟩ ⟨5⟩ none .inPlace).run.value = .ok a ∧
      ∃ hroot : (register branches a.minimal).value.largest?
        (register branches a.minimal).value.ids = some ⟨0⟩,
      let grown := Construction.resumed branches 5
        (.start _ ⟨0⟩ (isSome_get?_of_mem_ids (mem_of_largest? hroot)))
      grown.stack = [] ∧
        (grown.tree.isAttached ⟨1⟩ = true ∧ ⟨1⟩ ≠ grown.tree.root ∧
          grown.tree.parent? ⟨1⟩ = some ⟨0⟩) ∧
        (grown.tree.isAttached ⟨2⟩ = true ∧ ⟨2⟩ ≠ grown.tree.root ∧
          grown.tree.parent? ⟨2⟩ = some ⟨1⟩) ∧ grown.tree.isAttached ⟨0⟩ = true :=
    ⟨(branches.analyseBoundaries ⟨0⟩ ⟨5⟩ none .inPlace).run.value.toOption.get
      (by decide +kernel), by decide +kernel, by decide +kernel, by decide +kernel⟩
  have hd : (branches.decompose .reference none).run.value = .ok _ :=
    decompose_eq_ok_iff.2 ⟨_, hends, a, ha, _, value_nest_of_resumed hroot hdone, rfl⟩
  obtain ⟨hparent, hancestor⟩ := tree_is_containment_order branches .reference none hac hd rfl
  obtain ⟨p, hp, hpsub, _⟩ := hparent ⟨1⟩ hone.1 hone.2.1
  obtain rfl := Option.some.inj (hone.2.2.symm.trans hp)
  obtain ⟨q, hq, hqsub, _⟩ := hparent ⟨2⟩ htwo.1 htwo.2.1
  obtain rfl := Option.some.inj (htwo.2.2.symm.trans hq)
  exact ⟨_, hac, hd, hone, htwo, hpsub, hzero,
    (hancestor ⟨0⟩ ⟨2⟩ hzero htwo.1).2 (hqsub.trans hpsub)⟩

end FlowGraph

end FlowRegions
