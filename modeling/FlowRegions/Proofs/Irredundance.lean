import FlowRegions.Proofs.Recomposition
import FlowRegions.Proofs.Registry

/-!
# What a reduction leaves

The entries of a relation are judged one after the other, each by what the others have left so far.
Fewer pairs offer fewer detours (`reachesAvoidingDirect_mono`), so a pair that has been kept stays
without a detour while the relation shrinks further. Whatever the relation, no pair that is left at
the end is therefore redundant (`irredundant_minimal`), and another reduction removes nothing
(`Irredundant.minimal_eq`).

Where pairs make up cycles, the reduction may break connections. In an acyclic relation it does
not: it leaves the pairs that do not split, and these are in every relation in which the same leads
where (`mem_exits_of_leads_iff`).
-/

namespace FlowRegions

open Relation

theorem Search.chain_iff_reflTransGen {κ : IdKind} {step : DenseId κ → IdSet κ}
    {a b : DenseId κ} : Chain step a b ↔ ReflTransGen (fun x y => y ∈ step x) a b := by
  constructor
  · intro h
    induction h with
    | refl => exact .refl
    | tail _ hstep ih => exact .tail ih hstep
  · intro h
    induction h with
    | refl => exact .refl
    | tail _ hstep ih => exact .tail ih hstep

namespace BoundaryRelation

variable {r r' : BoundaryRelation} {s e v : VertexId} {judged : List VertexId}

/-! ## Detours in any relation -/

/-- There is a detour exactly when pairs other than the direct one connect an entry to an exit. -/
theorem reachesAvoidingDirect_iff_connected :
    r.reachesAvoidingDirect s e = true ↔
      ReflTransGen (fun a b => r.contains a b = true ∧ ¬ (a = s ∧ b = e)) s e := by
  rw [reachesAvoidingDirect_iff, Search.chain_iff_reflTransGen]
  simp only [mem_stepsAvoiding, contains_iff]

/-- A detour of fewer pairs is one of more. -/
theorem reachesAvoidingDirect_mono (hsub : ∀ v, r'.exits v ⊆ r.exits v)
    (h : r'.reachesAvoidingDirect s e = true) : r.reachesAvoidingDirect s e = true := by
  rw [reachesAvoidingDirect_iff_connected] at h ⊢
  exact ReflTransGen.mono
    (fun a b hab => ⟨contains_iff.2 (hsub a b (contains_iff.1 hab.1)), hab.2⟩) s e h

theorem mem_exits_reduceAt :
    e ∈ (r.reduceAt v).value.exits s ↔
      e ∈ r.exits s ∧ ¬ (s = v ∧ r.reachesAvoidingDirect s e = true) := by
  rw [reduceAt, exits_removeExits]
  by_cases hsv : s = v
  · subst hsv
    rw [if_pos rfl, IdSet.mem_sdiff, redundantExits, IdSet.mem_filter]
    simp only [true_and, not_and]
    exact and_congr_right fun he => ⟨fun h => h he, fun h _ => h⟩
  · simp [hsv]

theorem exits_reduceAt_subset (r : BoundaryRelation) (v s : VertexId) :
    (r.reduceAt v).value.exits s ⊆ r.exits s :=
  fun _ he => (mem_exits_reduceAt.1 he).1

/-! ## Pairs that are kept -/

/-- What holds at the start and is kept whenever an entry is judged holds at the end. -/
theorem minimal_induction {P : BoundaryRelation → Prop} (hr : P r)
    (hstep : ∀ r v, P r → P (r.reduceAt v).value) : P r.minimal := by
  rw [minimal, reduce, value_foldlM_reduceAt]
  exact List.foldlRecOn r.vertices _ hr fun r h v _ => hstep r v h

theorem exits_minimal_subset (r : BoundaryRelation) (s : VertexId) :
    r.minimal.exits s ⊆ r.exits s :=
  minimal_induction (P := fun r' => r'.exits s ⊆ r.exits s) (fun _ he => he)
    fun r' v h e he => h e (exits_reduceAt_subset r' v s e he)

/-- A pair without detour is kept. -/
theorem mem_exits_minimal_of_no_detour (he : e ∈ r.exits s)
    (hdetour : ¬ r.reachesAvoidingDirect s e = true) : e ∈ r.minimal.exits s := by
  refine (minimal_induction
    (P := fun r => e ∈ r.exits s ∧ ¬ r.reachesAvoidingDirect s e = true)
    ⟨he, hdetour⟩ fun r v ⟨he, hdetour⟩ => ⟨mem_exits_reduceAt.2 ⟨he, ?_⟩, ?_⟩).1
  · exact fun h => hdetour h.2
  · exact fun h => hdetour (reachesAvoidingDirect_mono (exits_reduceAt_subset r v) h)

/-- No pair of the entries judged so far has a detour. -/
def IrredundantAt (r : BoundaryRelation) (judged : List VertexId) : Prop :=
  ∀ s ∈ judged, ∀ e ∈ r.exits s, ¬ r.reachesAvoidingDirect s e = true

/-- The verdicts on the entries judged before stay valid. -/
theorem IrredundantAt.reduceAt (h : r.IrredundantAt judged) (v : VertexId) :
    (r.reduceAt v).value.IrredundantAt (judged ++ [v]) := by
  intro s hs e he hdetour
  obtain ⟨hpair, hkept⟩ := mem_exits_reduceAt.1 he
  have hbefore := reachesAvoidingDirect_mono (exits_reduceAt_subset r v) hdetour
  rcases List.mem_append.1 hs with hs | hs
  · exact h s hs e hpair hbefore
  · exact hkept ⟨List.mem_singleton.1 hs, hbefore⟩

theorem IrredundantAt.foldl_reduceAt (h : r.IrredundantAt judged) (vs : List VertexId) :
    (vs.foldl (fun r v => (r.reduceAt v).value) r).IrredundantAt (judged ++ vs) := by
  induction vs generalizing r judged with
  | nil => rwa [List.append_nil]
  | cons v vs ih =>
    have hrest := ih (h.reduceAt v)
    rwa [List.append_assoc, List.singleton_append] at hrest

/-- No pair has a detour. -/
def Irredundant (r : BoundaryRelation) : Prop :=
  ∀ s, ∀ e ∈ r.exits s, ¬ r.reachesAvoidingDirect s e = true

/-- A reduction leaves no redundant pair. -/
theorem irredundant_minimal (r : BoundaryRelation) : r.minimal.Irredundant := by
  have hjudged : r.minimal.IrredundantAt ([] ++ r.vertices) := by
    rw [minimal, reduce, value_foldlM_reduceAt]
    exact IrredundantAt.foldl_reduceAt (fun s hs => absurd hs List.not_mem_nil) r.vertices
  intro s e he
  exact hjudged s (mem_vertices_of_mem_exits (exits_minimal_subset r s e he)) e he

theorem Irredundant.reduceAt_eq (h : r.Irredundant) (v : VertexId) :
    (r.reduceAt v).value = r := by
  refine BoundaryRelation.ext (VertexTable.ext_getD ∅ (VertexTable.size_modify _ _ _) fun s => ?_)
  refine IdSet.ext fun e => ⟨exits_reduceAt_subset r v s e, fun he => ?_⟩
  exact mem_exits_reduceAt.2 ⟨he, fun hdetour => h s e he hdetour.2⟩

/-- Where no pair is redundant, a reduction removes nothing. -/
theorem Irredundant.minimal_eq (h : r.Irredundant) : r.minimal = r :=
  minimal_induction (P := fun r' => r' = r) rfl fun _ v heq => heq ▸ h.reduceAt_eq v

/-- Whatever the relation, with cycles, pairs of a vertex with itself and exits out of range: the
reduction keeps pairs of the relation only, none of them of a vertex with itself and none with a
detour among the others, and a second reduction changes nothing. A pair is kept if no other pairs
connect its entry to its exit, which are then different. -/
theorem minimal_keeps_no_detour (r : BoundaryRelation) :
    (∀ s e, r.minimal.contains s e = true → r.contains s e = true) ∧
    (∀ v, ¬ r.minimal.contains v v = true) ∧
    (∀ s e, r.minimal.contains s e = true → r.minimal.reachesAvoidingDirect s e = false) ∧
    r.minimal.minimal = r.minimal ∧
    ∀ s e, r.contains s e = true →
      ¬ ReflTransGen (fun a b => r.contains a b = true ∧ ¬ (a = s ∧ b = e)) s e →
      r.minimal.contains s e = true := by
  have hirr := r.irredundant_minimal
  simp only [contains_iff (r := r.minimal)]
  refine ⟨fun s e he => contains_iff.2 (exits_minimal_subset r s e he), fun v hv => ?_,
    fun s e he => Bool.eq_false_iff.2 (hirr s e he), hirr.minimal_eq,
    fun s e hpair hdirect => ?_⟩
  · -- every vertex is connected to itself, by no pair at all
    exact hirr v v hv (reachesAvoidingDirect_iff_connected.2 .refl)
  · refine mem_exits_minimal_of_no_detour (contains_iff.1 hpair) fun hdetour => hdirect ?_
    exact reachesAvoidingDirect_iff_connected.1 hdetour

/-- Three vertices of which each is paired with all, the first also with itself, and a pair from the
last to an exit out of range. -/
def whirl : BoundaryRelation :=
  [(⟨0⟩, ⟨0⟩), (⟨0⟩, ⟨1⟩), (⟨0⟩, ⟨2⟩), (⟨1⟩, ⟨0⟩), (⟨1⟩, ⟨2⟩), (⟨2⟩, ⟨0⟩), (⟨2⟩, ⟨1⟩),
    (⟨2⟩, ⟨9⟩)].foldl (fun r p => r.insert p.1 p.2) (.new 3)

/-- The first vertex loses all its exits at once, each because of another one, and leads nowhere any
more. The pair that alone leads out of range is kept. -/
theorem whirl_reduced :
    (whirl.contains ⟨0⟩ ⟨1⟩ = true ∧ whirl.minimal.exits ⟨0⟩ = ∅) ∧
      ¬ ReflTransGen (fun a b => whirl.contains a b = true ∧ ¬ (a = ⟨2⟩ ∧ b = ⟨9⟩)) ⟨2⟩ ⟨9⟩ ∧
      whirl.minimal.contains ⟨2⟩ ⟨9⟩ = true ∧
      whirl.minimal.reachesAvoidingDirect ⟨2⟩ ⟨9⟩ = false ∧
      whirl.minimal.minimal = whirl.minimal := by
  have hdirect : ¬ ReflTransGen
      (fun a b => whirl.contains a b = true ∧ ¬ (a = ⟨2⟩ ∧ b = ⟨9⟩)) ⟨2⟩ ⟨9⟩ :=
    fun h => absurd (reachesAvoidingDirect_iff_connected.2 h) (by decide +kernel)
  obtain ⟨_, _, hdetour, hagain, hkept⟩ := minimal_keeps_no_detour whirl
  have hpair := hkept ⟨2⟩ ⟨9⟩ (by decide +kernel) hdirect
  exact ⟨⟨by decide +kernel, by decide +kernel⟩, hdirect, hpair, hdetour _ _ hpair, hagain⟩

/-! ## Acyclic relations -/

/-- A vertex lies between two others exactly when a series leads through it. -/
theorem splits_iff_exists_series :
    r.Splits s e ↔ ∃ between, between ≠ [] ∧ r.Series s e between := by
  constructor
  · rintro ⟨m, hsm, hme⟩
    obtain ⟨ms, hms⟩ := leads_iff_exists_series.1 hsm
    obtain ⟨ns, hns⟩ := leads_iff_exists_series.1 hme
    exact ⟨ms ++ m :: ns, by simp, hms.join hns⟩
  · rintro ⟨_ | ⟨m, ms⟩, hne, hseries⟩
    · exact absurd rfl hne
    · exact ⟨m, hseries.leads_through List.mem_cons_self⟩

theorem Acyclic.reachesAvoidingDirect_iff_splits (hr : r.Acyclic) (he : e ∈ r.exits s) :
    r.reachesAvoidingDirect s e = true ↔ r.Splits s e := by
  have hredundant := hr.mem_redundantExits (s := s) (e := e)
  rwa [redundantExits, IdSet.mem_filter, and_congr_right_iff, forall_prop_of_true he]
    at hredundant

/-- Pairs that do not split are in every relation in which the same leads where. -/
theorem mem_exits_of_leads_iff (hleads : ∀ a b, r'.Leads a b ↔ r.Leads a b) (he : e ∈ r.exits s)
    (hsplit : ¬ r.Splits s e) : e ∈ r'.exits s := by
  obtain ⟨m, hsm, hme⟩ := TransGen.head'_iff.1 ((hleads s e).2 (.single he))
  rcases reflTransGen_iff_eq_or_transGen.1 hme with rfl | hme
  · exact hsm
  · exact absurd ⟨m, (hleads s m).1 (.single hsm), (hleads m e).1 hme⟩ hsplit

/-- Where all pairs go upwards in some order, nothing leads back to itself. -/
theorem acyclic_of_rank (rank : VertexId → Nat) (h : ∀ p ∈ r.pairs, rank p.1 < rank p.2) :
    r.Acyclic := by
  have hup : ∀ {a b}, r.Leads a b → rank a < rank b := by
    intro a b hab
    induction hab with
    | single hpair => exact h _ (mem_pairs.2 hpair)
    | tail _ hpair ih => exact ih.trans (h _ (mem_pairs.2 hpair))
  exact fun v hv => Nat.lt_irrefl _ (hup hv)

/-- The reduction of an acyclic relation, with exits in range or out of it, is its transitive
reduction: it keeps the pairs whose entry and exit are joined by no series of two pairs or more,
which are those without detour in the relation itself, and the same leads where. A relation in which
the same leads where has all pairs that are kept. -/
theorem minimal_is_transitive_reduction (r : BoundaryRelation) (hr : r.Acyclic) :
    (∀ s e, r.minimal.contains s e = true ↔
      r.contains s e = true ∧ ¬ ∃ between, between ≠ [] ∧ r.Series s e between) ∧
    (∀ s e, r.minimal.contains s e = true ↔
      r.contains s e = true ∧ r.reachesAvoidingDirect s e = false) ∧
    (∀ a b, r.minimal.Leads a b ↔ r.Leads a b) ∧
    ∀ r' : BoundaryRelation, (∀ a b, r'.Leads a b ↔ r.Leads a b) →
      ∀ s e, r.minimal.contains s e = true → r'.contains s e = true := by
  simp only [contains_iff, ← splits_iff_exists_series]
  refine ⟨fun s e => hr.mem_exits_minimal_iff, fun s e => ?_, fun a b => by rw [hr.leads_minimal],
    fun r' hleads s e he => ?_⟩
  · rw [hr.mem_exits_minimal_iff]
    refine and_congr_right fun he => ?_
    rw [← Bool.not_eq_true, hr.reachesAvoidingDirect_iff_splits he]
  · obtain ⟨hpair, hsplit⟩ := hr.mem_exits_minimal_iff.1 he
    exact mem_exits_of_leads_iff hleads hpair hsplit

/-- From the first of three vertices through the others, against their order, to an exit out of
range, with all shorter ways. -/
def shortcuts : BoundaryRelation :=
  [(⟨0⟩, ⟨2⟩), (⟨2⟩, ⟨1⟩), (⟨1⟩, ⟨9⟩), (⟨0⟩, ⟨1⟩), (⟨2⟩, ⟨9⟩), (⟨0⟩, ⟨9⟩)].foldl
    (fun r p => r.insert p.1 p.2) (.new 3)

/-- The pair over the whole way is removed, as its detours show, although every detour but the
longest takes a pair that is removed as well. The longest one remains. -/
theorem shortcuts_reduced :
    shortcuts.Acyclic ∧ ¬ shortcuts.minimal.contains ⟨0⟩ ⟨9⟩ = true ∧
      shortcuts.Series ⟨0⟩ ⟨9⟩ [⟨2⟩] ∧ ¬ shortcuts.minimal.contains ⟨2⟩ ⟨9⟩ = true ∧
      shortcuts.minimal.contains ⟨0⟩ ⟨2⟩ = true ∧ shortcuts.minimal.Leads ⟨0⟩ ⟨9⟩ := by
  have hacyclic : shortcuts.Acyclic :=
    acyclic_of_rank (fun v => if v.index = 1 then 5 else 2 * v.index) (by decide +kernel)
  obtain ⟨hseries, hdetour, hleads, _⟩ := minimal_is_transitive_reduction shortcuts hacyclic
  have hlong : shortcuts.Series ⟨0⟩ ⟨9⟩ [⟨2⟩] := by decide +kernel
  refine ⟨hacyclic, fun h => ((hseries _ _).1 h).2 ⟨_, by decide, hlong⟩, hlong,
    fun h => absurd ((hdetour _ _).1 h).2 (by decide +kernel), (hdetour _ _).2 (by decide +kernel),
    (hleads _ _).2 hlong.leads⟩

end BoundaryRelation

end FlowRegions
