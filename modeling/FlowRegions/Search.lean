import FlowRegions.IdSet

/-! # Exhaustive search

A search starts from some identifiers and follows a step to everything that can be reached. It
advances by whole layers: the fresh identifiers of a layer are those one step away that have not
been visited. Visited sets grow strictly while there are fresh identifiers and never outgrow the
identifiers there are, so every search ends.

The search for everything finds exactly the ends of the chains of steps (`mem_reachable`), and the
search for a target tells whether a chain leads to it (`finds_iff`).
-/

namespace FlowRegions

namespace Search

variable {κ : IdKind}

/-- What is one step away from the frontier and not yet visited. -/
def fresh (step : DenseId κ → IdSet κ) (frontier visited : IdSet κ) : IdSet κ :=
  frontier.biUnion step \ visited

@[simp] theorem mem_fresh {step : DenseId κ → IdSet κ} {frontier visited : IdSet κ}
    {b : DenseId κ} :
    b ∈ fresh step frontier visited ↔ (∃ a ∈ frontier, b ∈ step a) ∧ b ∉ visited := by
  simp [fresh]

/-- A layer that is not empty leaves fewer identifiers to be visited. -/
theorem card_union_fresh {step : DenseId κ → IdSet κ} {frontier visited : IdSet κ}
    (h : ¬ (fresh step frontier visited).isEmpty = true) :
    idCount - (visited ∪ fresh step frontier visited).card < idCount - visited.card := by
  have hcard : (visited ∪ fresh step frontier visited).card =
      visited.card + (fresh step frontier visited).card :=
    IdSet.card_union fun a ha hfresh => (mem_fresh.1 hfresh).2 ha
  have hpos := IdSet.card_pos_of_not_isEmpty h
  have hle := (visited ∪ fresh step frontier visited).card_le
  omega

/-- Everything visited once the search from the frontier has run dry. -/
def closure (step : DenseId κ → IdSet κ) (frontier visited : IdSet κ) : IdSet κ :=
  if (fresh step frontier visited).isEmpty then visited
  else closure step (fresh step frontier visited) (visited ∪ fresh step frontier visited)
termination_by idCount - visited.card
decreasing_by exact card_union_fresh ‹_›

/-- Whether the search from the frontier meets the target among what it has not visited yet. -/
def finds (step : DenseId κ → IdSet κ) (target : DenseId κ) (frontier visited : IdSet κ) : Bool :=
  if frontier.toList.any (fun a => target ∈ step a) then true
  else if (fresh step frontier visited).isEmpty then false
  else finds step target (fresh step frontier visited) (visited ∪ fresh step frontier visited)
termination_by idCount - visited.card
decreasing_by exact card_union_fresh ‹_›

/-- Everything reachable from an identifier in any number of steps, itself included. -/
def reachable (step : DenseId κ → IdSet κ) (a : DenseId κ) : IdSet κ := closure step {a} {a}

/-! ## Chains of steps -/

/-- A chain of any number of steps leads from one identifier to another. -/
inductive Chain (step : DenseId κ → IdSet κ) (a : DenseId κ) : DenseId κ → Prop where
  | refl : Chain step a a
  | tail {b c : DenseId κ} (hab : Chain step a b) (hbc : c ∈ step b) : Chain step a c

theorem Chain.trans {step : DenseId κ → IdSet κ} {a b c : DenseId κ} (hab : Chain step a b)
    (hbc : Chain step b c) : Chain step a c := by
  induction hbc with
  | refl => exact hab
  | tail _ hstep ih => exact .tail ih hstep

/-- What holds of a search at any layer: the frontier has been visited, and everything one step
away from a visited identifier has been visited too, unless that identifier is in the frontier. -/
structure Layered (step : DenseId κ → IdSet κ) (frontier visited : IdSet κ) : Prop where
  frontier_visited : frontier ⊆ visited
  behind : ∀ a ∈ visited, a ∉ frontier → step a ⊆ visited

theorem Layered.start (step : DenseId κ → IdSet κ) (a : DenseId κ) :
    Layered step {a} {a} where
  frontier_visited := fun _ h => h
  behind := fun _ hv hf => absurd hv hf

/-- One step from anything visited leads to something visited or fresh. -/
theorem Layered.step_mem {step : DenseId κ → IdSet κ} {frontier visited : IdSet κ}
    (h : Layered step frontier visited) {a b : DenseId κ} (ha : a ∈ visited) (hb : b ∈ step a) :
    b ∈ visited ∪ fresh step frontier visited := by
  by_cases hf : a ∈ frontier
  · by_cases hv : b ∈ visited
    · exact IdSet.mem_union.2 (.inl hv)
    · exact IdSet.mem_union.2 (.inr (mem_fresh.2 ⟨⟨a, hf, hb⟩, hv⟩))
  · exact IdSet.mem_union.2 (.inl (h.behind a ha hf b hb))

theorem Layered.next {step : DenseId κ → IdSet κ} {frontier visited : IdSet κ}
    (h : Layered step frontier visited) :
    Layered step (fresh step frontier visited) (visited ∪ fresh step frontier visited) where
  frontier_visited := fun a ha => IdSet.mem_union.2 (.inr ha)
  behind := by
    intro a ha hf b hb
    rcases IdSet.mem_union.1 ha with ha | ha
    · exact h.step_mem ha hb
    · exact absurd ha hf

/-- Without fresh identifiers, a chain does not leave what has been visited. -/
theorem Layered.mem_of_chain {step : DenseId κ → IdSet κ} {frontier visited : IdSet κ}
    (h : Layered step frontier visited) (hdry : (fresh step frontier visited).isEmpty = true)
    {a b : DenseId κ} (ha : a ∈ visited) (hab : Chain step a b) : b ∈ visited := by
  induction hab with
  | refl => exact ha
  | tail _ hstep ih =>
    have hmem := h.step_mem ih hstep
    rw [IdSet.isEmpty_iff.1 hdry, IdSet.mem_union] at hmem
    exact hmem.resolve_right (IdSet.not_mem_empty _)

/-- A search visits exactly what chains of steps from the visited identifiers lead to. -/
theorem mem_closure {step : DenseId κ → IdSet κ} {frontier visited : IdSet κ}
    (h : Layered step frontier visited) {b : DenseId κ} :
    b ∈ closure step frontier visited ↔ ∃ a ∈ visited, Chain step a b := by
  fun_induction closure step frontier visited with
  | case1 frontier visited hdry =>
    exact ⟨fun hb => ⟨b, hb, .refl⟩, fun ⟨a, ha, hab⟩ => h.mem_of_chain hdry ha hab⟩
  | case2 frontier visited hdry ih =>
    rw [ih h.next]
    constructor
    · rintro ⟨a, ha, hab⟩
      rcases IdSet.mem_union.1 ha with ha | ha
      · exact ⟨a, ha, hab⟩
      · obtain ⟨⟨x, hx, hstep⟩, _⟩ := mem_fresh.1 ha
        exact ⟨x, h.frontier_visited x hx, Chain.trans (.tail .refl hstep) hab⟩
    · rintro ⟨a, ha, hab⟩
      exact ⟨a, IdSet.mem_union.2 (.inl ha), hab⟩

/-- What is reachable is what chains of steps lead to. -/
@[simp] theorem mem_reachable {step : DenseId κ → IdSet κ} {a b : DenseId κ} :
    b ∈ reachable step a ↔ Chain step a b := by
  rw [reachable, mem_closure (Layered.start step a)]
  exact ⟨fun ⟨x, hx, hxb⟩ => IdSet.mem_singleton.1 hx ▸ hxb,
    fun hab => ⟨a, IdSet.mem_singleton.2 rfl, hab⟩⟩

/-- A target that has not been visited is found exactly when a chain of steps leads to it. -/
theorem finds_iff {step : DenseId κ → IdSet κ} {target : DenseId κ} {frontier visited : IdSet κ}
    (h : Layered step frontier visited) (ht : target ∉ visited) :
    finds step target frontier visited = true ↔ ∃ a ∈ visited, Chain step a target := by
  fun_induction finds step target frontier visited with
  | case1 frontier visited hany =>
    obtain ⟨a, ha, hstep⟩ := List.any_eq_true.1 hany
    exact ⟨fun _ => ⟨a, h.frontier_visited a ha, .tail .refl (of_decide_eq_true hstep)⟩,
      fun _ => rfl⟩
  | case2 frontier visited hany hdry =>
    refine ⟨fun hfalse => absurd hfalse Bool.false_ne_true, fun ⟨a, ha, hab⟩ => ?_⟩
    exact absurd (h.mem_of_chain hdry ha hab) ht
  | case3 frontier visited hany hdry ih =>
    have htarget : target ∉ visited ∪ fresh step frontier visited := by
      intro hmem
      rcases IdSet.mem_union.1 hmem with hmem | hmem
      · exact ht hmem
      · obtain ⟨⟨a, ha, hstep⟩, _⟩ := mem_fresh.1 hmem
        exact hany (List.any_eq_true.2 ⟨a, ha, decide_eq_true hstep⟩)
    rw [ih h.next htarget]
    constructor
    · rintro ⟨a, ha, hab⟩
      rcases IdSet.mem_union.1 ha with ha | ha
      · exact ⟨a, ha, hab⟩
      · obtain ⟨⟨x, hx, hstep⟩, _⟩ := mem_fresh.1 ha
        exact ⟨x, h.frontier_visited x hx, Chain.trans (.tail .refl hstep) hab⟩
    · rintro ⟨a, ha, hab⟩
      exact ⟨a, IdSet.mem_union.2 (.inl ha), hab⟩

end Search

end FlowRegions
