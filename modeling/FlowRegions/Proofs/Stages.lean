import FlowRegions.Decomposition

/-!
# The stages of a decomposition

A decomposition succeeds exactly when each of its stages does, and its tree is the one that the last
stage has grown for the registered minimal pairs (`decompose_eq_ok_iff`).
-/

namespace FlowRegions

open Log

/-! ## Outcomes of stages -/

section

variable {ε ε' α β : Type} {f : ε → ε'} {x : Except ε α} {b : β}

/-- What goes on after a stage succeeds exactly when the stage does. -/
theorem bind_mapError_eq_ok_iff {k : α → Except ε' β} :
    (x.mapError f).bind k = .ok b ↔ ∃ a, x = .ok a ∧ k a = .ok b := by
  constructor
  · intro h
    cases x with
    | error e => cases h
    | ok a => exact ⟨a, rfl, h⟩
  · rintro ⟨a, rfl, h⟩
    exact h

/-- The last stage decides whether there is a result. -/
theorem map_mapError_eq_ok_iff {k : α → β} :
    (x.mapError f).map k = .ok b ↔ ∃ a, x = .ok a ∧ k a = b := by
  constructor
  · intro h
    cases x with
    | error e => cases h
    | ok a => exact ⟨a, rfl, Except.ok.inj h⟩
  · rintro ⟨a, rfl, rfl⟩
    rfl

end

namespace FlowGraph

variable {g : FlowGraph} {mask : Option BoundaryMask} {config : Config} {d : Decomposition}

/-- The outcome of a decomposition, stage by stage. -/
theorem value_decompose (config : Config) (g : FlowGraph) (mask : Option BoundaryMask) :
    (g.decompose config mask).run.value =
      (g.endpoints.mapError .invalidGraph).bind fun ends =>
      ((g.analyseBoundaries ends.1 ends.2 mask config.sweep).run.value.mapError .passage).bind
        fun a =>
      (((HammockRegistry.register g a.minimal).value.nest g).run.value.mapError .nesting).map
        fun t => ⟨ends.1, ends.2, t,
          if config.collectStatistics then .collect g a t else {}⟩ := by
  rw [decompose, Attempt.value_bind, Attempt.value_mapError, Attempt.run_ofExcept,
    Logged.value_pure]
  -- the first stage agrees, and under its binder the next one follows
  refine congrArg _ (funext fun ends => ?_)
  obtain ⟨source, sink⟩ := ends
  rw [Attempt.value_liftM_bind, Attempt.value_bind, Attempt.value_mapError]
  refine congrArg _ (funext fun a => ?_)
  rw [Attempt.value_liftM_bind, Attempt.value_liftM_bind, Attempt.value_bind,
    Attempt.value_mapError]
  cases ((HammockRegistry.register g a.minimal).value.nest g).run.value <;> rfl

/-- A decomposition succeeds exactly when its stages do. -/
theorem decompose_eq_ok_iff :
    (g.decompose config mask).run.value = .ok d ↔
      ∃ ends, g.endpoints = .ok ends ∧
      ∃ a, (g.analyseBoundaries ends.1 ends.2 mask config.sweep).run.value = .ok a ∧
      ∃ t, ((HammockRegistry.register g a.minimal).value.nest g).run.value = .ok t ∧
        ⟨ends.1, ends.2, t, if config.collectStatistics then .collect g a t else {}⟩ = d := by
  simp only [value_decompose, bind_mapError_eq_ok_iff, map_mapError_eq_ok_iff]

/-- The tree of a successful decomposition is that of the analysis between its source and sink. -/
theorem of_decompose (h : (g.decompose config mask).run.value = .ok d) :
    ∃ a, (g.analyseBoundaries d.source d.sink mask config.sweep).run.value = .ok a ∧
      ((HammockRegistry.register g a.minimal).value.nest g).run.value = .ok d.tree := by
  obtain ⟨_, _, a, ha, t, ht, rfl⟩ := decompose_eq_ok_iff.1 h
  exact ⟨a, ha, ht⟩

/-- The source and the sink of a decomposition are those of the graph. -/
theorem endpoints_of_decompose (h : (g.decompose config mask).run.value = .ok d) :
    g.endpoints = .ok (d.source, d.sink) := by
  obtain ⟨_, hends, _, _, _, _, rfl⟩ := decompose_eq_ok_iff.1 h
  exact hends

end FlowGraph

end FlowRegions
