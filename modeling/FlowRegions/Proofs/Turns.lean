import FlowRegions.Proofs.Steps

/-!
# The turns of the construction

A turn resumes the walk on top of the stack. It attaches a hammock, whose walk goes on top, or it
takes a walk that is over off the stack. So there are two turns for every hammock that is attached
on the way and one for every walk that has been suspended before (`length_turns`), and walks end as
often as they begin (`perm_finished`). The turns in which walks find hammocks are what the
construction reports (`events_run`).
-/

namespace FlowRegions

open Log Relation

namespace Construction

variable {g : FlowGraph} {t : HammockTree} {w w' : Walk} {below : List Walk} {c : HammockId}

/-- A turn of the construction: the hammock whose walk is resumed, and the hammock that the walk
finds, if it is not over. -/
structure Turn where
  host : HammockId
  found : Option HammockId
deriving DecidableEq

/-- The turns in which the construction resumes walks until all of them are over. -/
def turns (g : FlowGraph) (s : Construction) : List Turn :=
  match s with
  | ⟨_, []⟩ => []
  | ⟨t, w :: below⟩ =>
    ⟨w.host, (w.advance g t.registry t.attached).map Prod.fst⟩ ::
      turns g (resume g t w below).value
termination_by (s.remaining, s.stack.length)
decreasing_by exact resume_decreases g t w below

theorem turns_nil (g : FlowGraph) (t : HammockTree) : turns g ⟨t, []⟩ = [] := by
  rw [turns]

theorem turns_of_none (h : w.advance g t.registry t.attached = none) :
    turns g ⟨t, w :: below⟩ = ⟨w.host, none⟩ :: turns g ⟨t.linkSiblings w.host, below⟩ := by
  rw [turns, resume_of_none h, h]
  rfl

theorem turns_of_some (h : w.advance g t.registry t.attached = some (c, w')) :
    turns g ⟨t, w :: below⟩ = ⟨w.host, some c⟩ ::
      turns g ⟨t.attach c w.host (Walk.of_advance h).2.1,
        .begin t.registry c :: w' :: below⟩ := by
  rw [turns, resume_of_some h, h]
  rfl

/-- What holds when no walk is suspended, and of a state if it holds after the next turn, holds of
all states. -/
@[elab_as_elim]
theorem turn_induction {P : Construction → Prop} (g : FlowGraph) (done : ∀ t, P ⟨t, []⟩)
    (ended : ∀ t w below, w.advance g t.registry t.attached = none →
      P ⟨t.linkSiblings w.host, below⟩ → P ⟨t, w :: below⟩)
    (found : ∀ t w below c w' (h : w.advance g t.registry t.attached = some (c, w')),
      P ⟨t.attach c w.host (Walk.of_advance h).2.1, .begin t.registry c :: w' :: below⟩ →
        P ⟨t, w :: below⟩)
    (s : Construction) : P s := by
  fun_induction turns g s with
  | case1 t => exact done t
  | case2 t w below ih =>
    cases hadv : w.advance g t.registry t.attached with
    | none => exact ended t w below hadv (resume_of_none hadv ▸ ih)
    | some p => exact found t w below p.1 p.2 hadv (resume_of_some hadv ▸ ih)

/-- Resuming walks is a sequence of steps. -/
theorem resumed_reached (g : FlowGraph) (n : Nat) (s : Construction) :
    ReflTransGen (Step g) s (resumed g n s) := by
  induction n generalizing s with
  | zero => exact .refl
  | succ n ih =>
    obtain ⟨t, _ | ⟨w, below⟩⟩ := s
    · exact .refl
    · exact (resume_reached g t w below).trans (ih _)

/-- Walks are resumed as often as there are turns. -/
theorem stack_resumed_eq_nil_iff (g : FlowGraph) (n : Nat) (s : Construction) :
    (resumed g n s).stack = [] ↔ (turns g s).length ≤ n := by
  induction n generalizing s with
  | zero =>
    obtain ⟨t, _ | ⟨w, below⟩⟩ := s
    · simp [resumed, turns_nil]
    · rw [turns]
      simp [resumed]
  | succ n ih =>
    obtain ⟨t, _ | ⟨w, below⟩⟩ := s
    · simp [resumed, turns_nil]
    · rw [resumed, ih, turns, List.length_cons, Nat.add_le_add_iff_right]

/-- There is one turn for every suspended walk, and there are two for every hammock that is still
to be attached. -/
theorem length_turns (g : FlowGraph) (s : Construction) :
    (turns g s).length + 2 * s.tree.attached.card =
      s.stack.length + 2 * (run g s).value.attached.card := by
  induction s using turn_induction g with
  | done t => simp [turns_nil, value_run_nil]
  | ended t w below h ih =>
    rw [turns_of_none h, value_run_cons, resume_of_none h]
    simp only [List.length_cons, HammockTree.linkSiblings] at ih ⊢
    omega
  | found t w below c w' h ih =>
    have hcard := IdSet.card_insert (Walk.of_advance h).1
    rw [turns_of_some h, value_run_cons, resume_of_some h]
    simp only [List.length_cons, HammockTree.attach] at ih ⊢
    omega

/-- Walks end once for every suspended walk and for every walk that begins. -/
theorem perm_finished (g : FlowGraph) (s : Construction) :
    (((turns g s).filter fun u => u.found.isNone).map Turn.host).Perm
      (s.stack.map Walk.host ++ (turns g s).filterMap Turn.found) := by
  induction s using turn_induction g with
  | done t => rw [turns_nil]; exact .nil
  | ended t w below h ih =>
    rw [turns_of_none h]
    exact ih.cons w.host
  | found t w below c w' h ih =>
    rw [turns_of_some h]
    obtain ⟨_, hsize, hhost⟩ := Walk.of_advance h
    simp only [List.map_cons, Walk.host_begin, hhost] at ih
    exact ih.trans List.perm_middle.symm

theorem events_run_nil (g : FlowGraph) (t : HammockTree) : (run g ⟨t, []⟩).events = [] := by
  rw [run]
  rfl

theorem events_run_cons (g : FlowGraph) (t : HammockTree) (w : Walk) (below : List Walk) :
    (run g ⟨t, w :: below⟩).events =
      (resume g t w below).events ++ (run g (resume g t w below).value).events := by
  rw [run]

/-- What the construction reports are the hammocks that walks find, each with the host of the
walk. -/
theorem events_run (g : FlowGraph) (s : Construction) :
    (run g s).events = (turns g s).filterMap fun u => u.found.map (.nested · u.host) := by
  induction s using turn_induction g with
  | done t =>
    rw [turns_nil, events_run_nil]
    rfl
  | ended t w below h ih =>
    rw [turns_of_none h, events_run_cons, resume_eq_of_none h, ih]
    rfl
  | found t w below c w' h ih =>
    rw [turns_of_some h, events_run_cons, resume_eq_of_some h, ih]
    rfl

end Construction

end FlowRegions
