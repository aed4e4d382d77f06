import FlowRegions.Passage.Fixpoint
import FlowRegions.Proofs.Routes
import Mathlib.Data.List.Forall2

/-!
# What the sweeps settle on

The sweeps start from sets that are too large and never remove a vertex that is necessary
(`Sound.sweep`). A sweep narrows set by set (`sweep_below`), so one that keeps all sizes keeps all
sets, and then every set is stable under its own update (`stable_of_sweep_eq`). In stable sets a
vertex is passed on along every edge towards the target, which leaves nothing but necessary
vertices (`Stable.necessary`).

So the total size tells the same as the sizes of the single sets (`weight_lt_iff`), and a loop that
goes on as long as a sweep notes a changed size makes the same sweeps (`sweepsTo_iff`).
-/

namespace FlowRegions

open Log

/-! ## Tables of sets -/

/-- The sets of one table are parts of those of another. -/
def Below (a b : VertexTable VertexSet) : Prop := a.size = b.size ∧ ∀ v, a.getD v ∅ ⊆ b.getD v ∅

theorem Below.refl (a : VertexTable VertexSet) : Below a a := ⟨rfl, fun _ _ h => h⟩

theorem Below.trans {a b c : VertexTable VertexSet} (hab : Below a b) (hbc : Below b c) :
    Below a c :=
  ⟨hab.1.trans hbc.1, fun v x hx => hbc.2 v x (hab.2 v x hx)⟩

theorem Below.antisymm {a b : VertexTable VertexSet} (hab : Below a b) (hba : Below b a) : a = b :=
  VertexTable.ext_getD ∅ hab.1 fun v => IdSet.ext fun x => ⟨hab.2 v x, hba.2 v x⟩

/-- Smaller sets in the same order have a smaller total size, unless they are the same sets. -/
theorem sum_card_of_forall₂ {l m : List VertexSet} (h : List.Forall₂ (· ⊆ ·) l m) :
    l.foldr (fun s n => s.card + n) 0 ≤ m.foldr (fun s n => s.card + n) 0 ∧
      (m.foldr (fun s n => s.card + n) 0 ≤ l.foldr (fun s n => s.card + n) 0 → l = m) := by
  induction h with
  | nil => exact ⟨Nat.le_refl _, fun _ => rfl⟩
  | cons hst _ ih =>
    have hcard := IdSet.card_le_card hst
    simp only [List.foldr_cons]
    refine ⟨by omega, fun hle => ?_⟩
    rw [IdSet.eq_of_subset_of_card_le hst (by omega), ih.2 (by omega)]

theorem Below.forall₂ {a b : VertexTable VertexSet} (h : Below a b) :
    List.Forall₂ (· ⊆ ·) a.toList b.toList := by
  refine List.forall₂_iff_get.2 ⟨h.1, fun i ha hb => ?_⟩
  have hrow := h.2 (.ofIndex i)
  rw [VertexTable.getD_ofIndex ha, VertexTable.getD_ofIndex hb] at hrow
  exact hrow

namespace FlowGraph

variable {g : FlowGraph} {t v w : VertexId} {sets : VertexTable VertexSet}

/-- The total size gets smaller exactly when some set does: the two tests for a quiet sweep
agree. -/
theorem weight_lt_iff {a b : VertexTable VertexSet} (h : Below a b) :
    weight a < weight b ↔ ∃ v, (a.getD v ∅).card ≠ (b.getD v ∅).card := by
  have hsum := sum_card_of_forall₂ h.forall₂
  constructor
  · intro hlt
    by_contra hcard
    have hab : a = b := VertexTable.ext_getD ∅ h.1 fun v =>
      IdSet.eq_of_subset_of_card_le (h.2 v)
        (Nat.le_of_eq (Decidable.of_not_not fun hne => hcard ⟨v, Ne.symm hne⟩))
    rw [hab] at hlt
    exact Nat.lt_irrefl _ hlt
  · rintro ⟨v, hv⟩
    refine Nat.lt_of_le_of_ne hsum.1 fun heq => hv ?_
    have hrows : a.rows = b.rows := Array.toList_inj.1 (hsum.2 (Nat.le_of_eq heq.symm))
    rw [VertexTable.ext hrows]

/-! ## What every sweep keeps -/

/-- The sets have a row for each vertex, the target's set is as small as can be, and no necessary
vertex of the graph is missing. -/
structure Sound (g : FlowGraph) (t : VertexId) (sets : VertexTable VertexSet) : Prop where
  size_eq : sets.size = g.vertexCount
  target_only : sets.getD t ∅ = {t}
  necessary_mem : ∀ v w, g.contains v = true → g.contains w = true → g.Necessary v t w →
    w ∈ sets.getD v ∅

/-- Updating the set of any vertex but the target does not narrow it. -/
def Stable (g : FlowGraph) (t : VertexId) (sets : VertexTable VertexSet) : Prop :=
  ∀ v, g.contains v = true → v ≠ t → sets.getD v ∅ ⊆ g.meet sets v

theorem Sound.hasRow (h : g.Sound t sets) : sets.hasRow v = g.contains v :=
  VertexTable.hasRow_congr h.size_eq v

/-- Vertices outside the graph have no members. -/
theorem Sound.contains_of_mem (h : g.Sound t sets) (hw : w ∈ sets.getD v ∅) :
    g.contains v = true := by
  rw [← h.hasRow, ← Bool.not_eq_false]
  intro hrow
  rw [VertexTable.getD_eq_default hrow] at hw
  exact IdSet.not_mem_empty w hw

/-- The target belongs to the graph. -/
theorem Sound.contains_target (h : g.Sound t sets) : g.contains t = true :=
  h.contains_of_mem (h.target_only ▸ IdSet.mem_singleton.2 rfl : t ∈ sets.getD t ∅)

/-- Every vertex is in its own set. -/
theorem Sound.self_mem (h : g.Sound t sets) (hv : g.contains v = true) : v ∈ sets.getD v ∅ :=
  h.necessary_mem v v hv hv (.source g v t)

/-- An update narrows. -/
theorem Sound.meet_subset (h : g.Sound t sets) (hv : g.contains v = true) :
    g.meet sets v ⊆ sets.getD v ∅ := by
  intro w hw
  rcases mem_meet.1 hw with rfl | ⟨hw, _⟩
  · exact h.self_mem hv
  · exact hw

/-- An update keeps the necessary vertices: they are necessary from every successor on. -/
theorem Sound.necessary_mem_meet (h : g.Sound t sets) (hv : g.contains v = true)
    (hcw : g.contains w = true) (hw : g.Necessary v t w) : w ∈ g.meet sets v := by
  rw [mem_meet]
  by_cases hwv : w = v
  · exact .inl hwv
  · refine .inr ⟨h.necessary_mem v w hv hcw hw, fun u hu _ => ?_⟩
    apply h.necessary_mem u w (contains_of_mem_successors hu) hcw
    intro p hp
    exact (List.mem_cons.1 (hw (v :: p) (.step hu hp))).resolve_left hwv

theorem getD_initialSets (hv : g.contains v = true) :
    (g.initialSets t).getD v ∅ = if v = t then {t} else g.vertexSet := by
  apply VertexTable.getD_of_get?
  rw [get?_initialSets, if_pos hv]

/-- The sets before the first sweep miss nothing. -/
theorem Sound.initialSets (ht : g.contains t = true) : g.Sound t (g.initialSets t) where
  size_eq := VertexTable.size_mapVertices _ g.successorTable
  target_only := by rw [getD_initialSets ht, if_pos rfl]
  necessary_mem := by
    intro v w hv hcw hw
    rw [getD_initialSets hv]
    split
    · next hvt =>
      -- the route that stays at the target visits nothing else
      subst hvt
      exact IdSet.mem_singleton.2 (List.mem_singleton.1 (hw [v] (.stay hv)))
    · exact mem_vertexSet.2 hcw

/-- The update of one vertex's set, the target's excepted. -/
def narrowAt (g : FlowGraph) (t : VertexId) (sets : VertexTable VertexSet) (v : VertexId) :
    VertexTable VertexSet :=
  if v = t then sets else sets.set v (g.meet sets v)

theorem getD_narrowAt (h : g.Sound t sets) (hv : g.contains v = true) (w : VertexId) :
    (g.narrowAt t sets v).getD w ∅ =
      if w = v ∧ v ≠ t then g.meet sets v else sets.getD w ∅ := by
  unfold narrowAt
  by_cases hvt : v = t
  · simp [hvt]
  · have hrow : sets.hasRow v = true := h.hasRow.trans hv
    rw [if_neg hvt, VertexTable.getD_set hrow]
    simp [hvt]

theorem getD_sweepSnapshot (h : g.Sound t sets) (hv : g.contains v = true) :
    (g.sweepSnapshot t sets).getD v ∅ = if v = t then sets.getD v ∅ else g.meet sets v :=
  VertexTable.getD_mapVertices (h.hasRow.trans hv) ∅ ∅

/-- The update of one set keeps what is necessary. -/
theorem Sound.narrowAt (h : g.Sound t sets) (hv : g.contains v = true) :
    g.Sound t (g.narrowAt t sets v) where
  size_eq := by
    unfold FlowGraph.narrowAt
    split
    · exact h.size_eq
    · exact (VertexTable.size_set sets v _).trans h.size_eq
  target_only := by
    rw [getD_narrowAt h hv, if_neg fun hc => hc.2 hc.1.symm]
    exact h.target_only
  necessary_mem := by
    intro u w hu hcw hw
    rw [getD_narrowAt h hv]
    split
    · next huv => exact h.necessary_mem_meet hv hcw (huv.1 ▸ hw)
    · exact h.necessary_mem u w hu hcw hw

theorem narrowAt_below (h : g.Sound t sets) (hv : g.contains v = true) :
    Below (g.narrowAt t sets v) sets := by
  refine ⟨(h.narrowAt hv).size_eq.trans h.size_eq.symm, fun w x hx => ?_⟩
  rw [getD_narrowAt h hv] at hx
  split at hx
  · next hwv => exact hwv.1 ▸ h.meet_subset hv x hx
  · exact hx

/-! ## Sweeps in place -/

/-- Updating one set after the other keeps what is necessary. -/
theorem Sound.foldl_narrowAt {vs : List VertexId} (h : g.Sound t sets)
    (hvs : ∀ v ∈ vs, g.contains v = true) : g.Sound t (vs.foldl (g.narrowAt t) sets) := by
  induction vs generalizing sets with
  | nil => exact h
  | cons v vs ih =>
    have hv : g.contains v = true := hvs v List.mem_cons_self
    exact ih (h.narrowAt hv) fun u hu => hvs u (List.mem_cons_of_mem v hu)

theorem foldl_narrowAt_below {vs : List VertexId} (h : g.Sound t sets)
    (hvs : ∀ v ∈ vs, g.contains v = true) : Below (vs.foldl (g.narrowAt t) sets) sets := by
  induction vs generalizing sets with
  | nil => exact Below.refl sets
  | cons v vs ih =>
    have hv : g.contains v = true := hvs v List.mem_cons_self
    exact (ih (h.narrowAt hv) fun u hu => hvs u (List.mem_cons_of_mem v hu)).trans
      (narrowAt_below h hv)

/-- Where updating one set after the other has kept all sets, no single update has changed one:
the sets in between lie between equal ones. -/
theorem narrowAt_eq_of_foldl_eq {vs : List VertexId} (h : g.Sound t sets)
    (hvs : ∀ v ∈ vs, g.contains v = true) (heq : vs.foldl (g.narrowAt t) sets = sets)
    (hv : v ∈ vs) : g.narrowAt t sets v = sets := by
  induction vs generalizing sets with
  | nil => cases hv
  | cons u vs ih =>
    have hu : g.contains u = true := hvs u List.mem_cons_self
    have hrest : ∀ v ∈ vs, g.contains v = true := fun v hv => hvs v (List.mem_cons_of_mem u hv)
    have hfirst : g.narrowAt t sets u = sets := by
      -- what the later updates leave lies below the first one's result and equals `sets`
      have hlower := foldl_narrowAt_below (h.narrowAt hu) hrest
      rw [List.foldl_cons] at heq
      rw [heq] at hlower
      exact (narrowAt_below h hu).antisymm hlower
    rcases List.mem_cons.1 hv with rfl | hv
    · exact hfirst
    · rw [List.foldl_cons, hfirst] at heq
      exact ih h hrest heq hv

/-! ## Sweeps in every mode -/

/-- Every sweep keeps what is necessary. -/
theorem Sound.sweep (h : g.Sound t sets) (mode : SweepMode) :
    g.Sound t (g.sweep mode t sets) := by
  have hsnapshot : g.Sound t (g.sweepSnapshot t sets) := by
    refine ⟨(VertexTable.size_mapVertices _ sets).trans h.size_eq, ?_, fun v w hv hcw hw => ?_⟩
    · rw [getD_sweepSnapshot h h.contains_target, if_pos rfl]
      exact h.target_only
    · rw [getD_sweepSnapshot h hv]
      split
      · exact h.necessary_mem v w hv hcw hw
      · exact h.necessary_mem_meet hv hcw hw
  cases mode with
  | inPlace =>
    show g.Sound t (g.vertices.foldl (g.narrowAt t) sets)
    exact h.foldl_narrowAt fun v hv => mem_vertices.1 hv
  | snapshot => exact hsnapshot
  | parallelSnapshot => exact hsnapshot

/-- Every sweep narrows. -/
theorem sweep_below (h : g.Sound t sets) (mode : SweepMode) :
    Below (g.sweep mode t sets) sets := by
  have hsnapshot : Below (g.sweepSnapshot t sets) sets := by
    refine ⟨VertexTable.size_mapVertices _ sets, fun v x hx => ?_⟩
    have hv : g.contains v = true := (h.sweep .snapshot).contains_of_mem hx
    rw [getD_sweepSnapshot h hv] at hx
    split at hx
    · exact hx
    · exact h.meet_subset hv x hx
  cases mode with
  | inPlace =>
    show Below (g.vertices.foldl (g.narrowAt t) sets) sets
    exact foldl_narrowAt_below h fun v hv => mem_vertices.1 hv
  | snapshot => exact hsnapshot
  | parallelSnapshot => exact hsnapshot

/-- A sweep that changes nothing leaves nothing to narrow. -/
theorem stable_of_sweep_eq (h : g.Sound t sets) {mode : SweepMode}
    (heq : g.sweep mode t sets = sets) : g.Stable t sets := by
  have hsnapshot (heq : g.sweepSnapshot t sets = sets) : g.Stable t sets := by
    intro v hv hvt x hx
    rwa [← heq, getD_sweepSnapshot h hv, if_neg hvt] at hx
  intro v hv hvt x hx
  cases mode with
  | inPlace =>
    have hkept : g.narrowAt t sets v = sets :=
      narrowAt_eq_of_foldl_eq h (fun v hv => mem_vertices.1 hv) heq (mem_vertices.2 hv)
    rwa [← hkept, getD_narrowAt h hv, if_pos ⟨rfl, hvt⟩] at hx
  | snapshot => exact hsnapshot heq v hv hvt x hx
  | parallelSnapshot => exact hsnapshot heq v hv hvt x hx

/-- The loop goes on exactly when a sweep has changed the size of some vertex's set. -/
theorem weight_sweep_lt_iff (h : g.Sound t sets) (mode : SweepMode) :
    weight (g.sweep mode t sets) < weight sets ↔
      ∃ v, ((g.sweep mode t sets).getD v ∅).card ≠ (sets.getD v ∅).card :=
  weight_lt_iff (sweep_below h mode)

/-- A sweep that keeps all sizes changes nothing. -/
theorem sweep_eq_of_not_lt (h : g.Sound t sets) {mode : SweepMode}
    (hquiet : ¬ weight (g.sweep mode t sets) < weight sets) : g.sweep mode t sets = sets := by
  have hbelow := sweep_below h mode
  rw [weight_sweep_lt_iff h, not_exists] at hquiet
  apply VertexTable.ext_getD ∅ hbelow.1
  intro v
  exact IdSet.eq_of_subset_of_card_le (hbelow.2 v)
    (Nat.le_of_eq (Decidable.of_not_not (hquiet v)).symm)

/-! ## The fixpoint -/

/-- In stable sets every member is necessary: along an edge it is passed on to the successor's set
until the route has visited it. -/
theorem Stable.necessary (hstable : g.Stable t sets) (h : g.Sound t sets)
    (hw : w ∈ sets.getD v ∅) : g.Necessary v t w := by
  intro p hp
  induction hp with
  | stay =>
    rw [h.target_only, IdSet.mem_singleton] at hw
    exact List.mem_singleton.2 hw
  | @step v u t p hvu hp ih =>
    by_cases hwv : w = v
    · exact hwv ▸ List.mem_cons_self
    · apply List.mem_cons_of_mem v
      apply ih hstable h
      have hvt : v ≠ t := by
        rintro rfl
        rw [h.target_only] at hw
        exact hwv (IdSet.mem_singleton.1 hw)
      have hmeet := hstable v (contains_of_successors_ne_nil (List.ne_nil_of_mem hvu)) hvt w hw
      obtain ⟨_, hall⟩ := (mem_meet.1 hmeet).resolve_left hwv
      -- a loop leads back to the same set, which no update asks for
      by_cases huv : u = v
      · exact huv ▸ hw
      · exact hall u hvu huv

/-- The sweeps end with sets that are stable and miss nothing. -/
theorem settle_stable (mode : SweepMode) (rounds : Nat) (h : g.Sound t sets) :
    (g.settle mode t sets rounds).value.target = t ∧
      g.Sound t (g.settle mode t sets rounds).value.sets ∧
      g.Stable t (g.settle mode t sets rounds).value.sets := by
  fun_induction settle g mode t sets rounds with
  | case1 sets rounds swept hlt ih => exact ih (h.sweep mode)
  | case2 sets rounds swept hquiet =>
    have hkept : swept = sets := sweep_eq_of_not_lt h hquiet
    exact ⟨rfl, hkept ▸ h, hkept ▸ stable_of_sweep_eq h hkept⟩

/-- The passage sets hold exactly the necessary vertices. -/
theorem mem_settle_iff (mode : SweepMode) (hreach : ∀ u, g.contains u = true → ∃ p, g.Route u t p)
    (ht : g.contains t = true) (hv : g.contains v = true) :
    w ∈ (g.settle mode t (g.initialSets t) 0).value.sets.getD v ∅ ↔ g.Necessary v t w := by
  obtain ⟨_, hsound, hstable⟩ := settle_stable mode 0 (Sound.initialSets ht)
  refine ⟨hstable.necessary hsound, fun hw => ?_⟩
  -- a necessary vertex lies on some route and so belongs to the graph
  obtain ⟨p, hp⟩ := hreach v hv
  obtain ⟨⟨q, hq, _⟩, _⟩ := hp.cut (hw p hp)
  exact hsound.necessary_mem v w hv hq.contains_target hw

theorem value_settle (g : FlowGraph) (mode : SweepMode) (t : VertexId)
    (sets : VertexTable VertexSet) (rounds : Nat) :
    (g.settle mode t sets rounds).value =
      if weight (g.sweep mode t sets) < weight sets then
        (g.settle mode t (g.sweep mode t sets) (rounds + 1)).value
      else ⟨t, g.sweep mode t sets, rounds + 1⟩ := by
  rw [settle]
  split <;> rfl

/-- Where the same sweeps are made, they are made in the same rounds. -/
theorem value_settle_congr {g' : FlowGraph} {mode mode' : SweepMode}
    (h : ∀ sets, g.sweep mode t sets = g'.sweep mode' t sets) (sets : VertexTable VertexSet)
    (rounds : Nat) :
    (g.settle mode t sets rounds).value = (g'.settle mode' t sets rounds).value := by
  fun_induction settle g mode t sets rounds with
  | case1 sets rounds swept hlt ih =>
    rw [value_settle g' mode', ← h, if_pos hlt]
    exact ih
  | case2 sets rounds swept hquiet =>
    rw [value_settle g' mode', ← h, if_neg hquiet]
    rfl

/-! ## Sweeps that note changes -/

theorem fst_narrowNoting (g : FlowGraph) (t : VertexId) (s : VertexTable VertexSet × Bool)
    (v : VertexId) : (g.narrowNoting t s v).1 = g.narrowAt t s.1 v := by
  unfold narrowNoting narrowAt
  split <;> rfl

theorem fst_foldl_narrowNoting (vs : List VertexId) (s : VertexTable VertexSet × Bool) :
    (vs.foldl (g.narrowNoting t) s).1 = vs.foldl (g.narrowAt t) s.1 := by
  induction vs generalizing s with
  | nil => rfl
  | cons v vs ih => rw [List.foldl_cons, ih, fst_narrowNoting, List.foldl_cons]

/-- An update is noted if the set has another size after it. -/
theorem snd_narrowNoting_iff {s : VertexTable VertexSet × Bool} (h : g.Sound t s.1)
    (hv : g.contains v = true) : (g.narrowNoting t s v).2 = true ↔
      s.2 = true ∨ ((g.narrowAt t s.1 v).getD v ∅).card ≠ (s.1.getD v ∅).card := by
  rw [getD_narrowAt h hv]
  by_cases hvt : v = t <;> simp [narrowNoting, hvt]

/-- The updates of other vertices leave a set alone. -/
theorem getD_foldl_narrowAt_of_not_mem {vs : List VertexId} (h : g.Sound t sets)
    (hvs : ∀ u ∈ vs, g.contains u = true) (hv : v ∉ vs) :
    (vs.foldl (g.narrowAt t) sets).getD v ∅ = sets.getD v ∅ := by
  induction vs generalizing sets with
  | nil => rfl
  | cons u vs ih =>
    obtain ⟨hu, hvs⟩ := List.forall_mem_cons.1 hvs
    rw [List.mem_cons, not_or] at hv
    rw [List.foldl_cons, ih (h.narrowAt hu) hvs hv.2, getD_narrowAt h hu,
      if_neg fun huv => hv.1 huv.1]

/-- As each vertex is updated once, it is noted whether some set has another size in the end. -/
theorem snd_foldl_narrowNoting_iff {vs : List VertexId} {s : VertexTable VertexSet × Bool}
    (h : g.Sound t s.1) (hvs : ∀ v ∈ vs, g.contains v = true) (hnodup : vs.Nodup) :
    (vs.foldl (g.narrowNoting t) s).2 = true ↔ s.2 = true ∨
      ∃ v ∈ vs, ((vs.foldl (g.narrowAt t) s.1).getD v ∅).card ≠ (s.1.getD v ∅).card := by
  induction vs generalizing s with
  | nil => simp
  | cons u vs ih =>
    obtain ⟨hu, hvs⟩ := List.forall_mem_cons.1 hvs
    obtain ⟨hnew, hnodup⟩ := List.nodup_cons.1 hnodup
    have hnext : g.Sound t (g.narrowAt t s.1 u) := h.narrowAt hu
    have hrest : ∀ v ∈ vs, (g.narrowAt t s.1 u).getD v ∅ = s.1.getD v ∅ := by
      intro v hv
      have hvu : v ≠ u := fun heq => hnew (heq ▸ hv)
      rw [getD_narrowAt h hu, if_neg fun hc => hvu hc.1]
    rw [List.foldl_cons, ih (by rwa [fst_narrowNoting]) hvs hnodup, snd_narrowNoting_iff h hu,
      fst_narrowNoting, List.foldl_cons, or_assoc]
    simp only [List.mem_cons, exists_eq_or_imp]
    rw [getD_foldl_narrowAt_of_not_mem hnext hvs hnew]
    refine or_congr_right (or_congr_right (exists_congr fun v => and_congr_right fun hv => ?_))
    rw [hrest v hv]

/-- Only vertices with a row have sets of different sizes in two tables of one size. -/
theorem exists_mem_vertices_iff {a b : VertexTable VertexSet} (h : b.size = a.size) :
    (∃ v ∈ a.vertices, (b.getD v ∅).card ≠ (a.getD v ∅).card) ↔
      ∃ v, (b.getD v ∅).card ≠ (a.getD v ∅).card := by
  refine ⟨fun ⟨v, _, hv⟩ => ⟨v, hv⟩, fun ⟨v, hv⟩ => ⟨v, ?_, hv⟩⟩
  rw [VertexTable.mem_vertices, ← Bool.not_eq_false]
  intro hrow
  rw [VertexTable.getD_eq_default hrow,
    VertexTable.getD_eq_default ((VertexTable.hasRow_congr h v).trans hrow)] at hv
  exact hv rfl

theorem resized_iff {a b : VertexTable VertexSet} (h : b.size = a.size) :
    resized a b = true ↔ ∃ v, (b.getD v ∅).card ≠ (a.getD v ∅).card := by
  rw [resized, ← a.map_getD_vertices ∅, ← b.map_getD_vertices ∅, VertexTable.vertices_congr h,
    List.zip_map', List.any_map, List.any_eq_true, ← exists_mem_vertices_iff h]
  simp only [Function.comp_apply, bne_iff_ne, ne_comm]

/-- The sets of a sweep do not depend on whether changes are noted. -/
theorem fst_sweepNoting (g : FlowGraph) (mode : SweepMode) (t : VertexId)
    (sets : VertexTable VertexSet) : (g.sweepNoting mode t sets).1 = g.sweep mode t sets := by
  cases mode with
  | inPlace => exact fst_foldl_narrowNoting g.vertices (sets, false)
  | snapshot | parallelSnapshot => rfl

/-- A sweep notes a change exactly when it makes the total size smaller. -/
theorem snd_sweepNoting_iff (h : g.Sound t sets) (mode : SweepMode) :
    (g.sweepNoting mode t sets).2 = true ↔ weight (g.sweep mode t sets) < weight sets := by
  have hsize := (sweep_below h mode).1
  rw [weight_sweep_lt_iff h]
  cases mode with
  | inPlace =>
    have hvertices : sets.vertices = g.vertices := VertexTable.vertices_congr h.size_eq
    have hnodup : g.vertices.Nodup := IdSet.nodup_of_ascending g.successorTable.pairwise_vertices
    rw [← exists_mem_vertices_iff hsize, hvertices]
    have hnoted := snd_foldl_narrowNoting_iff (s := (sets, false)) h
      (fun v hv => mem_vertices.1 hv) hnodup
    exact hnoted.trans (or_iff_right Bool.false_ne_true)
  | snapshot | parallelSnapshot => exact resized_iff hsize

/-- The sweeps from some sets on, each followed by another if it notes a change, with the sets and
the number of sweeps in the end. -/
inductive SweepsTo (g : FlowGraph) (mode : SweepMode) (t : VertexId) :
    VertexTable VertexSet → Nat → PassageSets → Prop where
  | quiet {sets : VertexTable VertexSet} {rounds : Nat}
      (h : (g.sweepNoting mode t sets).2 = false) :
      SweepsTo g mode t sets rounds ⟨t, (g.sweepNoting mode t sets).1, rounds + 1⟩
  | again {sets : VertexTable VertexSet} {rounds : Nat} {p : PassageSets}
      (h : (g.sweepNoting mode t sets).2 = true)
      (hrest : SweepsTo g mode t (g.sweepNoting mode t sets).1 (rounds + 1) p) :
      SweepsTo g mode t sets rounds p

/-- The loop that goes on as long as a sweep notes a change ends, with the same sets after the same
number of sweeps. -/
theorem sweepsTo_iff (h : g.Sound t sets) {mode : SweepMode} {rounds : Nat} {p : PassageSets} :
    g.SweepsTo mode t sets rounds p ↔ (g.settle mode t sets rounds).value = p := by
  constructor
  · intro hp
    induction hp with
    | @quiet sets rounds hquiet =>
      have hnot : ¬ weight (g.sweep mode t sets) < weight sets := by
        rw [← snd_sweepNoting_iff h, hquiet]
        exact Bool.false_ne_true
      rw [value_settle, if_neg hnot, fst_sweepNoting]
    | @again sets rounds p hagain _ ih =>
      rw [fst_sweepNoting] at ih
      rw [value_settle, if_pos ((snd_sweepNoting_iff h mode).1 hagain)]
      exact ih (h.sweep mode)
  · rintro rfl
    fun_induction settle g mode t sets rounds with
    | case1 sets rounds swept hlt ih =>
      refine .again ((snd_sweepNoting_iff h mode).2 hlt) ?_
      rw [fst_sweepNoting]
      exact ih (h.sweep mode)
    | case2 sets rounds swept hquiet =>
      have hnot : (g.sweepNoting mode t sets).2 = false :=
        Bool.eq_false_iff.2 (mt (snd_sweepNoting_iff h mode).1 hquiet)
      have hend := @SweepsTo.quiet g mode t sets rounds hnot
      rwa [fst_sweepNoting] at hend

end FlowGraph

end FlowRegions
