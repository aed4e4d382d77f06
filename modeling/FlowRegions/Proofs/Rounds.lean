import FlowRegions.Proofs.Configuration
import Mathlib.Order.Bounds.Basic

/-!
# How many rounds the sweeps take

After `k` sweeps with independent updates a vertex is missing from a set exactly when a route of at
most `k` edges avoids it (`mem_setsAfter_iff`). So a sweep is quiet when no detour, taken as short
as possible, is one edge longer than all before (`setsAfter_succ_eq_iff`), and as the rest of a
shortest detour is one itself (`pred_mem_detourLengths`), no sweep is quiet too early: the rounds
are one more than the longest of the shortest detours (`isGreatest_of_isLeast`). Sweeps in place
are ahead of them at every moment (`setsAfter_inPlace_below`) and have the same limit. A shortest
detour comes to no vertex twice and leaves one out, which bounds all rounds by the number of
vertices (`length_le_of_mem_detourLengths`).
-/

namespace FlowRegions

open Log

namespace FlowGraph

variable {g : FlowGraph} {t v w : VertexId} {sets : VertexTable VertexSet} {mode : SweepMode}
variable {d k n : Nat}

/-! ## Detours -/

/-- Some route of `k` edges from `v` to `t` does not visit `w`. -/
def Detour (g : FlowGraph) (w v t : VertexId) (k : Nat) : Prop :=
  ∃ p, g.Route v t p ∧ w ∉ p ∧ p.length = k + 1

/-- The numbers of edges of the shortest routes to `t` that avoid a vertex, one for each vertex to
begin with and each vertex to avoid, if there is such a route. -/
def detourLengths (g : FlowGraph) (t : VertexId) : Set Nat :=
  {k | ∃ v w, g.contains v = true ∧ g.contains w = true ∧ IsLeast {k | g.Detour w v t k} k}

theorem detour_zero : g.Detour w v t 0 ↔ g.contains v = true ∧ v = t ∧ w ≠ v := by
  constructor
  · rintro ⟨p, hp, hw, hlen⟩
    cases hp with
    | stay hv => exact ⟨hv, rfl, fun h => hw (List.mem_singleton.2 h)⟩
    | step _ hp => cases hp <;> simp at hlen
  · rintro ⟨hv, rfl, hw⟩
    exact ⟨[v], .stay hv, fun h => hw (List.mem_singleton.1 h), rfl⟩

theorem detour_succ :
    g.Detour w v t (k + 1) ↔ w ≠ v ∧ ∃ u ∈ g.successors v, g.Detour w u t k := by
  constructor
  · rintro ⟨p, hp, hw, hlen⟩
    cases hp with
    | stay => simp at hlen
    | @step v u t p hvu hp =>
      rw [List.mem_cons, not_or] at hw
      exact ⟨hw.1, u, hvu, p, hp, hw.2, by simpa using hlen⟩
  · rintro ⟨hwv, u, hvu, p, hp, hw, hlen⟩
    exact ⟨v :: p, .step hvu hp, List.not_mem_cons_of_ne_of_not_mem hwv hw, by simp [hlen]⟩

/-- The target bypasses every other vertex where it stands. -/
theorem detour_self (ht : g.contains t = true) : (∀ j ≤ k, ¬ g.Detour w t t j) ↔ w = t := by
  constructor
  · intro h
    by_contra hwt
    exact h 0 (Nat.zero_le k) (detour_zero.2 ⟨ht, rfl, hwt⟩)
  · rintro rfl j - ⟨p, hp, hw, _⟩
    exact hw hp.source_mem

/-- Behind its first edge, a shortest detour is a shortest detour. -/
theorem exists_isLeast_of_succ (h : IsLeast {k | g.Detour w v t k} (k + 1)) :
    ∃ u ∈ g.successors v, IsLeast {k | g.Detour w u t k} k := by
  obtain ⟨hwv, u, hvu, hu⟩ := detour_succ.1 h.1
  refine ⟨u, hvu, hu, fun j hj => ?_⟩
  have hle : k + 1 ≤ j + 1 := h.2 (detour_succ.2 ⟨hwv, u, hvu, hj⟩)
  exact Nat.le_of_succ_le_succ hle

/-- The lengths of shortest detours leave out no smaller number. -/
theorem pred_mem_detourLengths (h : k + 1 ∈ g.detourLengths t) : k ∈ g.detourLengths t := by
  obtain ⟨v, w, _, hw, hleast⟩ := h
  obtain ⟨u, hvu, hu⟩ := exists_isLeast_of_succ hleast
  exact ⟨u, w, contains_of_mem_successors hvu, hw, hu⟩

theorem mem_detourLengths_of_le (h : n ∈ g.detourLengths t) (hk : k ≤ n) :
    k ∈ g.detourLengths t := by
  induction hk with
  | refl => exact h
  | step _ ih => exact ih (pred_mem_detourLengths h)

/-- A shortest detour comes to vertices at different distances, and to none twice. -/
theorem exists_nodup_of_isLeast (h : IsLeast {k | g.Detour w v t k} k) :
    ∃ l : List VertexId, l.Nodup ∧ l.length = k + 1 ∧
      ∀ u ∈ l, g.contains u = true ∧ u ≠ w ∧ ∃ j ≤ k, g.Detour w u t j := by
  induction k generalizing v with
  | zero =>
    obtain ⟨hv, _, hwv⟩ := detour_zero.1 h.1
    refine ⟨[v], List.nodup_singleton v, rfl, fun u hu => ?_⟩
    obtain rfl := List.mem_singleton.1 hu
    exact ⟨hv, Ne.symm hwv, 0, Nat.le_refl 0, h.1⟩
  | succ k ih =>
    obtain ⟨u, hvu, hu⟩ := exists_isLeast_of_succ h
    obtain ⟨l, hnodup, hlen, hl⟩ := ih hu
    -- everything on the rest of the way is nearer to the target than the first vertex
    have hnew : v ∉ l := by
      intro hv
      obtain ⟨_, _, j, hj, hdetour⟩ := hl v hv
      have hle : k + 1 ≤ j := h.2 hdetour
      omega
    refine ⟨v :: l, List.nodup_cons.2 ⟨hnew, hnodup⟩, by simp [hlen], fun x hx => ?_⟩
    rcases List.mem_cons.1 hx with rfl | hx
    · exact ⟨contains_of_successors_ne_nil (List.ne_nil_of_mem hvu),
        Ne.symm (detour_succ.1 h.1).1, k + 1, Nat.le_refl _, h.1⟩
    · obtain ⟨hcx, hxw, j, hj, hdetour⟩ := hl x hx
      exact ⟨hcx, hxw, j, Nat.le_succ_of_le hj, hdetour⟩

/-- A shortest detour visits one vertex more than it has edges and leaves one out. -/
theorem length_le_of_mem_detourLengths (h : k ∈ g.detourLengths t) : k + 2 ≤ g.vertexCount := by
  obtain ⟨v, w, _, hw, hleast⟩ := h
  obtain ⟨l, hnodup, hlen, hl⟩ := exists_nodup_of_isLeast hleast
  have hnodup' : (w :: l).Nodup := List.nodup_cons.2 ⟨fun hwl => (hl w hwl).2.1 rfl, hnodup⟩
  have hsub : w :: l ⊆ g.vertices := by
    intro u hu
    rcases List.mem_cons.1 hu with rfl | hu
    · exact mem_vertices.2 hw
    · exact mem_vertices.2 (hl u hu).1
  have hle := (hnodup'.subperm hsub).length_le
  rwa [List.length_cons, hlen, vertices, VertexTable.length_vertices] at hle

/-! ## The sets after a number of sweeps -/

/-- The sets after the first `k` sweeps. -/
def setsAfter (g : FlowGraph) (mode : SweepMode) (t : VertexId) (k : Nat) :
    VertexTable VertexSet :=
  (g.sweep mode t)^[k] (g.initialSets t)

theorem setsAfter_zero (mode : SweepMode) (t : VertexId) :
    g.setsAfter mode t 0 = g.initialSets t := rfl

theorem setsAfter_succ (mode : SweepMode) (t : VertexId) (k : Nat) :
    g.setsAfter mode t (k + 1) = g.sweep mode t (g.setsAfter mode t k) :=
  Function.iterate_succ_apply' _ _ _

theorem Sound.setsAfter (ht : g.contains t = true) (mode : SweepMode) (k : Nat) :
    g.Sound t (g.setsAfter mode t k) := by
  induction k with
  | zero => exact .initialSets ht
  | succ k ih =>
    rw [setsAfter_succ]
    exact ih.sweep mode

theorem setsAfter_succ_below (ht : g.contains t = true) (mode : SweepMode) (k : Nat) :
    Below (g.setsAfter mode t (k + 1)) (g.setsAfter mode t k) := by
  rw [setsAfter_succ]
  exact sweep_below (.setsAfter ht mode k) mode

/-- A vertex that is in a set belongs to the graph, and so does the vertex whose set it is. -/
theorem contains_of_mem_setsAfter (ht : g.contains t = true)
    (hw : w ∈ (g.setsAfter mode t k).getD v ∅) : g.contains v = true ∧ g.contains w = true := by
  induction k with
  | zero =>
    have hv := (Sound.initialSets ht).contains_of_mem hw
    rw [setsAfter_zero, getD_initialSets hv] at hw
    refine ⟨hv, ?_⟩
    split at hw
    · exact IdSet.mem_singleton.1 hw ▸ ht
    · exact mem_vertexSet.1 hw
  | succ k ih => exact ih ((setsAfter_succ_below ht mode k).2 v w hw)

/-- The sweeps end with the first one that is quiet. -/
theorem rounds_settle (h : g.Sound t sets) (mode : SweepMode) (n : Nat) :
    ∃ k, IsLeast {k | (g.sweep mode t)^[k + 1] sets = (g.sweep mode t)^[k] sets} k ∧
      (g.settle mode t sets n).value.rounds = n + (k + 1) := by
  fun_induction settle g mode t sets n with
  | case1 sets n swept hlt ih =>
    obtain ⟨k, ⟨hquiet, hleast⟩, hrounds⟩ := ih (h.sweep mode)
    refine ⟨k + 1, ⟨hquiet, fun j hj => ?_⟩, ?_⟩
    · cases j with
      | zero =>
        -- a sweep that loses weight has changed the sets
        have hkept : swept = sets := hj
        rw [hkept] at hlt
        exact absurd hlt (Nat.lt_irrefl _)
      | succ j => exact Nat.succ_le_succ (hleast hj)
    · show (g.settle mode t swept (n + 1)).value.rounds = n + (k + 1 + 1)
      rw [hrounds]
      omega
  | case2 sets n swept hquiet =>
    exact ⟨0, ⟨sweep_eq_of_not_lt h hquiet, fun j _ => Nat.zero_le j⟩, rfl⟩

/-! ## Independent updates -/

/-- After `k` sweeps with independent updates, what is missing is avoided by a route of at most `k`
edges. -/
theorem mem_setsAfter_iff (hmode : mode ≠ .inPlace) (ht : g.contains t = true)
    (hv : g.contains v = true) (hw : g.contains w = true) :
    w ∈ (g.setsAfter mode t k).getD v ∅ ↔ ∀ j ≤ k, ¬ g.Detour w v t j := by
  induction k generalizing v with
  | zero =>
    rw [setsAfter_zero, getD_initialSets hv]
    by_cases hvt : v = t
    · subst hvt
      rw [if_pos rfl, IdSet.mem_singleton, detour_self hv]
    · simp [hvt, hw, detour_zero]
  | succ k ih =>
    rw [setsAfter_succ, sweep_eq_sweepSnapshot hmode, getD_sweepSnapshot (.setsAfter ht mode k) hv]
    by_cases hvt : v = t
    · subst hvt
      rw [if_pos rfl, (Sound.setsAfter hv mode k).target_only, IdSet.mem_singleton, detour_self hv]
    · rw [if_neg hvt, mem_meet, ih hv]
      constructor
      · rintro hmem j hj hdetour
        cases j with
        | zero => exact hvt (detour_zero.1 hdetour).2.1
        | succ j =>
          obtain ⟨hwv, u, hvu, hu⟩ := detour_succ.1 hdetour
          have hjk : j ≤ k := Nat.le_of_succ_le_succ hj
          obtain ⟨hown, hothers⟩ := hmem.resolve_left hwv
          -- a loop does not help the detour
          by_cases huv : u = v
          · exact hown j hjk (huv ▸ hu)
          · exact (ih (contains_of_mem_successors hvu)).1 (hothers u hvu huv) j hjk hu
      · intro hnone
        by_cases hwv : w = v
        · exact .inl hwv
        · refine .inr ⟨fun j hj => hnone j (Nat.le_succ_of_le hj), fun u hvu _ => ?_⟩
          rw [ih (contains_of_mem_successors hvu)]
          intro j hj hu
          exact hnone (j + 1) (Nat.succ_le_succ hj) (detour_succ.2 ⟨hwv, u, hvu, hu⟩)

/-- A sweep is quiet exactly when no shortest detour has as many edges as sweeps have been made. -/
theorem setsAfter_succ_eq_iff (hmode : mode ≠ .inPlace) (ht : g.contains t = true) :
    g.setsAfter mode t (k + 1) = g.setsAfter mode t k ↔ k + 1 ∉ g.detourLengths t := by
  constructor
  · rintro heq ⟨v, w, hv, hw, hdetour, hleast⟩
    have hmem : w ∈ (g.setsAfter mode t k).getD v ∅ := by
      rw [mem_setsAfter_iff hmode ht hv hw]
      intro j hj hshort
      have hle : k + 1 ≤ j := hleast hshort
      omega
    rw [← heq, mem_setsAfter_iff hmode ht hv hw] at hmem
    exact hmem (k + 1) (Nat.le_refl _) hdetour
  · intro hnone
    refine (setsAfter_succ_below ht mode k).antisymm ⟨?_, fun v w hw => ?_⟩
    · rw [(Sound.setsAfter ht mode k).size_eq, (Sound.setsAfter ht mode (k + 1)).size_eq]
    · obtain ⟨hv, hcw⟩ := contains_of_mem_setsAfter ht hw
      rw [mem_setsAfter_iff hmode ht hv hcw] at hw ⊢
      -- a detour that is still missing would be a shortest one
      intro j hj hdetour
      rcases Nat.le_or_eq_of_le_succ hj with hj | rfl
      · exact hw j hj hdetour
      · refine hnone ⟨v, w, hv, hcw, hdetour, fun i hi => ?_⟩
        by_contra hlt
        exact hw i (by omega) hi

/-- The first quiet sweep with independent updates tells the longest of the shortest detours. -/
theorem isGreatest_of_isLeast (hmode : mode ≠ .inPlace) (ht : g.contains t = true)
    (h : IsLeast {k | g.setsAfter mode t (k + 1) = g.setsAfter mode t k} d) :
    IsGreatest (insert 0 (g.detourLengths t)) d := by
  have hquiet : d + 1 ∉ g.detourLengths t := (setsAfter_succ_eq_iff hmode ht).1 h.1
  constructor
  · cases d with
    | zero => exact .inl rfl
    | succ d =>
      refine .inr ?_
      by_contra hnone
      have hle : d + 1 ≤ d := h.2 ((setsAfter_succ_eq_iff hmode ht).2 hnone)
      omega
  · rintro k (rfl | hk)
    · exact Nat.zero_le d
    · by_contra hlt
      exact hquiet (mem_detourLengths_of_le hk (by omega))

/-! ## Sweeps in place -/

/-- Smaller sets have smaller updates. -/
theorem meet_mono {a b : VertexTable VertexSet} (h : Below a b) (v : VertexId) :
    g.meet a v ⊆ g.meet b v := by
  intro w hw
  rw [mem_meet] at hw ⊢
  exact hw.imp_right fun ⟨hown, hothers⟩ =>
    ⟨h.2 v w hown, fun u hu huv => h.2 u w (hothers u hu huv)⟩

/-- Whichever updates come before and after in a sweep in place, a vertex's set gets as small as
from the sets before the sweep. -/
theorem foldl_narrowAt_subset_meet {vs : List VertexId} {others : VertexTable VertexSet}
    (h : g.Sound t sets) (hvs : ∀ v ∈ vs, g.contains v = true) (hbelow : Below sets others)
    (hv : v ∈ vs) (hvt : v ≠ t) :
    (vs.foldl (g.narrowAt t) sets).getD v ∅ ⊆ g.meet others v := by
  induction vs generalizing sets with
  | nil => cases hv
  | cons u vs ih =>
    obtain ⟨hu, hrest⟩ := List.forall_mem_cons.1 hvs
    rw [List.foldl_cons]
    by_cases hvu : v = u
    · subst hvu
      intro w hw
      have hw := (foldl_narrowAt_below (h.narrowAt hu) hrest).2 v w hw
      rw [getD_narrowAt h hu, if_pos ⟨rfl, hvt⟩] at hw
      exact meet_mono hbelow v w hw
    · exact ih (h.narrowAt hu) hrest ((narrowAt_below h hu).trans hbelow)
        ((List.mem_cons.1 hv).resolve_left hvu)

/-- A sweep in place narrows at least as much as independent updates. -/
theorem sweep_inPlace_below {others : VertexTable VertexSet} (h : g.Sound t sets)
    (h' : g.Sound t others) (hbelow : Below sets others) :
    Below (g.sweep .inPlace t sets) (g.sweepSnapshot t others) := by
  have hsound : g.Sound t (g.sweepSnapshot t others) := h'.sweep .snapshot
  refine ⟨(h.sweep .inPlace).size_eq.trans hsound.size_eq.symm, fun v w hw => ?_⟩
  have hv := (h.sweep .inPlace).contains_of_mem hw
  rw [getD_sweepSnapshot h' hv]
  split
  · exact hbelow.2 v w ((sweep_below h .inPlace).2 v w hw)
  · next hvt =>
    exact foldl_narrowAt_subset_meet h (fun v hv => mem_vertices.1 hv) hbelow
      (mem_vertices.2 hv) hvt w hw

/-- At every moment sweeps in place are ahead. -/
theorem setsAfter_inPlace_below (ht : g.contains t = true) (k : Nat) :
    Below (g.setsAfter .inPlace t k) (g.setsAfter .snapshot t k) := by
  induction k with
  | zero => exact Below.refl _
  | succ k ih =>
    rw [setsAfter_succ, setsAfter_succ]
    exact sweep_inPlace_below (.setsAfter ht _ k) (.setsAfter ht _ k) ih

/-- Where independent updates have come to rest, sweeps in place have too: nothing that is left can
still be missing. -/
theorem setsAfter_inPlace_eq (ht : g.contains t = true)
    (hquiet : g.setsAfter .snapshot t (k + 1) = g.setsAfter .snapshot t k) :
    g.setsAfter .inPlace t (k + 1) = g.setsAfter .inPlace t k := by
  have hsound := Sound.setsAfter (g := g) ht .inPlace (k + 1)
  have hlimit := Sound.setsAfter (g := g) ht .snapshot k
  have hstable : g.Stable t (g.setsAfter .snapshot t k) := by
    rw [setsAfter_succ] at hquiet
    exact stable_of_sweep_eq hlimit hquiet
  have hfull : Below (g.setsAfter .snapshot t k) (g.setsAfter .inPlace t (k + 1)) := by
    refine ⟨hlimit.size_eq.trans hsound.size_eq.symm, fun v w hw => ?_⟩
    obtain ⟨hv, hcw⟩ := contains_of_mem_setsAfter ht hw
    exact hsound.necessary_mem v w hv hcw (hstable.necessary hlimit hw)
  exact (setsAfter_succ_below ht .inPlace k).antisymm ((setsAfter_inPlace_below ht k).trans hfull)

/-! ## The number of rounds -/

/-- The rounds of an analysis are one more than the sweeps before the first quiet one. -/
theorem exists_rounds (ht : g.contains t = true)
    (hreach : ∀ v, g.contains v = true → ∃ p, g.Route v t p) (mode : SweepMode) :
    ∃ sets k, (g.passageSets t mode).run.value = .ok sets ∧
      IsLeast {k | g.setsAfter mode t (k + 1) = g.setsAfter mode t k} k ∧ sets.rounds = 1 + k := by
  obtain ⟨k, hleast, hrounds⟩ := rounds_settle (Sound.initialSets ht) mode 0
  refine ⟨_, k, passageSets_of_reaching ht hreach mode, hleast, ?_⟩
  rw [hrounds]
  omega

/-- Sweeps with independent updates take one round more than the longest of the shortest routes to
the target that avoid some vertex has edges, and sweeps in place never take more. So in every mode
the rounds number less than the vertices, unless there is only one round. -/
theorem rounds_follow_longest_detour (g : FlowGraph) (t : VertexId) (ht : g.contains t = true)
    (hreach : ∀ v, g.contains v = true → ∃ p, g.Route v t p) :
    ∃ d, IsGreatest (insert 0 (g.detourLengths t)) d ∧
      ∀ mode, ∃ sets, (g.passageSets t mode).run.value = .ok sets ∧
        (mode ≠ .inPlace → sets.rounds = 1 + d) ∧
        (1 ≤ sets.rounds ∧ sets.rounds ≤ 1 + d) ∧
        sets.rounds ≤ max 1 (g.vertexCount - 1) ∧ sets.rounds ≤ g.vertexCount := by
  obtain ⟨_, d, _, hleast, _⟩ := exists_rounds ht hreach .snapshot
  have hgreatest := isGreatest_of_isLeast (by decide) ht hleast
  have hbound : 1 + d ≤ max 1 (g.vertexCount - 1) := by
    rcases hgreatest.1 with rfl | hd
    · exact Nat.le_max_left _ _
    · have hlen := length_le_of_mem_detourLengths hd
      omega
  have hcount : 1 ≤ g.vertexCount := by
    have hpos := List.length_pos_of_mem (mem_vertices.2 ht)
    rwa [vertices, VertexTable.length_vertices] at hpos
  refine ⟨d, hgreatest, fun mode => ?_⟩
  obtain ⟨sets, k, hsets, hquiet, hrounds⟩ := exists_rounds ht hreach mode
  have hkd : k ≤ d ∧ (mode ≠ .inPlace → k = d) := by
    by_cases hmode : mode = .inPlace
    · subst hmode
      exact ⟨hquiet.2 (setsAfter_inPlace_eq ht hleast.1), fun h => absurd rfl h⟩
    · have heq : k = d := (isGreatest_of_isLeast hmode ht hquiet).unique hgreatest
      exact ⟨Nat.le_of_eq heq, fun _ => heq⟩
  refine ⟨sets, hsets, fun hmode => ?_, ⟨?_, ?_⟩, ?_, ?_⟩
  · rw [hrounds, hkd.2 hmode]
  all_goals omega

/-- Towards the dominators of a line with an edge back, independent updates take as many rounds as
the bound allows, sweeps in place two. -/
theorem rounds_up_step_back :
    ∃ p p', (stepBack.transpose.passageSets ⟨0⟩ .snapshot).run.value = .ok p ∧
      (stepBack.transpose.passageSets ⟨0⟩ .inPlace).run.value = .ok p' ∧
      p.rounds = 4 ∧ p'.rounds = 2 ∧ stepBack.transpose.vertexCount = 5 ∧
      IsGreatest (insert 0 (stepBack.transpose.detourLengths ⟨0⟩)) 3 := by
  obtain ⟨p, hp, hrounds⟩ : ∃ p,
      (stepBack.transpose.passageSets ⟨0⟩ .snapshot).run.value = .ok p ∧ p.rounds = 4 :=
    ⟨(stepBack.transpose.passageSets ⟨0⟩ .snapshot).run.value.toOption.get (by decide +kernel),
      by decide +kernel, by decide +kernel⟩
  obtain ⟨p', hp', hrounds'⟩ : ∃ p,
      (stepBack.transpose.passageSets ⟨0⟩ .inPlace).run.value = .ok p ∧ p.rounds = 2 :=
    ⟨(stepBack.transpose.passageSets ⟨0⟩ .inPlace).run.value.toOption.get (by decide +kernel),
      by decide +kernel, by decide +kernel⟩
  obtain ⟨ht, hreach⟩ := exists_passageSets_iff.1 ⟨p, hp⟩
  obtain ⟨d, hd, hall⟩ := rounds_follow_longest_detour stepBack.transpose ⟨0⟩ ht hreach
  obtain ⟨sets, hsets, hlast, _⟩ := hall .snapshot
  obtain rfl : p = sets := Except.ok.inj (hp.symm.trans hsets)
  have hdist : d = 3 := by
    have hsum := hlast (by decide)
    omega
  exact ⟨p, p', hp, hp', hrounds, hrounds', by decide +kernel, hdist ▸ hd⟩

end FlowGraph

end FlowRegions
