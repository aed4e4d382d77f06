import FlowRegions.Nesting.Construction
import FlowRegions.Proofs.Registry

/-!
# The construction of a tree, vertex by vertex

The construction resumes whole walks. For what holds at every moment of it, `Step` cuts it into the
single vertices that the walk on top of the stack takes from its queue, and says all that can happen
to one of them; what the stack becomes is one of three things (`Step.progress`). Steps do not change
the tree that comes out (`Step.run_eq`), and they lead to it (`run_reached`).

`Passes` collects the states that the construction of a registry's tree goes through. What holds of
all of them holds of the tree (`passes_of_nest`), and what a vertex hands on to those that a walk
queues because of it holds of all queues (`Passes.forall_queued`).
-/

namespace FlowRegions

open Log Relation

namespace Walk

variable {g : FlowGraph} {r : HammockRegistry} {attached : HammockSet} {w : Walk} {v : VertexId}
variable {rest : List VertexId} {c : HammockId}

/-- The walk after it has taken the first vertex of its queue. -/
def dequeued (w : Walk) (rest : List VertexId) : Walk := ⟨w.host, rest, w.visited⟩

theorem advance_of_nil (hq : w.queue = []) : w.advance g r attached = none := by
  unfold advance
  split
  · rfl
  · next h => simp [hq] at h

theorem advance_of_cons (hq : w.queue = v :: rest) :
    w.advance g r attached =
      if r.isExit w.host v then (w.dequeued rest).advance g r attached
      else
        match r.largestBelow? v (r.sizeOf w.host) with
        | some c =>
          if c ∈ attached then ((w.dequeued rest).enqueueExit r c).advance g r attached
          else some (c, (w.dequeued rest).enqueueExit r c)
        | none => ((g.successors v).foldl enqueue (w.dequeued rest)).advance g r attached := by
  rw [advance]
  split
  · next h => simp [hq] at h
  · next u rest' h =>
    obtain ⟨rfl, rfl⟩ : v = u ∧ rest = rest' := by simpa [hq] using h
    rfl

/-! ## Queues -/

theorem mem_visited_enqueue {u : VertexId} :
    u ∈ (w.enqueue v).visited ↔ u = v ∨ u ∈ w.visited := by
  unfold enqueue
  split
  · next hv =>
    constructor
    · exact .inr
    · rintro (rfl | hu)
      · exact hv
      · exact hu
  · exact IdSet.mem_insert

theorem mem_queue_enqueue {u : VertexId} :
    u ∈ (w.enqueue v).queue ↔ u ∈ w.queue ∨ (u = v ∧ u ∉ w.visited) := by
  unfold enqueue
  split
  · next hv =>
    refine ⟨.inl, fun h => h.resolve_right ?_⟩
    rintro ⟨rfl, hu⟩
    exact hu hv
  · next hv =>
    rw [List.mem_append, List.mem_singleton]
    refine or_congr_right ⟨fun hu => ⟨hu, hu ▸ hv⟩, And.left⟩

theorem mem_visited_foldl_enqueue {vs : List VertexId} {u : VertexId} :
    u ∈ (vs.foldl enqueue w).visited ↔ u ∈ vs ∨ u ∈ w.visited := by
  induction vs generalizing w with
  | nil => simp
  | cons v vs ih =>
    rw [List.foldl_cons, ih, mem_visited_enqueue, List.mem_cons]
    tauto

theorem mem_queue_foldl_enqueue {vs : List VertexId} {u : VertexId} :
    u ∈ (vs.foldl enqueue w).queue ↔ u ∈ w.queue ∨ (u ∈ vs ∧ u ∉ w.visited) := by
  induction vs generalizing w with
  | nil => simp
  | cons v vs ih =>
    rw [List.foldl_cons, ih, mem_queue_enqueue, mem_visited_enqueue, List.mem_cons]
    tauto

theorem enqueueExit_of_get? {x : Hammock} (hx : r.get? c = some x) :
    w.enqueueExit r c = w.enqueue x.exit := by
  rw [enqueueExit, hx]

/-- A walk begins at the entry of its hammock. -/
theorem begin_of_get? {x : Hammock} (hx : r.get? c = some x) :
    begin r c = ⟨c, [x.entry], {x.entry}⟩ := by
  have hempty : x.entry ∉ (∅ : VertexSet) := IdSet.not_mem_empty _
  simp only [begin, hx]
  rw [enqueue, if_neg hempty]
  rfl

end Walk

namespace Construction

variable {g : FlowGraph} {t : HammockTree} {w : Walk} {below : List Walk} {s s' : Construction}

/-- What happens when the walk on top of the stack takes the next vertex from its queue. -/
inductive Step (g : FlowGraph) : Construction → Construction → Prop where
  /-- There is no vertex left, and the walk is over. -/
  | finish {t : HammockTree} {w : Walk} {below : List Walk} (hq : w.queue = []) :
      Step g ⟨t, w :: below⟩ ⟨t.linkSiblings w.host, below⟩
  /-- The vertex is the exit of the walk's own hammock. -/
  | stop {t : HammockTree} {w : Walk} {below : List Walk} {v : VertexId} {rest : List VertexId}
      (hq : w.queue = v :: rest) (hexit : t.registry.isExit w.host v = true) :
      Step g ⟨t, w :: below⟩ ⟨t, w.dequeued rest :: below⟩
  /-- A smaller hammock starts at the vertex and has been attached before. -/
  | jump {t : HammockTree} {w : Walk} {below : List Walk} {v : VertexId} {rest : List VertexId}
      {c : HammockId} (hq : w.queue = v :: rest) (hexit : ¬ t.registry.isExit w.host v = true)
      (hc : t.registry.largestBelow? v (t.registry.sizeOf w.host) = some c)
      (hatt : c ∈ t.attached) :
      Step g ⟨t, w :: below⟩ ⟨t, (w.dequeued rest).enqueueExit t.registry c :: below⟩
  /-- A smaller hammock starts at the vertex and becomes a child; its own walk begins. -/
  | nest {t : HammockTree} {w : Walk} {below : List Walk} {v : VertexId} {rest : List VertexId}
      {c : HammockId} (hq : w.queue = v :: rest) (hexit : ¬ t.registry.isExit w.host v = true)
      (hc : t.registry.largestBelow? v (t.registry.sizeOf w.host) = some c)
      (hnew : c ∉ t.attached) :
      Step g ⟨t, w :: below⟩
        ⟨t.attach c w.host (HammockRegistry.sizeOf_lt_of_largestBelow? hc),
          .begin t.registry c :: (w.dequeued rest).enqueueExit t.registry c :: below⟩
  /-- No smaller hammock starts at the vertex, and the walk goes on to its successors. -/
  | spread {t : HammockTree} {w : Walk} {below : List Walk} {v : VertexId} {rest : List VertexId}
      (hq : w.queue = v :: rest) (hexit : ¬ t.registry.isExit w.host v = true)
      (hc : t.registry.largestBelow? v (t.registry.sizeOf w.host) = none) :
      Step g ⟨t, w :: below⟩ ⟨t, (g.successors v).foldl Walk.enqueue (w.dequeued rest) :: below⟩

/-- What a step makes of the stack: it takes a walk off that is over, or the walk on top takes a
vertex and queues others, and then the walk of a hammock that has not been attached may go on
top. -/
inductive Progress : Construction → Construction → Prop where
  | ended {t : HammockTree} {w : Walk} {below : List Walk} (hq : w.queue = []) :
      Progress ⟨t, w :: below⟩ ⟨t.linkSiblings w.host, below⟩
  | onward {t : HammockTree} {w : Walk} {below : List Walk} {v : VertexId} {rest : List VertexId}
      (hq : w.queue = v :: rest) (l : List VertexId) :
      Progress ⟨t, w :: below⟩ ⟨t, l.foldl Walk.enqueue (w.dequeued rest) :: below⟩
  | nest {t : HammockTree} {w : Walk} {below : List Walk} {v : VertexId} {rest : List VertexId}
      {c : HammockId} {y : Hammock} (hq : w.queue = v :: rest) (l : List VertexId)
      (hnew : c ∉ t.attached) (hy : t.registry.get? c = some y)
      (hsize : t.registry.sizeOf c < t.registry.sizeOf w.host) :
      Progress ⟨t, w :: below⟩ ⟨t.attach c w.host hsize,
        .begin t.registry c :: l.foldl Walk.enqueue (w.dequeued rest) :: below⟩

theorem Step.progress (h : Step g s s') : Progress s s' := by
  cases h with
  | finish hq => exact .ended hq
  | stop hq hexit => exact .onward hq []
  | jump hq hexit hc hatt =>
    obtain ⟨y, hy, _⟩ := HammockRegistry.exists_get?_of_largestBelow? hc
    rw [Walk.enqueueExit_of_get? hy]
    exact .onward hq [y.exit]
  | nest hq hexit hc hnew =>
    obtain ⟨y, hy, _⟩ := HammockRegistry.exists_get?_of_largestBelow? hc
    rw [Walk.enqueueExit_of_get? hy]
    exact .nest hq [y.exit] hnew hy _
  | @spread _ _ _ v _ hq hexit hc => exact .onward hq (g.successors v)

/-! ## Steps and resumed walks -/

theorem resume_eq_of_none (h : w.advance g t.registry t.attached = none) :
    resume g t w below = ⟨⟨t.linkSiblings w.host, below⟩, []⟩ := by
  unfold resume
  split
  · next c w' h' => simp [h] at h'
  · rfl

theorem resume_eq_of_some {c : HammockId} {w' : Walk}
    (h : w.advance g t.registry t.attached = some (c, w')) :
    resume g t w below =
      ⟨⟨t.attach c w.host (Walk.of_advance h).2.1, .begin t.registry c :: w' :: below⟩,
        [.nested c w.host]⟩ := by
  unfold resume
  split
  · next d u h' =>
    obtain ⟨rfl, rfl⟩ : c = d ∧ w' = u := by simpa [h] using h'
    rfl
  · next h' => simp [h] at h'

theorem resume_of_none (h : w.advance g t.registry t.attached = none) :
    (resume g t w below).value = ⟨t.linkSiblings w.host, below⟩ :=
  congrArg Logged.value (resume_eq_of_none h)

theorem resume_of_some {c : HammockId} {w' : Walk}
    (h : w.advance g t.registry t.attached = some (c, w')) :
    (resume g t w below).value =
      ⟨t.attach c w.host (Walk.of_advance h).2.1, .begin t.registry c :: w' :: below⟩ :=
  congrArg Logged.value (resume_eq_of_some h)

/-- A walk resumes to the same state as the rest of it. -/
theorem resume_congr {w' : Walk} (hhost : w'.host = w.host)
    (h : w'.advance g t.registry t.attached = w.advance g t.registry t.attached) :
    (resume g t w' below).value = (resume g t w below).value := by
  cases hw : w.advance g t.registry t.attached with
  | none => rw [resume_of_none hw, resume_of_none (h.trans hw), hhost]
  | some p =>
    obtain ⟨c, u⟩ := p
    rw [resume_of_some hw, resume_of_some (h.trans hw)]
    simp only [hhost]

theorem value_run_nil : (run g ⟨t, []⟩).value = t := by
  rw [run]
  rfl

theorem value_run_cons :
    (run g ⟨t, w :: below⟩).value = (run g (resume g t w below).value).value := by
  rw [run]

/-- A step is all that the resumed walk does, or the rest of the walk resumes to the same state. -/
theorem Step.resumes (h : Step g ⟨t, w :: below⟩ s') :
    s' = (resume g t w below).value ∨
      ∃ w', s' = ⟨t, w' :: below⟩ ∧ w'.pending < w.pending ∧
        (resume g t w' below).value = (resume g t w below).value := by
  cases h with
  | finish hq => exact .inl (resume_of_none (Walk.advance_of_nil hq)).symm
  | @stop _ _ _ v rest hq hexit =>
    -- here and below, `advance` goes on with the rest of the walk without a break
    refine .inr ⟨_, rfl, Walk.pending_dequeue hq, resume_congr (w := w) rfl ?_⟩
    rw [Walk.advance_of_cons hq, if_pos hexit]
  | @jump _ _ _ v rest c hq hexit hc hatt =>
    have hpending : ((w.dequeued rest).enqueueExit t.registry c).pending < w.pending := by
      rw [Walk.pending_enqueueExit]
      exact Walk.pending_dequeue hq
    refine .inr ⟨_, rfl, hpending, resume_congr (w := w) (Walk.host_enqueueExit _ _ _) ?_⟩
    rw [Walk.advance_of_cons hq, if_neg hexit, hc]
    simp only [if_pos hatt]
  | @nest _ _ _ v rest c hq hexit hc hnew =>
    have hadv : w.advance g t.registry t.attached =
        some (c, (w.dequeued rest).enqueueExit t.registry c) := by
      rw [Walk.advance_of_cons hq, if_neg hexit, hc]
      simp only [if_neg hnew]
    exact .inl (resume_of_some hadv).symm
  | @spread _ _ _ v rest hq hexit hc =>
    have hpending : ((g.successors v).foldl Walk.enqueue (w.dequeued rest)).pending <
        w.pending := by
      rw [Walk.pending_foldl_enqueue]
      exact Walk.pending_dequeue hq
    refine .inr ⟨_, rfl, hpending, resume_congr (w := w) (Walk.host_foldl_enqueue _ _) ?_⟩
    rw [Walk.advance_of_cons hq, if_neg hexit, hc]

/-- As long as a walk is suspended, there is a step. -/
theorem exists_step (g : FlowGraph) (t : HammockTree) (w : Walk) (below : List Walk) :
    ∃ s', Step g ⟨t, w :: below⟩ s' := by
  cases hq : w.queue with
  | nil => exact ⟨_, .finish hq⟩
  | cons v rest =>
    by_cases hexit : t.registry.isExit w.host v = true
    · exact ⟨_, .stop hq hexit⟩
    · cases hc : t.registry.largestBelow? v (t.registry.sizeOf w.host) with
      | none => exact ⟨_, .spread hq hexit hc⟩
      | some c =>
        by_cases hatt : c ∈ t.attached
        · exact ⟨_, .jump hq hexit hc hatt⟩
        · exact ⟨_, .nest hq hexit hc hatt⟩

/-- Resuming a walk is a sequence of steps. -/
theorem resume_reached (g : FlowGraph) (t : HammockTree) (w : Walk) (below : List Walk) :
    ReflTransGen (Step g) ⟨t, w :: below⟩ (resume g t w below).value := by
  -- every step of a walk that goes on leaves fewer vertices pending
  induction hn : w.pending using Nat.strongRecOn generalizing w with
  | ind n ih =>
    subst hn
    obtain ⟨s', hstep⟩ := exists_step g t w below
    rcases hstep.resumes with rfl | ⟨w', rfl, hlt, heq⟩
    · exact .single hstep
    · have hrest := ih w'.pending hlt w' rfl
      rw [heq] at hrest
      exact .head hstep hrest

/-- The construction is a sequence of steps that ends when no walk is suspended. -/
theorem run_reached (g : FlowGraph) (s : Construction) :
    ReflTransGen (Step g) s ⟨(run g s).value, []⟩ := by
  fun_induction run g s with
  | case1 t => exact .refl
  | case2 t w below next rest ih => exact (resume_reached g t w below).trans ih

/-- A step changes nothing about the tree that comes out. -/
theorem Step.run_eq (h : Step g s s') : (run g s').value = (run g s).value := by
  obtain ⟨t, _ | ⟨w, below⟩⟩ := s
  · cases h
  · rw [value_run_cons]
    rcases h.resumes with rfl | ⟨w', rfl, _, heq⟩
    · rfl
    · rw [value_run_cons, heq]

/-! ## Finitely many walks -/

/-- The construction after a number of walks have been resumed. -/
def resumed (g : FlowGraph) : Nat → Construction → Construction
  | 0, s => s
  | _ + 1, ⟨t, []⟩ => ⟨t, []⟩
  | n + 1, ⟨t, w :: below⟩ => resumed g n (resume g t w below).value

theorem value_run_resumed (g : FlowGraph) (n : Nat) (s : Construction) :
    (run g (resumed g n s)).value = (run g s).value := by
  induction n generalizing s with
  | zero => rfl
  | succ n ih =>
    obtain ⟨t, _ | ⟨w, below⟩⟩ := s
    · rfl
    · rw [resumed, ih, value_run_cons]

/-- The tree is there once no walk is suspended. -/
theorem value_run_of_resumed {n : Nat} (h : (resumed g n s).stack = []) :
    (run g s).value = (resumed g n s).tree := by
  rw [← value_run_resumed g n]
  generalize resumed g n s = s' at h
  obtain ⟨t, stack⟩ := s'
  obtain rfl : stack = [] := h
  exact value_run_nil

end Construction

namespace HammockRegistry

variable {g : FlowGraph} {r : HammockRegistry} {s s' : Construction} {t : HammockTree}
variable {root c : HammockId} {w w' : Walk} {below : List Walk}

/-- The states that the construction of the registry's tree goes through. -/
inductive Passes (r : HammockRegistry) (g : FlowGraph) : Construction → Prop where
  /-- The largest hammock is planted as the root. -/
  | start {root : HammockId} (hroot : r.largest? r.ids = some root) :
      Passes r g (.start r root (isSome_get?_of_mem_ids (mem_of_largest? hroot)))
  /-- The walk on top takes a vertex. -/
  | step {s s' : Construction} (hs : Passes r g s) (h : Construction.Step g s s') : Passes r g s'

theorem Passes.trans (hs : r.Passes g s) (h : ReflTransGen (Construction.Step g) s s') :
    r.Passes g s' := by
  induction h with
  | refl => exact hs
  | tail _ hstep ih => exact .step ih hstep

/-- The construction goes on with the walks below when the one on top is over. -/
theorem Passes.ended (hs : r.Passes g ⟨t, w :: below⟩)
    (h : w.advance g t.registry t.attached = none) :
    r.Passes g ⟨t.linkSiblings w.host, below⟩ := by
  have hnext := hs.trans (Construction.resume_reached g t w below)
  rwa [Construction.resume_of_none h] at hnext

/-- The construction goes on with the walk of what the one on top has found. -/
theorem Passes.found (hs : r.Passes g ⟨t, w :: below⟩)
    (h : w.advance g t.registry t.attached = some (c, w')) :
    r.Passes g ⟨t.attach c w.host (Walk.of_advance h).2.1,
      .begin t.registry c :: w' :: below⟩ := by
  have hnext := hs.trans (Construction.resume_reached g t w below)
  rwa [Construction.resume_of_some h] at hnext

/-- With a root the construction begins, and its tree is reported. -/
theorem nest_eq (hroot : r.largest? r.ids = some root) :
    r.nest g = do
      let t ← Construction.run g
        (.start r root (isSome_get?_of_mem_ids (mem_of_largest? hroot)))
      Logged.report (.treeComplete t.rootHammock t.attached.card t.size)
      return t := by
  unfold nest
  split
  · next h => simp [hroot] at h
  · next root' h =>
    obtain rfl : root = root' := Option.some.inj (hroot.symm.trans h)
    rfl

theorem value_nest (hroot : r.largest? r.ids = some root) :
    (r.nest g).run.value = .ok (Construction.run g
      (.start r root (isSome_get?_of_mem_ids (mem_of_largest? hroot)))).value := by
  rw [nest_eq hroot]
  rfl

/-- The tree is what a construction has grown when no walk is suspended. -/
theorem value_nest_of_resumed {n : Nat} (hroot : r.largest? r.ids = some root)
    (h : (Construction.resumed g n
      (.start r root (isSome_get?_of_mem_ids (mem_of_largest? hroot)))).stack = []) :
    (r.nest g).run.value = .ok (Construction.resumed g n
      (.start r root (isSome_get?_of_mem_ids (mem_of_largest? hroot)))).tree := by
  rw [value_nest hroot, Construction.value_run_of_resumed h]

/-- A registry with a hammock has a tree. -/
theorem exists_nest (g : FlowGraph) {id : HammockId} (hid : id ∈ r.ids) :
    ∃ t, (r.nest g).run.value = .ok t := by
  cases hroot : r.largest? r.ids with
  | none => simp [largest?_eq_none_iff.1 hroot] at hid
  | some root => exact ⟨_, value_nest hroot⟩

theorem largest?_of_nest (h : (r.nest g).run.value = .ok t) :
    ∃ root, r.largest? r.ids = some root := by
  cases hroot : r.largest? r.ids with
  | none =>
    unfold nest at h
    split at h
    · cases h
    · next root hroot' => simp [hroot] at hroot'
  | some root => exact ⟨root, rfl⟩

/-- The construction ends with the tree and no suspended walk. -/
theorem passes_of_nest (h : (r.nest g).run.value = .ok t) : r.Passes g ⟨t, []⟩ := by
  obtain ⟨root, hroot⟩ := largest?_of_nest h
  rw [value_nest hroot] at h
  cases h
  exact (Passes.start hroot).trans (Construction.run_reached g _)

/-- From every state that it goes through, the construction ends with the tree. -/
theorem Passes.run_eq (h : (r.nest g).run.value = .ok t) (hs : r.Passes g s) :
    (Construction.run g s).value = t := by
  induction hs with
  | start hroot =>
    rw [value_nest hroot] at h
    exact Except.ok.inj h
  | step _ hstep ih => rw [hstep.run_eq, ih]

/-- The construction keeps to the registry, and its root is the largest hammock. -/
theorem Passes.largest (hs : r.Passes g s) :
    s.tree.registry = r ∧ r.largest? r.ids = some s.tree.root := by
  induction hs with
  | start hroot => exact ⟨rfl, hroot⟩
  | step _ hstep ih => cases hstep <;> exact ih

/-- The construction keeps to the registry. -/
theorem Passes.registry_eq (hs : r.Passes g s) : s.tree.registry = r := hs.largest.1

theorem Passes.root_attached (hs : r.Passes g s) : s.tree.root ∈ s.tree.attached := by
  induction hs with
  | start hroot => exact IdSet.mem_singleton.2 rfl
  | step _ hstep ih =>
    cases hstep with
    | nest => exact IdSet.mem_insert.2 (.inr ih)
    | finish | stop | jump | spread => exact ih

/-! ## What holds of everything queued -/

/-- What a walk through a hammock queues when it takes a vertex. -/
inductive Onward (g : FlowGraph) (r : HammockRegistry) (h : HammockId) (v : VertexId) :
    List VertexId → Prop where
  /-- Behind the exit nothing is queued. -/
  | stop (hexit : r.isExit h v = true) : Onward g r h v []
  /-- The walk jumps over the hammock that it meets. -/
  | jump {c : HammockId} {y : Hammock} (hexit : ¬ r.isExit h v = true)
      (hc : r.largestBelow? v (r.sizeOf h) = some c) (hy : r.get? c = some y) :
      Onward g r h v [y.exit]
  /-- No smaller hammock starts at the vertex. -/
  | spread (hexit : ¬ r.isExit h v = true) (hc : r.largestBelow? v (r.sizeOf h) = none) :
      Onward g r h v (g.successors v)

variable {Q : HammockId → VertexId → Prop} {w : Walk} {v : VertexId} {rest : List VertexId}

/-- What holds of the queue and of what is added holds of the queue after it. -/
theorem queued_foldl_enqueue (hw : ∀ u ∈ w.queue, Q w.host u) (hq : w.queue = v :: rest)
    (l : List VertexId) (hl : ∀ u ∈ l, Q w.host u) :
    ∀ u ∈ (l.foldl Walk.enqueue (w.dequeued rest)).queue,
      Q (l.foldl Walk.enqueue (w.dequeued rest)).host u := by
  intro u hu
  rw [Walk.host_foldl_enqueue]
  rcases Walk.mem_queue_foldl_enqueue.1 hu with hu | ⟨hu, _⟩
  · exact hw u (hq ▸ List.mem_cons_of_mem v hu)
  · exact hl u hu

theorem queued_begin (hbegin : ∀ c x, r.get? c = some x → Q c x.entry) {c : HammockId}
    {x : Hammock} (hx : r.get? c = some x) :
    ∀ u ∈ (Walk.begin r c).queue, Q (Walk.begin r c).host u := by
  rw [Walk.begin_of_get? hx]
  intro u hu
  obtain rfl := List.mem_singleton.1 hu
  exact hbegin c x hx

/-- What holds of entries and is handed on to what walks queue holds of all queues at every moment
of the construction. -/
theorem Passes.forall_queued (hbegin : ∀ c x, r.get? c = some x → Q c x.entry)
    (honward : ∀ h v l, Q h v → Onward g r h v l → ∀ u ∈ l, Q h u) (hs : r.Passes g s) :
    ∀ w ∈ s.stack, ∀ v ∈ w.queue, Q w.host v := by
  induction hs with
  | start hroot =>
    obtain ⟨x, hx⟩ := Option.isSome_iff_exists.1
      (isSome_get?_of_mem_ids (mem_of_largest? hroot))
    intro w hw
    obtain rfl := List.mem_singleton.1 hw
    exact queued_begin hbegin hx
  | step hs hstep ih =>
    obtain rfl := hs.registry_eq
    cases hstep with
    | finish hq => exact (List.forall_mem_cons.1 ih).2
    | @stop t w below v rest hq hexit =>
      obtain ⟨hw, hbelow⟩ := List.forall_mem_cons.1 ih
      have hv := hw v (hq ▸ List.mem_cons_self)
      exact List.forall_mem_cons.2
        ⟨queued_foldl_enqueue hw hq [] (honward _ _ _ hv (.stop hexit)), hbelow⟩
    | @jump t w below v rest c hq hexit hc hatt =>
      obtain ⟨hw, hbelow⟩ := List.forall_mem_cons.1 ih
      have hv := hw v (hq ▸ List.mem_cons_self)
      obtain ⟨y, hy, _⟩ := exists_get?_of_largestBelow? hc
      rw [Walk.enqueueExit_of_get? hy]
      exact List.forall_mem_cons.2
        ⟨queued_foldl_enqueue hw hq [y.exit] (honward _ _ _ hv (.jump hexit hc hy)), hbelow⟩
    | @nest t w below v rest c hq hexit hc hnew =>
      obtain ⟨hw, hbelow⟩ := List.forall_mem_cons.1 ih
      have hv := hw v (hq ▸ List.mem_cons_self)
      obtain ⟨y, hy, _⟩ := exists_get?_of_largestBelow? hc
      rw [Walk.enqueueExit_of_get? hy]
      exact List.forall_mem_cons.2 ⟨queued_begin hbegin hy, List.forall_mem_cons.2
        ⟨queued_foldl_enqueue hw hq [y.exit] (honward _ _ _ hv (.jump hexit hc hy)), hbelow⟩⟩
    | @spread t w below v rest hq hexit hc =>
      obtain ⟨hw, hbelow⟩ := List.forall_mem_cons.1 ih
      have hv := hw v (hq ▸ List.mem_cons_self)
      exact List.forall_mem_cons.2
        ⟨queued_foldl_enqueue hw hq _ (honward _ _ _ hv (.spread hexit hc)), hbelow⟩

end HammockRegistry

end FlowRegions
