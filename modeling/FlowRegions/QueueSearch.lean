import FlowRegions.Search

/-! # Searching with a queue

A search can also proceed one identifier at a time. A turn takes the first identifier from a queue
and appends those to which it leads, in order, except for those that have been visited before. It
leaves one identifier less that may still be taken (`pending_turn?`), so there is no endless
sequence of turns, whatever the search follows and wherever it is (`wellFounded_turn?`).

Whatever has been visited has been taken or is in the queue, and what has been taken has only led
to what has been visited (`Searching`). So a search that collects what it takes collects what is
reachable (`collect_start`), and one that stops when it takes a target tells whether the target is
reachable (`meets_start`).
-/

namespace FlowRegions

/-- A search between two turns: what has been visited, and what is still to be taken, in order. -/
structure QueueSearch (κ : IdKind) where
  visited : IdSet κ
  queue : List (DenseId κ)

namespace QueueSearch

variable {κ : IdKind} {next : DenseId κ → List (DenseId κ)} {a b c target : DenseId κ}
variable {l : List (DenseId κ)} {s s' : QueueSearch κ} {taken : IdSet κ}

/-- The search that begins with an identifier. -/
def start (a : DenseId κ) : QueueSearch κ := ⟨{a}, [a]⟩

/-- Queues an identifier, unless it has been visited before. -/
def visit (s : QueueSearch κ) (a : DenseId κ) : QueueSearch κ :=
  if a ∈ s.visited then s else ⟨insert a s.visited, s.queue ++ [a]⟩

/-- Takes an identifier from the queue and visits those to which it leads. There is no turn when the
queue is empty. -/
def turn? (next : DenseId κ → List (DenseId κ)) (s : QueueSearch κ) :
    Option (DenseId κ × QueueSearch κ) :=
  match s.queue with
  | [] => none
  | a :: rest => some (a, (next a).foldl visit ⟨s.visited, rest⟩)

/-- How many identifiers the search may still take. -/
def pending (s : QueueSearch κ) : Nat := s.queue.length + (idCount - s.visited.card)

theorem turn?_eq_none_iff : s.turn? next = none ↔ s.queue = [] := by
  unfold turn?
  split <;> simp_all

theorem turn?_eq_some_iff :
    s.turn? next = some (a, s') ↔
      ∃ rest, s.queue = a :: rest ∧ (next a).foldl visit ⟨s.visited, rest⟩ = s' := by
  unfold turn?
  split
  · next h => simp [h]
  · next b rest h =>
    rw [h, Option.some.injEq, Prod.mk.injEq]
    constructor
    · rintro ⟨rfl, rfl⟩
      exact ⟨rest, rfl, rfl⟩
    · rintro ⟨_, heq, rfl⟩
      cases heq
      exact ⟨rfl, rfl⟩

@[simp] theorem pending_visit (s : QueueSearch κ) (a : DenseId κ) :
    (s.visit a).pending = s.pending := by
  unfold visit
  split
  · rfl
  · next hnew =>
    have hcard := IdSet.card_insert hnew
    have hle := (insert a s.visited).card_le
    simp only [pending, List.length_append, List.length_singleton]
    omega

@[simp] theorem pending_foldl_visit (s : QueueSearch κ) (l : List (DenseId κ)) :
    (l.foldl visit s).pending = s.pending := by
  induction l generalizing s with
  | nil => rfl
  | cons a l ih => rw [List.foldl_cons, ih, pending_visit]

/-- Every turn leaves one identifier less to be taken. -/
theorem pending_turn? (h : s.turn? next = some (a, s')) : s'.pending + 1 = s.pending := by
  obtain ⟨rest, hq, rfl⟩ := turn?_eq_some_iff.1 h
  rw [pending_foldl_visit]
  simp only [pending, hq, List.length_cons]
  omega

/-- There is no endless sequence of turns. -/
theorem wellFounded_turn? (next : DenseId κ → List (DenseId κ)) :
    WellFounded fun s' s : QueueSearch κ => ∃ a, s.turn? next = some (a, s') := by
  refine Subrelation.wf (r := InvImage (· < ·) pending) ?_ (InvImage.wf pending Nat.lt_wfRel.wf)
  rintro s' s ⟨a, h⟩
  show s'.pending < s.pending
  have hpending := pending_turn? h
  omega

/-- Takes identifiers until the queue is empty and collects them. -/
def collect (next : DenseId κ → List (DenseId κ)) (s : QueueSearch κ) (taken : IdSet κ) : IdSet κ :=
  match _h : s.turn? next with
  | none => taken
  | some (a, s') => collect next s' (insert a taken)
termination_by s.pending
decreasing_by
  have hpending := pending_turn? _h
  omega

/-- Takes identifiers until the target is taken or the queue is empty, and tells whether it has come
to the target. -/
def meets (next : DenseId κ → List (DenseId κ)) (target : DenseId κ) (s : QueueSearch κ) : Bool :=
  match _h : s.turn? next with
  | none => false
  | some (a, s') => if a = target then true else meets next target s'
termination_by s.pending
decreasing_by
  have hpending := pending_turn? _h
  omega

/-! ## What a turn visits -/

theorem mem_visited_visit : b ∈ (s.visit a).visited ↔ b = a ∨ b ∈ s.visited := by
  unfold visit
  split
  · next ha =>
    refine ⟨.inr, ?_⟩
    rintro (rfl | hb)
    · exact ha
    · exact hb
  · exact IdSet.mem_insert

theorem mem_queue_visit :
    b ∈ (s.visit a).queue ↔ b ∈ s.queue ∨ (b = a ∧ b ∉ s.visited) := by
  unfold visit
  split
  · next ha =>
    refine ⟨.inl, fun h => h.resolve_right ?_⟩
    rintro ⟨rfl, hb⟩
    exact hb ha
  · next ha =>
    rw [List.mem_append, List.mem_singleton]
    exact or_congr_right ⟨fun hb => ⟨hb, hb ▸ ha⟩, And.left⟩

theorem mem_visited_foldl_visit : b ∈ (l.foldl visit s).visited ↔ b ∈ l ∨ b ∈ s.visited := by
  induction l generalizing s with
  | nil => simp
  | cons a l ih =>
    rw [List.foldl_cons, ih, mem_visited_visit, List.mem_cons, or_left_comm, or_assoc]

theorem mem_queue_foldl_visit :
    b ∈ (l.foldl visit s).queue ↔ b ∈ s.queue ∨ (b ∈ l ∧ b ∉ s.visited) := by
  induction l generalizing s with
  | nil => simp
  | cons a l ih =>
    rw [List.foldl_cons, ih, mem_queue_visit, mem_visited_visit, List.mem_cons]
    by_cases hb : b = a <;> simp [hb]

/-! ## What a search comes to -/

/-- A search that has begun with `a` and has taken some identifiers. -/
structure Searching (next : DenseId κ → List (DenseId κ)) (a : DenseId κ) (taken : IdSet κ)
    (s : QueueSearch κ) : Prop where
  start_mem : a ∈ s.visited
  visited_iff : ∀ b, b ∈ s.visited ↔ b ∈ taken ∨ b ∈ s.queue
  reached : ∀ b ∈ s.visited, Search.Chain (fun x => .ofList (next x)) a b
  behind : ∀ b ∈ taken, ∀ c ∈ next b, c ∈ s.visited

theorem searching_start (next : DenseId κ → List (DenseId κ)) (a : DenseId κ) :
    Searching next a ∅ (start a) where
  start_mem := IdSet.mem_singleton.2 rfl
  visited_iff b := by simp [start]
  reached b hb := IdSet.mem_singleton.1 hb ▸ .refl
  behind b hb := absurd hb (IdSet.not_mem_empty b)

/-- A turn keeps what holds of a search. -/
theorem Searching.turn (h : Searching next a taken s) (hturn : s.turn? next = some (b, s')) :
    Searching next a (insert b taken) s' := by
  obtain ⟨rest, hq, rfl⟩ := turn?_eq_some_iff.1 hturn
  have hb : b ∈ s.visited := (h.visited_iff b).2 (.inr (hq ▸ List.mem_cons_self))
  refine ⟨mem_visited_foldl_visit.2 (.inr h.start_mem), fun c => ?_, fun c hc => ?_,
    fun c hc d hd => mem_visited_foldl_visit.2 ?_⟩
  · have hold := h.visited_iff c
    rw [hq, List.mem_cons] at hold
    rw [mem_visited_foldl_visit, mem_queue_foldl_visit, IdSet.mem_insert]
    show c ∈ next b ∨ c ∈ s.visited ↔
      (c = b ∨ c ∈ taken) ∨ c ∈ rest ∨ c ∈ next b ∧ c ∉ s.visited
    grind
  · rcases mem_visited_foldl_visit.1 hc with hc | hc
    · exact (h.reached b hb).tail (IdSet.mem_ofList.2 hc)
    · exact h.reached c hc
  · rcases IdSet.mem_insert.1 hc with rfl | hc
    · exact .inl hd
    · exact .inr (h.behind c hc d hd)

/-- With nothing left in its queue, a search has taken everything reachable. -/
theorem Searching.mem_taken_of_chain (h : Searching next a taken s) (hend : s.turn? next = none)
    (hab : Search.Chain (fun x => .ofList (next x)) a b) : b ∈ taken := by
  have htaken : ∀ c ∈ s.visited, c ∈ taken := by
    intro c hc
    have hcases := (h.visited_iff c).1 hc
    rw [turn?_eq_none_iff.1 hend] at hcases
    exact hcases.resolve_right List.not_mem_nil
  apply htaken
  induction hab with
  | refl => exact h.start_mem
  | tail _ hstep ih => exact h.behind _ (htaken _ ih) _ (IdSet.mem_ofList.1 hstep)

/-- A search collects what is reachable. -/
theorem Searching.collect_eq (h : Searching next a taken s) :
    collect next s taken = Search.reachable (fun x => .ofList (next x)) a := by
  fun_induction collect next s taken with
  | case1 s taken hend =>
    refine IdSet.ext fun b => ?_
    rw [Search.mem_reachable]
    exact ⟨fun hb => h.reached b ((h.visited_iff b).2 (.inl hb)), h.mem_taken_of_chain hend⟩
  | case2 s taken b s' hturn ih => exact ih (h.turn hturn)

theorem collect_start (next : DenseId κ → List (DenseId κ)) (a : DenseId κ) :
    collect next (start a) ∅ = Search.reachable (fun x => .ofList (next x)) a :=
  (searching_start next a).collect_eq

/-- A search comes to a target that it has not taken yet exactly when the target is reachable. -/
theorem Searching.meets_iff (h : Searching next a taken s) (htarget : target ∉ taken) :
    meets next target s = true ↔ Search.Chain (fun x => .ofList (next x)) a target := by
  fun_induction meets next target s generalizing taken with
  | case1 s hend =>
    exact ⟨fun hfalse => absurd hfalse Bool.false_ne_true,
      fun hchain => absurd (h.mem_taken_of_chain hend hchain) htarget⟩
  | case2 s s' hturn =>
    obtain ⟨rest, hq, _⟩ := turn?_eq_some_iff.1 hturn
    have hvisited := (h.visited_iff target).2 (.inr (hq ▸ List.mem_cons_self))
    exact ⟨fun _ => h.reached target hvisited, fun _ => rfl⟩
  | case3 s b s' hturn hne ih =>
    refine ih (h.turn hturn) fun hmem => ?_
    rcases IdSet.mem_insert.1 hmem with heq | hmem
    · exact hne heq.symm
    · exact htarget hmem

theorem meets_start (next : DenseId κ → List (DenseId κ)) (a target : DenseId κ) :
    meets next target (start a) = true ↔ Search.Chain (fun x => .ofList (next x)) a target :=
  (searching_start next a).meets_iff (IdSet.not_mem_empty target)

end QueueSearch

end FlowRegions
