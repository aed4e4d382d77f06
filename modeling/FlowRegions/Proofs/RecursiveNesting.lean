import FlowRegions.Proofs.RootedTree

/-!
# Nesting by recursion

The children of a hammock can be found by a recursion that knows no stack: `findChildren` searches
its body, and where the search comes to a smaller hammock that is not attached yet, it attaches it
and finds its children before it goes on. The construction of a tree suspends walks on a stack
instead. Under whatever other walks, the walk on top leaves the tree to them as the recursion
returns it (`run_search`), so both make the same tree (`nest_eq_findChildren`). What is chosen at a
vertex is the largest hammock there is, of several the one with the lowest identifier
(`largestBelow?_eq_some_iff`).
-/

namespace FlowRegions

open Log

namespace HammockRegistry

variable {r : HammockRegistry} {g : FlowGraph} {c d : HammockId} {v : VertexId} {bound : Nat}

/-! ## Choices -/

/-- A hammock with some property is larger than the others with it, or of the same size and has the
lowest identifier. -/
structure FirstLargest (r : HammockRegistry) (P : HammockId → Prop) (c : HammockId) : Prop where
  holds : P c
  largest : ∀ d, P d → r.sizeOf d ≤ r.sizeOf c
  first : ∀ d, P d → d < c → r.sizeOf d < r.sizeOf c

/-- There is but one choice. -/
theorem FirstLargest.unique {P : HammockId → Prop} (hc : r.FirstLargest P c)
    (hd : r.FirstLargest P d) : c = d := by
  apply DenseId.eq_of_not_lt
  · intro hlt
    exact absurd (hd.first c hc.holds hlt) (Nat.not_lt_of_le (hc.largest d hd.holds))
  · intro hlt
    exact absurd (hc.first d hd.holds hlt) (Nat.not_lt_of_le (hd.largest c hc.holds))

/-- From an ascending list the choice is made. -/
theorem largest?_eq_some_iff {ids : List HammockId} (hids : ids.Pairwise (· < ·)) :
    r.largest? ids = some c ↔ r.FirstLargest (· ∈ ids) c := by
  have hchoice : ∀ {d}, r.largest? ids = some d → r.FirstLargest (· ∈ ids) d := fun h =>
    ⟨mem_of_largest? h, fun _ => sizeOf_le_of_largest? h, fun _ => sizeOf_lt_of_lt_largest? hids h⟩
  refine ⟨hchoice, fun h => ?_⟩
  cases hd : r.largest? ids with
  | none =>
    have hmem := h.holds
    rw [largest?_eq_none_iff.1 hd] at hmem
    cases hmem
  | some d => rw [(hchoice hd).unique h]

/-- At a vertex the choice is made among the smaller hammocks that start there. -/
theorem largestBelow?_eq_some_iff :
    r.largestBelow? v bound = some c ↔
      r.FirstLargest (fun d => d ∈ r.startedAt v ∧ r.sizeOf d < bound) c := by
  have hmem : ∀ d, d ∈ (r.startedAt v).toList.filter (r.sizeOf · < bound) ↔
      d ∈ r.startedAt v ∧ r.sizeOf d < bound := by simp
  rw [largestBelow?, largest?_eq_some_iff ((r.startedAt v).ascending.filter _)]
  simp only [hmem]

end HammockRegistry

/-! ## The recursion -/

/-- A tree of the hammocks of a registry. -/
structure TreeOver (r : HammockRegistry) where
  tree : HammockTree
  registry_eq : tree.registry = r

namespace TreeOver

variable {r : HammockRegistry}

/-- The tree that consists of its root alone. -/
def planted (r : HammockRegistry) (root : HammockId) (h : (r.get? root).isSome = true) :
    TreeOver r := ⟨.planted r root h, rfl⟩

/-- The tree in which a hammock has become the last child of a larger one. -/
def attach (t : TreeOver r) (child parent : HammockId)
    (h : r.sizeOf child < r.sizeOf parent) : TreeOver r :=
  ⟨t.tree.attach child parent (by rwa [t.registry_eq]), t.registry_eq⟩

/-- The tree in which the children of a hammock that adjoin each other are siblings. -/
def linkSiblings (t : TreeOver r) (id : HammockId) : TreeOver r :=
  ⟨t.tree.linkSiblings id, t.registry_eq⟩

end TreeOver

namespace Walk

theorem pending_begin (r : HammockRegistry) (id : HammockId) : (begin r id).pending = idCount := by
  rw [begin]
  split
  · rw [pending_enqueue]
    simp [pending]
  · simp [pending]

end Walk

open HammockRegistry

mutual

/-- Finds all that is nested in a hammock, and links the siblings once all its children are
found. -/
def findChildren (g : FlowGraph) (r : HammockRegistry) (h : HammockId) (t : TreeOver r) :
    TreeOver r :=
  (search g r (.begin r h) t).linkSiblings h
termination_by (r.sizeOf h, idCount + 1)
decreasing_by
  rw [Walk.host_begin, Walk.pending_begin]
  exact Prod.Lex.right _ (Nat.lt_succ_self _)

/-- Searches the rest of a body. A smaller hammock is passed over to its exit; if it has no place in
the tree yet, it becomes a child, and all that is nested in it is found first. -/
def search (g : FlowGraph) (r : HammockRegistry) (w : Walk) (t : TreeOver r) : TreeOver r :=
  match _hq : w.queue with
  | [] => t
  | v :: rest =>
    if r.isExit w.host v then search g r (w.dequeued rest) t
    else
      match hc : r.largestBelow? v (r.sizeOf w.host) with
      | some c =>
        if c ∈ t.tree.attached then search g r ((w.dequeued rest).enqueueExit r c) t
        else
          search g r ((w.dequeued rest).enqueueExit r c)
            (findChildren g r c (t.attach c w.host (sizeOf_lt_of_largestBelow? hc)))
      | none => search g r ((g.successors v).foldl Walk.enqueue (w.dequeued rest)) t
termination_by (r.sizeOf w.host, w.pending)
decreasing_by
  · exact Prod.Lex.right _ (Walk.pending_dequeue _hq)
  · rw [Walk.host_enqueueExit, Walk.pending_enqueueExit]
    exact Prod.Lex.right _ (Walk.pending_dequeue _hq)
  · exact Prod.Lex.left _ _ (sizeOf_lt_of_largestBelow? hc)
  · rw [Walk.host_enqueueExit, Walk.pending_enqueueExit]
    exact Prod.Lex.right _ (Walk.pending_dequeue _hq)
  · rw [Walk.host_foldl_enqueue, Walk.pending_foldl_enqueue]
    exact Prod.Lex.right _ (Walk.pending_dequeue _hq)

end

variable {r : HammockRegistry} {g : FlowGraph} {w : Walk} {v : VertexId} {rest : List VertexId}
variable {c : HammockId} {t : TreeOver r}

theorem findChildren_eq (g : FlowGraph) (h : HammockId) (t : TreeOver r) :
    findChildren g r h t = (search g r (.begin r h) t).linkSiblings h := by
  rw [findChildren]

theorem search_of_nil (hq : w.queue = []) : search g r w t = t := by
  unfold search
  split
  · rfl
  · next h => simp [hq] at h

theorem search_of_cons (hq : w.queue = v :: rest) :
    search g r w t =
      if r.isExit w.host v then search g r (w.dequeued rest) t
      else
        match hc : r.largestBelow? v (r.sizeOf w.host) with
        | some c =>
          if c ∈ t.tree.attached then search g r ((w.dequeued rest).enqueueExit r c) t
          else
            search g r ((w.dequeued rest).enqueueExit r c)
              (findChildren g r c (t.attach c w.host (sizeOf_lt_of_largestBelow? hc)))
        | none => search g r ((g.successors v).foldl Walk.enqueue (w.dequeued rest)) t := by
  rw [search]
  split
  · next h => simp [hq] at h
  · next u rest' h =>
    obtain ⟨rfl, rfl⟩ : v = u ∧ rest = rest' := by simpa [hq] using h
    rfl

theorem search_of_some (hq : w.queue = v :: rest) (hexit : ¬ r.isExit w.host v = true)
    (hc : r.largestBelow? v (r.sizeOf w.host) = some c) :
    search g r w t = search g r ((w.dequeued rest).enqueueExit r c)
      (if c ∈ t.tree.attached then t
        else findChildren g r c (t.attach c w.host (sizeOf_lt_of_largestBelow? hc))) := by
  rw [search_of_cons hq, if_neg hexit]
  split
  · next d hd =>
    obtain rfl : c = d := Option.some.inj (hc.symm.trans hd)
    split <;> rfl
  · next hd => simp [hc] at hd

theorem search_of_none (hq : w.queue = v :: rest) (hexit : ¬ r.isExit w.host v = true)
    (hc : r.largestBelow? v (r.sizeOf w.host) = none) :
    search g r w t = search g r ((g.successors v).foldl Walk.enqueue (w.dequeued rest)) t := by
  rw [search_of_cons hq, if_neg hexit]
  split
  · next d hd => simp [hc] at hd
  · rfl

/-! ## The stack and the recursion -/

/-- Above whatever suspended walks, a walk leaves them the tree that the recursion returns. -/
theorem run_search (g : FlowGraph) (w : Walk) (t : TreeOver r) : ∀ below : List Walk,
    (Construction.run g ⟨t.tree, w :: below⟩).value =
      (Construction.run g ⟨((search g r w t).linkSiblings w.host).tree, below⟩).value := by
  -- along both functions of the recursion: of `findChildren` this says the same with its first walk
  induction w, t using search.induct g r (fun h t => ∀ below : List Walk,
      (Construction.run g ⟨t.tree, .begin r h :: below⟩).value =
        (Construction.run g ⟨(findChildren g r h t).tree, below⟩).value) with
  | case1 h t ih below =>
    rw [ih, Walk.host_begin, findChildren_eq]
  | case2 w t hq =>
    intro below
    obtain ⟨t, rfl⟩ := t
    rw [search_of_nil hq]
    exact (Construction.Step.finish hq).run_eq.symm
  | case3 w t v rest hq hexit ih =>
    intro below
    obtain ⟨t, rfl⟩ := t
    rw [search_of_cons hq, if_pos hexit]
    exact (Construction.Step.stop hq hexit).run_eq.symm.trans (ih below)
  | case4 w t v rest hq hexit c hc hatt ih =>
    intro below
    obtain ⟨t, rfl⟩ := t
    rw [search_of_some hq hexit hc, if_pos hatt]
    have hrest := ih below
    rw [Walk.host_enqueueExit] at hrest
    exact (Construction.Step.jump hq hexit hc hatt).run_eq.symm.trans hrest
  | case5 w t v rest hq hexit c hc hnew ihc _ ih =>
    intro below
    obtain ⟨t, rfl⟩ := t
    rw [search_of_some hq hexit hc, if_neg hnew]
    -- the walk of the child is on top of the rest of this one, which goes on when it is over
    have hrest := ih below
    rw [Walk.host_enqueueExit] at hrest
    exact (Construction.Step.nest hq hexit hc hnew).run_eq.symm.trans ((ihc _).trans hrest)
  | case6 w t v rest hq hexit hc ih =>
    intro below
    obtain ⟨t, rfl⟩ := t
    rw [search_of_none hq hexit hc]
    have hrest := ih below
    rw [Walk.host_foldl_enqueue] at hrest
    exact (Construction.Step.spread hq hexit hc).run_eq.symm.trans hrest

/-- The walk of a hammock finds all that is nested in it before the walks below go on. -/
theorem run_begin (g : FlowGraph) (h : HammockId) (t : TreeOver r) (below : List Walk) :
    (Construction.run g ⟨t.tree, .begin r h :: below⟩).value =
      (Construction.run g ⟨(findChildren g r h t).tree, below⟩).value := by
  rw [run_search, Walk.host_begin, findChildren_eq]

namespace HammockRegistry

/-- The tree of a registry is what the recursion makes of its root. -/
theorem value_nest_eq_findChildren (g : FlowGraph) {root : HammockId}
    (hroot : r.largest? r.ids = some root) :
    (r.nest g).run.value = .ok (findChildren g r root
      (.planted r root (isSome_get?_of_mem_ids (mem_of_largest? hroot)))).tree := by
  rw [value_nest hroot]
  apply congrArg Except.ok
  exact (run_begin g root (.planted r root _) []).trans Construction.value_run_nil

/-- Whatever pairs are registered, as many as there are identifiers at most, if there are any the
construction with its stack of walks makes the tree that the recursion makes: it begins with the
largest hammock, and at every vertex it chooses the largest one that is smaller than its host, in
both cases the one with the lowest identifier of several. -/
theorem nest_eq_findChildren (g : FlowGraph) (b : BoundaryRelation) {r : HammockRegistry}
    (hr : (register g b).value = r) (hne : 0 < b.size) (hsize : b.size ≤ idCount) :
    (∀ v bound c, r.largestBelow? v bound = some c ↔
      r.FirstLargest (fun d => d ∈ r.startedAt v ∧ r.sizeOf d < bound) c) ∧
    ∃ root, r.FirstLargest (· ∈ r.ids) root ∧ ∃ hroot : (r.get? root).isSome = true,
      (r.nest g).run.value = .ok (findChildren g r root (.planted r root hroot)).tree := by
  subst hr
  have hids := pairwise_ids (size_register g b ▸ hsize)
  obtain ⟨root, hroot⟩ := exists_largest?_register g hne
  exact ⟨fun v bound c => largestBelow?_eq_some_iff, root, (largest?_eq_some_iff hids).1 hroot, _,
    value_nest_eq_findChildren g hroot⟩

/-- In the tree that the recursion makes of pairs which are no candidates, the pair that ends where
it begins is a child of the other one with its entry. -/
theorem knot_nested_by_recursion :
    0 < knot.size ∧ knot.size ≤ idCount ∧
      ∃ root hroot, (register FlowGraph.loops knot).value.FirstLargest
          (· ∈ (register FlowGraph.loops knot).value.ids) root ∧
        (findChildren FlowGraph.loops _ root
          (.planted (register FlowGraph.loops knot).value root hroot)).tree.children ⟨1⟩ =
            [⟨2⟩] := by
  have hne : 0 < knot.size := by decide
  have hsize : knot.size ≤ idCount := by decide
  obtain ⟨hfirst, hdone, hchildren⟩ : ∃ hroot : (register FlowGraph.loops knot).value.largest?
        (register FlowGraph.loops knot).value.ids = some ⟨0⟩,
      let grown := Construction.resumed FlowGraph.loops 5
        (.start _ ⟨0⟩ (isSome_get?_of_mem_ids (mem_of_largest? hroot)))
      grown.stack = [] ∧ grown.tree.children ⟨1⟩ = [⟨2⟩] :=
    ⟨by decide +kernel, by decide +kernel⟩
  have ht := value_nest_of_resumed hfirst hdone
  obtain ⟨_, root, hlargest, hroot, ht'⟩ := nest_eq_findChildren FlowGraph.loops knot rfl hne hsize
  refine ⟨hne, hsize, root, hroot, hlargest, ?_⟩
  rw [← Except.ok.inj (ht.symm.trans ht')]
  exact hchildren

end HammockRegistry

end FlowRegions
