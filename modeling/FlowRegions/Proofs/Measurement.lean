import FlowRegions.Hammock.Measurement
import FlowRegions.Proofs.RootedTree
import FlowRegions.Proofs.SingleEntry
import FlowRegions.QueueSearch

/-!
# Measuring hammocks

A walk that measures a hammock keeps `Measuring`: what it has noted on the index lies in the region,
whatever has left the queue before the exit has its successors noted, and as many vertices have been
counted as are noted and not queued any more. So when the queue is empty, the walk has noted the
region and counted its vertices (`Measuring.run_eq`). It leaves alone what is noted of other
hammocks (`coveredBy_run_of_ne`), so the index after all walks is the one that the registry answers
from (`measureAll_register`).

A region is what routes lead to that do not visit the exit before they end
(`mem_regionBetween_iff_exists_route`). With the order of the pairs this is all that registration
makes of a relation (`hammocks_registered_in_order`).
-/

namespace FlowRegions

open Log

namespace FlowGraph

variable {g : FlowGraph} {s e v w : VertexId} {p : List VertexId}

/-- A route ends with its target. -/
theorem Route.eq_concat (hp : g.Route v w p) : p = p.dropLast ++ [w] := by
  induction hp with
  | stay => rfl
  | @step v u w p hvu hp ih =>
    have hne : p ≠ [] := List.ne_nil_of_mem hp.source_mem
    rw [List.dropLast_cons_of_ne_nil hne, List.cons_append, ← ih]

/-- A region is what routes lead to that do not visit the exit before they end. -/
theorem mem_regionBetween_iff_exists_route (hs : g.contains s = true) :
    v ∈ g.regionBetween s e ↔ ∃ p, g.Route s v p ∧ e ∉ p.dropLast := by
  rw [mem_regionBetween]
  constructor
  · intro h
    induction h with
    | refl => exact ⟨[s], .stay hs, List.not_mem_nil⟩
    | tail _ hstep ih =>
      obtain ⟨p, hp, hep⟩ := ih
      obtain ⟨hne, hsucc⟩ := mem_stepsUntil.1 hstep
      refine ⟨_, hp.snoc hsucc, ?_⟩
      rw [List.dropLast_concat, hp.eq_concat, List.mem_append, List.mem_singleton]
      rintro (he | rfl)
      · exact hep he
      · exact hne rfl
  · rintro ⟨p, hp, hep⟩
    induction hp with
    | stay => exact .refl
    | @step v u w p hvu hp ih =>
      have hne : p ≠ [] := List.ne_nil_of_mem hp.source_mem
      rw [List.dropLast_cons_of_ne_nil hne, List.mem_cons, not_or] at hep
      have hstep : u ∈ g.stepsUntil e v := mem_stepsUntil.2 ⟨Ne.symm hep.1, hvu⟩
      exact .trans (.tail .refl hstep) (ih hp.contains_source hep.2)

end FlowGraph

/-! ## One walk -/

namespace MeasuringWalk

variable {g : FlowGraph} {id id' : HammockId} {entry exit u v : VertexId} {w : MeasuringWalk}
variable {vs rest : List VertexId} {count : Nat}

@[simp] theorem size_visit (id : HammockId) (w : MeasuringWalk) (v : VertexId) :
    (w.visit id v).containing.size = w.containing.size := by
  rw [visit]
  split
  · exact VertexTable.size_modify _ _ _
  · rfl

@[simp] theorem size_foldl_visit (id : HammockId) (w : MeasuringWalk) (vs : List VertexId) :
    (vs.foldl (visit id) w).containing.size = w.containing.size := by
  induction vs generalizing w with
  | nil => rfl
  | cons v vs ih => rw [List.foldl_cons, ih, size_visit]

theorem hasRow_visit (id : HammockId) (w : MeasuringWalk) (v u : VertexId) :
    (w.visit id v).containing.hasRow u = w.containing.hasRow u :=
  VertexTable.hasRow_congr (size_visit id w v) u

/-- The walk as a search that records what it has visited by itself. -/
def search (w : MeasuringWalk) (id : HammockId) : QueueSearch .vertex := ⟨w.visited id, w.queue⟩

theorem search_visit (hv : w.containing.hasRow v = true) :
    (w.visit id v).search id = (w.search id).visit v := by
  by_cases hnew : v ∈ w.visited id
  · rw [visit_eq_self fun h => h.2 hnew]
    exact (if_pos hnew).symm
  · rw [visit_of_not_mem hv hnew, search, visited, VertexTable.coveredBy_modify_insert hv]
    exact (if_neg hnew).symm

theorem search_foldl_visit (hvs : ∀ v ∈ vs, w.containing.hasRow v = true) :
    (vs.foldl (visit id) w).search id = vs.foldl QueueSearch.visit (w.search id) := by
  induction vs generalizing w with
  | nil => rfl
  | cons v vs ih =>
    obtain ⟨hv, hvs⟩ := List.forall_mem_cons.1 hvs
    rw [List.foldl_cons, List.foldl_cons, ih (by simpa only [hasRow_visit] using hvs),
      search_visit hv]

theorem mem_visited_foldl_visit (hvs : ∀ v ∈ vs, w.containing.hasRow v = true) :
    u ∈ (vs.foldl (visit id) w).visited id ↔ u ∈ vs ∨ u ∈ w.visited id := by
  show u ∈ ((vs.foldl (visit id) w).search id).visited ↔ _
  rw [search_foldl_visit hvs, QueueSearch.mem_visited_foldl_visit]
  rfl

theorem mem_queue_foldl_visit (hvs : ∀ v ∈ vs, w.containing.hasRow v = true) :
    u ∈ (vs.foldl (visit id) w).queue ↔ u ∈ w.queue ∨ (u ∈ vs ∧ u ∉ w.visited id) := by
  show u ∈ ((vs.foldl (visit id) w).search id).queue ↔ _
  rw [search_foldl_visit hvs, QueueSearch.mem_queue_foldl_visit]
  rfl

/-- A walk that measures the region between an entry and an exit, when it has counted a number of
vertices. -/
structure Measuring (g : FlowGraph) (id : HammockId) (entry exit : VertexId) (w : MeasuringWalk)
    (count : Nat) : Prop where
  size_eq : w.containing.size = g.vertexCount
  counted : count + w.queue.length = (w.visited id).card
  queued : ∀ v ∈ w.queue, v ∈ w.visited id
  entry_mem : entry ∈ w.visited id
  inside : w.visited id ⊆ g.regionBetween entry exit
  behind : ∀ v ∈ w.visited id, v ∉ w.queue → g.stepsUntil exit v ⊆ w.visited id

/-- The walk takes a vertex and visits those to which it goes on. -/
theorem Measuring.take (h : Measuring g id entry exit w count) (hq : w.queue = v :: rest)
    (hvs : ∀ u, u ∈ vs ↔ u ∈ g.stepsUntil exit v) :
    Measuring g id entry exit (vs.foldl (visit id) ⟨w.containing, rest⟩) (count + 1) := by
  have hv : v ∈ w.visited id := h.queued v (hq ▸ List.mem_cons_self)
  have hrows : ∀ u ∈ vs, (⟨w.containing, rest⟩ : MeasuringWalk).containing.hasRow u = true := by
    intro u hu
    have hsucc := (FlowGraph.mem_stepsUntil.1 ((hvs u).1 hu)).2
    rw [VertexTable.hasRow_congr (t := g.successorTable) h.size_eq]
    exact FlowGraph.contains_of_mem_successors hsucc
  have hmem : ∀ u, u ∈ (vs.foldl (visit id) ⟨w.containing, rest⟩).visited id ↔
      u ∈ vs ∨ u ∈ w.visited id := fun u => mem_visited_foldl_visit hrows
  refine ⟨(size_foldl_visit id _ vs).trans h.size_eq, ?_, fun u hu => ?_, ?_, fun u hu => ?_,
    fun u hu hqueue => ?_⟩
  · have hlen := length_queue_foldl_visit id ⟨w.containing, rest⟩ vs
    have hcount := h.counted
    simp only [visited, hq, List.length_cons] at hlen hcount ⊢
    omega
  · rw [hmem]
    rcases (mem_queue_foldl_visit hrows).1 hu with hu | ⟨hu, _⟩
    · exact .inr (h.queued u (hq ▸ List.mem_cons_of_mem v hu))
    · exact .inl hu
  · exact (hmem entry).2 (.inr h.entry_mem)
  · rcases (hmem u).1 hu with hu | hu
    · have hchain := FlowGraph.mem_regionBetween.1 (h.inside v hv)
      exact FlowGraph.mem_regionBetween.2 (hchain.tail ((hvs u).1 hu))
    · exact h.inside u hu
  · intro x hx
    rw [hmem]
    rw [mem_queue_foldl_visit hrows, not_or, not_and, Decidable.not_not] at hqueue
    -- what has left the queue is the vertex just taken or had left it before
    have hold : u ∈ w.visited id := ((hmem u).1 hu).elim hqueue.2 fun hu => hu
    by_cases huv : u = v
    · exact .inl ((hvs x).2 (huv ▸ hx))
    · refine .inr (h.behind u hold (fun hmemq => ?_) x hx)
      exact hqueue.1 ((List.mem_cons.1 (hq ▸ hmemq)).resolve_left huv)

/-- With nothing left in its queue, the walk has visited the whole region. -/
theorem Measuring.visited_eq (h : Measuring g id entry exit w count) (hq : w.queue = []) :
    w.visited id = g.regionBetween entry exit := by
  refine IdSet.ext fun v => ⟨h.inside v, fun hv => ?_⟩
  rw [FlowGraph.mem_regionBetween] at hv
  induction hv with
  | refl => exact h.entry_mem
  | tail _ hstep ih => exact h.behind _ ih (hq ▸ List.not_mem_nil) _ hstep

/-- A walk notes its hammock in the whole region and counts the vertices of the region. -/
theorem Measuring.run_eq (h : Measuring g id entry exit w count) :
    (run g id exit w count).1.coveredBy id = g.regionBetween entry exit ∧
      (run g id exit w count).2 = (g.regionBetween entry exit).card := by
  fun_induction run g id exit w count with
  | case1 w count hq =>
    have hvisited := h.visited_eq hq
    have hcount := h.counted
    rw [hq, List.length_nil, Nat.add_zero, hvisited] at hcount
    exact ⟨hvisited, hcount⟩
  | case2 w count rest hq ih =>
    have hstop : ∀ u, u ∈ ([] : List VertexId) ↔ u ∈ g.stepsUntil exit exit := by simp
    exact ih (h.take hq hstop)
  | case3 w count v rest hq hexit ih => exact ih (h.take hq (by simp [hexit]))

theorem coveredBy_visit_of_ne (hne : id' ≠ id) (w : MeasuringWalk) (v : VertexId) :
    (w.visit id v).containing.coveredBy id' = w.containing.coveredBy id' := by
  rw [visit]
  split
  · exact VertexTable.coveredBy_modify_insert_of_ne hne
  · rfl

theorem coveredBy_foldl_visit_of_ne (hne : id' ≠ id) (w : MeasuringWalk) (vs : List VertexId) :
    (vs.foldl (visit id) w).containing.coveredBy id' = w.containing.coveredBy id' := by
  induction vs generalizing w with
  | nil => rfl
  | cons v vs ih => rw [List.foldl_cons, ih, coveredBy_visit_of_ne hne]

/-- A walk leaves alone what is noted of other hammocks. -/
theorem coveredBy_run_of_ne (hne : id' ≠ id) (g : FlowGraph) (exit : VertexId)
    (w : MeasuringWalk) (count : Nat) :
    (run g id exit w count).1.coveredBy id' = w.containing.coveredBy id' := by
  fun_induction run g id exit w count with
  | case1 => rfl
  | case2 w count rest hq ih => exact ih
  | case3 w count v rest hq hexit ih => exact ih.trans (coveredBy_foldl_visit_of_ne hne _ _)

theorem size_run (g : FlowGraph) (id : HammockId) (exit : VertexId) (w : MeasuringWalk)
    (count : Nat) : (run g id exit w count).1.size = w.containing.size := by
  fun_induction run g id exit w count with
  | case1 => rfl
  | case2 w count rest hq ih => exact ih
  | case3 w count v rest hq hexit ih => exact ih.trans (size_foldl_visit _ _ _)

/-- A walk begins at its entry, where its hammock is noted first. -/
theorem measuring_begin {t : VertexTable HammockSet} (hsize : t.size = g.vertexCount)
    (hentry : g.contains entry = true) (hnew : t.coveredBy id = ∅) (exit : VertexId) :
    Measuring g id entry exit ⟨t.modify entry (insert id), [entry]⟩ 0 := by
  have hrow : t.hasRow entry = true := (VertexTable.hasRow_congr hsize entry).trans hentry
  have hvisited : (⟨t.modify entry (insert id), [entry]⟩ : MeasuringWalk).visited id = {entry} := by
    refine IdSet.ext fun v => ?_
    rw [visited, VertexTable.coveredBy_modify_insert hrow, hnew]
    simp
  refine ⟨(VertexTable.size_modify _ _ _).trans hsize, ?_, ?_, ?_, ?_, ?_⟩ <;> rw [hvisited]
  · rfl
  · exact fun v hv => IdSet.mem_singleton.2 (List.mem_singleton.1 hv)
  · exact IdSet.mem_singleton.2 rfl
  · intro v hv
    exact IdSet.mem_singleton.1 hv ▸ FlowGraph.entry_mem_regionBetween g entry exit
  · exact fun v hv hqueue => absurd (List.mem_singleton.2 (IdSet.mem_singleton.1 hv)) hqueue

end MeasuringWalk

/-! ## All walks -/

namespace VertexIndex

variable {g : FlowGraph} {x : VertexIndex} {id id' : HammockId} {entry exit : VertexId}

theorem measureAll_cons (g : FlowGraph) (x : VertexIndex) (id : HammockId)
    (entry exit : VertexId) (rest : List (HammockId × VertexId × VertexId)) :
    x.measureAll g ((id, entry, exit) :: rest) =
      (((x.measure g id entry exit).1.measureAll g rest).1,
        (x.measure g id entry exit).2 :: ((x.measure g id entry exit).1.measureAll g rest).2) :=
  rfl

/-- The index has a row for every vertex of the graph. -/
structure Fits (x : VertexIndex) (g : FlowGraph) : Prop where
  size_containing : x.containing.size = g.vertexCount
  size_startedAt : x.startedAt.size = g.vertexCount

/-- Nothing is noted of a hammock. -/
structure Unmeasured (x : VertexIndex) (id : HammockId) : Prop where
  containing_eq : x.containing.coveredBy id = ∅
  startedAt_eq : x.startedAt.coveredBy id = ∅

/-- A hammock is noted in its region and at its entry. -/
structure Measured (x : VertexIndex) (g : FlowGraph) (id : HammockId) (entry exit : VertexId) :
    Prop where
  containing_eq : x.containing.coveredBy id = g.regionBetween entry exit
  startedAt_eq : x.startedAt.coveredBy id = {entry}

/-- The same is noted of a hammock. -/
structure Agrees (x x' : VertexIndex) (id : HammockId) : Prop where
  containing_eq : x.containing.coveredBy id = x'.containing.coveredBy id
  startedAt_eq : x.startedAt.coveredBy id = x'.startedAt.coveredBy id

theorem fits_empty (g : FlowGraph) : (empty g).Fits g :=
  ⟨VertexTable.size_map _ _, VertexTable.size_map _ _⟩

theorem unmeasured_empty (g : FlowGraph) (id : HammockId) : (empty g).Unmeasured id := by
  have hnone : ∀ t : VertexTable (List VertexId),
      (t.map fun _ => (∅ : HammockSet)).coveredBy id = ∅ := by
    intro t
    refine IdSet.ext fun v => ?_
    rw [VertexTable.mem_coveredBy, VertexTable.getD, VertexTable.get?_map]
    cases t.get? v <;> simp
  exact ⟨hnone _, hnone _⟩

theorem Fits.measure (hx : x.Fits g) (id : HammockId) (entry exit : VertexId) :
    (x.measure g id entry exit).1.Fits g where
  size_containing := (MeasuringWalk.size_run g id exit _ 0).trans
    ((VertexTable.size_modify _ _ _).trans hx.size_containing)
  size_startedAt := (VertexTable.size_modify _ _ _).trans hx.size_startedAt

/-- Measuring a hammock notes it in its region and returns the number of vertices there. -/
theorem Unmeasured.measure (h : x.Unmeasured id) (hx : x.Fits g)
    (hentry : g.contains entry = true) (exit : VertexId) :
    (x.measure g id entry exit).1.Measured g id entry exit ∧
      (x.measure g id entry exit).2 = (g.regionBetween entry exit).card := by
  have hbegin := MeasuringWalk.measuring_begin hx.size_containing hentry h.containing_eq exit
  have hrun := hbegin.run_eq
  have hrow : x.startedAt.hasRow entry = true :=
    (VertexTable.hasRow_congr hx.size_startedAt entry).trans hentry
  have hstart : (x.startedAt.modify entry (insert id)).coveredBy id = {entry} := by
    refine IdSet.ext fun v => ?_
    rw [VertexTable.coveredBy_modify_insert hrow, h.startedAt_eq]
    simp
  exact ⟨⟨hrun.1, hstart⟩, hrun.2⟩

/-- Measuring a hammock changes nothing about the others. -/
theorem agrees_measure (hne : id' ≠ id) (g : FlowGraph) (x : VertexIndex)
    (entry exit : VertexId) : (x.measure g id entry exit).1.Agrees x id' where
  containing_eq := (MeasuringWalk.coveredBy_run_of_ne hne g exit _ 0).trans
    (VertexTable.coveredBy_modify_insert_of_ne hne)
  startedAt_eq := VertexTable.coveredBy_modify_insert_of_ne hne

variable {hs : List (HammockId × VertexId × VertexId)}

/-- Measuring hammocks changes nothing about the others. -/
theorem agrees_measureAll (hid : id ∉ hs.map Prod.fst) (g : FlowGraph) (x : VertexIndex) :
    (x.measureAll g hs).1.Agrees x id := by
  induction hs generalizing x with
  | nil => exact ⟨rfl, rfl⟩
  | cons h hs ih =>
    obtain ⟨hne, hid⟩ := not_or.1 (fun hmem => hid (List.mem_cons.2 hmem))
    have hrest := ih hid (x.measure g h.1 h.2.1 h.2.2).1
    have hfirst := agrees_measure hne g x h.2.1 h.2.2
    exact ⟨hrest.containing_eq.trans hfirst.containing_eq,
      hrest.startedAt_eq.trans hfirst.startedAt_eq⟩

/-- Hammocks with different identifiers are measured on one index as if each had its own. -/
theorem Fits.measured (hx : x.Fits g) (hids : (hs.map Prod.fst).Nodup)
    (hentry : ∀ h ∈ hs, g.contains h.2.1 = true) (hnew : ∀ h ∈ hs, x.Unmeasured h.1) :
    (∀ h ∈ hs, (x.measureAll g hs).1.Measured g h.1 h.2.1 h.2.2) ∧
      (x.measureAll g hs).2 = hs.map fun h => (g.regionBetween h.2.1 h.2.2).card := by
  induction hs generalizing x with
  | nil => simp [VertexIndex.measureAll]
  | cons h hs ih =>
    obtain ⟨id, entry, exit⟩ := h
    obtain ⟨hid, hids⟩ := List.nodup_cons.1 hids
    obtain ⟨hentry, hentries⟩ := List.forall_mem_cons.1 hentry
    obtain ⟨hnew, hnews⟩ := List.forall_mem_cons.1 hnew
    obtain ⟨hmeasured, hcard⟩ := hnew.measure hx hentry exit
    -- the first walk leaves the others to be measured, and they leave alone what it has noted
    have hother : ∀ h ∈ hs, (x.measure g id entry exit).1.Unmeasured h.1 := by
      intro h hh
      have hne : h.1 ≠ id := fun heq => hid (heq ▸ List.mem_map.2 ⟨h, hh, rfl⟩)
      have hagrees := agrees_measure hne g x entry exit
      exact ⟨hagrees.containing_eq.trans (hnews h hh).containing_eq,
        hagrees.startedAt_eq.trans (hnews h hh).startedAt_eq⟩
    have hafter := agrees_measureAll hid g (x.measure g id entry exit).1
    obtain ⟨hrest, hcards⟩ := ih (hx.measure id entry exit) hids hentries hother
    rw [measureAll_cons]
    refine ⟨List.forall_mem_cons.2 ⟨?_, hrest⟩, ?_⟩
    · exact ⟨hafter.containing_eq.trans hmeasured.containing_eq,
        hafter.startedAt_eq.trans hmeasured.startedAt_eq⟩
    · rw [List.map_cons, hcard, hcards]

end VertexIndex

/-! ## The registered hammocks -/

namespace HammockRegistry

variable {r : HammockRegistry} {g : FlowGraph} {b : BoundaryRelation} {id : HammockId}
variable {x y : Hammock} {v : VertexId}

/-- A hammock is found by its identifier, as long as there are enough identifiers. -/
theorem get?_id_register (hsize : b.size ≤ idCount) (hx : x ∈ (register g b).value.hammocks) :
    (register g b).value.get? x.id = some x := by
  obtain ⟨i, hi⟩ := Array.mem_iff_getElem?.1 hx
  have hmap := getElem?_register.symm.trans hi
  obtain ⟨p, hp, rfl⟩ := Option.map_eq_some_iff.1 hmap
  have hlt := (List.getElem?_eq_some_iff.1 hp).1
  have hindex : (DenseId.ofIndex i : HammockId).index = i :=
    DenseId.index_ofIndex_of_lt (by rw [BoundaryRelation.length_pairs] at hlt; omega)
  rwa [get?, hindex]

theorem contains_entry_of_get? (hentry : ∀ s e, b.contains s e = true → g.contains s = true)
    (hx : (register g b).value.get? id = some x) : g.contains x.entry = true := by
  obtain ⟨s, e, hp, rfl⟩ := get?_register.1 hx
  exact hentry s e (BoundaryRelation.contains_iff.2
    (BoundaryRelation.mem_pairs.1 (List.mem_of_getElem? hp)))

theorem map_fst_outline (g : FlowGraph) (b : BoundaryRelation) :
    (register g b).value.outline.map Prod.fst = (register g b).value.ids :=
  List.map_map.trans (map_id_register g b)

/-- Registered hammocks are measured on one index as if each had its own. -/
theorem measured_register (hsize : b.size ≤ idCount)
    (hentry : ∀ s e, b.contains s e = true → g.contains s = true) :
    (∀ x ∈ (register g b).value.hammocks,
      ((VertexIndex.empty g).measureAll g (register g b).value.outline).1.Measured g x.id
        x.entry x.exit) ∧
    ((VertexIndex.empty g).measureAll g (register g b).value.outline).2 =
      (register g b).value.hammocks.toList.map Hammock.size := by
  have hget : ∀ x ∈ (register g b).value.hammocks.toList,
      (register g b).value.get? x.id = some x := fun x hx =>
    get?_id_register hsize (Array.mem_toList_iff.1 hx)
  have hnodup : ((register g b).value.outline.map Prod.fst).Nodup := by
    rw [map_fst_outline]
    exact IdSet.nodup_of_ascending (pairwise_ids (size_register g b ▸ hsize))
  have hentries : ∀ h ∈ (register g b).value.outline, g.contains h.2.1 = true :=
    List.forall_mem_map.2 fun x hx => contains_entry_of_get? hentry (hget x hx)
  obtain ⟨hmeasured, hcards⟩ := (VertexIndex.fits_empty g).measured hnodup hentries
    fun h _ => VertexIndex.unmeasured_empty g h.1
  refine ⟨fun x hx => hmeasured _ (List.mem_map_of_mem (Array.mem_toList_iff.2 hx)),
    hcards.trans ?_⟩
  rw [outline, List.map_map]
  refine List.map_congr_left fun x hx => ?_
  obtain ⟨s, e, _, hbody⟩ := get?_register.1 (hget x hx)
  rw [hbody]
  rfl

/-- The index after the walks of all hammocks answers as the registry does, and the walks have
counted the sizes. -/
theorem measureAll_register (hsize : b.size ≤ idCount)
    (hentry : ∀ s e, b.contains s e = true → g.contains s = true)
    (hr : (register g b).value = r) :
    ∃ index, (VertexIndex.empty g).measureAll g r.outline =
        (index, r.hammocks.toList.map Hammock.size) ∧
      ∀ v, index.containing.getD v ∅ = r.containing v ∧
        index.startedAt.getD v ∅ = r.startedAt v := by
  subst hr
  obtain ⟨hmeasured, hsizes⟩ := measured_register hsize hentry
  suffices hnoted : ∀ id v,
      (v ∈ ((VertexIndex.empty g).measureAll g (register g b).value.outline).1.containing.coveredBy
          id ↔ id ∈ (register g b).value.containing v) ∧
      (v ∈ ((VertexIndex.empty g).measureAll g (register g b).value.outline).1.startedAt.coveredBy
          id ↔ id ∈ (register g b).value.startedAt v) by
    simp only [VertexTable.mem_coveredBy] at hnoted
    exact ⟨_, Prod.ext rfl hsizes, fun v =>
      ⟨IdSet.ext fun id => (hnoted id v).1, IdSet.ext fun id => (hnoted id v).2⟩⟩
  intro id v
  rw [mem_containing, mem_startedAt]
  cases hx : (register g b).value.get? id with
  | none =>
    -- of a hammock that is not registered, nothing is noted to the end
    have hid : id ∉ (register g b).value.outline.map Prod.fst := by
      rw [map_fst_outline, mem_ids, hx]
      simp
    have hsame := VertexIndex.agrees_measureAll hid g (.empty g)
    have hempty := VertexIndex.unmeasured_empty g id
    simp [hsame.containing_eq, hsame.startedAt_eq, hempty.containing_eq, hempty.startedAt_eq]
  | some x =>
    obtain ⟨s, e, _, rfl⟩ := get?_register.1 hx
    have hmeas := hmeasured _ (Array.mem_of_getElem? hx)
    simp [hmeas.containing_eq, hmeas.startedAt_eq, eq_comm]

/-- The hammocks are registered in the order of the pairs. -/
theorem map_bounds_register (g : FlowGraph) (b : BoundaryRelation) :
    (register g b).value.hammocks.toList.map Hammock.bounds = b.pairs := by
  refine List.ext_getElem? fun i => ?_
  rw [List.getElem?_map, Array.getElem?_toList, getElem?_register, Option.map_map]
  exact congrFun Option.map_id _

/-- Registration numbers the pairs of a relation by position in their ascending order. A hammock is
listed at the vertices to which routes from its entry lead that do not visit its exit before they
end; they make up its size. It starts at its entry. So it is noted by the walks that measure all
hammocks, one after the other, on one index. -/
theorem hammocks_registered_in_order (g : FlowGraph) (b : BoundaryRelation) {r : HammockRegistry}
    (hr : (register g b).value = r) (hsize : b.size ≤ idCount)
    (hentry : ∀ s e, b.contains s e = true → g.contains s = true) :
    (b.pairs.Pairwise (Prod.Lex (· < ·) (· < ·)) ∧
      (∀ s e, (s, e) ∈ b.pairs ↔ b.contains s e = true) ∧
      r.hammocks.toList.map Hammock.bounds = b.pairs ∧
      (∀ (i : Nat) x, r.hammocks[i]? = some x → x.id.index = i) ∧
      ∀ x ∈ r.hammocks, ∀ y ∈ r.hammocks,
        x.id < y.id ↔ Prod.Lex (· < ·) (· < ·) x.bounds y.bounds) ∧
    (∀ x ∈ r.hammocks,
      (∀ v, (x.id ∈ r.containing v ↔ ∃ p, g.Route x.entry v p ∧ x.exit ∉ p.dropLast) ∧
        (x.id ∈ r.startedAt v ↔ x.entry = v)) ∧
      x.size = {v | ∃ p, g.Route x.entry v p ∧ x.exit ∉ p.dropLast}.ncard) ∧
    (∀ v id, id ∈ r.containing v ∨ id ∈ r.startedAt v → ∃ x ∈ r.hammocks, x.id = id) ∧
    ∃ index, (VertexIndex.empty g).measureAll g r.outline =
        (index, r.hammocks.toList.map Hammock.size) ∧
      ∀ v, index.containing.getD v ∅ = r.containing v ∧
        index.startedAt.getD v ∅ = r.startedAt v := by
  have hindex := measureAll_register hsize hentry hr
  subst hr
  have hget : ∀ x ∈ (register g b).value.hammocks, (register g b).value.get? x.id = some x :=
    fun x hx => get?_id_register hsize hx
  refine ⟨⟨b.pairwise_pairs, fun s e => ?_, map_bounds_register g b, fun i x hx => ?_,
    fun x hx y hy => ⟨lex_bounds_of_lt (hget x hx) (hget y hy), fun hlex => ?_⟩⟩,
    fun x hx => ?_, fun v id hid => ?_, hindex⟩
  · rw [BoundaryRelation.mem_pairs, BoundaryRelation.contains_iff]
  · rw [getElem?_register] at hx
    obtain ⟨p, hp, rfl⟩ := Option.map_eq_some_iff.1 hx
    have hi := (List.getElem?_eq_some_iff.1 hp).1
    rw [BoundaryRelation.length_pairs] at hi
    exact DenseId.index_ofIndex_of_lt (by omega)
  · -- in the other order, or with one identifier, the bounds would not be in this order
    refine Decidable.of_not_not fun hlt => BoundaryRelation.lex_asymm hlex ?_
    by_cases hgt : y.id < x.id
    · exact lex_bounds_of_lt (hget y hy) (hget x hx) hgt
    · have hid := DenseId.eq_of_not_lt hlt hgt
      obtain rfl := Option.some.inj ((hget x hx).symm.trans (hid ▸ hget y hy))
      exact hlex
  · have hbody : ∀ v, v ∈ x.body ↔ ∃ p, g.Route x.entry v p ∧ x.exit ∉ p.dropLast := by
      intro v
      obtain ⟨s, e, _, heq⟩ := get?_register.1 (hget x hx)
      have hs := contains_entry_of_get? hentry (hget x hx)
      rw [← FlowGraph.mem_regionBetween_iff_exists_route hs, heq]
    refine ⟨fun v => ⟨?_, ?_⟩, ?_⟩
    · rw [mem_containing, hget x hx, ← hbody]
      simp
    · rw [mem_startedAt, hget x hx]
      simp
    · simp only [← hbody]
      exact (IdSet.ncard_members x.body).symm
  · have hsome : ∃ x, (register g b).value.get? id = some x := by
      rcases hid with hid | hid
      · exact (mem_containing.1 hid).imp fun _ => And.left
      · exact (mem_startedAt.1 hid).imp fun _ => And.left
    obtain ⟨x, hx⟩ := hsome
    obtain ⟨s, e, _, rfl⟩ := get?_register.1 hx
    exact ⟨_, Array.mem_of_getElem? hx, rfl⟩

/-- Of the pairs around loops, the one that ends where it begins covers that vertex alone. The pair
from the third vertex back to the source, to which nothing leads, covers three vertices. -/
theorem knot_registered :
    knot.size ≤ idCount ∧
      (∀ s e, knot.contains s e = true → FlowGraph.loops.contains s = true) ∧
      ∃ r, (register FlowGraph.loops knot).value = r ∧
        r.hammocks.toList.map Hammock.bounds =
          [(⟨0⟩, ⟨3⟩), (⟨1⟩, ⟨0⟩), (⟨1⟩, ⟨1⟩), (⟨2⟩, ⟨0⟩)] ∧
        (∀ p, FlowGraph.loops.Route ⟨1⟩ ⟨3⟩ p → ⟨1⟩ ∈ p.dropLast) ∧
        (∃ p, FlowGraph.loops.Route ⟨2⟩ ⟨3⟩ p ∧ ⟨0⟩ ∉ p.dropLast) ∧
        {v | ∃ p, FlowGraph.loops.Route ⟨2⟩ v p ∧ ⟨0⟩ ∉ p.dropLast}.ncard = 3 ∧
        ⟨2⟩ ∈ r.startedAt ⟨1⟩ ∧ ⟨3⟩ ∉ r.startedAt ⟨1⟩ := by
  have hsize : knot.size ≤ idCount := by decide
  have hentry : ∀ s e, knot.contains s e = true → FlowGraph.loops.contains s = true := by
    intro s e hse
    have hall : ∀ p ∈ knot.pairs, FlowGraph.loops.contains p.1 = true := by decide +kernel
    exact hall (s, e) (BoundaryRelation.mem_pairs.2 (BoundaryRelation.contains_iff.1 hse))
  obtain ⟨⟨_, _, hpairs, _, _⟩, hroutes, _, _⟩ :=
    hammocks_registered_in_order FlowGraph.loops knot rfl hsize hentry
  have hself : (⟨⟨2⟩, ⟨1⟩, ⟨1⟩, {⟨1⟩}⟩ : Hammock) ∈
      (register FlowGraph.loops knot).value.hammocks := by decide +kernel
  have hback : (⟨⟨3⟩, ⟨2⟩, ⟨0⟩, .ofList [⟨1⟩, ⟨2⟩, ⟨3⟩]⟩ : Hammock) ∈
      (register FlowGraph.loops knot).value.hammocks := by decide +kernel
  have hout : (⟨2⟩ : HammockId) ∉ (register FlowGraph.loops knot).value.containing ⟨3⟩ := by
    decide +kernel
  have hin : (⟨3⟩ : HammockId) ∈ (register FlowGraph.loops knot).value.containing ⟨3⟩ := by
    decide +kernel
  obtain ⟨hselfRoutes, _⟩ := hroutes _ hself
  obtain ⟨hbackRoutes, hbackSize⟩ := hroutes _ hback
  refine ⟨hsize, hentry, _, rfl, hpairs.trans (by decide +kernel), fun p hp => ?_,
    (hbackRoutes ⟨3⟩).1.1 hin, hbackSize.symm.trans (by decide +kernel),
    (hselfRoutes ⟨1⟩).2.2 rfl, fun hstart => ?_⟩
  · exact Decidable.of_not_not fun hexit => hout ((hselfRoutes ⟨3⟩).1.2 ⟨p, hp, hexit⟩)
  · exact absurd ((hbackRoutes ⟨1⟩).2.1 hstart) (by decide)

end HammockRegistry

end FlowRegions
