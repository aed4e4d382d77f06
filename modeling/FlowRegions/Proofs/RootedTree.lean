import FlowRegions.Proofs.NecessaryPassage
import FlowRegions.Proofs.Numbering
import FlowRegions.Proofs.Preorder

/-!
# The links of any tree

Here nothing is asked of the registered pairs: hammocks may cross, share an entry or end where they
begin, and the graph may have cycles. A walk may then meet a hammock that is far from nested in its
host, and several walks may meet the same one. All the same every moment of the construction has one
tree below the root and hammocks without any links beside it (`Passes.rooted`): a hammock is linked
when it is attached, by the first walk that meets it, and never again. The root is the first of the
largest hammocks (`sizeOf_lt_of_lt_largest?`).
-/

namespace FlowRegions

namespace LinkTable

variable {t : LinkTable} {child parent c : HammockId}

/-- Attaching a hammock changes no siblings. -/
theorem siblings_get_attach :
    ((t.attach child parent).get c).siblings = (t.get c).siblings := by
  rw [attach, get_modify]
  split <;> rw [get_modify] <;> split <;> rfl

/-- Siblings are written down for the given hammocks only. -/
theorem siblings_get_setSiblings (siblings : HammockId → HammockSet) (ids : List HammockId) :
    ((t.setSiblings siblings ids).get c).siblings =
      if c ∈ ids ∧ c.index < t.rows.size then siblings c else (t.get c).siblings := by
  induction ids generalizing t with
  | nil => simp [setSiblings]
  | cons a ids ih =>
    rw [setSiblings, List.foldl_cons, ← setSiblings, ih, get_modify, size_modify]
    by_cases hca : c = a
    · subst hca
      by_cases hc : c.index < t.rows.size <;> simp [hc]
    · simp [hca]

end LinkTable

namespace HammockRegistry

variable {r : HammockRegistry} {g : FlowGraph} {b : BoundaryRelation} {c id : HammockId}
variable {s : Construction}

/-! ## The root -/

/-- Identifiers come in ascending order, as long as there are enough of them. -/
theorem pairwise_ids (hsize : r.size ≤ idCount) : r.ids.Pairwise (· < ·) := by
  rw [ids, List.pairwise_map]
  refine List.pairwise_lt_range.imp_of_mem fun hi hj hij => ?_
  rw [List.mem_range] at hi hj
  rwa [DenseId.lt_iff_index_lt, DenseId.index_ofIndex_of_lt (by omega),
    DenseId.index_ofIndex_of_lt (by omega)]

/-- What the choice from an ascending list settles on is larger than all before it. -/
theorem foldl_larger_first {ids : List HammockId} {a : HammockId}
    (hids : (a :: ids).Pairwise (· < ·)) :
    ∃ m, ids.foldl r.larger (some a) = some m ∧ r.sizeOf a ≤ r.sizeOf m ∧
      ∀ id ∈ a :: ids, id < m → r.sizeOf id < r.sizeOf m := by
  induction ids generalizing a with
  | nil =>
    refine ⟨a, rfl, Nat.le_refl _, fun id hid hlt => ?_⟩
    rw [List.mem_singleton.1 hid] at hlt
    exact absurd hlt (DenseId.lt_irrefl a)
  | cons b ids ih =>
    obtain ⟨hfirst, hrest⟩ := List.pairwise_cons.1 hids
    rw [List.foldl_cons, larger]
    split
    · next hlt =>
      obtain ⟨m, hm, hbm, hall⟩ := ih hrest
      refine ⟨m, hm, by omega, List.forall_mem_cons.2 ⟨fun _ => by omega, hall⟩⟩
    · next hle =>
      obtain ⟨m, hm, ham, hall⟩ := ih
        (List.pairwise_cons.2 ⟨(List.forall_mem_cons.1 hfirst).2, (List.pairwise_cons.1 hrest).2⟩)
      obtain ⟨ha, htail⟩ := List.forall_mem_cons.1 hall
      refine ⟨m, hm, ham,
        List.forall_mem_cons.2 ⟨ha, List.forall_mem_cons.2 ⟨fun hbm => ?_, htail⟩⟩⟩
      -- what is passed over is no larger than what is kept, which comes before it
      have := ha (DenseId.lt_trans (hfirst b List.mem_cons_self) hbm)
      omega

/-- Of several largest hammocks the first is chosen. -/
theorem sizeOf_lt_of_lt_largest? {ids : List HammockId} (hids : ids.Pairwise (· < ·))
    (h : r.largest? ids = some c) (hid : id ∈ ids) (hlt : id < c) : r.sizeOf id < r.sizeOf c := by
  cases ids with
  | nil => cases hid
  | cons a ids =>
    obtain ⟨m, hm, _, hall⟩ := foldl_larger_first (r := r) hids
    rw [largest?_eq, List.foldl_cons, larger, hm] at h
    obtain rfl := Option.some.inj h
    exact hall id hid hlt

/-! ## The links -/

/-- Hammocks that are not attached have no siblings. -/
theorem Passes.siblings_eq_empty (hs : r.Passes g s) (hc : c ∉ s.tree.attached) :
    s.tree.siblings c = ∅ := by
  induction hs with
  | start hroot => simp [Construction.start, HammockTree.planted, HammockTree.siblings]
  | step hs hstep ih =>
    cases hstep with
    | stop | jump | spread => exact ih hc
    | @finish t w below hq =>
      refine (LinkTable.siblings_get_setSiblings _ _).trans ((if_neg fun h => ?_).trans (ih hc))
      -- siblings are written down for children, and these have been attached
      have hparent := (hs.mirrored.mem_children_iff w.host c).1 h.1
      exact hc (hs.linked.parent_attached c w.host hparent).1
    | nest =>
      exact LinkTable.siblings_get_attach.trans (ih fun h => hc (IdSet.mem_insert.2 (.inr h)))

end HammockRegistry

namespace HammockTree

/-- The links make up one tree below the root, and the hammocks beside it have none. -/
structure Rooted (t : HammockTree) : Prop where
  root_attached : t.root ∈ t.attached
  parent_root : t.parent? t.root = none
  /-- From the attached hammocks links lead to the root. -/
  within_root : ∀ c ∈ t.attached, t.Within t.root c
  exists_parent : ∀ c ∈ t.attached, c ≠ t.root → ∃ p ∈ t.attached, t.parent? c = some p ∧
    t.registry.sizeOf c < t.registry.sizeOf p ∧ (t.children p).count c = 1 ∧
      ∀ q, q ≠ p → c ∉ t.children q
  of_child : ∀ p, ∀ c ∈ t.children p, c ∈ t.attached ∧ t.parent? c = some p
  detached : ∀ c, c ∉ t.attached → t.parent? c = none ∧ t.children c = [] ∧ t.siblings c = ∅

end HammockTree

namespace HammockRegistry

variable {r : HammockRegistry} {g : FlowGraph} {b : BoundaryRelation} {s : Construction}

/-- At every moment of the construction, the links make up one tree below the root. -/
theorem Passes.rooted (hs : r.Passes g s) : s.tree.Rooted where
  root_attached := hs.root_attached
  parent_root := hs.mirrored.parent_root
  within_root _ hc := hs.within_root_iff.2 hc
  exists_parent c hc hroot := by
    obtain ⟨p, hp⟩ := hs.linked.exists_parent c hc hroot
    have hmem := (hs.mirrored.mem_children_iff p c).2 hp
    refine ⟨p, (hs.linked.parent_attached c p hp).2, hp, s.tree.parent_larger c p hp,
      List.count_eq_one_of_mem (hs.mirrored.nodup_children p) hmem, fun q hqp hq => hqp ?_⟩
    exact Option.some.inj (((hs.mirrored.mem_children_iff q c).1 hq).symm.trans hp)
  of_child p c hc := by
    have hp := (hs.mirrored.mem_children_iff p c).1 hc
    exact ⟨(hs.linked.parent_attached c p hp).1, hp⟩
  detached _ hc :=
    ⟨hs.linked.parent?_eq_none hc, hs.children_eq_nil hc, hs.siblings_eq_empty hc⟩

/-- Whatever pairs are registered, as many as there are identifiers at most, if there are any they
are nested into one tree beside which there are only hammocks without links. The root is the first
of the largest hammocks. The records and the indices of the vertices are those of the registry. -/
theorem nest_rooted (g : FlowGraph) (b : BoundaryRelation) (hne : 0 < b.size)
    (hsize : b.size ≤ idCount) :
    ∃ t, ((register g b).value.nest g).run.value = .ok t ∧ t.Rooted ∧
      (∀ id x, t.get? id = some x →
        x.size ≤ t.rootHammock.size ∧ (id < t.root → x.size < t.rootHammock.size)) ∧
      t.get? t.root = some t.rootHammock ∧ t.registry = (register g b).value ∧
      t.size = b.size ∧
      ∀ id x, t.get? id = some x → x.id = id ∧ b.pairs[id.index]? = some x.bounds := by
  have hcount : (register g b).value.size = b.size := size_register g b
  obtain ⟨root, hroot⟩ := exists_largest?_register g hne
  obtain ⟨t, ht⟩ := exists_nest g (mem_of_largest? hroot)
  have hs := passes_of_nest ht
  obtain ⟨hreg, hlargest⟩ := hs.largest
  have hroot : t.get? t.root = some t.rootHammock := (Option.some_get _).symm
  refine ⟨t, ht, hs.rooted, fun id x hx => ?_, hroot, hreg, ?_, fun id x hx => ?_⟩
  · rw [HammockTree.get?, hreg] at hx hroot
    rw [← sizeOf_of_get? hx, ← sizeOf_of_get? hroot]
    have hid := mem_ids_of_get? hx
    exact ⟨sizeOf_le_of_largest? hlargest hid,
      sizeOf_lt_of_lt_largest? (pairwise_ids (hcount ▸ hsize)) hlargest hid⟩
  · rw [HammockTree.size, hreg, hcount]
  · rw [HammockTree.get?, hreg] at hx
    obtain ⟨s, e, hpair, rfl⟩ := get?_register.1 hx
    exact ⟨rfl, hpair⟩

/-- Pairs around the loops of a graph that are no candidates: two with one entry, of which one ends
where it begins, and two that lead back to the source. -/
def knot : BoundaryRelation :=
  [(⟨0⟩, ⟨3⟩), (⟨1⟩, ⟨0⟩), (⟨1⟩, ⟨1⟩), (⟨2⟩, ⟨0⟩)].foldl (fun r p => r.insert p.1 p.2) (.new 4)

/-- The pair that ends where it begins nests in the other one with its entry, which alone lists it.
The pair from the third vertex crosses that one and stays without links, although both are of the
same size. -/
theorem knot_rooted :
    0 < knot.size ∧ knot.size ≤ idCount ∧
      ∃ t, ((register FlowGraph.loops knot).value.nest FlowGraph.loops).run.value = .ok t ∧
        t.root = ⟨0⟩ ∧ t.parent? t.root = none ∧ t.parent? ⟨2⟩ = some ⟨1⟩ ∧
        (t.children ⟨1⟩).count ⟨2⟩ = 1 ∧ ⟨2⟩ ∉ t.children ⟨0⟩ ∧ t.registry.sizeOf ⟨3⟩ = 3 ∧
        t.parent? ⟨3⟩ = none ∧ t.children ⟨3⟩ = [] ∧ t.siblings ⟨3⟩ = ∅ := by
  have hne : 0 < knot.size := by decide
  have hsize : knot.size ≤ idCount := by decide
  obtain ⟨hroot, hdone, htree, hatt, hcross, hthree⟩ :
      ∃ hroot : (register FlowGraph.loops knot).value.largest?
        (register FlowGraph.loops knot).value.ids = some ⟨0⟩,
      let grown := Construction.resumed FlowGraph.loops 5
        (.start _ ⟨0⟩ (isSome_get?_of_mem_ids (mem_of_largest? hroot)))
      grown.stack = [] ∧ grown.tree.root = ⟨0⟩ ∧
        (⟨2⟩ ∈ grown.tree.attached ∧ grown.tree.parent? ⟨2⟩ = some ⟨1⟩) ∧
        ⟨3⟩ ∉ grown.tree.attached ∧ grown.tree.registry.sizeOf ⟨3⟩ = 3 :=
    ⟨by decide +kernel, by decide +kernel⟩
  have ht := value_nest_of_resumed hroot hdone
  obtain ⟨t, ht', hrooted, _⟩ := nest_rooted FlowGraph.loops knot hne hsize
  obtain rfl := Except.ok.inj (ht.symm.trans ht')
  obtain ⟨p, _, hp, _, hcount, honly⟩ := hrooted.exists_parent ⟨2⟩ hatt.1 (by rw [htree]; decide)
  obtain rfl := Option.some.inj (hatt.2.symm.trans hp)
  exact ⟨hne, hsize, _, ht, htree, hrooted.parent_root, hp, hcount, honly ⟨0⟩ (by decide), hthree,
    hrooted.detached ⟨3⟩ hcross⟩

end HammockRegistry

end FlowRegions
