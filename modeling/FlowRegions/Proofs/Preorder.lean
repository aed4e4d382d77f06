import FlowRegions.Nesting.Traversal
import FlowRegions.Proofs.Links

/-!
# Preorder

While a tree grows, children and parents mirror each other (`Mirrored`): a hammock is attached once,
and then its host becomes its parent and lists it. The traversal with a stack lists the trees below
the hammocks on the stack one after the other (`preorderFrom_eq`), and the trees below different
children are disjoint, as links lead upwards in one way only (`Mirrored.nodup_subtree`). So preorder
lists every attached hammock once (`Passes.perm_preorder`).
-/

namespace FlowRegions

open Log Relation

namespace HammockTree

variable {t : HammockTree} {a b c p : HammockId}

/-! ## Children and parents -/

/-- The children of a hammock are those whose parent it is, each listed once, and the root is no
child. -/
structure Mirrored (t : HammockTree) : Prop where
  mem_children_iff : ∀ p c, c ∈ t.children p ↔ t.parent? c = some p
  nodup_children : ∀ p, (t.children p).Nodup
  parent_root : t.parent? t.root = none

theorem mirrored_planted {r : HammockRegistry} (h : (r.get? a).isSome = true) :
    (planted r a h).Mirrored where
  mem_children_iff p c := by simp [planted, children, parent?]
  nodup_children p := by simp [planted, children]
  parent_root := by simp [planted, parent?]

/-- A hammock without parent may become a child, unless it is the root. -/
theorem Mirrored.attach (ht : t.Mirrored)
    (hsize : t.registry.sizeOf c < t.registry.sizeOf p) (hc : c.index < t.links.rows.size)
    (hp : p.index < t.links.rows.size) (hnew : t.parent? c = none) (hroot : c ≠ t.root) :
    (t.attach c p hsize).Mirrored := by
  have hunlisted : ∀ q, c ∉ t.children q := by
    intro q hq
    rw [ht.mem_children_iff, hnew] at hq
    cases hq
  refine ⟨fun q b => ?_, fun q => ?_, ?_⟩
  · rw [parent?_attach hsize hc, children_attach hsize hp]
    by_cases hbc : b = c
    · subst hbc
      by_cases hqp : q = p
      · simp [hqp]
      · simp [hqp, hunlisted q, Ne.symm hqp]
    · by_cases hqp : q = p
      · simp [hqp, hbc, ht.mem_children_iff]
      · simp [hqp, hbc, ht.mem_children_iff]
  · rw [children_attach hsize hp]
    split
    · rw [List.nodup_append]
      refine ⟨ht.nodup_children q, List.nodup_singleton c, fun b hb b' hb' => ?_⟩
      rintro rfl
      exact hunlisted q (List.mem_singleton.1 hb' ▸ hb)
    · exact ht.nodup_children q
  · exact (parent?_attach hsize hc).trans ((if_neg (Ne.symm hroot)).trans ht.parent_root)

theorem Mirrored.linkSiblings (ht : t.Mirrored) (id : HammockId) :
    (t.linkSiblings id).Mirrored where
  mem_children_iff p c := by
    rw [parent?_linkSiblings, children_linkSiblings, ht.mem_children_iff]
  nodup_children p := by
    rw [children_linkSiblings]
    exact ht.nodup_children p
  parent_root := (parent?_linkSiblings t id _).trans ht.parent_root

/-! ## Subtrees -/

/-- Links lead upwards from one hammock to another, or the two are one. -/
def Within (t : HammockTree) (a c : HammockId) : Prop :=
  ReflTransGen (fun x p => t.parent? x = some p) c a

/-- Links lead to larger hammocks. -/
theorem Within.sizeOf_le (h : t.Within a c) : t.registry.sizeOf c ≤ t.registry.sizeOf a := by
  induction h with
  | refl => exact Nat.le_refl _
  | tail _ hp ih => exact ih.trans (Nat.le_of_lt (t.parent_larger _ _ hp))

/-- A subtree consists of the hammocks from which links lead to its root. -/
theorem Mirrored.mem_subtree_iff (ht : t.Mirrored) : c ∈ t.subtree a ↔ t.Within a c := by
  induction a using HammockTree.subtree.induct t with
  | case1 a ih =>
    rw [subtree_eq, List.mem_cons, List.mem_flatMap]
    constructor
    · rintro (rfl | ⟨b, hb, hc⟩)
      · exact .refl
      · exact .tail ((ih ⟨b, hb⟩).1 hc) ((ht.mem_children_iff a b).1 hb)
    · intro h
      cases h with
      | refl => exact .inl rfl
      | @tail b _ hc hb =>
        have hmem := (ht.mem_children_iff a b).2 hb
        exact .inr ⟨b, hmem, (ih ⟨b, hmem⟩).2 hc⟩

/-- The subtrees of different children have nothing in common. -/
theorem Mirrored.disjoint_subtree (ht : t.Mirrored) {b b' : HammockId} (hb : b ∈ t.children a)
    (hb' : b' ∈ t.children a) (hne : b ≠ b') : (t.subtree b).Disjoint (t.subtree b') := by
  have hup : ∀ {b b'}, b ∈ t.children a → b' ∈ t.children a → b ≠ b' → ¬ t.Within b' b := by
    -- the first link leads to the common parent, which is larger than either child
    intro b b' hb hb' hne h
    cases h using ReflTransGen.head_induction_on with
    | refl => exact hne rfl
    | head hp h =>
      obtain rfl : a = _ := Option.some.inj (((ht.mem_children_iff a b).1 hb).symm.trans hp)
      exact absurd (Within.sizeOf_le h) (Nat.not_le_of_lt (t.child_smaller a b' hb'))
  intro c hc hc'
  rw [ht.mem_subtree_iff] at hc hc'
  have hunique : Relator.RightUnique fun x p => t.parent? x = some p :=
    fun x p q hp hq => Option.some.inj (hp.symm.trans hq)
  rcases ReflTransGen.total_of_right_unique hunique hc hc' with h | h
  · exact hup hb hb' hne h
  · exact hup hb' hb hne.symm h

/-- A subtree lists no hammock twice. -/
theorem Mirrored.nodup_subtree (ht : t.Mirrored) (a : HammockId) : (t.subtree a).Nodup := by
  induction a using HammockTree.subtree.induct t with
  | case1 a ih =>
    rw [subtree_eq, List.nodup_cons, List.nodup_flatMap]
    refine ⟨fun hmem => ?_, fun b hb => ih ⟨b, hb⟩, ?_⟩
    · -- links lead upwards from no larger hammock than the child
      obtain ⟨b, hb, ha⟩ := List.mem_flatMap.1 hmem
      have hle := (ht.mem_subtree_iff.1 ha).sizeOf_le
      exact absurd hle (Nat.not_le_of_lt (t.child_smaller a b hb))
    · exact (ht.nodup_children a).imp_of_mem fun hb hb' hne => ht.disjoint_subtree hb hb' hne

/-! ## The traversal with a stack -/

/-- The traversal lists the subtrees of the hammocks on the stack, one after the other. -/
theorem preorderFrom_eq (t : HammockTree) (stack : List HammockId) :
    t.preorderFrom stack = stack.flatMap t.subtree := by
  fun_induction preorderFrom t stack with
  | case1 => rfl
  | case2 id stack ih =>
    rw [ih, List.flatMap_append, List.flatMap_cons, subtree_eq, List.cons_append]

theorem preorder_eq (t : HammockTree) : t.preorder = t.subtree t.root := by
  rw [preorder, preorderFrom_eq, List.flatMap_cons, List.flatMap_nil, List.append_nil]

theorem preorder_planted {r : HammockRegistry} (h : (r.get? a).isSome = true) :
    (planted r a h).preorder = [a] := by
  rw [preorder_eq, subtree_eq]
  simp [planted, children]

end HammockTree

namespace HammockRegistry

variable {r : HammockRegistry} {g : FlowGraph} {c : HammockId} {s : Construction}

/-- At every moment of the construction, children and parents mirror each other. -/
theorem Passes.mirrored (hs : r.Passes g s) : s.tree.Mirrored := by
  induction hs with
  | start hroot => exact HammockTree.mirrored_planted _
  | step hs hstep ih =>
    have hlink := hs.linked
    obtain rfl := hs.registry_eq
    cases hstep with
    | stop | jump | spread => exact ih
    | finish hq => exact ih.linkSiblings _
    | @nest t w below v rest c hq hexit hmeets hnew =>
      obtain ⟨y, hy, _⟩ := exists_get?_of_largestBelow? hmeets
      refine ih.attach (of_largestBelow? hmeets).2 (hlink.size_rows ▸ index_lt_of_get? hy)
        hlink.host_has_row (hlink.parent?_eq_none hnew) ?_
      rintro rfl
      exact hnew hs.root_attached

/-- Hammocks that are not attached have no children. -/
theorem Passes.children_eq_nil (hs : r.Passes g s) (hc : c ∉ s.tree.attached) :
    s.tree.children c = [] := by
  refine List.eq_nil_iff_forall_not_mem.2 fun d hd => hc ?_
  exact (hs.linked.parent_attached d c ((hs.mirrored.mem_children_iff c d).1 hd)).2

/-- The attached hammocks are those from which links lead to the root. -/
theorem Passes.within_root_iff (hs : r.Passes g s) :
    s.tree.Within s.tree.root c ↔ c ∈ s.tree.attached := by
  constructor
  · intro h
    cases h using ReflTransGen.head_induction_on with
    | refl => exact hs.root_attached
    | head hp _ => exact (hs.linked.parent_attached c _ hp).1
  · exact hs.linked.attached_induction .refl (fun c p hp _ ih => .head hp ih) c

/-- Preorder lists every attached hammock, and each once. -/
theorem Passes.perm_preorder (hs : r.Passes g s) :
    s.tree.preorder.Perm s.tree.attached.toList := by
  rw [HammockTree.preorder_eq]
  refine (List.perm_ext_iff_of_nodup (hs.mirrored.nodup_subtree _)
    (IdSet.nodup_of_ascending s.tree.attached.ascending)).2 fun c => ?_
  rw [hs.mirrored.mem_subtree_iff, hs.within_root_iff, IdSet.mem_toList]

theorem Passes.mem_preorder_iff (hs : r.Passes g s) :
    c ∈ s.tree.preorder ↔ c ∈ s.tree.attached := hs.perm_preorder.mem_iff

/-- Preorder is as long as there are attached hammocks. -/
theorem Passes.length_preorder (hs : r.Passes g s) :
    s.tree.preorder.length = s.tree.attached.card := hs.perm_preorder.length_eq

end HammockRegistry

end FlowRegions
