import FlowRegions.Proofs.Preorder
import FlowRegions.Proofs.Turns

/-!
# The order of attachment

The walks on the stack are suspended inside of each other, so their hosts lead down from the root,
each to the last of its children (`Spine`). A hammock that becomes the last child of the latest host
therefore comes last in preorder (`Spine.preorder_attach`). So walks find hammocks in preorder
(`Passes.preorder_run`), each below the parent that it has in the finished tree
(`Passes.parent?_of_turn`), however the walks have been interleaved.
-/

namespace FlowRegions

open Log Relation

namespace HammockTree

variable {t : HammockTree} {a b c h : HammockId} {hosts : List HammockId}

/-! ## Subtrees of a tree that grows -/

@[simp] theorem subtree_linkSiblings (t : HammockTree) (id a : HammockId) :
    (t.linkSiblings id).subtree a = t.subtree a := by
  induction a using HammockTree.subtree.induct t with
  | case1 a ih =>
    rw [subtree_eq, subtree_eq t, children_linkSiblings]
    exact congrArg _ (List.flatMap_congr fun b hb => ih ⟨b, hb⟩)

@[simp] theorem preorder_linkSiblings (t : HammockTree) (id : HammockId) :
    (t.linkSiblings id).preorder = t.preorder := by
  rw [preorder_eq, preorder_eq, subtree_linkSiblings]
  rfl

theorem self_mem_subtree (t : HammockTree) (a : HammockId) : a ∈ t.subtree a := by
  rw [subtree_eq]
  exact List.mem_cons_self

/-- A subtree lists those of the children of its root, each in one block. -/
theorem infix_subtree_of_child (hb : b ∈ t.children a) : t.subtree b <:+: t.subtree a := by
  rw [subtree_eq t a]
  exact (List.infix_flatMap_of_mem hb t.subtree).trans (List.suffix_cons a _).isInfix

theorem mem_subtree_of_child (hb : b ∈ t.children a) (hc : c ∈ t.subtree b) : c ∈ t.subtree a :=
  (infix_subtree_of_child hb).subset hc

/-- The subtrees along a line of links are listed inside each other. -/
theorem Mirrored.infix_subtree (ht : t.Mirrored) (h : t.Within a c) :
    t.subtree c <:+: t.subtree a := by
  induction h with
  | refl => exact List.infix_rfl
  | tail _ hp ih => exact ih.trans (infix_subtree_of_child ((ht.mem_children_iff _ _).2 hp))

/-- Subtrees without the new parent stay as they are. -/
theorem subtree_attach_of_not_mem (hsize : t.registry.sizeOf c < t.registry.sizeOf h)
    (hh : h.index < t.links.rows.size) (ha : h ∉ t.subtree a) :
    (t.attach c h hsize).subtree a = t.subtree a := by
  induction a using HammockTree.subtree.induct t with
  | case1 a ih =>
    have hne : a ≠ h := fun heq => ha (heq ▸ t.self_mem_subtree a)
    rw [subtree_eq, subtree_eq t, children_attach hsize hh, if_neg hne]
    refine congrArg _ (List.flatMap_congr fun b hb => ih ⟨b, hb⟩ fun hmem => ha ?_)
    exact mem_subtree_of_child hb hmem

/-- The subtree of the new parent ends with the new child, if that has no children. -/
theorem Mirrored.subtree_attach_self (ht : t.Mirrored)
    (hsize : t.registry.sizeOf c < t.registry.sizeOf h) (hh : h.index < t.links.rows.size)
    (hc : t.children c = []) :
    (t.attach c h hsize).subtree h = t.subtree h ++ [c] := by
  have hne : c ≠ h := by
    rintro rfl
    exact Nat.lt_irrefl _ hsize
  have hleaf : (t.attach c h hsize).subtree c = [c] := by
    rw [subtree_eq, children_attach hsize hh, if_neg hne, hc, List.flatMap_nil]
  have hrest : (t.children h).flatMap (t.attach c h hsize).subtree =
      (t.children h).flatMap t.subtree := by
    refine List.flatMap_congr fun b hb => subtree_attach_of_not_mem hsize hh fun hmem => ?_
    -- a parent is not within any of its children
    have hle := (ht.mem_subtree_iff.1 hmem).sizeOf_le
    exact absurd hle (Nat.not_le_of_lt (t.child_smaller h b hb))
  rw [subtree_eq, subtree_eq t, children_attach hsize hh, if_pos rfl, List.flatMap_append,
    List.flatMap_singleton, hleaf, hrest, List.cons_append]

/-! ## The hosts of suspended walks -/

/-- The hosts lead down from the root, the latest first: each is the last child of the next. -/
def Spine (t : HammockTree) : List HammockId → Prop
  | [] => True
  | [a] => a = t.root
  | a :: b :: below => (t.children b).getLast? = some a ∧ t.Spine (b :: below)

theorem Spine.tail (hs : t.Spine (a :: hosts)) : t.Spine hosts := by
  cases hosts with
  | nil => trivial
  | cons b below => exact hs.2

/-- The latest host is smaller than all the others. -/
theorem Spine.sizeOf_lt (hs : t.Spine (a :: hosts)) :
    ∀ b ∈ hosts, t.registry.sizeOf a < t.registry.sizeOf b := by
  induction hosts generalizing a with
  | nil => simp
  | cons b below ih =>
    have hlt := t.child_smaller b a (List.mem_of_getLast? hs.1)
    exact List.forall_mem_cons.2 ⟨hlt, fun d hd => hlt.trans (ih hs.2 d hd)⟩

/-- Only the children of the hosts below the latest matter, and the root. -/
theorem Spine.congr {t' : HammockTree} (hs : t.Spine (a :: hosts)) (hroot : t'.root = t.root)
    (hchildren : ∀ b ∈ hosts, t'.children b = t.children b) : t'.Spine (a :: hosts) := by
  induction hosts generalizing a with
  | nil => exact Eq.trans hs hroot.symm
  | cons b below ih =>
    obtain ⟨hb, hbelow⟩ := List.forall_mem_cons.1 hchildren
    exact ⟨(congrArg List.getLast? hb).trans hs.1, ih hs.2 hbelow⟩

/-- A child of the latest host becomes the latest. -/
theorem Spine.attach (hs : t.Spine (h :: hosts))
    (hsize : t.registry.sizeOf c < t.registry.sizeOf h) (hh : h.index < t.links.rows.size) :
    (t.attach c h hsize).Spine (c :: h :: hosts) := by
  refine ⟨?_, hs.congr rfl fun b hb => ?_⟩
  · rw [children_attach hsize hh, if_pos rfl, List.getLast?_concat]
  · rw [children_attach hsize hh, if_neg]
    rintro rfl
    exact Nat.lt_irrefl _ (hs.sizeOf_lt b hb)

/-- The subtree of a hammock ends with the new child if that of its last child does. -/
theorem Mirrored.subtree_attach_last (ht : t.Mirrored)
    (hsize : t.registry.sizeOf c < t.registry.sizeOf h) (hh : h.index < t.links.rows.size)
    (hb : b ≠ h) (hlast : (t.children b).getLast? = some a) (hmem : h ∈ t.subtree a)
    (heq : (t.attach c h hsize).subtree a = t.subtree a ++ [c]) :
    (t.attach c h hsize).subtree b = t.subtree b ++ [c] := by
  obtain ⟨init, hinit⟩ := List.getLast?_eq_some_iff.1 hlast
  have hrest : init.flatMap (t.attach c h hsize).subtree = init.flatMap t.subtree := by
    refine List.flatMap_congr fun d hd => subtree_attach_of_not_mem hsize hh fun hd' => ?_
    -- the new parent is in the subtree of the last child and so in that of no other
    have hnodup := ht.nodup_children b
    rw [hinit, List.nodup_append] at hnodup
    have hda : d ≠ a := hnodup.2.2 d hd a List.mem_cons_self
    have hdb : d ∈ t.children b := hinit ▸ List.mem_append_left [a] hd
    exact ht.disjoint_subtree hdb (List.mem_of_getLast? hlast) hda hd' hmem
  rw [subtree_eq, subtree_eq t, children_attach hsize hh, if_neg hb, hinit, List.flatMap_append,
    List.flatMap_append, hrest, List.flatMap_singleton, List.flatMap_singleton, heq,
    List.cons_append, List.append_assoc]

/-- The subtree of every host ends with the new child of the latest, if that has no children. -/
theorem Spine.subtree_attach (hs : t.Spine (h :: hosts)) (ht : t.Mirrored)
    (hsize : t.registry.sizeOf c < t.registry.sizeOf h) (hh : h.index < t.links.rows.size)
    (hc : t.children c = []) :
    ∀ a ∈ h :: hosts, h ∈ t.subtree a ∧ (t.attach c h hsize).subtree a = t.subtree a ++ [c] := by
  -- from the latest host on, what is new in a subtree is new in that of the next host
  suffices hdown : ∀ top, t.Spine (top :: hosts) → (∀ b ∈ hosts, b ≠ h) → h ∈ t.subtree top →
      (t.attach c h hsize).subtree top = t.subtree top ++ [c] →
      ∀ a ∈ top :: hosts, h ∈ t.subtree a ∧
        (t.attach c h hsize).subtree a = t.subtree a ++ [c] by
    refine hdown h hs (fun b hb => ?_) (t.self_mem_subtree h) (ht.subtree_attach_self hsize hh hc)
    rintro rfl
    exact Nat.lt_irrefl _ (hs.sizeOf_lt b hb)
  clear hs
  induction hosts with
  | nil =>
    intro top _ _ hmem heq
    exact List.forall_mem_singleton.2 ⟨hmem, heq⟩
  | cons b below ih =>
    intro top hs hne hmem heq
    obtain ⟨hb, hbelow⟩ := List.forall_mem_cons.1 hne
    have htop : top ∈ t.children b := List.mem_of_getLast? hs.1
    exact List.forall_mem_cons.2 ⟨⟨hmem, heq⟩, ih b hs.2 hbelow (mem_subtree_of_child htop hmem)
      (ht.subtree_attach_last hsize hh hb hs.1 hmem heq)⟩

/-- The lowest host is the root. -/
theorem Spine.getLast?_eq (hs : t.Spine (h :: hosts)) : (h :: hosts).getLast? = some t.root := by
  induction hosts generalizing h with
  | nil => exact congrArg some hs
  | cons b below ih => exact List.getLast?_cons_cons.trans (ih hs.2)

/-- A new child of the latest host comes last in preorder. -/
theorem Spine.preorder_attach (hs : t.Spine (h :: hosts)) (ht : t.Mirrored)
    (hsize : t.registry.sizeOf c < t.registry.sizeOf h) (hh : h.index < t.links.rows.size)
    (hc : t.children c = []) : (t.attach c h hsize).preorder = t.preorder ++ [c] := by
  have hroot : t.root ∈ h :: hosts := List.mem_of_getLast? hs.getLast?_eq
  rw [preorder_eq, preorder_eq]
  exact (hs.subtree_attach ht hsize hh hc t.root hroot).2

end HammockTree

namespace HammockRegistry

variable {r : HammockRegistry} {g : FlowGraph} {c p : HammockId} {s s' : Construction}
variable {t : HammockTree} {w : Walk} {below : List Walk}

/-- At every moment of the construction, the hosts of the suspended walks lead down from the
root. -/
theorem Passes.spine (hs : r.Passes g s) : s.tree.Spine (s.stack.map Walk.host) := by
  induction hs with
  | start hroot => exact Walk.host_begin r _
  | step hs hstep ih =>
    have hlink := hs.linked
    obtain rfl := hs.registry_eq
    cases hstep.progress with
    | @ended t w below hq =>
      have htail := ih.tail
      cases below with
      | nil => trivial
      | cons u below => exact htail.congr rfl fun b _ => HammockTree.children_linkSiblings t _ b
    | onward => rwa [List.map_cons, Walk.host_foldl_enqueue]
    | @nest t w below v rest c y hq l hnew hy hsize =>
      rw [List.map_cons, List.map_cons, Walk.host_begin, Walk.host_foldl_enqueue]
      exact ih.attach hsize hlink.host_has_row

/-- A parent stays the parent, as only what is not attached becomes a child. -/
theorem Passes.parent?_step (hs : r.Passes g s) (h : Construction.Step g s s')
    (hp : s.tree.parent? c = some p) : s'.tree.parent? c = some p := by
  have hlink := hs.linked
  obtain rfl := hs.registry_eq
  cases h with
  | finish hq => exact (HammockTree.parent?_linkSiblings _ _ _).trans hp
  | stop | jump | spread => exact hp
  | @nest t w below v rest d hq hexit hmeets hnew =>
    obtain ⟨y, hy, _⟩ := exists_get?_of_largestBelow? hmeets
    have hrow : d.index < t.links.rows.size := hlink.size_rows ▸ index_lt_of_get? hy
    refine (HammockTree.parent?_attach (of_largestBelow? hmeets).2 hrow).trans ?_
    rw [if_neg, hp]
    rintro rfl
    exact hnew (hlink.parent_attached c p hp).1

theorem Passes.parent?_run (hs : r.Passes g s) (hp : s.tree.parent? c = some p) :
    (Construction.run g s).value.parent? c = some p := by
  suffices hall : ∀ s', ReflTransGen (Construction.Step g) s s' →
      r.Passes g s' ∧ s'.tree.parent? c = some p from (hall _ (Construction.run_reached g s)).2
  intro s' h
  induction h with
  | refl => exact ⟨hs, hp⟩
  | tail _ hstep ih => exact ⟨.step ih.1 hstep, ih.1.parent?_step hstep ih.2⟩

/-- What the walk on top attaches comes last in preorder. -/
theorem Passes.preorder_attach (hs : r.Passes g ⟨t, w :: below⟩)
    (hsize : t.registry.sizeOf c < t.registry.sizeOf w.host) (hc : c ∉ t.attached) :
    (t.attach c w.host hsize).preorder = t.preorder ++ [c] :=
  hs.spine.preorder_attach hs.mirrored hsize hs.linked.host_has_row (hs.children_eq_nil hc)

/-- From every moment on, the hammocks that walks find come one after the other in preorder. -/
theorem Passes.preorder_run (hs : r.Passes g s) :
    (Construction.run g s).value.preorder =
      s.tree.preorder ++ (Construction.turns g s).filterMap Construction.Turn.found := by
  induction s using Construction.turn_induction g with
  | done t =>
    rw [Construction.turns_nil, Construction.value_run_nil]
    exact (List.append_nil _).symm
  | ended t w below h ih =>
    rw [Construction.value_run_cons, Construction.resume_of_none h, ih (hs.ended h),
      Construction.turns_of_none h, HammockTree.preorder_linkSiblings]
    rfl
  | found t w below c w' h ih =>
    obtain ⟨hnew, hsize, _⟩ := Walk.of_advance h
    rw [Construction.value_run_cons, Construction.resume_of_some h, ih (hs.found h),
      Construction.turns_of_some h, hs.preorder_attach hsize hnew, List.append_assoc]
    rfl

/-- The parent of a hammock in the finished tree is the host of the walk that finds it. -/
theorem Passes.parent?_of_turn (hs : r.Passes g s) :
    ∀ u ∈ Construction.turns g s, ∀ c ∈ u.found,
      (Construction.run g s).value.parent? c = some u.host := by
  induction s using Construction.turn_induction g with
  | done t => simp [Construction.turns_nil]
  | ended t w below h ih =>
    rw [Construction.value_run_cons, Construction.resume_of_none h, Construction.turns_of_none h]
    exact List.forall_mem_cons.2 ⟨by simp, ih (hs.ended h)⟩
  | found t w below c w' h ih =>
    have hnext := hs.found h
    obtain ⟨_, hsize, _⟩ := Walk.of_advance h
    rw [Construction.value_run_cons, Construction.resume_of_some h, Construction.turns_of_some h]
    refine List.forall_mem_cons.2 ⟨fun d hd => ?_, ih hnext⟩
    obtain rfl : c = d := Option.some.inj hd
    -- what has just been attached is registered, so its parent is written down
    obtain ⟨x, hx⟩ := hnext.linked.registered c (IdSet.mem_insert.2 (.inl rfl))
    have hrow : c.index < t.links.rows.size := hs.linked.size_rows ▸ index_lt_of_get? hx
    exact hnext.parent?_run ((HammockTree.parent?_attach hsize hrow).trans (if_pos rfl))

end HammockRegistry

end FlowRegions
