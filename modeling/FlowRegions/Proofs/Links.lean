import FlowRegions.Proofs.Steps

/-!
# The links of a growing tree

Whatever the registry, the table of links keeps a row for every hammock, walks search attached
hammocks, and every attached hammock but the root has an attached parent (`Linked`). Attaching a
hammock changes no parent but its own (`LinkTable.parent_get_attach`), and what relates a host to
whatever its walk meets relates the two ends of every link (`Passes.forall_link`).
-/

namespace FlowRegions

namespace LinkTable

variable {t : LinkTable} {child parent c : HammockId}

@[simp] theorem size_modify (t : LinkTable) (id : HammockId) (f : Links → Links) :
    (t.modify id f).rows.size = t.rows.size := Array.size_modify

@[simp] theorem size_attach (t : LinkTable) (child parent : HammockId) :
    (t.attach child parent).rows.size = t.rows.size := by
  rw [attach, size_modify, size_modify]

@[simp] theorem size_setSiblings (t : LinkTable) (siblings : HammockId → HammockSet)
    (ids : List HammockId) : (t.setSiblings siblings ids).rows.size = t.rows.size := by
  induction ids generalizing t with
  | nil => rfl
  | cons a ids ih => rw [setSiblings, List.foldl_cons, ← setSiblings, ih, size_modify]

/-- Only the parent of the attached hammock changes. -/
theorem parent_get_attach : ((t.attach child parent).get c).parent =
    if c = child ∧ child.index < t.rows.size then some parent else (t.get c).parent := by
  rw [attach, get_modify, size_modify]
  split
  · rfl
  · rw [get_modify]
    split <;> rfl

/-- Only the children of the new parent change. -/
theorem children_get_attach {p : HammockId} : ((t.attach child parent).get p).children =
    if p = parent ∧ parent.index < t.rows.size then (t.get p).children ++ [child]
    else (t.get p).children := by
  have hmod : ((t.attach child parent).get p).children = ((t.modify parent fun l =>
      { l with children := l.children ++ [child] }).get p).children := by
    rw [attach, get_modify]
    split <;> rfl
  rw [hmod, get_modify]
  split <;> rfl

end LinkTable

namespace HammockTree

variable {t : HammockTree} {b c p q : HammockId}

/-- Attaching a hammock changes its parent. -/
theorem parent?_attach (h : t.registry.sizeOf c < t.registry.sizeOf p)
    (hc : c.index < t.links.rows.size) :
    (t.attach c p h).parent? b = if b = c then some p else t.parent? b := by
  refine LinkTable.parent_get_attach.trans ?_
  simp only [hc, and_true]
  rfl

/-- Attaching a hammock adds it to the children of its parent. -/
theorem children_attach (h : t.registry.sizeOf c < t.registry.sizeOf p)
    (hp : p.index < t.links.rows.size) :
    (t.attach c p h).children q = if q = p then t.children q ++ [c] else t.children q := by
  refine LinkTable.children_get_attach.trans ?_
  simp only [hp, and_true]
  rfl

@[simp] theorem parent?_linkSiblings (t : HammockTree) (id c : HammockId) :
    (t.linkSiblings id).parent? c = t.parent? c := LinkTable.parent_setSiblings _ _ _ c

@[simp] theorem children_linkSiblings (t : HammockTree) (id c : HammockId) :
    (t.linkSiblings id).children c = t.children c := LinkTable.children_setSiblings _ _ _ c

end HammockTree

namespace HammockRegistry

variable {r : HammockRegistry} {g : FlowGraph} {c p : HammockId} {s s' : Construction}

/-- What the construction keeps to, whatever the registry. -/
structure Linked (r : HammockRegistry) (s : Construction) : Prop where
  size_rows : s.tree.links.rows.size = r.size
  host_attached : ∀ w ∈ s.stack, w.host ∈ s.tree.attached
  registered : ∀ c ∈ s.tree.attached, ∃ x, r.get? c = some x
  parent_attached : ∀ c p, s.tree.parent? c = some p → c ∈ s.tree.attached ∧ p ∈ s.tree.attached
  exists_parent : ∀ c ∈ s.tree.attached, c ≠ s.tree.root → ∃ p, s.tree.parent? c = some p

theorem index_lt_of_get? {x : Hammock} (hx : r.get? c = some x) : c.index < r.size :=
  (Array.getElem?_eq_some_iff.1 hx).1

theorem linked_start {root : HammockId} (hroot : (r.get? root).isSome = true) :
    r.Linked (.start r root hroot) where
  size_rows := Array.size_replicate
  host_attached w hw := by
    obtain rfl := List.mem_singleton.1 hw
    rw [Walk.host_begin]
    exact IdSet.mem_singleton.2 rfl
  registered c hc := by
    obtain rfl := IdSet.mem_singleton.1 hc
    exact Option.isSome_iff_exists.1 hroot
  parent_attached c p hp := by
    simp [Construction.start, HammockTree.planted, HammockTree.parent?] at hp
  exists_parent c hc hne := absurd (IdSet.mem_singleton.1 hc) hne

variable {t : HammockTree} {w w' : Walk} {below : List Walk}

/-- The walk on top may be replaced by another walk of its host. -/
theorem Linked.replace (hs : r.Linked ⟨t, w :: below⟩) (hhost : w'.host = w.host) :
    r.Linked ⟨t, w' :: below⟩ where
  size_rows := hs.size_rows
  host_attached := by
    obtain ⟨htop, hbelow⟩ := List.forall_mem_cons.1 hs.host_attached
    exact List.forall_mem_cons.2 ⟨hhost ▸ htop, hbelow⟩
  registered := hs.registered
  parent_attached := hs.parent_attached
  exists_parent := hs.exists_parent

/-- The siblings that are linked when a walk is over change no parent. -/
theorem Linked.linkSiblings (hs : r.Linked ⟨t, w :: below⟩) :
    r.Linked ⟨t.linkSiblings w.host, below⟩ where
  size_rows := (LinkTable.size_setSiblings _ _ _).trans hs.size_rows
  host_attached := (List.forall_mem_cons.1 hs.host_attached).2
  registered := hs.registered
  parent_attached c p hp := by
    apply hs.parent_attached c p
    rwa [HammockTree.parent?_linkSiblings] at hp
  exists_parent c hc hne := by
    obtain ⟨p, hp⟩ := hs.exists_parent c hc hne
    exact ⟨p, (HammockTree.parent?_linkSiblings t _ c).trans hp⟩

/-- A registered hammock may become a child of the host of the walk on top. -/
theorem Linked.attach {x : Hammock} (hs : r.Linked ⟨t, w :: below⟩)
    (hsize : t.registry.sizeOf c < t.registry.sizeOf w.host) (hx : r.get? c = some x)
    (hhost : w'.host = w.host) :
    r.Linked ⟨t.attach c w.host hsize, .begin r c :: w' :: below⟩ where
  size_rows := (LinkTable.size_attach _ _ _).trans hs.size_rows
  host_attached := by
    obtain ⟨htop, hbelow⟩ := List.forall_mem_cons.1 hs.host_attached
    refine List.forall_mem_cons.2 ⟨?_, List.forall_mem_cons.2 ⟨?_, fun u hu => ?_⟩⟩
    · rw [Walk.host_begin]
      exact IdSet.mem_insert.2 (.inl rfl)
    · rw [hhost]
      exact IdSet.mem_insert.2 (.inr htop)
    · exact IdSet.mem_insert.2 (.inr (hbelow u hu))
  registered d hd := by
    rcases IdSet.mem_insert.1 hd with rfl | hd
    · exact ⟨x, hx⟩
    · exact hs.registered d hd
  parent_attached d p hp := by
    have htop := (List.forall_mem_cons.1 hs.host_attached).1
    rcases LinkTable.parent_attach hp with ⟨rfl, rfl⟩ | hp
    · -- the new link leads from the child to the host of the walk on top
      exact ⟨IdSet.mem_insert.2 (.inl rfl), IdSet.mem_insert.2 (.inr htop)⟩
    · obtain ⟨hd, hparent⟩ := hs.parent_attached d p hp
      exact ⟨IdSet.mem_insert.2 (.inr hd), IdSet.mem_insert.2 (.inr hparent)⟩
  exists_parent d hd hne := by
    -- a registered hammock has a row, so its parent is written down
    have hrow : c.index < t.links.rows.size := hs.size_rows ▸ index_lt_of_get? hx
    by_cases hdc : d = c
    · exact ⟨w.host, (HammockTree.parent?_attach hsize hrow).trans (if_pos hdc)⟩
    · have hold : d ∈ t.attached := (IdSet.mem_insert.1 hd).resolve_left hdc
      obtain ⟨p, hp⟩ := hs.exists_parent d hold hne
      exact ⟨p, ((HammockTree.parent?_attach hsize hrow).trans (if_neg hdc)).trans hp⟩

theorem linked_step (hreg : s.tree.registry = r) (hs : r.Linked s)
    (h : Construction.Step g s s') : r.Linked s' := by
  subst hreg
  cases h.progress with
  | ended => exact hs.linkSiblings
  | onward => exact hs.replace (Walk.host_foldl_enqueue _ _)
  | nest _ _ _ hy hsize => exact hs.attach hsize hy (Walk.host_foldl_enqueue _ _)

/-- At every moment of the construction, attached hammocks but the root have attached parents. -/
theorem Passes.linked (hs : r.Passes g s) : r.Linked s := by
  induction hs with
  | start hroot => exact linked_start _
  | step hs h ih => exact linked_step hs.registry_eq ih h

/-- Attached hammocks have a row in the table of links. -/
theorem Linked.has_row (hs : r.Linked s) (hc : c ∈ s.tree.attached) :
    c.index < s.tree.links.rows.size := by
  obtain ⟨x, hx⟩ := hs.registered c hc
  exact hs.size_rows ▸ index_lt_of_get? hx

theorem Linked.host_has_row (hs : r.Linked ⟨t, w :: below⟩) :
    w.host.index < t.links.rows.size :=
  hs.has_row (hs.host_attached w List.mem_cons_self)

/-- Only attached hammocks have parents. -/
theorem Linked.parent?_eq_none (hs : r.Linked s) (hc : c ∉ s.tree.attached) :
    s.tree.parent? c = none :=
  Option.eq_none_iff_forall_not_mem.2 fun p hp => hc (hs.parent_attached c p hp).1

/-- What holds of the root and is handed down from parents to children holds of all attached
hammocks. -/
theorem Linked.attached_induction (hs : r.Linked s) {P : HammockId → Prop} (hroot : P s.tree.root)
    (hchild : ∀ c p, s.tree.parent? c = some p → p ∈ s.tree.attached → P p → P c) :
    ∀ c ∈ s.tree.attached, P c := by
  intro c hc
  -- parents are larger, and nothing is larger than all identifiers
  induction hn : idCount - s.tree.registry.sizeOf c using Nat.strongRecOn generalizing c with
  | ind n ih =>
    by_cases hcroot : c = s.tree.root
    · exact hcroot ▸ hroot
    · obtain ⟨p, hp⟩ := hs.exists_parent c hc hcroot
      have hatt := (hs.parent_attached c p hp).2
      have hlt := s.tree.parent_larger c p hp
      have hle := s.tree.registry.sizeOf_le p
      exact hchild c p hp hatt (ih _ (by omega) p hatt rfl)

/-! ## What holds of all links -/

/-- What holds of a host and of what its walk meets holds of all links at every moment of the
construction. -/
theorem Passes.forall_link {R : HammockId → HammockId → Prop}
    (hnest : ∀ {s w v c}, r.Passes g s → w ∈ s.stack → v ∈ w.queue →
      ¬ r.isExit w.host v = true → r.largestBelow? v (r.sizeOf w.host) = some c → R c w.host)
    (hs : r.Passes g s) :
    ∀ p c, s.tree.parent? c = some p ∨ c ∈ s.tree.children p → R c p := by
  induction hs with
  | start hroot =>
    intro p c hlink
    simp [Construction.start, HammockTree.planted, HammockTree.parent?,
      HammockTree.children] at hlink
  | step hs hstep ih =>
    obtain rfl := hs.registry_eq
    cases hstep with
    | stop | jump | spread => exact ih
    | finish hq =>
      intro p c hlink
      rw [HammockTree.parent?_linkSiblings, HammockTree.children_linkSiblings] at hlink
      exact ih p c hlink
    | @nest t w below v rest d hq hexit hd hnew =>
      -- the only new link is the one between the host and what its walk has met
      have hmeet := hnest hs List.mem_cons_self (hq ▸ List.mem_cons_self) hexit hd
      intro p c hlink
      rcases hlink with hp | hc
      · rcases LinkTable.parent_attach hp with ⟨rfl, rfl⟩ | hp
        · exact hmeet
        · exact ih p c (.inl hp)
      · rcases LinkTable.children_attach hc with ⟨rfl, rfl⟩ | hc
        · exact hmeet
        · exact ih p c (.inr hc)

end HammockRegistry

end FlowRegions
