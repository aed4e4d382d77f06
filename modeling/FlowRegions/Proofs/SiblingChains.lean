import FlowRegions.Proofs.Suspension
import Mathlib.Data.List.Chain

/-!
# Chains of siblings

Siblings are written down when a walk is over, for the children that it has found. By then it has
found all of them, and no other walk has the same host. So the children of a hammock have no
siblings while its walk is suspended, and afterwards they have all that they will ever have
(`Passes.acquainted`). In the finished tree, siblings are the children of one parent of which one
ends where the other begins, whatever pairs have been registered (`mem_siblings_iff`).

Nothing in the construction makes chains of them. That is a matter of the minimal pairs, of which no
two have the same entry or the same exit, and along which nothing leads back to where it begins: the
relation `Precedes` between children is unique in both directions and has no cycle. Any finite list
falls into chains of such a relation (`exists_chains`): without a member that none precedes, the
rest does, and what that member precedes is at the head of its chain.
-/

namespace FlowRegions

open Log Relation

/-! ## Lists that fall into chains -/

section Chains

variable {α : Type} {R : α → α → Prop} {a b : α} {l chain : List α} {chains : List (List α)}

/-- The members of a list, each in one of several chains of a relation, in which whatever is related
stands side by side. -/
structure InChains (R : α → α → Prop) (l : List α) (chains : List (List α)) : Prop where
  perm : chains.flatten.Perm l
  ne_nil : ∀ chain ∈ chains, chain ≠ []
  isChain : ∀ chain ∈ chains, chain.IsChain R
  exists_chain : ∀ a ∈ l, ∀ b ∈ l, R a b → ∃ chain ∈ chains, [a, b] <:+: chain

/-- Neither the order of the list matters nor that of the chains. -/
theorem InChains.of_perm {l' : List α} {chains' : List (List α)} (h : InChains R l chains)
    (hl : l.Perm l') (hchains : chains.Perm chains') : InChains R l' chains' where
  perm := (hchains.flatten.symm.trans h.perm).trans hl
  ne_nil chain hc := h.ne_nil chain (hchains.mem_iff.2 hc)
  isChain chain hc := h.isChain chain (hchains.mem_iff.2 hc)
  exists_chain a ha b hb hab := by
    obtain ⟨chain, hc, hpair⟩ := h.exists_chain a (hl.mem_iff.2 ha) b (hl.mem_iff.2 hb) hab
    exact ⟨chain, hchains.mem_iff.1 hc, hpair⟩

/-- What stands side by side in a chain is related. -/
theorem rel_of_side_by_side (h : chain.IsChain R) (hab : [a, b] <:+: chain) : R a b := by
  obtain ⟨front, back, rfl⟩ := hab
  rw [List.append_assoc] at h
  exact (List.isChain_append_cons_cons.1 h).2.1

/-- A member of the list is at the head of its chain if no member precedes it. -/
theorem InChains.exists_head (h : InChains R l chains) (hb : b ∈ l) (hfirst : ∀ c ∈ l, ¬ R c b) :
    ∃ rest, b :: rest ∈ chains := by
  obtain ⟨chain, hchain, hmem⟩ := List.mem_flatten.1 (h.perm.mem_iff.2 hb)
  obtain ⟨before, rest, rfl⟩ := List.append_of_mem hmem
  rcases List.eq_nil_or_concat before with rfl | ⟨before, c, rfl⟩
  · exact ⟨rest, hchain⟩
  · -- the one before it would precede it
    have hpair : [c, b] <:+: before.concat c ++ b :: rest := ⟨before, rest, by simp⟩
    have hc : c ∈ l := h.perm.mem_iff.1 (List.mem_flatten.2 ⟨_, hchain, by simp⟩)
    exact absurd (rel_of_side_by_side (h.isChain _ hchain) hpair) (hfirst c hc)

/-- One more member comes before the chain that begins with what it precedes, or it makes up a
chain of its own. -/
theorem InChains.cons (h : InChains R l chains) (hr : Relator.RightUnique R)
    (hl : Relator.LeftUnique R) (ha : a ∉ l) (hfirst : ∀ c ∈ a :: l, ¬ R c a) :
    ∃ chains', InChains R (a :: l) chains' := by
  by_cases hnext : ∃ b ∈ l, R a b
  · obtain ⟨b, hb, hab⟩ := hnext
    obtain ⟨rest, hrest⟩ := h.exists_head hb fun c hc hcb => ha (hl hab hcb ▸ hc)
    obtain ⟨front, back, rfl⟩ := List.append_of_mem hrest
    have h' := h.of_perm (.refl l) List.perm_middle
    obtain ⟨-, hother⟩ := List.forall_mem_cons.1 h'.ne_nil
    obtain ⟨hchain, hothers⟩ := List.forall_mem_cons.1 h'.isChain
    refine ⟨(a :: b :: rest) :: (front ++ back), h'.perm.cons a,
      List.forall_mem_cons.2 ⟨List.cons_ne_nil _ _, hother⟩,
      List.forall_mem_cons.2 ⟨hchain.cons_cons hab, hothers⟩, fun c hc d hd hcd => ?_⟩
    rcases List.mem_cons.1 hc with rfl | hc
    · obtain rfl := hr hab hcd
      exact ⟨_, List.mem_cons_self, [], rest, rfl⟩
    · have hold : d ∈ l := (List.mem_cons.1 hd).resolve_left fun heq =>
        hfirst c (List.mem_cons_of_mem a hc) (heq ▸ hcd)
      obtain ⟨chain, hmem, hpair⟩ := h'.exists_chain c hc d hold hcd
      rcases List.mem_cons.1 hmem with rfl | hmem
      · exact ⟨_, List.mem_cons_self, hpair.trans (List.suffix_cons a _).isInfix⟩
      · exact ⟨chain, List.mem_cons_of_mem _ hmem, hpair⟩
  · refine ⟨[a] :: chains, h.perm.cons a, List.forall_mem_cons.2 ⟨List.cons_ne_nil _ _, h.ne_nil⟩,
      List.forall_mem_cons.2 ⟨.singleton a, h.isChain⟩, fun c hc d hd hcd => ?_⟩
    have hold : d ∈ l := (List.mem_cons.1 hd).resolve_left fun heq => hfirst c hc (heq ▸ hcd)
    rcases List.mem_cons.1 hc with rfl | hc
    · exact absurd ⟨d, hold, hcd⟩ hnext
    · obtain ⟨chain, hmem, hpair⟩ := h.exists_chain c hc d hold hcd
      exact ⟨chain, List.mem_cons_of_mem _ hmem, hpair⟩

/-- Where a relation has no cycle, some member of a list is preceded by none. -/
theorem exists_first [Finite α] (hac : ∀ a, ¬ TransGen R a a) (hne : l ≠ []) :
    ∃ a ∈ l, ∀ c ∈ l, ¬ R c a := by
  have htrans : IsTrans α (TransGen R) := ⟨fun _ _ _ => TransGen.trans⟩
  have hirrefl : Std.Irrefl (TransGen R) := ⟨hac⟩
  obtain ⟨a, ha, hmin⟩ := (Finite.wellFounded_of_trans_of_irrefl (TransGen R)).has_min
    {a | a ∈ l} (List.exists_mem_of_ne_nil l hne)
  exact ⟨a, ha, fun c hc hca => hmin c hc (.single hca)⟩

/-- A list without repetition falls into chains of a relation that is unique in both directions and
has no cycle. -/
theorem exists_chains [Finite α] (hr : Relator.RightUnique R) (hl : Relator.LeftUnique R)
    (hac : ∀ a, ¬ TransGen R a a) (hnodup : l.Nodup) : ∃ chains, InChains R l chains := by
  -- by the length of the list, without a member that none precedes
  induction hn : l.length generalizing l with
  | zero =>
    obtain rfl := List.length_eq_zero_iff.1 hn
    exact ⟨[], .refl [], by simp, by simp, by simp⟩
  | succ n ih =>
    obtain ⟨a, ha, hfirst⟩ := exists_first hac (List.ne_nil_of_length_eq_add_one hn)
    obtain ⟨front, back, rfl⟩ := List.append_of_mem ha
    have hmiddle : (front ++ a :: back).Perm (a :: (front ++ back)) := List.perm_middle
    obtain ⟨hnew, hrest⟩ := List.nodup_cons.1 (hmiddle.nodup_iff.1 hnodup)
    obtain ⟨chains, hchains⟩ := ih hrest (Nat.succ.inj (hmiddle.length_eq.symm.trans hn))
    obtain ⟨chains', h'⟩ := hchains.cons hr hl hnew fun c hc => hfirst c (hmiddle.mem_iff.2 hc)
    exact ⟨chains', h'.of_perm hmiddle.symm (.refl _)⟩

end Chains

/-- A set of at most two kinds of members, those that an element precedes and those that precede it,
has at most two members. -/
theorem IdSet.card_le_two {κ : IdKind} {R : DenseId κ → DenseId κ → Prop}
    (hr : Relator.RightUnique R) (hl : Relator.LeftUnique R) {s : IdSet κ} {a : DenseId κ}
    (h : ∀ c ∈ s, R a c ∨ R c a) : s.card ≤ 2 := by
  classical
  have hafter : (s.filter (R a ·)).card ≤ 1 := by
    refine card_le_one fun c hc d hd => ?_
    rw [mem_filter, decide_eq_true_iff] at hc hd
    exact hr hc.2 hd.2
  have hbefore : (s \ s.filter (R a ·)).card ≤ 1 := by
    have hpre : ∀ c ∈ s \ s.filter (R a ·), R c a := by
      intro c hc
      rw [mem_sdiff, mem_filter, decide_eq_true_iff] at hc
      exact (h c hc.1).resolve_left fun hac => hc.2 ⟨hc.1, hac⟩
    exact card_le_one fun c hc d hd => hl (hpre c hc) (hpre d hd)
  rw [card_eq_add_card_sdiff (fun c hc => (mem_filter.1 hc).1 : s.filter (R a ·) ⊆ s)]
  omega

namespace HammockTree

variable {t : HammockTree} {a c h p : HammockId}

/-! ## When siblings are written down -/

theorem siblings_attach (hsize : t.registry.sizeOf c < t.registry.sizeOf p) :
    (t.attach c p hsize).siblings a = t.siblings a := LinkTable.siblings_get_attach

/-- The end of a walk writes down the siblings of the children of its host. -/
theorem siblings_linkSiblings (hrow : ∀ c ∈ t.children h, c.index < t.links.rows.size) :
    (t.linkSiblings h).siblings a =
      if a ∈ t.children h then adjoining t.registry (t.children h) a else t.siblings a := by
  refine (LinkTable.siblings_get_setSiblings _ _).trans ?_
  by_cases ha : a ∈ t.children h
  · simp [ha, hrow a ha]
  · simp [ha, siblings]

/-- One child of a hammock ends where another one begins. -/
def Precedes (t : HammockTree) (a c : HammockId) : Prop :=
  (∃ p, t.parent? a = some p ∧ t.parent? c = some p) ∧
    ∃ x y, t.get? a = some x ∧ t.get? c = some y ∧ x.exit = y.entry

end HammockTree

namespace Construction

/-- Hammocks without parent have no siblings, nor have children of the hosts of suspended walks. To
the others their siblings have been written down, and they are the children that adjoin them. -/
structure Acquainted (s : Construction) : Prop where
  of_none : ∀ a, s.tree.parent? a = none → s.tree.siblings a = ∅
  of_suspended : ∀ a p, s.tree.parent? a = some p → p ∈ s.stack.map Walk.host →
    s.tree.siblings a = ∅
  of_over : ∀ a p, s.tree.parent? a = some p → p ∉ s.stack.map Walk.host →
    s.tree.siblings a = HammockTree.adjoining s.tree.registry (s.tree.children p) a

end Construction

namespace HammockRegistry

variable {r : HammockRegistry} {g : FlowGraph} {b : BoundaryRelation} {a c p : HammockId}
variable {x y : Hammock} {s : Construction} {t : HammockTree} {w : Walk} {below : List Walk}

theorem adjoin_iff : r.adjoin a c = true ↔
    ∃ x y, r.get? a = some x ∧ r.get? c = some y ∧ c ≠ a ∧
      (x.exit = y.entry ∨ x.entry = y.exit) := by
  rw [adjoin]
  cases hx : r.get? a with
  | none => simp
  | some x =>
    cases hy : r.get? c with
    | none => simp
    | some y => simp

/-- When a walk is over, the children of its host become acquainted. -/
theorem Passes.acquainted_linkSiblings (hs : r.Passes g ⟨t, w :: below⟩)
    (ha : Construction.Acquainted ⟨t, w :: below⟩) :
    Construction.Acquainted ⟨t.linkSiblings w.host, below⟩ := by
  have hmem : ∀ a, a ∈ t.children w.host ↔ t.parent? a = some w.host :=
    hs.mirrored.mem_children_iff w.host
  have hnew : ∀ a, (t.linkSiblings w.host).siblings a = if t.parent? a = some w.host then
      HammockTree.adjoining t.registry (t.children w.host) a else t.siblings a := by
    intro a
    rw [HammockTree.siblings_linkSiblings fun c hc => ?_]
    · simp only [hmem]
    · exact hs.linked.has_row (hs.linked.parent_attached c w.host ((hmem c).1 hc)).1
  refine ⟨fun a hp => ?_, fun a p hp hmem => ?_, fun a p hp hout => ?_⟩
  · rw [HammockTree.parent?_linkSiblings] at hp
    rw [hnew, if_neg (by simp [hp])]
    exact ha.of_none a hp
  · rw [HammockTree.parent?_linkSiblings] at hp
    have hne : p ≠ w.host := by
      obtain ⟨u, hu, rfl⟩ := List.mem_map.1 hmem
      exact hs.host_ne u hu
    rw [hnew, if_neg (by simpa [hp] using hne)]
    exact ha.of_suspended a p hp (List.mem_cons_of_mem _ hmem)
  · rw [HammockTree.parent?_linkSiblings] at hp
    rw [hnew]
    by_cases hpw : p = w.host
    · subst hpw
      rw [if_pos hp]
      exact congrArg (HammockTree.adjoining t.registry · a)
        (HammockTree.children_linkSiblings t w.host w.host).symm
    · rw [if_neg (by simpa [hp] using hpw), HammockTree.children_linkSiblings]
      exact ha.of_over a p hp fun hmem => (List.mem_cons.1 hmem).elim hpw hout

/-- A new child is the child of a host whose walk is suspended. -/
theorem Passes.acquainted_attach {w' : Walk} (hs : r.Passes g ⟨t, w :: below⟩)
    (ha : Construction.Acquainted ⟨t, w :: below⟩) (hx : r.get? c = some x)
    (hsize : t.registry.sizeOf c < t.registry.sizeOf w.host) (hnew : c ∉ t.attached)
    (hhost : w'.host = w.host) :
    Construction.Acquainted ⟨t.attach c w.host hsize, .begin r c :: w' :: below⟩ := by
  have hlink := hs.linked
  have hparent : ∀ a, (t.attach c w.host hsize).parent? a =
      if a = c then some w.host else t.parent? a := fun a =>
    HammockTree.parent?_attach hsize (hlink.size_rows ▸ index_lt_of_get? hx)
  have hchildren : ∀ p, p ≠ w.host → (t.attach c w.host hsize).children p = t.children p :=
    fun p hp => (HammockTree.children_attach hsize hlink.host_has_row).trans (if_neg hp)
  refine ⟨fun a hp => ?_, fun a p hp hmem => ?_, fun a p hp hout => ?_⟩
  · rw [hparent] at hp
    split at hp
    · cases hp
    · exact (HammockTree.siblings_attach hsize).trans (ha.of_none a hp)
  · rw [hparent] at hp
    refine (HammockTree.siblings_attach hsize).trans ?_
    split at hp
    · next hac => exact hac ▸ ha.of_none c (hlink.parent?_eq_none hnew)
    · -- a parent has been attached before, and so is not the new child
      refine ha.of_suspended a p hp ?_
      simp only [List.map_cons, Walk.host_begin, hhost, List.mem_cons] at hmem ⊢
      refine hmem.resolve_left ?_
      rintro rfl
      exact hnew (hlink.parent_attached a p hp).2
  · simp only [List.map_cons, Walk.host_begin, hhost, List.mem_cons, not_or] at hout
    rw [hparent] at hp
    split at hp
    · exact absurd (Option.some.inj hp).symm hout.2.1
    · refine (HammockTree.siblings_attach hsize).trans ?_
      rw [hchildren p hout.2.1]
      exact ha.of_over a p hp (by simpa using hout.2)

/-- At every moment of the construction, the children of the hammocks whose walks are over have been
told their siblings, and the other hammocks have none. -/
theorem Passes.acquainted (hs : r.Passes g s) : s.Acquainted := by
  induction hs with
  | start hroot =>
    refine ⟨fun a _ => ?_, fun a p hp => ?_, fun a p hp => ?_⟩
    · simp [Construction.start, HammockTree.planted, HammockTree.siblings]
    all_goals simp [Construction.start, HammockTree.planted, HammockTree.parent?] at hp
  | step hs hstep ih =>
    obtain rfl := hs.registry_eq
    cases hstep.progress with
    | ended => exact hs.acquainted_linkSiblings ih
    | @onward t w below v rest hq l =>
      have hhosts : (l.foldl Walk.enqueue (w.dequeued rest) :: below).map Walk.host =
          (w :: below).map Walk.host := by
        rw [List.map_cons, Walk.host_foldl_enqueue]
        rfl
      exact ⟨ih.of_none, fun a p hp hmem => ih.of_suspended a p hp (hhosts ▸ hmem),
        fun a p hp hout => ih.of_over a p hp (hhosts ▸ hout)⟩
    | @nest t w below v rest c y hq l hnew hy hsize =>
      exact hs.acquainted_attach ih hy hsize hnew (Walk.host_foldl_enqueue _ _)

/-! ## The siblings in the finished tree -/

/-- In the finished tree, siblings are the children of one parent that adjoin. -/
theorem Passes.mem_siblings_iff (hs : r.Passes g ⟨t, []⟩) : c ∈ t.siblings a ↔
    c ≠ a ∧ (∃ p, t.parent? a = some p ∧ t.parent? c = some p) ∧
      ∃ x y, t.get? a = some x ∧ t.get? c = some y ∧ (x.exit = y.entry ∨ x.entry = y.exit) := by
  cases hp : t.parent? a with
  | none =>
    rw [hs.acquainted.of_none a hp]
    simp
  | some p =>
    have hmem := hs.mirrored.mem_children_iff p c
    rw [hs.acquainted.of_over a p hp List.not_mem_nil, HammockTree.adjoining, IdSet.mem_ofList,
      List.mem_filter, hmem, adjoin_iff]
    constructor
    · rintro ⟨hc, x, y, hx, hy, hne, hmeet⟩
      exact ⟨hne, ⟨p, rfl, hc⟩, x, y, hx, hy, hmeet⟩
    · rintro ⟨hne, ⟨q, hq, hc⟩, x, y, hx, hy, hmeet⟩
      exact ⟨Option.some.inj hq ▸ hc, x, y, hx, hy, hne, hmeet⟩

/-- Siblings precede each other in one of the two directions. -/
theorem Passes.mem_siblings_iff_precedes (hs : r.Passes g ⟨t, []⟩) :
    c ∈ t.siblings a ↔ c ≠ a ∧ (t.Precedes a c ∨ t.Precedes c a) := by
  rw [hs.mem_siblings_iff]
  constructor
  · rintro ⟨hne, ⟨p, ha, hc⟩, x, y, hx, hy, hmeet | hmeet⟩
    · exact ⟨hne, .inl ⟨⟨p, ha, hc⟩, x, y, hx, hy, hmeet⟩⟩
    · exact ⟨hne, .inr ⟨⟨p, hc, ha⟩, y, x, hy, hx, hmeet.symm⟩⟩
  · rintro ⟨hne, ⟨⟨p, ha, hc⟩, x, y, hx, hy, hmeet⟩ | ⟨⟨p, hc, ha⟩, y, x, hy, hx, hmeet⟩⟩
    · exact ⟨hne, ⟨p, ha, hc⟩, x, y, hx, hy, .inl hmeet⟩
    · exact ⟨hne, ⟨p, ha, hc⟩, x, y, hx, hy, .inr hmeet.symm⟩

/-! ## Chains of minimal pairs -/

/-- The bounds of a registered hammock are a pair of the relation. -/
theorem exit_mem_exits (hx : (register g b).value.get? a = some x) : x.exit ∈ b.exits x.entry := by
  obtain ⟨s, e, hpair, rfl⟩ := get?_register.1 hx
  exact BoundaryRelation.mem_pairs.1 (List.mem_of_getElem? hpair)

variable {source sink : VertexId} {mask : Option BoundaryMask} {mode : SweepMode}
variable {an : BoundaryAnalysis}

/-- A child precedes at most one, as the minimal pairs with one entry are one pair. -/
theorem rightUnique_precedes (han : (g.analyseBoundaries source sink mask mode).run.value = .ok an)
    (hreg : t.registry = (register g an.minimal).value) : Relator.RightUnique t.Precedes := by
  rintro a c d ⟨-, x, y, hx, hy, hmeet⟩ ⟨-, x', z, hx', hz, hmeet'⟩
  obtain rfl : x = x' := Option.some.inj (hx.symm.trans hx')
  rw [HammockTree.get?, hreg] at hy hz
  exact (nests_register han).entry_inj hy hz (hmeet.symm.trans hmeet')

/-- At most one child precedes another, as the minimal pairs with one exit are one pair. -/
theorem leftUnique_precedes (han : (g.analyseBoundaries source sink mask mode).run.value = .ok an)
    (hreg : t.registry = (register g an.minimal).value) : Relator.LeftUnique t.Precedes := by
  rintro a c d ⟨-, x, y, hx, hy, hmeet⟩ ⟨-, z, y', hz, hy', hmeet'⟩
  obtain rfl : y = y' := Option.some.inj (hy.symm.trans hy')
  rw [HammockTree.get?, hreg] at hx hz
  have hexit : x.exit = z.exit := hmeet.trans hmeet'.symm
  have hentry : x.entry = z.entry := FlowGraph.minimal_leftUnique han (exit_mem_exits hx)
    (hexit ▸ exit_mem_exits hz)
  exact eq_of_bounds_eq hx hz hentry hexit

/-- Where children precede each other, their pairs lead from one entry to the next. -/
theorem leads_of_precedes (hreg : t.registry = (register g b).value)
    (h : TransGen t.Precedes a c) :
    ∃ x y, t.get? a = some x ∧ t.get? c = some y ∧ b.Leads x.entry y.entry := by
  have hpair : ∀ {a x}, t.get? a = some x → x.exit ∈ b.exits x.entry := by
    intro a x hx
    rw [HammockTree.get?, hreg] at hx
    exact exit_mem_exits hx
  induction h with
  | single h =>
    obtain ⟨-, x, y, hx, hy, hmeet⟩ := h
    exact ⟨x, y, hx, hy, .single (hmeet ▸ hpair hx)⟩
  | tail _ h ih =>
    obtain ⟨x, y, hx, hy, hleads⟩ := ih
    obtain ⟨-, y', z, hy', hz, hmeet⟩ := h
    obtain rfl : y = y' := Option.some.inj (hy.symm.trans hy')
    exact ⟨x, z, hx, hz, hleads.tail (hmeet ▸ hpair hy)⟩

/-- No child precedes itself, directly or by others. -/
theorem acyclic_precedes (han : (g.analyseBoundaries source sink mask mode).run.value = .ok an)
    (hreg : t.registry = (register g an.minimal).value) : ∀ a, ¬ TransGen t.Precedes a a := by
  intro a h
  obtain ⟨x, y, hx, hy, hleads⟩ := leads_of_precedes hreg h
  obtain rfl : x = y := Option.some.inj (hx.symm.trans hy)
  exact FlowGraph.acyclic_minimal han x.entry hleads

/-- In every tree of registered pairs, whatever they are, the siblings of a hammock, in ascending
order, are the other children of its parent of which one ends where the other begins. Of minimal
pairs, a hammock has two siblings at most, and the children of one parent fall into chains, each
ending where the next one begins, in which the siblings stand side by side. -/
theorem siblings_form_chains (g : FlowGraph) (b : BoundaryRelation) {t : HammockTree}
    (ht : ((register g b).value.nest g).run.value = .ok t) :
    (∀ a, (t.siblings a).toList.Pairwise (· < ·)) ∧
      (∀ a c, c ∈ t.siblings a ↔
        c ≠ a ∧ (∃ p, t.parent? a = some p ∧ t.parent? c = some p) ∧
          ∃ x y, t.get? a = some x ∧ t.get? c = some y ∧
            (x.exit = y.entry ∨ x.entry = y.exit)) ∧
      (∀ a c, c ∈ t.siblings a ↔ a ∈ t.siblings c) ∧
      ∀ source sink mask mode (an : BoundaryAnalysis),
        (g.analyseBoundaries source sink mask mode).run.value = .ok an → b = an.minimal →
        (∀ a, (t.siblings a).card ≤ 2) ∧ (∀ a, ¬ TransGen t.Precedes a a) ∧
          ∀ p, (t.children p).Nodup ∧ ∃ chains, InChains t.Precedes (t.children p) chains ∧
            ∀ a ∈ t.children p, ∀ c, c ∈ t.siblings a ↔
              ∃ chain ∈ chains, [a, c] <:+: chain ∨ [c, a] <:+: chain := by
  have hs := passes_of_nest ht
  have hmem : ∀ a c, c ∈ t.siblings a ↔ c ≠ a ∧ (t.Precedes a c ∨ t.Precedes c a) :=
    fun a c => hs.mem_siblings_iff_precedes
  refine ⟨fun a => (t.siblings a).ascending, fun a c => hs.mem_siblings_iff, fun a c => ?_, ?_⟩
  · rw [hmem, hmem, ne_comm, or_comm]
  rintro source sink mask mode an han rfl
  have hreg := hs.registry_eq
  have hr := rightUnique_precedes han hreg
  have hl := leftUnique_precedes han hreg
  have hac := acyclic_precedes han hreg
  refine ⟨fun a => IdSet.card_le_two hr hl fun c hc => ((hmem a c).1 hc).2, hac, fun p => ?_⟩
  have hnodup := hs.mirrored.nodup_children p
  obtain ⟨chains, hchains⟩ := exists_chains hr hl hac hnodup
  refine ⟨hnodup, chains, hchains, fun a ha c => ⟨fun hc => ?_, ?_⟩⟩
  · -- a sibling is a child of the same parent, so it is in one of the chains too
    obtain ⟨_, ⟨q, hq, hcq⟩, _⟩ := hs.mem_siblings_iff.1 hc
    have hap := (hs.mirrored.mem_children_iff p a).1 ha
    obtain rfl := Option.some.inj (hap.symm.trans hq)
    have hcp := (hs.mirrored.mem_children_iff p c).2 hcq
    rcases ((hmem a c).1 hc).2 with hnext | hnext
    · obtain ⟨chain, hchain, hpair⟩ := hchains.exists_chain a ha c hcp hnext
      exact ⟨chain, hchain, .inl hpair⟩
    · obtain ⟨chain, hchain, hpair⟩ := hchains.exists_chain c hcp a ha hnext
      exact ⟨chain, hchain, .inr hpair⟩
  · rintro ⟨chain, hchain, hpair⟩
    have hnext : t.Precedes a c ∨ t.Precedes c a :=
      hpair.imp (rel_of_side_by_side (hchains.isChain chain hchain))
        (rel_of_side_by_side (hchains.isChain chain hchain))
    refine (hmem a c).2 ⟨?_, hnext⟩
    rintro rfl
    exact hac c (.single (hnext.elim id id))

end HammockRegistry

namespace FlowGraph

open HammockRegistry

/-- Two strands between a fork and a join. From the end of the first one, an edge leads back to
where it begins. -/
def strands : FlowGraph :=
  ((new 8).addEdges [(⟨0⟩, ⟨1⟩), (⟨1⟩, ⟨2⟩), (⟨2⟩, ⟨3⟩), (⟨3⟩, ⟨4⟩), (⟨4⟩, ⟨1⟩), (⟨4⟩, ⟨7⟩),
    (⟨0⟩, ⟨5⟩), (⟨5⟩, ⟨6⟩), (⟨6⟩, ⟨7⟩)]).toOption.getD default

/-- The children of the root are found along both strands in turn. The one in the middle of the
first strand has two siblings and stands beside each of them in one chain. -/
theorem strands_chained :
    ∃ an t, (strands.analyseBoundaries ⟨0⟩ ⟨7⟩ none .inPlace).run.value = .ok an ∧
      ((register strands an.minimal).value.nest strands).run.value = .ok t ∧
      t.children ⟨0⟩ = [⟨1⟩, ⟨4⟩, ⟨2⟩, ⟨3⟩] ∧ (t.siblings ⟨2⟩).toList = [⟨1⟩, ⟨3⟩] ∧
      ⟨2⟩ ∈ t.siblings ⟨1⟩ ∧ ⟨2⟩ ∈ t.siblings ⟨3⟩ ∧
      ∃ chains, InChains t.Precedes [⟨1⟩, ⟨4⟩, ⟨2⟩, ⟨3⟩] chains ∧
        ∀ c ∈ [⟨1⟩, ⟨3⟩], ∃ chain ∈ chains, [⟨2⟩, c] <:+: chain ∨ [c, ⟨2⟩] <:+: chain := by
  obtain ⟨an, han, hroot, hdone, hchildren, hsiblings⟩ : ∃ an,
      (strands.analyseBoundaries ⟨0⟩ ⟨7⟩ none .inPlace).run.value = .ok an ∧
      ∃ hroot : (register strands an.minimal).value.largest?
        (register strands an.minimal).value.ids = some ⟨0⟩,
      let grown := Construction.resumed strands 9
        (.start _ ⟨0⟩ (isSome_get?_of_mem_ids (mem_of_largest? hroot)))
      grown.stack = [] ∧ grown.tree.children ⟨0⟩ = [⟨1⟩, ⟨4⟩, ⟨2⟩, ⟨3⟩] ∧
        (grown.tree.siblings ⟨2⟩).toList = [⟨1⟩, ⟨3⟩] :=
    ⟨(strands.analyseBoundaries ⟨0⟩ ⟨7⟩ none .inPlace).run.value.toOption.get
      (by decide +kernel), by decide +kernel, by decide +kernel, by decide +kernel⟩
  have ht := value_nest_of_resumed hroot hdone
  obtain ⟨_, _, hsymm, hminimal⟩ := siblings_form_chains strands an.minimal ht
  obtain ⟨_, _, hchains⟩ := hminimal ⟨0⟩ ⟨7⟩ none .inPlace an han rfl
  obtain ⟨_, chains, hin, hbeside⟩ := hchains ⟨0⟩
  rw [hchildren] at hin hbeside
  have hmem : ∀ c ∈ [⟨1⟩, ⟨3⟩], c ∈ (Construction.resumed strands 9
      (.start _ ⟨0⟩ (isSome_get?_of_mem_ids (mem_of_largest? hroot)))).tree.siblings ⟨2⟩ := by
    intro c hc
    rwa [← hsiblings, IdSet.mem_toList] at hc
  exact ⟨an, _, han, ht, hchildren, hsiblings, (hsymm ⟨2⟩ ⟨1⟩).1 (hmem ⟨1⟩ (by decide)),
    (hsymm ⟨2⟩ ⟨3⟩).1 (hmem ⟨3⟩ (by decide)), chains, hin, fun c hc =>
      (hbeside ⟨2⟩ (by decide) c).1 (hmem c hc)⟩

end FlowGraph

end FlowRegions
