import FlowRegions.Proofs.AttachOrder
import FlowRegions.Proofs.Completeness
import FlowRegions.Proofs.ContainmentOrder

/-!
# Which hammocks claim those inside them

A hammock that begins inside another one, before its exit, is attached below it exactly when it is
attached later. While the other one's walk is on the stack, whatever is attached is attached below
it, and once that walk is over nothing that begins inside is left (`Passes.within_host_of_inside`).
So it is decided by the order of attachment, which is preorder.

An edge back may lead the walk of the root into a hammock before it comes to its entry. What begins
there is then attached first, and is no descendant. This takes a root that begins behind that entry.
From a root that does not, walks come to nothing behind the entry before they come to the entry
itself: what they have queued until then is reached around it, or is the exit of an attached hammock
around it, whose walk is still to attach what begins there (`Passes.unmet`).
-/

namespace FlowRegions

open Log Relation

namespace HammockTree

variable {t : HammockTree} {a b c h : HammockId} {hosts : List HammockId}

/-! ## Ancestors in preorder -/

/-- Links lead to larger hammocks. -/
theorem Ancestor.sizeOf_lt (h : t.Ancestor a c) : t.registry.sizeOf c < t.registry.sizeOf a := by
  induction h with
  | single hp => exact t.parent_larger _ _ hp
  | tail _ hp ih => exact ih.trans (t.parent_larger _ _ hp)

/-- Preorder lists ancestors first. -/
theorem Mirrored.sublist_of_ancestor (ht : t.Mirrored) (hroot : t.Within t.root a)
    (h : t.Ancestor a c) : [a, c].Sublist t.preorder := by
  have hne : c ≠ a := by
    rintro rfl
    exact Nat.lt_irrefl _ h.sizeOf_lt
  have hmem : c ∈ t.subtree a := ht.mem_subtree_iff.2 h.to_reflTransGen
  rw [subtree_eq, List.mem_cons] at hmem
  rw [preorder_eq]
  refine List.Sublist.trans ?_ (ht.infix_subtree hroot).sublist
  rw [subtree_eq]
  exact (List.singleton_sublist.2 (hmem.resolve_left hne)).cons_cons a

/-- From the latest host, links lead to all others. -/
theorem Spine.within (hs : t.Spine (h :: hosts)) (ht : t.Mirrored) :
    ∀ a ∈ h :: hosts, t.Within a h := by
  induction hosts generalizing h with
  | nil => exact List.forall_mem_singleton.2 .refl
  | cons b below ih =>
    have hp := (ht.mem_children_iff b h).1 (List.mem_of_getLast? hs.1)
    exact List.forall_mem_cons.2 ⟨.refl, fun a ha => .head hp (ih hs.2 a ha)⟩

end HammockTree

/-- One after the other in a list with a new last member: in the list before, or the new one
second. -/
theorem pair_sublist_concat_iff {α : Type} {a b c : α} {l : List α} :
    [a, b].Sublist (l ++ [c]) ↔ [a, b].Sublist l ∨ (a ∈ l ∧ b = c) := by
  -- the reversed list begins with the new member
  rw [← List.reverse_sublist, List.reverse_concat, List.sublist_cons_iff, List.reverse_sublist]
  simp [and_comm]

namespace HammockRegistry

variable {r : HammockRegistry} {g : FlowGraph} {c h k root : HammockId} {x y z : Hammock}
variable {source u v : VertexId} {s s' : Construction} {t : HammockTree} {w : Walk}
variable {below : List Walk} {rest : List VertexId} {attached attached' : HammockSet}

/-! ## Claiming what begins inside -/

/-- Of two hammocks that are attached one after the other, the former is on the stack if the latter
begins inside it, and so links will lead from the latter to it. -/
theorem Passes.within_host_of_inside (hn : r.Nests g) (hs : r.Passes g ⟨t, w :: below⟩)
    (hx : r.get? h = some x) (hy : r.get? c = some y) (hentry : y.entry ∈ r.coverage h)
    (hexit : y.entry ≠ x.exit) (hh : h ∈ t.attached) (hc : c ∉ t.attached) :
    t.Within h w.host := by
  have hhost : ∃ u ∈ w :: below, u.host = h := by
    by_contra hnone
    -- otherwise its walk is over, and it has attached what begins inside
    have hout : ∀ u ∈ w :: below, u.host ≠ h := fun u hu hu' => hnone ⟨u, hu, hu'⟩
    refine hc ((hs.exhaustive hn).complete h hh hout c y hy hentry ?_)
    rw [isExit_iff hx]
    exact Ne.symm hexit
  obtain ⟨u, hu, rfl⟩ := hhost
  exact hs.spine.within hs.mirrored u.host (List.mem_map_of_mem (f := Walk.host) hu)

/-- Links stay. -/
theorem Passes.within_step (hs : r.Passes g s) (hstep : Construction.Step g s s')
    (h : s.tree.Within k c) : s'.tree.Within k c :=
  ReflTransGen.mono (fun _ _ hp => hs.parent?_step hstep hp) c k h

/-- At every moment of the construction, what begins inside a hammock and has been attached later is
below it. -/
theorem Passes.within_of_sublist (hn : r.Nests g) (hs : r.Passes g s) (hx : r.get? h = some x)
    (hy : r.get? c = some y) (hentry : y.entry ∈ r.coverage h) (hexit : y.entry ≠ x.exit)
    (hlater : [h, c].Sublist s.tree.preorder) : s.tree.Within h c := by
  induction hs with
  | start hroot =>
    -- the root alone is not attached later than another hammock
    rw [Construction.start, HammockTree.preorder_planted] at hlater
    exact absurd hlater.length_le (by simp)
  | step hs hstep ih =>
    obtain rfl := hs.registry_eq
    cases hstep with
    | finish hq =>
      rw [HammockTree.preorder_linkSiblings] at hlater
      exact hs.within_step (.finish hq) (ih hlater)
    | stop | jump | spread => exact ih hlater
    | @nest t w below v rest d hq hexit' hmeets hnew =>
      rw [hs.preorder_attach _ hnew, pair_sublist_concat_iff] at hlater
      have hstep : Construction.Step g ⟨t, w :: below⟩ _ := .nest hq hexit' hmeets hnew
      rcases hlater with hlater | ⟨hh, rfl⟩
      · exact hs.within_step hstep (ih hlater)
      · -- the new hammock is a child of the host on top, which is below the other one
        have hhost := hs.within_host_of_inside hn hx hy hentry hexit (hs.mem_preorder_iff.1 hh) hnew
        have hrow : c.index < t.links.rows.size := hs.linked.size_rows ▸ index_lt_of_get? hy
        have hparent : (t.attach c w.host (of_largestBelow? hmeets).2).parent? c = some w.host :=
          (HammockTree.parent?_attach _ hrow).trans (if_pos rfl)
        exact .head hparent (hs.within_step hstep hhost)

/-! ## Before a hammock is met -/

/-- A hammock is met where it begins, if the walk may go on from there. -/
theorem Nests.meets_of_entry (hn : r.Nests g) (hx : r.get? h = some x)
    (hentry : x.entry ∈ r.coverage k) (hexit : ¬ r.isExit k x.entry = true) (hne : k ≠ h) :
    r.largestBelow? x.entry (r.sizeOf k) = some h := by
  obtain ⟨z, hz⟩ := exists_get?_of_mem_coverage hentry
  rw [isExit_iff hz] at hexit
  have hsub := (hn.coverage_ssubset hz hx hne hentry (Ne.symm hexit)).1
  exact hn.largestBelow?_eq_some_iff.2
    ⟨mem_startedAt.2 ⟨x, hx, rfl⟩, sizeOf_lt_of_ssubset hz hx hsub⟩

/-- What walks may have queued before a hammock is attached: its entry, what is reached around that,
and the exits of attached hammocks around it. -/
inductive Ahead (g : FlowGraph) (source : VertexId) (r : HammockRegistry) (attached : HammockSet)
    (x : Hammock) (host : HammockId) : VertexId → Prop where
  | entry : Ahead g source r attached x host x.entry
  | around {v : VertexId} (hv : g.Bypass x.entry source v) : Ahead g source r attached x host v
  | past {k : HammockId} {y : Hammock} (hatt : k ∈ attached) (hy : r.get? k = some y)
      (hsize : r.sizeOf k < r.sizeOf host) (hin : x.entry ∈ r.coverage k)
      (hexit : x.entry ≠ y.exit) : Ahead g source r attached x host y.exit

theorem Ahead.mono {host : HammockId} (hv : Ahead g source r attached x host v)
    (hgrow : attached ⊆ attached') : Ahead g source r attached' x host v := by
  cases hv with
  | entry => exact .entry
  | around hv => exact .around hv
  | past hatt hy hsize hin hexit => exact .past (hgrow _ hatt) hy hsize hin hexit

/-- The exit of an attached hammock that is reached around the entry. -/
theorem Nests.ahead_exit (hn : r.Nests g) {host : HammockId} (hatt : c ∈ attached)
    (hy : r.get? c = some y) (hsize : r.sizeOf c < r.sizeOf host)
    (haround : g.Bypass x.entry source y.entry) : Ahead g source r attached x host y.exit := by
  by_cases hexit : x.entry = y.exit
  · rw [← hexit]
    exact .entry
  · by_cases hin : x.entry ∈ r.coverage c
    · exact .past hatt hy hsize hin hexit
    · have hreach : y.exit ∈ r.coverage c := (mem_coverage hy).2 (hn.exit_mem hy)
      rw [hn.mem_coverage_iff hy] at hin hreach
      exact .around (haround.trans
        (FlowGraph.bypass_of_mem_region haround.contains_target hreach hin))

/-- Attached hammocks begin where the entry of the given one is avoided, and queues hold only what
may come before it. -/
structure Unmet (g : FlowGraph) (source : VertexId) (r : HammockRegistry) (x : Hammock)
    (s : Construction) : Prop where
  attached : ∀ k ∈ s.tree.attached, ∀ y, r.get? k = some y → g.Bypass x.entry source y.entry
  queued : ∀ w ∈ s.stack, ∀ v ∈ w.queue, Ahead g source r s.tree.attached x w.host v

/-- A vertex from which the walk on top goes on, and where it does not meet the hammock, is reached
around its entry: the walks of smaller hammocks are over. -/
theorem Unmet.around (hn : r.Nests g) (hs : r.Passes g ⟨t, w :: below⟩)
    (hx : r.get? h = some x) (hh : h ∉ t.attached) (hun : Unmet g source r x ⟨t, w :: below⟩)
    (hq : w.queue = v :: rest) (hexit : ¬ r.isExit w.host v = true)
    (hother : r.largestBelow? v (r.sizeOf w.host) ≠ some h) : g.Bypass x.entry source v := by
  have hv : v ∈ w.queue := hq ▸ List.mem_cons_self
  cases hun.queued w List.mem_cons_self v hv with
  | around haround => exact haround
  | entry =>
    have hhost : w.host ≠ h := fun heq => hh (heq ▸ hs.linked.host_attached w List.mem_cons_self)
    have hcover := hs.queue_covered hn w List.mem_cons_self x.entry hv
    exact absurd (hn.meets_of_entry hx hcover hexit hhost) hother
  | @past k y hatt hy hsize hin hout =>
    refine absurd ((hs.exhaustive hn).complete_of_lt hatt hsize h x hx hin ?_) hh
    rw [isExit_iff hy]
    exact Ne.symm hout

theorem Unmet.foldl_enqueue (hun : Unmet g source r x ⟨t, w :: below⟩) (hq : w.queue = v :: rest)
    (hgrow : t.attached ⊆ attached') (l : List VertexId)
    (hl : ∀ u ∈ l, Ahead g source r attached' x w.host u) :
    ∀ w' ∈ l.foldl Walk.enqueue (w.dequeued rest) :: below, ∀ u ∈ w'.queue,
      Ahead g source r attached' x w'.host u := by
  obtain ⟨hw, hbelow⟩ := List.forall_mem_cons.1 hun.queued
  exact List.forall_mem_cons.2
    ⟨queued_foldl_enqueue (fun u hu => (hw u hu).mono hgrow) hq l hl,
      fun w' hw' u hu => (hbelow w' hw' u hu).mono hgrow⟩

/-- If the root begins where the entry of a hammock is avoided, so do all hammocks that are attached
before that one. -/
theorem Passes.unmet (hn : r.Nests g) (hx : r.get? h = some x)
    (hroot : r.largest? r.ids = some root) (hz : r.get? root = some z)
    (haround : g.Bypass x.entry source z.entry) (hs : r.Passes g s) (hh : h ∉ s.tree.attached) :
    Unmet g source r x s := by
  induction hs with
  | start hroot' =>
    obtain rfl := Option.some.inj (hroot.symm.trans hroot')
    refine ⟨fun k hk y hy => ?_, List.forall_mem_singleton.2 ?_⟩
    · obtain rfl := IdSet.mem_singleton.1 hk
      obtain rfl : z = y := Option.some.inj (hz.symm.trans hy)
      exact haround
    · rw [Walk.begin_of_get? hz]
      exact List.forall_mem_singleton.2 (.around haround)
  | step hs hstep ih =>
    obtain rfl := hs.registry_eq
    cases hstep with
    | @finish t w below hq =>
      have hun := ih hh
      exact ⟨hun.attached, (List.forall_mem_cons.1 hun.queued).2⟩
    | @stop t w below v rest hq hexit =>
      have hun := ih hh
      exact ⟨hun.attached, hun.foldl_enqueue hq (fun _ hk => hk) [] (by simp)⟩
    | @jump t w below v rest c hq hexit hmeets hatt =>
      have hun := ih hh
      obtain ⟨hstart, hsize⟩ := of_largestBelow? hmeets
      obtain ⟨y, hy, _⟩ := mem_startedAt.1 hstart
      rw [Walk.enqueueExit_of_get? hy]
      exact ⟨hun.attached, hun.foldl_enqueue hq (fun _ hk => hk) [y.exit]
        (List.forall_mem_singleton.2 (hn.ahead_exit hatt hy hsize (hun.attached c hatt y hy)))⟩
    | @spread t w below v rest hq hexit hnone =>
      have hun := ih hh
      have hv := hun.around hn hs hx hh hq hexit (by simp [hnone])
      refine ⟨hun.attached, hun.foldl_enqueue hq (fun _ hk => hk) _ fun u hu => ?_⟩
      by_cases hux : u = x.entry
      · exact hux ▸ .entry
      · exact .around (hv.snoc hu hux)
    | @nest t w below v rest c hq hexit hmeets hnew =>
      obtain ⟨hch, hold⟩ : h ≠ c ∧ h ∉ t.attached := by
        rwa [← not_or, ← IdSet.mem_insert]
      have hun := ih hold
      obtain ⟨hstart, hsize⟩ := of_largestBelow? hmeets
      obtain ⟨y, hy, rfl⟩ := mem_startedAt.1 hstart
      -- it is not the hammock itself that is met, so this one begins around its entry too
      have hv := hun.around hn hs hx hold hq hexit fun heq =>
        hch (Option.some.inj (heq.symm.trans hmeets))
      have hself : c ∈ insert c t.attached := IdSet.mem_insert.2 (.inl rfl)
      have hgrow : t.attached ⊆ insert c t.attached := fun k hk => IdSet.mem_insert.2 (.inr hk)
      refine ⟨fun k hk z' hz' => ?_, ?_⟩
      · rcases IdSet.mem_insert.1 hk with rfl | hk
        · exact Option.some.inj (hy.symm.trans hz') ▸ hv
        · exact hun.attached k hk z' hz'
      · rw [Walk.enqueueExit_of_get? hy, Walk.begin_of_get? hy]
        exact List.forall_mem_cons.2 ⟨List.forall_mem_singleton.2 (.around hv),
          hun.foldl_enqueue hq hgrow [y.exit]
            (List.forall_mem_singleton.2 (hn.ahead_exit hself hy hsize hv))⟩

/-- From such a root, hammocks that begin behind the entry of another one are attached later. -/
theorem Passes.sublist_of_dominates (hn : r.Nests g) (hx : r.get? h = some x)
    (hroot : r.largest? r.ids = some root) (hz : r.get? root = some z)
    (haround : g.Bypass x.entry source z.entry) (hy : r.get? c = some y)
    (hdom : g.Necessary source y.entry x.entry) (hne : c ≠ h) (hs : r.Passes g s)
    (hh : h ∈ s.tree.attached) (hc : c ∈ s.tree.attached) :
    [h, c].Sublist s.tree.preorder := by
  induction hs with
  | start hroot' =>
    rw [IdSet.mem_singleton.1 hh, IdSet.mem_singleton.1 hc] at hne
    exact absurd rfl hne
  | step hs hstep ih =>
    cases hstep with
    | finish hq =>
      rw [HammockTree.preorder_linkSiblings]
      exact ih hh hc
    | stop | jump | spread => exact ih hh hc
    | @nest t w below v rest d hq hexit hmeets hnew =>
      rw [hs.preorder_attach _ hnew, pair_sublist_concat_iff, hs.mem_preorder_iff]
      rcases IdSet.mem_insert.1 hh with rfl | hfirst
      · -- nothing behind the entry has been attached before
        have hold := (IdSet.mem_insert.1 hc).resolve_left hne
        have hbypass := (hs.unmet hn hx hroot hz haround hnew).attached c hold y hy
        exact absurd hdom (FlowGraph.not_necessary_iff.2 hbypass)
      · rcases IdSet.mem_insert.1 hc with rfl | hold
        · exact .inr ⟨hfirst, rfl⟩
        · exact .inl (ih hfirst hold)

/-- In the finished tree, what begins inside an attached hammock, before its exit, is attached too,
and below it exactly if it comes later in preorder. -/
theorem Nests.ancestor_iff_sublist (hn : r.Nests g) (ht : (r.nest g).run.value = .ok t)
    (hx : r.get? h = some x) (hy : r.get? c = some y) (hne : c ≠ h)
    (hentry : y.entry ∈ r.coverage h) (hexit : y.entry ≠ x.exit) (hh : h ∈ t.attached) :
    c ∈ t.attached ∧ (t.Ancestor h c ↔ [h, c].Sublist t.preorder) := by
  have hs := passes_of_nest ht
  have hsub := (hn.coverage_ssubset hx hy (Ne.symm hne) hentry hexit).1
  refine ⟨(hn.attached_iff_subset ht hy).2 (hsub.1.trans ((hn.attached_iff_subset ht hx).1 hh)),
    fun hanc => hs.mirrored.sublist_of_ancestor (hs.within_root_iff.2 hh) hanc, fun hlater => ?_⟩
  have hwithin := hs.within_of_sublist hn hx hy hentry hexit hlater
  exact (reflTransGen_iff_eq_or_transGen.1 hwithin).resolve_left (Ne.symm hne)

end HammockRegistry

namespace FlowGraph

open HammockRegistry

/-- What begins inside an attached hammock, before its exit, is attached, and it is a descendant
exactly if it is attached later, that is behind it in preorder. Where the entry of the hammock
dominates it, it is a descendant if the hammock is the root or its entry does not dominate that of
the root. -/
theorem descendants_attached_later (g : FlowGraph) (config : Config) (mask : Option BoundaryMask)
    {d : Decomposition} (hd : (g.decompose config mask).run.value = .ok d) :
    ∀ h c x y, d.tree.isAttached h = true → c ≠ h → d.tree.get? h = some x →
      d.tree.get? c = some y → y.entry ∈ d.tree.registry.coverage h → y.entry ≠ x.exit →
      d.tree.isAttached c = true ∧
      (d.tree.Ancestor h c ↔ [h, c].Sublist d.tree.preorder) ∧
      ((∀ p, g.Route d.source y.entry p → x.entry ∈ p) →
        (h = d.tree.root ∨
          ¬ ∀ p, g.Route d.source d.tree.rootHammock.entry p → x.entry ∈ p) →
        d.tree.Ancestor h c) := by
  obtain ⟨a, ha, ht⟩ := of_decompose hd
  have hn := nests_register ha
  have hs := passes_of_nest ht
  obtain ⟨hreg, hroot⟩ := hs.largest
  intro h c x y hh hne hx hy hentry hexit
  have hh : h ∈ d.tree.attached := of_decide_eq_true hh
  rw [HammockTree.get?, hreg] at hx hy
  rw [hreg] at hentry
  obtain ⟨hc, hiff⟩ := hn.ancestor_iff_sublist ht hx hy hne hentry hexit hh
  refine ⟨decide_eq_true hc, hiff, fun hdom hfirst => ?_⟩
  rcases hfirst with rfl | haround
  · -- everything attached is below the root
    exact (reflTransGen_iff_eq_or_transGen.1 (hs.within_root_iff.2 hc)).resolve_left (Ne.symm hne)
  · exact hiff.2 (hs.sublist_of_dominates hn hx hroot (get?_root ht)
      (not_necessary_iff.1 haround) hy hdom hne hh hc)

/-- A branch from whose end edges lead back into it, to its entry and on to the sink. -/
def reentered : FlowGraph :=
  ((new 6).addEdges [(⟨0⟩, ⟨1⟩), (⟨1⟩, ⟨2⟩), (⟨1⟩, ⟨4⟩), (⟨2⟩, ⟨3⟩), (⟨3⟩, ⟨4⟩), (⟨4⟩, ⟨2⟩),
    (⟨4⟩, ⟨1⟩), (⟨4⟩, ⟨5⟩)]).toOption.getD default

/-- The walk of a root that begins at the end of a branch comes to the hammock in the branch by the
edge back, before it comes to the entry of the branch. So that hammock becomes a child of the root,
although the branch is attached and its entry dominates it. -/
theorem inner_claimed_by_root :
    ¬ ∀ (g : FlowGraph) (config : Config) (mask : Option BoundaryMask) (d : Decomposition),
      (g.decompose config mask).run.value = .ok d →
      ∀ h c x y, d.tree.isAttached h = true → c ≠ h → d.tree.get? h = some x →
        d.tree.get? c = some y → y.entry ∈ d.tree.registry.coverage h → y.entry ≠ x.exit →
        (∀ p, g.Route d.source y.entry p → x.entry ∈ p) → d.tree.Ancestor h c := by
  intro hall
  have hends : reentered.endpoints = .ok (⟨0⟩, ⟨5⟩) := by decide +kernel
  obtain ⟨a, ha, hdom, hfirst, hsecond, hcover, hroot, hdone, hatt, hparent, htop⟩ : ∃ a,
      (reentered.analyseBoundaries ⟨0⟩ ⟨5⟩ none .inPlace).run.value = .ok a ∧
      a.dominators.contains ⟨2⟩ ⟨1⟩ = true ∧
      ((register reentered a.minimal).value.get? ⟨1⟩).map Hammock.bounds = some (⟨1⟩, ⟨4⟩) ∧
      ((register reentered a.minimal).value.get? ⟨2⟩).map Hammock.bounds = some (⟨2⟩, ⟨3⟩) ∧
      ⟨1⟩ ∈ (register reentered a.minimal).value.containing ⟨2⟩ ∧
      ∃ hroot : (register reentered a.minimal).value.largest?
        (register reentered a.minimal).value.ids = some ⟨3⟩,
      let grown := Construction.resumed reentered 5
        (.start _ ⟨3⟩ (isSome_get?_of_mem_ids (mem_of_largest? hroot)))
      grown.stack = [] ∧ grown.tree.isAttached ⟨1⟩ = true ∧
        grown.tree.parent? ⟨2⟩ = some ⟨3⟩ ∧ grown.tree.parent? ⟨3⟩ = none :=
    ⟨(reentered.analyseBoundaries ⟨0⟩ ⟨5⟩ none .inPlace).run.value.toOption.get
      (by decide +kernel), by decide +kernel, by decide +kernel, by decide +kernel,
      by decide +kernel, by decide +kernel, by decide +kernel, by decide +kernel⟩
  have ht := value_nest_of_resumed hroot hdone
  have hd : (reentered.decompose .reference none).run.value = .ok _ :=
    decompose_eq_ok_iff.2 ⟨_, hends, a, ha, _, ht, rfl⟩
  have hreg := (passes_of_nest ht).registry_eq
  obtain ⟨x, hx, hxb⟩ := Option.map_eq_some_iff.1 hfirst
  obtain ⟨y, hy, hyb⟩ := Option.map_eq_some_iff.1 hsecond
  obtain ⟨hxentry, hxexit⟩ := Prod.mk.inj hxb
  obtain ⟨hyentry, _⟩ := Prod.mk.inj hyb
  have hnec : reentered.Necessary ⟨0⟩ ⟨2⟩ ⟨1⟩ :=
    (contains_dominators_iff (of_analyseBoundaries ha).2.1 (by decide +kernel)).1 hdom
  have hup := hall reentered .reference none _ hd ⟨1⟩ ⟨2⟩ x y hatt (by decide)
    (by rw [HammockTree.get?, hreg, hx]) (by rw [HammockTree.get?, hreg, hy])
    (by rw [hreg, hyentry]; exact hcover) (by rw [hyentry, hxexit]; decide)
    (by rw [hxentry, hyentry]; exact hnec)
  -- from the inner hammock a link leads to the root and no further
  obtain ⟨p, hp, hrest⟩ := TransGen.head'_iff.1 hup
  obtain rfl := Option.some.inj (hparent.symm.trans hp)
  rcases hrest.cases_head with heq | ⟨q, hq, _⟩
  · exact absurd heq (by decide)
  · rw [htop] at hq
    cases hq

/-- A branch around which one edge leads, and into which another one leads back from its end. -/
def branchesReentered : FlowGraph :=
  ((new 6).addEdges [(⟨0⟩, ⟨1⟩), (⟨0⟩, ⟨5⟩), (⟨1⟩, ⟨2⟩), (⟨1⟩, ⟨4⟩), (⟨2⟩, ⟨3⟩), (⟨3⟩, ⟨4⟩),
    (⟨4⟩, ⟨2⟩), (⟨4⟩, ⟨5⟩)]).toOption.getD default

/-- From a root that begins before the branch, the walk of the branch claims the hammock in it, to
which an edge leads back from the end of the branch. -/
theorem inner_claimed_by_branch :
    ∃ d, (branchesReentered.decompose .reference none).run.value = .ok d ∧
      d.tree.root ≠ ⟨1⟩ ∧ d.tree.Ancestor ⟨1⟩ ⟨2⟩ ∧ [⟨1⟩, ⟨2⟩].Sublist d.tree.preorder := by
  have hends : branchesReentered.endpoints = .ok (⟨0⟩, ⟨5⟩) := by decide +kernel
  obtain ⟨a, ha, hdom, hfirst, hsecond, hcover, hroot, hdone, hatt, htop⟩ : ∃ a,
      (branchesReentered.analyseBoundaries ⟨0⟩ ⟨5⟩ none .inPlace).run.value = .ok a ∧
      a.dominators.contains ⟨2⟩ ⟨1⟩ = true ∧
      ((register branchesReentered a.minimal).value.get? ⟨1⟩).map Hammock.bounds =
        some (⟨1⟩, ⟨4⟩) ∧
      ((register branchesReentered a.minimal).value.get? ⟨2⟩).map Hammock.bounds =
        some (⟨2⟩, ⟨3⟩) ∧
      ⟨1⟩ ∈ (register branchesReentered a.minimal).value.containing ⟨2⟩ ∧
      ∃ hroot : (register branchesReentered a.minimal).value.largest?
        (register branchesReentered a.minimal).value.ids = some ⟨0⟩,
      let grown := Construction.resumed branchesReentered 5
        (.start _ ⟨0⟩ (isSome_get?_of_mem_ids (mem_of_largest? hroot)))
      grown.stack = [] ∧ grown.tree.isAttached ⟨1⟩ = true ∧
        (grown.tree.root = ⟨0⟩ ∧ grown.tree.rootHammock.entry = ⟨0⟩) :=
    ⟨(branchesReentered.analyseBoundaries ⟨0⟩ ⟨5⟩ none .inPlace).run.value.toOption.get
      (by decide +kernel), by decide +kernel, by decide +kernel, by decide +kernel,
      by decide +kernel, by decide +kernel, by decide +kernel, by decide +kernel⟩
  have ht := value_nest_of_resumed hroot hdone
  have hd : (branchesReentered.decompose .reference none).run.value = .ok _ :=
    decompose_eq_ok_iff.2 ⟨_, hends, a, ha, _, ht, rfl⟩
  have hreg := (passes_of_nest ht).registry_eq
  obtain ⟨x, hx, hxb⟩ := Option.map_eq_some_iff.1 hfirst
  obtain ⟨y, hy, hyb⟩ := Option.map_eq_some_iff.1 hsecond
  obtain ⟨hxentry, hxexit⟩ := Prod.mk.inj hxb
  obtain ⟨hyentry, _⟩ := Prod.mk.inj hyb
  have hnec : branchesReentered.Necessary ⟨0⟩ ⟨2⟩ ⟨1⟩ :=
    (contains_dominators_iff (of_analyseBoundaries ha).2.1 (by decide +kernel)).1 hdom
  obtain ⟨_, hiff, hclaims⟩ := descendants_attached_later branchesReentered .reference none hd
    ⟨1⟩ ⟨2⟩ x y hatt (by decide)
    (by rw [HammockTree.get?, hreg, hx]) (by rw [HammockTree.get?, hreg, hy])
    (by rw [hreg, hyentry]; exact hcover) (by rw [hyentry, hxexit]; decide)
  rw [hxentry, hyentry] at hclaims
  -- the route that stays at the source does not come to the branch
  have hbefore : ¬ ∀ p, branchesReentered.Route ⟨0⟩ ⟨0⟩ p → ⟨1⟩ ∈ p := fun h =>
    absurd (h [⟨0⟩] (.stay (by decide +kernel))) (by decide)
  have hup := hclaims hnec (.inr (by rw [htop.2]; exact hbefore))
  exact ⟨_, hd, by rw [htop.1]; decide, hup, hiff.1 hup⟩

end FlowGraph

end FlowRegions
