import FlowRegions.Proofs.AttachOrder
import FlowRegions.Proofs.Meets
import FlowRegions.Proofs.RootedTree

/-!
# Suspended walks

Whatever the registry, the suspended walks are at every moment those of the ancestors of the hammock
whose walk is on top, the larger the lower (`Passes.descending`). A vertex is still to come if a
walk that has not begun may take it, or one on the stack that has it in its queue or has not visited
it (`Construction.ToCome`). What has been taken is not to come again (`Passes.toCome_step`), so no
walk takes a vertex twice (`Passes.nodup_taken`).

Every step leaves fewer hammocks to attach, or fewer suspended walks, or fewer vertices to the walk
on top, so there is no endless sequence of steps (`Construction.wellFounded_step`). The steps make
up two turns for every hammock of the tree that comes out, but one for its root
(`Begins.length_turns`).
-/

namespace FlowRegions

open Log Relation

/-! ## The walks on the stack -/

namespace HammockTree

variable {t : HammockTree} {a h : HammockId} {hosts : List HammockId}

/-- Each host is the parent of the one above it. -/
theorem Spine.isChain_parent (hs : t.Spine hosts) (ht : t.Mirrored) :
    hosts.IsChain fun c p => t.parent? c = some p := by
  induction hosts with
  | nil => exact .nil
  | cons a hosts ih =>
    cases hosts with
    | nil => exact .singleton a
    | cons b below =>
      have hparent := (ht.mem_children_iff b a).1 (List.mem_of_getLast? hs.1)
      exact .cons_cons hparent (ih hs.2)

/-- Every host is smaller than all those below it. -/
theorem Spine.pairwise_sizeOf (hs : t.Spine hosts) :
    hosts.Pairwise fun c p => t.registry.sizeOf c < t.registry.sizeOf p := by
  induction hosts with
  | nil => exact .nil
  | cons a hosts ih => exact .cons hs.sizeOf_lt (ih hs.tail)

/-- The hosts below are the ancestors of the host on top. -/
theorem Spine.ancestor_iff (hs : t.Spine (h :: hosts)) (ht : t.Mirrored) :
    t.Ancestor a h ↔ a ∈ hosts := by
  induction hosts generalizing h with
  | nil =>
    refine iff_of_false (fun hanc => ?_) List.not_mem_nil
    obtain ⟨p, hp, _⟩ := TransGen.head'_iff.1 hanc
    rw [show h = t.root from hs, ht.parent_root] at hp
    cases hp
  | cons b below ih =>
    have hparent := (ht.mem_children_iff b h).1 (List.mem_of_getLast? hs.1)
    have hup : t.Ancestor a h ↔ ReflTransGen (fun c p => t.parent? c = some p) b a := by
      refine TransGen.head'_iff.trans ⟨?_, fun hba => ⟨b, hparent, hba⟩⟩
      rintro ⟨p, hp, hpa⟩
      rwa [Option.some.inj (hparent.symm.trans hp)]
    rw [hup, reflTransGen_iff_eq_or_transGen, List.mem_cons]
    exact or_congr Iff.rfl (ih hs.2)

end HammockTree

namespace Construction

/-- The suspended walks are those of the ancestors of the hammock whose walk is on top, down to the
root, and get larger on the way. -/
structure Descending (s : Construction) : Prop where
  isChain_parent : (s.stack.map Walk.host).IsChain fun c p => s.tree.parent? c = some p
  pairwise_sizeOf : (s.stack.map Walk.host).Pairwise fun c p =>
    s.tree.registry.sizeOf c < s.tree.registry.sizeOf p
  getLast?_eq : s.stack ≠ [] → (s.stack.map Walk.host).getLast? = some s.tree.root
  ancestor_iff : ∀ w below, s.stack = w :: below →
    ∀ a, s.tree.Ancestor a w.host ↔ a ∈ below.map Walk.host

variable {g : FlowGraph} {s s' : Construction}

/-! ## Every sequence of steps ends -/

/-- How many vertices the walk on top may still consider. -/
def topPending (s : Construction) : Nat := (s.stack.head?.map Walk.pending).getD 0

/-- What gets smaller with every step. -/
def measure (s : Construction) : Nat × Nat × Nat := (s.remaining, s.stack.length, s.topPending)

theorem Step.measure_lt (h : Step g s s') :
    Prod.Lex (· < ·) (Prod.Lex (· < ·) (· < ·)) s'.measure s.measure := by
  cases h.progress with
  | ended hq => exact .right _ (.left _ _ (Nat.lt_succ_self _))
  | @onward t w below v rest hq l =>
    refine .right _ (.right _ ?_)
    show (l.foldl Walk.enqueue (w.dequeued rest)).pending < w.pending
    rw [Walk.pending_foldl_enqueue]
    exact Walk.pending_dequeue hq
  | @nest t w below v rest c y hq l hnew hy hsize =>
    refine .left _ _ ?_
    show idCount - (insert c t.attached).card < idCount - t.attached.card
    have hcard := IdSet.card_insert hnew
    have hle := (insert c t.attached).card_le
    omega

/-- There is no endless sequence of steps. -/
theorem wellFounded_step (g : FlowGraph) : WellFounded fun s' s => Step g s s' :=
  Subrelation.wf (r := InvImage _ measure) (fun h => h.measure_lt)
    (InvImage.wf measure (Nat.lt_wfRel.wf.prod_lex (Nat.lt_wfRel.wf.prod_lex Nat.lt_wfRel.wf)))

/-! ## What is still to be taken -/

/-- The vertex that the walk on top takes next, with the host of the walk. -/
def next? (s : Construction) : Option (HammockId × VertexId) :=
  s.stack.head?.bind fun w => w.queue.head?.map (w.host, ·)

/-- A walk through the hammock may still take the vertex. -/
def ToCome (s : Construction) (p : HammockId × VertexId) : Prop :=
  p.1 ∉ s.tree.attached ∨ ∃ w ∈ s.stack, w.host = p.1 ∧ w.Ahead p.2

end Construction

namespace HammockRegistry

variable {r : HammockRegistry} {g : FlowGraph} {s s' : Construction} {t : HammockTree} {w : Walk}
variable {below : List Walk} {p : HammockId × VertexId} {v : VertexId} {rest : List VertexId}

/-- At every moment of the construction, the suspended walks are those of the ancestors of the
hammock whose walk is on top. -/
theorem Passes.descending (hs : r.Passes g s) : s.Descending where
  isChain_parent := hs.spine.isChain_parent hs.mirrored
  pairwise_sizeOf := hs.spine.pairwise_sizeOf
  getLast?_eq hne := by
    obtain ⟨w, below, hstack⟩ := List.exists_cons_of_ne_nil hne
    have hspine := hs.spine
    rw [hstack, List.map_cons] at hspine ⊢
    exact hspine.getLast?_eq
  ancestor_iff w below hstack a := by
    have hspine := hs.spine
    rw [hstack, List.map_cons] at hspine
    exact hspine.ancestor_iff hs.mirrored

/-- At every moment of the construction, no queue repeats a vertex. -/
theorem Passes.tidy (hs : r.Passes g s) : ∀ w ∈ s.stack, w.Tidy := by
  induction hs with
  | start hroot =>
    obtain ⟨x, hx⟩ := Option.isSome_iff_exists.1 (isSome_get?_of_mem_ids (mem_of_largest? hroot))
    exact List.forall_mem_singleton.2 (Walk.tidy_begin hx)
  | step _ hstep ih =>
    cases hstep.progress with
    | ended hq => exact (List.forall_mem_cons.1 ih).2
    | @onward t w below v rest hq l =>
      obtain ⟨hw, hbelow⟩ := List.forall_mem_cons.1 ih
      exact List.forall_mem_cons.2 ⟨(hw.dequeued hq).foldl_enqueue l, hbelow⟩
    | @nest t w below v rest c y hq l hnew hy hsize =>
      obtain ⟨hw, hbelow⟩ := List.forall_mem_cons.1 ih
      exact List.forall_mem_cons.2 ⟨Walk.tidy_begin hy,
        List.forall_mem_cons.2 ⟨(hw.dequeued hq).foldl_enqueue l, hbelow⟩⟩

/-- No other suspended walk has the host of the walk on top. -/
theorem Passes.host_ne (hs : r.Passes g ⟨t, w :: below⟩) : ∀ u ∈ below, u.host ≠ w.host := by
  intro u hu heq
  have hlt := hs.spine.sizeOf_lt u.host (List.mem_map_of_mem hu)
  exact Nat.lt_irrefl _ (heq ▸ hlt)

/-- A vertex that the walk on top has taken is not to come again. -/
theorem Passes.toCome_take (hs : r.Passes g ⟨t, w :: below⟩) (hq : w.queue = v :: rest)
    (l : List VertexId)
    (hp : Construction.ToCome ⟨t, l.foldl Walk.enqueue (w.dequeued rest) :: below⟩ p) :
    Construction.ToCome ⟨t, w :: below⟩ p ∧ p ≠ (w.host, v) := by
  have hw : w.Tidy := hs.tidy w List.mem_cons_self
  rcases hp with hp | ⟨u, hu, hhost, hahead⟩
  · refine ⟨.inl hp, ?_⟩
    rintro rfl
    exact hp (hs.linked.host_attached w List.mem_cons_self)
  · rcases List.mem_cons.1 hu with rfl | hu
    · obtain ⟨hahead, hne⟩ := hw.ahead_of_foldl hq l hahead
      rw [Walk.host_foldl_enqueue] at hhost
      exact ⟨.inr ⟨w, List.mem_cons_self, hhost, hahead⟩, fun heq => hne (congrArg Prod.snd heq)⟩
    · refine ⟨.inr ⟨u, List.mem_cons_of_mem w hu, hhost, hahead⟩, fun heq => ?_⟩
      exact hs.host_ne u hu (hhost.trans (congrArg Prod.fst heq))

/-- What is to come after a step has been to come before it, and the step has not taken it. -/
theorem Passes.toCome_step (hs : r.Passes g s) (h : Construction.Step g s s')
    (hp : s'.ToCome p) : s.ToCome p ∧ s.next? ≠ some p := by
  cases h.progress with
  | @ended t w below hq =>
    refine ⟨hp.imp id fun ⟨u, hu, hahead⟩ => ⟨u, List.mem_cons_of_mem w hu, hahead⟩, ?_⟩
    simp [Construction.next?, hq]
  | @onward t w below v rest hq l =>
    obtain ⟨hold, hne⟩ := hs.toCome_take hq l hp
    exact ⟨hold, by simpa [Construction.next?, hq] using Ne.symm hne⟩
  | @nest t w below v rest c y hq l hnew hy hsize =>
    -- the walk that begins is one that has not begun before
    have hrest : Construction.ToCome ⟨t, l.foldl Walk.enqueue (w.dequeued rest) :: below⟩ p := by
      rcases hp with hp | ⟨u, hu, hhost, hahead⟩
      · exact .inl fun hatt => hp (IdSet.mem_insert.2 (.inr hatt))
      · rcases List.mem_cons.1 hu with rfl | hu
        · exact .inl (hhost ▸ (Walk.host_begin _ c).symm ▸ hnew)
        · exact .inr ⟨u, hu, hhost, hahead⟩
    obtain ⟨hold, hne⟩ := hs.toCome_take hq l hrest
    exact ⟨hold, by simpa [Construction.next?, hq] using Ne.symm hne⟩

/-- What is taken next is to come. -/
theorem toCome_of_next? (hp : s.next? = some p) : s.ToCome p := by
  obtain ⟨w, hw, hfirst⟩ := Option.bind_eq_some_iff.1 hp
  obtain ⟨v, hv, rfl⟩ := Option.map_eq_some_iff.1 hfirst
  exact .inr ⟨w, List.mem_of_head? hw, rfl, .inl (List.mem_of_head? hv)⟩

/-- No walk takes a vertex twice. -/
theorem Passes.nodup_taken (hs : r.Passes g s) {l : List Construction}
    (hl : (s :: l).IsChain (Construction.Step g)) :
    ((s :: l).filterMap Construction.next?).Nodup ∧
      ∀ p ∈ (s :: l).filterMap Construction.next?, s.ToCome p := by
  induction l generalizing s with
  | nil =>
    cases hp : s.next? with
    | none => simp [hp]
    | some p => simpa [hp] using toCome_of_next? hp
  | cons s' l ih =>
    obtain ⟨hstep, hl⟩ := List.isChain_cons_cons.1 hl
    obtain ⟨hnodup, hcome⟩ := ih (hs.step hstep) hl
    have hold : ∀ p ∈ (s' :: l).filterMap Construction.next?, s.ToCome p ∧ s.next? ≠ some p :=
      fun p hp => hs.toCome_step hstep (hcome p hp)
    cases hp : s.next? with
    | none =>
      rw [List.filterMap_cons_none hp]
      exact ⟨hnodup, fun p hmem => (hold p hmem).1⟩
    | some p =>
      rw [List.filterMap_cons_some hp]
      exact ⟨List.nodup_cons.2 ⟨fun hmem => (hold p hmem).2 hp, hnodup⟩,
        List.forall_mem_cons.2 ⟨toCome_of_next? hp, fun q hmem => (hold q hmem).1⟩⟩

/-! ## The whole construction -/

/-- The construction of a registry's tree begins with the walk of the largest hammock. -/
def Begins (r : HammockRegistry) (s : Construction) : Prop :=
  ∃ root, ∃ hsome : (r.get? root).isSome = true,
    r.largest? r.ids = some root ∧ s = .start r root hsome

theorem Begins.passes (hs : r.Begins s) : r.Passes g s := by
  obtain ⟨root, _, hroot, rfl⟩ := hs
  exact .start hroot

theorem Begins.value_nest (hs : r.Begins s) :
    (r.nest g).run.value = .ok (Construction.run g s).value := by
  obtain ⟨root, _, hroot, rfl⟩ := hs
  exact HammockRegistry.value_nest hroot

theorem exists_begins {root : HammockId} (hroot : r.largest? r.ids = some root) :
    ∃ s, r.Begins s :=
  ⟨_, root, isSome_get?_of_mem_ids (mem_of_largest? hroot), hroot, rfl⟩

theorem Begins.hosts_eq (hs : r.Begins s) : s.stack.map Walk.host = [s.tree.root] := by
  obtain ⟨root, _, _, rfl⟩ := hs
  exact congrArg ([·]) (Walk.host_begin r root)

theorem Begins.preorder_eq (hs : r.Begins s) : s.tree.preorder = [s.tree.root] := by
  obtain ⟨root, _, _, rfl⟩ := hs
  exact HammockTree.preorder_planted _

/-- There are two turns for every attached hammock but one for the root. -/
theorem Begins.length_turns (hs : r.Begins s) :
    (Construction.turns g s).length = 2 * (Construction.run g s).value.attached.card - 1 := by
  have hlen := Construction.length_turns g s
  have hstack := congrArg List.length hs.hosts_eq
  have hcard := (hs.passes (g := g)).length_preorder
  rw [List.length_map, List.length_singleton] at hstack
  rw [hs.preorder_eq, List.length_singleton] at hcard
  omega

/-- Walks begin for the attached hammocks, for each of them once. -/
theorem Begins.perm_begun (hs : r.Begins s) :
    (s.tree.root :: (Construction.turns g s).filterMap Construction.Turn.found).Perm
      (Construction.run g s).value.attached.toList := by
  have hpasses : r.Passes g s := hs.passes
  have hperm := (hpasses.trans (Construction.run_reached g s)).perm_preorder
  rwa [hpasses.preorder_run, hs.preorder_eq] at hperm

/-- Walks end for the attached hammocks, for each of them once. -/
theorem Begins.perm_finished (hs : r.Begins s) :
    (((Construction.turns g s).filter fun u => u.found.isNone).map Construction.Turn.host).Perm
      (Construction.run g s).value.attached.toList := by
  have hperm := Construction.perm_finished g s
  rw [hs.hosts_eq] at hperm
  exact hperm.trans hs.perm_begun

/-- Whatever pairs are registered, if there are any, there is no endless sequence of steps, and the
construction comes to the tree. On the way, the suspended walks are those of the ancestors of the
hammock whose walk is on top, the larger the lower. Walks are resumed twice for every attached
hammock but once for the root. One walk begins and ends for every attached hammock, and it takes no
vertex twice. -/
theorem nest_ends (g : FlowGraph) (b : BoundaryRelation) (hne : 0 < b.size) :
    ∃ s t, (register g b).value.Begins s ∧ ((register g b).value.nest g).run.value = .ok t ∧
      (WellFounded (fun s'' s' => Construction.Step g s' s'') ∧
        ReflTransGen (Construction.Step g) s ⟨t, []⟩) ∧
      ((∀ s', ReflTransGen (Construction.Step g) s s' → s'.Descending) ∧
        ∀ n, ReflTransGen (Construction.Step g) s (Construction.resumed g n s)) ∧
      ((Construction.turns g s).length = 2 * t.attached.card - 1 ∧
        ∀ n, (Construction.resumed g n s).stack = [] ↔ 2 * t.attached.card - 1 ≤ n) ∧
      (t.root :: (Construction.turns g s).filterMap Construction.Turn.found).Perm
        t.attached.toList ∧
      (((Construction.turns g s).filter fun u => u.found.isNone).map Construction.Turn.host).Perm
        t.attached.toList ∧
      ∀ l, (s :: l).IsChain (Construction.Step g) →
        ((s :: l).filterMap Construction.next?).Nodup := by
  obtain ⟨root, hroot⟩ := exists_largest?_register g hne
  obtain ⟨s, hbegins⟩ := exists_begins hroot
  have hs := hbegins.passes (g := g)
  have hfinal := hs.trans (Construction.run_reached g s)
  have hrootEq : s.tree.root = (Construction.run g s).value.root :=
    Option.some.inj (hs.largest.2.symm.trans hfinal.largest.2)
  refine ⟨s, _, hbegins, hbegins.value_nest,
    ⟨Construction.wellFounded_step g, Construction.run_reached g s⟩,
    ⟨fun s' hreach => (hs.trans hreach).descending, fun n => Construction.resumed_reached g n s⟩,
    ⟨hbegins.length_turns, fun n => ?_⟩, hrootEq ▸ hbegins.perm_begun, hbegins.perm_finished,
    fun l hl => (hs.nodup_taken hl).1⟩
  rw [Construction.stack_resumed_eq_nil_iff, hbegins.length_turns]

/-- For the pairs around loops there are three walks and five turns. After two of them all walks are
suspended, and the pair that ends where it begins is on top. -/
theorem knot_ends :
    0 < knot.size ∧ ∃ s t, (register FlowGraph.loops knot).value.Begins s ∧
      ((register FlowGraph.loops knot).value.nest FlowGraph.loops).run.value = .ok t ∧
      t.attached.card = 3 ∧ (Construction.turns FlowGraph.loops s).length = 5 ∧
      (Construction.resumed FlowGraph.loops 4 s).stack ≠ [] ∧
      let middle := Construction.resumed FlowGraph.loops 2 s
      middle.stack.map Walk.host = [⟨2⟩, ⟨1⟩, ⟨0⟩] ∧ middle.tree.Ancestor ⟨0⟩ ⟨2⟩ ∧
        middle.tree.registry.sizeOf ⟨2⟩ < middle.tree.registry.sizeOf ⟨1⟩ := by
  have hne : 0 < knot.size := by decide
  obtain ⟨hroot, hdone, hcard, hmiddle⟩ :
      ∃ hroot : (register FlowGraph.loops knot).value.largest?
        (register FlowGraph.loops knot).value.ids = some ⟨0⟩,
      let s := Construction.start _ ⟨0⟩ (isSome_get?_of_mem_ids (mem_of_largest? hroot))
      (Construction.resumed FlowGraph.loops 5 s).stack = [] ∧
        (Construction.resumed FlowGraph.loops 5 s).tree.attached.card = 3 ∧
        (Construction.resumed FlowGraph.loops 2 s).stack.map Walk.host = [⟨2⟩, ⟨1⟩, ⟨0⟩] :=
    ⟨by decide +kernel, by decide +kernel⟩
  have ht := value_nest_of_resumed hroot hdone
  obtain ⟨s, t, hbegins, ht', _, ⟨hdescending, hreached⟩, ⟨hturns, hresumed⟩, _⟩ :=
    nest_ends FlowGraph.loops knot hne
  obtain ⟨root, _, hroot', rfl⟩ := hbegins
  obtain rfl := Option.some.inj (hroot.symm.trans hroot')
  obtain rfl := Except.ok.inj (ht.symm.trans ht')
  have hdesc := hdescending _ (hreached 2)
  have hchain := hdesc.isChain_parent
  have hsizes := hdesc.pairwise_sizeOf
  rw [hmiddle] at hchain hsizes
  refine ⟨hne, _, _, ⟨_, _, hroot, rfl⟩, ht, hcard, ?_, ?_, hmiddle, ?_, ?_⟩
  · rw [hturns, hcard]
  · rw [Ne, hresumed, hcard]
    decide
  · obtain ⟨hchild, hparent⟩ := List.isChain_cons_cons.1 hchain
    exact .head hchild (.single (List.isChain_cons_cons.1 hparent).1)
  · exact (List.pairwise_cons.1 hsizes).1 ⟨1⟩ List.mem_cons_self

end HammockRegistry

end FlowRegions
