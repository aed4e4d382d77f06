import FlowRegions.Proofs.Laminarity
import FlowRegions.Proofs.Suspension

/-!
# Three traversals of one tree

The links of a tree are followed by a loop with a stack, which lists it in preorder, by a loop that
counts the links from a hammock upwards, and, while they are made, by the walks of the construction.
Links lead to strictly larger hammocks, so both loops end: after as many turns of the former as
hammocks are attached (`iterate_listTop`), and after as many of the latter as the hammock is high
(`isSome_above?_iff`).

That all of them agree rests on the walks being suspended inside of each other. Whatever a walk
finds comes last in preorder, so preorder grows at its end only (`Passes.preorder_prefix`), and
last among the children of its host, so that children come in the order in which the walk of their
parent has found them (`Passes.children_run`). From attached hammocks, and from no others, links
lead to the root (`Passes.above?_height`).
-/

namespace FlowRegions

open Log Relation

namespace HammockTree

variable {t : HammockTree} {c p : HammockId} {n : Nat}

/-! ## The loop that lists a tree -/

/-- One turn of the loop that lists a tree: what is on top of the stack is listed, and its children
replace it, the first of them on top. -/
def listTop (t : HammockTree) :
    List HammockId × List HammockId → List HammockId × List HammockId
  | (order, []) => (order, [])
  | (order, id :: stack) => (order ++ [id], t.children id ++ stack)

/-- Every turn lists one more of the hammocks below those on the stack, until none is left. -/
theorem iterate_listTop (t : HammockTree) (n : Nat) (order stack : List HammockId) :
    (t.listTop^[n] (order, stack)).1 = order ++ (t.preorderFrom stack).take n ∧
      ((t.listTop^[n] (order, stack)).2 = [] ↔ (t.preorderFrom stack).length ≤ n) := by
  induction n generalizing order stack with
  | zero =>
    cases stack with
    | nil => simp [preorderFrom]
    | cons id stack => simp [preorderFrom]
  | succ n ih =>
    rw [Function.iterate_succ_apply]
    cases stack with
    | nil => simpa [listTop, preorderFrom] using ih order []
    | cons id stack =>
      obtain ⟨hlisted, hleft⟩ := ih (order ++ [id]) (t.children id ++ stack)
      rw [preorderFrom, listTop, hlisted, hleft]
      simp

/-- What the loops and the recursion say about preorder: it is what the loop with the stack has
listed when the stack is empty, after one turn for every attached hammock. It lists the attached
hammocks, each once, and the subtree of each in one block: first its root, and then the subtrees of
the children of that, one after the other. -/
structure Listed (t : HammockTree) : Prop where
  iterate_fst : ∀ n, (t.listTop^[n] ([], [t.root])).1 = t.preorder.take n
  iterate_snd : ∀ n, (t.listTop^[n] ([], [t.root])).2 = [] ↔ t.attached.card ≤ n
  length_eq : t.preorder.length = t.attached.card
  nodup : t.preorder.Nodup
  mem_iff : ∀ id, id ∈ t.preorder ↔ t.isAttached id = true
  preorder_eq : t.preorder = t.subtree t.root
  subtree_eq : ∀ id, t.subtree id = id :: (t.children id).flatMap t.subtree
  infix_preorder : ∀ id, t.isAttached id = true → t.subtree id <:+: t.preorder

/-! ## The loop that counts links -/

theorem height_of_none (h : t.parent? c = none) : t.height c = 0 := by
  rw [height]
  split
  · rfl
  · next p hp => simp [h] at hp

theorem height_of_some (h : t.parent? c = some p) : t.height c = t.height p + 1 := by
  rw [height]
  split
  · next hp => simp [h] at hp
  · next q hq => rw [Option.some.inj (h.symm.trans hq)]

/-- Where a number of links lead from a hammock upwards. -/
def above? (t : HammockTree) : Nat → HammockId → Option HammockId
  | 0, id => some id
  | n + 1, id => (t.parent? id).bind (t.above? n)

/-- There are as many links upwards as the hammock is high. -/
theorem isSome_above?_iff : (t.above? n c).isSome = true ↔ n ≤ t.height c := by
  induction n generalizing c with
  | zero => simp [above?]
  | succ n ih =>
    rw [above?]
    cases hp : t.parent? c with
    | none => simp [height_of_none hp]
    | some p =>
      rw [Option.bind_some, ih, height_of_some hp]
      exact Nat.add_le_add_iff_right.symm

/-- What the loop that counts links says about depths: attached hammocks have one, which is 0 for
the root and one more than that of the parent for the others. It is the number of turns after
which the loop has come to the root and cannot go on; the records that it looks up on its way are
there. -/
structure Deep (t : HammockTree) : Prop where
  isSome_iff : ∀ id, (t.depth? id).isSome = true ↔ t.isAttached id = true
  root : t.depth? t.root = some 0
  child : ∀ c, t.isAttached c = true → c ≠ t.root →
    ∃ p d, t.parent? c = some p ∧ t.depth? p = some d ∧ t.depth? c = some (d + 1)
  above : ∀ c d, t.depth? c = some d → t.above? d c = some t.root ∧
    ∀ n, ((t.above? n c).isSome = true ↔ n ≤ d) ∧ ∀ p ∈ t.above? n c, (t.get? p).isSome = true

theorem depth?_of_attached (hc : c ∈ t.attached) : t.depth? c = some (t.height c) :=
  if_pos (decide_eq_true hc)

end HammockTree

namespace HammockRegistry

variable {r : HammockRegistry} {g : FlowGraph} {c p : HammockId} {s s' : Construction}

/-- At every moment of the construction, the loop with the stack, the recursion and the set of
attached hammocks agree. -/
theorem Passes.listed (hs : r.Passes g s) : s.tree.Listed where
  iterate_fst n := (s.tree.iterate_listTop n [] [s.tree.root]).1
  iterate_snd n := by
    rw [← hs.length_preorder]
    exact (s.tree.iterate_listTop n [] [s.tree.root]).2
  length_eq := hs.length_preorder
  nodup := by
    rw [HammockTree.preorder_eq]
    exact hs.mirrored.nodup_subtree _
  mem_iff id := hs.mem_preorder_iff.trans decide_eq_true_iff.symm
  preorder_eq := s.tree.preorder_eq
  subtree_eq := s.tree.subtree_eq
  infix_preorder id hid := by
    rw [HammockTree.preorder_eq]
    exact hs.mirrored.infix_subtree (hs.within_root_iff.2 (of_decide_eq_true hid))

/-- From an attached hammock, as many links as it is high lead to the root. -/
theorem Passes.above?_height (hs : r.Passes g s) :
    ∀ c ∈ s.tree.attached, s.tree.above? (s.tree.height c) c = some s.tree.root := by
  refine hs.linked.attached_induction ?_ fun c p hp _ ih => ?_
  · rw [HammockTree.height_of_none hs.mirrored.parent_root]
    rfl
  · rw [HammockTree.height_of_some hp, HammockTree.above?, hp]
    exact ih

/-- Links lead from attached hammocks to attached ones. -/
theorem Passes.attached_of_above? (hs : r.Passes g s) {n : Nat} (hc : c ∈ s.tree.attached)
    (hp : s.tree.above? n c = some p) : p ∈ s.tree.attached := by
  induction n generalizing c with
  | zero => exact Option.some.inj hp ▸ hc
  | succ n ih =>
    obtain ⟨q, hq, hrest⟩ := Option.bind_eq_some_iff.1 hp
    exact ih (hs.linked.parent_attached c q hq).2 hrest

/-- At every moment of the construction, the depths of the attached hammocks count the links to the
root. -/
theorem Passes.deep (hs : r.Passes g s) : s.tree.Deep where
  isSome_iff id := by
    rw [HammockTree.depth?]
    split <;> simp_all
  root := by
    rw [HammockTree.depth?_of_attached hs.root_attached,
      HammockTree.height_of_none hs.mirrored.parent_root]
  child c hc hroot := by
    obtain ⟨p, hp⟩ := hs.linked.exists_parent c (of_decide_eq_true hc) hroot
    obtain ⟨hatt, hpatt⟩ := hs.linked.parent_attached c p hp
    refine ⟨p, s.tree.height p, hp, HammockTree.depth?_of_attached hpatt, ?_⟩
    rw [HammockTree.depth?_of_attached hatt, HammockTree.height_of_some hp]
  above c d hd := by
    have hc : c ∈ s.tree.attached := by
      by_contra hnot
      rw [HammockTree.depth?, if_neg (by simpa [HammockTree.isAttached] using hnot)] at hd
      cases hd
    rw [HammockTree.depth?_of_attached hc] at hd
    obtain rfl := Option.some.inj hd
    refine ⟨hs.above?_height c hc, fun n => ⟨HammockTree.isSome_above?_iff, fun p hp => ?_⟩⟩
    obtain ⟨x, hx⟩ := hs.linked.registered p (hs.attached_of_above? hc hp)
    rw [HammockTree.get?, hs.registry_eq, hx]
    rfl

/-! ## The order in which walks find hammocks -/

/-- The children of a hammock in the finished tree are those that it has had at some moment of the
construction, and then those that its walk has found since. -/
theorem Passes.children_run (hs : r.Passes g s) (p : HammockId) :
    (Construction.run g s).value.children p = s.tree.children p ++
      ((Construction.turns g s).filter fun u => u.host = p).filterMap Construction.Turn.found := by
  induction s using Construction.turn_induction g with
  | done t =>
    rw [Construction.turns_nil, Construction.value_run_nil]
    exact (List.append_nil _).symm
  | ended t w below h ih =>
    rw [Construction.value_run_cons, Construction.resume_of_none h, ih (hs.ended h),
      Construction.turns_of_none h, HammockTree.children_linkSiblings, List.filter_cons]
    split <;> rfl
  | found t w below c w' h ih =>
    rw [Construction.value_run_cons, Construction.resume_of_some h, ih (hs.found h),
      Construction.turns_of_some h, HammockTree.children_attach _ hs.linked.host_has_row,
      List.filter_cons]
    by_cases hp : p = w.host
    · simp [hp]
    · simp [hp, Ne.symm hp]

/-- What is attached at some moment of the construction comes first in the preorder of the finished
tree. -/
theorem Passes.preorder_prefix (hs : r.Passes g s)
    (h : ReflTransGen (Construction.Step g) s s') :
    s'.tree.preorder <+: (Construction.run g s).value.preorder := by
  have hrun : (Construction.run g s').value = (Construction.run g s).value := by
    induction h with
    | refl => rfl
    | tail _ hstep ih => exact hstep.run_eq.trans ih
  rw [← hrun, (hs.trans h).preorder_run]
  exact List.prefix_append _ _

/-- In every tree of registered pairs, whatever they are, the three traversals agree. Preorder is
what the loop with the stack lists and what the recursion lists, and it is the order of attachment:
what is attached at some moment are the hammocks up to some place in it. Children come in the order
in which the walk of their parent has found them. The hammocks that have a depth are the attached
ones and those in preorder, and the depth counts the links to the root. -/
theorem traversals_agree (g : FlowGraph) (b : BoundaryRelation) {t : HammockTree}
    (ht : ((register g b).value.nest g).run.value = .ok t) :
    t.Listed ∧ t.Deep ∧
      (∀ id, (t.depth? id).isSome = true ↔ id ∈ t.preorder) ∧
      ∃ s, (register g b).value.Begins s ∧ ReflTransGen (Construction.Step g) s ⟨t, []⟩ ∧
        t.preorder = t.root :: (Construction.turns g s).filterMap Construction.Turn.found ∧
        (∀ p, t.children p =
          ((Construction.turns g s).filter fun u => u.host = p).filterMap
            Construction.Turn.found) ∧
        ∀ s', ReflTransGen (Construction.Step g) s s' → s'.tree.preorder <+: t.preorder ∧
          ∀ id, id ∈ s'.tree.preorder ↔ id ∈ s'.tree.attached := by
  have hfinal := passes_of_nest ht
  have hlisted := hfinal.listed
  have hdeep := hfinal.deep
  obtain ⟨root, hroot⟩ := largest?_of_nest ht
  obtain ⟨s, hbegins⟩ := exists_begins hroot
  have hs := hbegins.passes (g := g)
  obtain rfl : (Construction.run g s).value = t := Passes.run_eq ht hs
  have hrootEq : s.tree.root = (Construction.run g s).value.root :=
    Option.some.inj (hs.largest.2.symm.trans hfinal.largest.2)
  have hchildren : ∀ p, s.tree.children p = [] := by
    obtain ⟨root, _, _, rfl⟩ := hbegins
    intro p
    simp [Construction.start, HammockTree.planted, HammockTree.children]
  refine ⟨hlisted, hdeep, fun id => (hdeep.isSome_iff id).trans (hlisted.mem_iff id).symm, s,
    hbegins, Construction.run_reached g s, ?_, fun p => ?_, fun s' h => ?_⟩
  · rw [hs.preorder_run, hbegins.preorder_eq, hrootEq]
    rfl
  · rw [hs.children_run, hchildren, List.nil_append]
  · exact ⟨hs.preorder_prefix h, fun id => (hs.trans h).mem_preorder_iff⟩

/-- Pairs along two lanes: around all of it, of an edge and of the first lane, of the second lane,
and of one that crosses that. -/
def offshoots : BoundaryRelation :=
  [(⟨0⟩, ⟨6⟩), (⟨1⟩, ⟨2⟩), (⟨1⟩, ⟨5⟩), (⟨3⟩, ⟨5⟩), (⟨4⟩, ⟨6⟩)].foldl
    (fun r p => r.insert p.1 p.2) (.new 7)

/-- The first lane comes with the edge inside it before the second one, and the pair that crosses
the second one is not attached. -/
theorem offshoots_in_preorder :
    ∃ t, ((register FlowGraph.lanes offshoots).value.nest FlowGraph.lanes).run.value = .ok t ∧
      t.preorder = [⟨0⟩, ⟨2⟩, ⟨1⟩, ⟨3⟩] ∧ (t.listTop^[3] ([], [t.root])).2 ≠ [] ∧
      t.depth? ⟨1⟩ = some 2 ∧ t.above? 2 ⟨1⟩ = some ⟨0⟩ ∧ t.depth? ⟨4⟩ = none := by
  obtain ⟨t, ht, htree, hcard, horder, hone, htwo⟩ :
      ∃ t, ((register FlowGraph.lanes offshoots).value.nest FlowGraph.lanes).run.value = .ok t ∧
        t.root = ⟨0⟩ ∧ t.attached.card = 4 ∧
        (t.listTop^[4] ([], [t.root])).1 = [⟨0⟩, ⟨2⟩, ⟨1⟩, ⟨3⟩] ∧
        t.parent? ⟨1⟩ = some ⟨2⟩ ∧ t.parent? ⟨2⟩ = some ⟨0⟩ := by
    obtain ⟨hroot, hdone, hrest⟩ : ∃ hroot : (register FlowGraph.lanes offshoots).value.largest?
          (register FlowGraph.lanes offshoots).value.ids = some ⟨0⟩,
        let grown := Construction.resumed FlowGraph.lanes 7
          (.start _ ⟨0⟩ (isSome_get?_of_mem_ids (mem_of_largest? hroot)))
        grown.stack = [] ∧ grown.tree.root = ⟨0⟩ ∧ grown.tree.attached.card = 4 ∧
          (grown.tree.listTop^[4] ([], [grown.tree.root])).1 = [⟨0⟩, ⟨2⟩, ⟨1⟩, ⟨3⟩] ∧
          grown.tree.parent? ⟨1⟩ = some ⟨2⟩ ∧ grown.tree.parent? ⟨2⟩ = some ⟨0⟩ :=
      ⟨by decide +kernel, by decide +kernel⟩
    exact ⟨_, value_nest_of_resumed hroot hdone, hrest⟩
  obtain ⟨hlisted, hdeep, hdepth, _⟩ := traversals_agree FlowGraph.lanes offshoots ht
  have hpre : t.preorder = [⟨0⟩, ⟨2⟩, ⟨1⟩, ⟨3⟩] := by
    have hlen : t.preorder.length ≤ 4 := by rw [hlisted.length_eq, hcard]
    rw [← horder, hlisted.iterate_fst, List.take_of_length_le hlen]
  have hattached : ∀ id ∈ t.preorder, t.isAttached id = true := fun id => (hlisted.mem_iff id).1
  rw [hpre] at hattached
  -- the depths along the links from the edge to the root
  obtain ⟨p, d, hp, hd, hdone⟩ := hdeep.child ⟨1⟩ (hattached _ (by decide)) (by rw [htree]; decide)
  obtain rfl := Option.some.inj (hone.symm.trans hp)
  obtain ⟨q, e, hq, he, hdtwo⟩ := hdeep.child ⟨2⟩ (hattached _ (by decide)) (by rw [htree]; decide)
  obtain rfl := Option.some.inj (htwo.symm.trans hq)
  obtain rfl : 0 = e := Option.some.inj ((htree ▸ hdeep.root).symm.trans he)
  obtain rfl : 0 + 1 = d := Option.some.inj (hdtwo.symm.trans hd)
  refine ⟨_, ht, hpre, fun h => ?_, hdone, ?_, ?_⟩
  · rw [hlisted.iterate_snd, hcard] at h
    exact absurd h (by decide)
  · exact (hdeep.above ⟨1⟩ 2 hdone).1.trans (congrArg some htree)
  · have hnot : ⟨4⟩ ∉ t.preorder := by
      rw [hpre]
      decide
    rw [← hdepth] at hnot
    simpa using hnot

end HammockRegistry

end FlowRegions
