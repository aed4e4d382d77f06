import FlowRegions.Nesting.Tree
import FlowRegions.Nesting.Walk

/-! # Growing a tree of hammocks

The largest hammock is the root. Walks are suspended on a stack: when the walk on top meets a
hammock that is not attached, that hammock becomes a child and its own walk goes on top, so that
it claims what is nested in it first. When a walk is over, the children it has found are linked as
siblings where they adjoin. Every step attaches a hammock or finishes a walk, so the construction
ends.
-/

namespace FlowRegions

open Log

/-- Why there is no tree. -/
inductive NestingError where
  /-- There is no hammock that could be the root. -/
  | empty
deriving DecidableEq, Repr

/-- The text of a nesting error. -/
def NestingError.message : NestingError → String
  | .empty => "No hammocks were registered; the tree has no root"

/-- A tree that is being grown: what there is of it and the suspended walks, the latest first. -/
structure Construction where
  tree : HammockTree
  stack : List Walk

namespace Construction

/-- The construction that has only a root. -/
def start (r : HammockRegistry) (root : HammockId) (h : (r.get? root).isSome = true) :
    Construction := ⟨.planted r root h, [.begin r root]⟩

/-- Resumes the walk on top: it finds a child, whose walk begins, or it is over. -/
def resume (g : FlowGraph) (t : HammockTree) (w : Walk) (below : List Walk) :
    Logged Construction :=
  match h : w.advance g t.registry t.attached with
  | some (c, w') =>
    ⟨⟨t.attach c w.host (Walk.of_advance h).2.1, .begin t.registry c :: w' :: below⟩,
      [.nested c w.host]⟩
  | none => ⟨⟨t.linkSiblings w.host, below⟩, []⟩

/-- How many hammocks there may still be to attach. -/
def remaining (s : Construction) : Nat := idCount - s.tree.attached.card

theorem resume_decreases (g : FlowGraph) (t : HammockTree) (w : Walk) (below : List Walk) :
    Prod.Lex (· < ·) (· < ·)
      ((resume g t w below).value.remaining, (resume g t w below).value.stack.length)
      ((⟨t, w :: below⟩ : Construction).remaining, (w :: below).length) := by
  rw [resume]
  split
  · next c w' h =>
    refine Prod.Lex.left _ _ ?_
    have hcard := IdSet.card_insert (Walk.of_advance h).1
    have hle := (insert c t.attached).card_le
    simp only [remaining, HammockTree.attach]
    omega
  · exact Prod.Lex.right _ (Nat.lt_succ_self _)

/-- Resumes walks until all of them are over. -/
def run (g : FlowGraph) (s : Construction) : Logged HammockTree :=
  match s with
  | ⟨t, []⟩ => pure t
  | ⟨t, w :: below⟩ =>
    let next := resume g t w below
    let rest := run g next.value
    ⟨rest.value, next.events ++ rest.events⟩
termination_by (s.remaining, s.stack.length)
decreasing_by exact resume_decreases g t w below

end Construction

/-- The tree of the hammocks of a registry. -/
def HammockRegistry.nest (g : FlowGraph) (r : HammockRegistry) :
    Attempt NestingError HammockTree :=
  match h : r.largest? r.ids with
  | none => throw .empty
  | some root => do
    let t ← Construction.run g (.start r root (isSome_get?_of_mem_ids (mem_of_largest? h)))
    Logged.report (.treeComplete t.rootHammock t.attached.card t.size)
    return t

end FlowRegions
