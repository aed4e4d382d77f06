import FlowRegions.Nesting.Tree

/-! # Traversing a tree of hammocks

The hammocks of a tree in preorder are listed with a stack, and the hammocks below one of them by
recursion on the tree. The depth of an attached hammock counts the links to the root.
-/

namespace FlowRegions

namespace HammockTree

/-- A hammock and everything below it, parents first. -/
def subtree (t : HammockTree) (id : HammockId) : List HammockId :=
  id :: (t.children id).attach.flatMap fun c => t.subtree c.1
termination_by t.registry.sizeOf id
decreasing_by exact t.child_smaller id c.1 c.2

theorem subtree_eq (t : HammockTree) (id : HammockId) :
    t.subtree id = id :: (t.children id).flatMap t.subtree := by
  rw [subtree, List.flatMap_subtype (fun _ _ => rfl), List.unattach_attach]

/-- The hammocks below those on a stack, the first of the stack first. -/
def preorderFrom (t : HammockTree) (stack : List HammockId) : List HammockId :=
  match stack with
  | [] => []
  | id :: stack => id :: t.preorderFrom (t.children id ++ stack)
termination_by (stack.flatMap t.subtree).length
decreasing_by
  rw [List.flatMap_cons, subtree_eq, List.flatMap_append, List.cons_append, List.length_cons]
  exact Nat.lt_succ_self _

/-- The attached hammocks: parents before children, children in the order of discovery. -/
def preorder (t : HammockTree) : List HammockId := t.preorderFrom [t.root]

/-- The number of links from a hammock upwards. -/
def height (t : HammockTree) (id : HammockId) : Nat :=
  match h : t.parent? id with
  | none => 0
  | some p => t.height p + 1
termination_by idCount - t.registry.sizeOf id
decreasing_by
  have := t.parent_larger id p h
  have := t.registry.sizeOf_le p
  omega

/-- The number of links between an attached hammock and the root. -/
def depth? (t : HammockTree) (id : HammockId) : Option Nat :=
  if t.isAttached id then some (t.height id) else none

end HammockTree

end FlowRegions
