import FlowRegions.Hammock.Registry

/-! # Trees of nested hammocks

A tree links the hammocks of a registry: a hammock may have a parent, children in the order of
their discovery, and siblings, which are children of the same parent that adjoin it. A parent is
always larger than its children (`parent_larger`, `child_smaller`), so following the links ends.
Hammocks that the tree does not reach are not attached and have no links.
-/

namespace FlowRegions

/-- How a hammock is linked to others. -/
structure Links where
  parent : Option HammockId := none
  /-- The hammocks directly inside, in the order of their discovery. -/
  children : List HammockId := []
  /-- The children of the same parent that adjoin it. -/
  siblings : HammockSet := ∅
deriving DecidableEq, Inhabited

/-- The links of every hammock of a registry. -/
structure LinkTable where
  rows : Array Links
deriving DecidableEq

namespace LinkTable

/-- The table of a number of hammocks without links. -/
def unlinked (count : Nat) : LinkTable := ⟨Array.replicate count {}⟩

/-- The links of a hammock; one outside the table has none. -/
def get (t : LinkTable) (id : HammockId) : Links := t.rows[id.index]?.getD {}

/-- Changes the links of a hammock. -/
def modify (t : LinkTable) (id : HammockId) (f : Links → Links) : LinkTable :=
  ⟨t.rows.modify id.index f⟩

/-- Makes one hammock the last child of another. -/
def attach (t : LinkTable) (child parent : HammockId) : LinkTable :=
  (t.modify parent fun l => { l with children := l.children ++ [child] }).modify child
    fun l => { l with parent := some parent }

/-- Records the siblings of each of some hammocks. -/
def setSiblings (t : LinkTable) (siblings : HammockId → HammockSet) (ids : List HammockId) :
    LinkTable :=
  ids.foldl (fun t id => t.modify id fun l => { l with siblings := siblings id }) t

@[simp] theorem get_unlinked (count : Nat) (id : HammockId) : (unlinked count).get id = {} := by
  rw [get, unlinked, Array.getElem?_replicate]
  split <;> rfl

theorem get_modify (t : LinkTable) (a : HammockId) (f : Links → Links) (b : HammockId) :
    (t.modify a f).get b = if b = a ∧ a.index < t.rows.size then f (t.get b) else t.get b := by
  simp only [get, modify, Array.getElem?_modify, DenseId.index_inj]
  by_cases hba : b = a
  · subst hba
    by_cases hb : b.index < t.rows.size <;> simp [hb]
  · simp [hba, Ne.symm hba]

/-- A parent after an attachment was one before, or it is the new one. -/
theorem parent_attach {t : LinkTable} {child parent c p : HammockId}
    (h : ((t.attach child parent).get c).parent = some p) :
    (c = child ∧ p = parent) ∨ (t.get c).parent = some p := by
  rw [attach, get_modify] at h
  split at h
  · next hc => exact .inl ⟨hc.1, (Option.some.inj h).symm⟩
  · rw [get_modify] at h
    split at h <;> exact .inr h

/-- A child after an attachment was one before, or it is the new one. -/
theorem children_attach {t : LinkTable} {child parent c p : HammockId}
    (h : c ∈ ((t.attach child parent).get p).children) :
    (c = child ∧ p = parent) ∨ c ∈ (t.get p).children := by
  have hmod : c ∈ ((t.modify parent fun l =>
      { l with children := l.children ++ [child] }).get p).children := by
    rw [attach, get_modify] at h
    split at h <;> exact h
  rw [get_modify] at hmod
  split at hmod
  · next hp =>
    rcases List.mem_append.1 hmod with hc | hc
    · exact .inr hc
    · exact .inl ⟨List.mem_singleton.1 hc, hp.1⟩
  · exact .inr hmod

@[simp] theorem parent_setSiblings (t : LinkTable) (siblings : HammockId → HammockSet)
    (ids : List HammockId) (id : HammockId) :
    ((t.setSiblings siblings ids).get id).parent = (t.get id).parent := by
  induction ids generalizing t with
  | nil => rfl
  | cons a ids ih =>
    rw [setSiblings, List.foldl_cons, ← setSiblings, ih, get_modify]
    split <;> rfl

@[simp] theorem children_setSiblings (t : LinkTable) (siblings : HammockId → HammockSet)
    (ids : List HammockId) (id : HammockId) :
    ((t.setSiblings siblings ids).get id).children = (t.get id).children := by
  induction ids generalizing t with
  | nil => rfl
  | cons a ids ih =>
    rw [setSiblings, List.foldl_cons, ← setSiblings, ih, get_modify]
    split <;> rfl

end LinkTable

/-- The hammocks of a registry, nested below a root. -/
structure HammockTree where
  registry : HammockRegistry
  root : HammockId
  links : LinkTable
  /-- The root and the hammocks below it. -/
  attached : HammockSet
  root_registered : (registry.get? root).isSome = true
  parent_larger : ∀ c p, (links.get c).parent = some p → registry.sizeOf c < registry.sizeOf p
  child_smaller : ∀ p c, c ∈ (links.get p).children → registry.sizeOf c < registry.sizeOf p
deriving DecidableEq

namespace HammockTree

/-- The root with its bounds and body. -/
def rootHammock (t : HammockTree) : Hammock := (t.registry.get? t.root).get t.root_registered

/-- The number of registered hammocks, attached or not. -/
def size (t : HammockTree) : Nat := t.registry.size

/-- The hammock with an identifier, attached or not. -/
def get? (t : HammockTree) (id : HammockId) : Option Hammock := t.registry.get? id

/-- Whether a hammock is the root or below it. -/
def isAttached (t : HammockTree) (id : HammockId) : Bool := id ∈ t.attached

/-- The parent of a hammock. -/
def parent? (t : HammockTree) (id : HammockId) : Option HammockId := (t.links.get id).parent

/-- The children of a hammock in the order of their discovery. -/
def children (t : HammockTree) (id : HammockId) : List HammockId := (t.links.get id).children

/-- The siblings of a hammock. -/
def siblings (t : HammockTree) (id : HammockId) : HammockSet := (t.links.get id).siblings

/-- Whether a hammock has no children. -/
def isLeaf (t : HammockTree) (id : HammockId) : Bool := (t.children id).isEmpty

/-- The tree that consists of its root alone. -/
def planted (r : HammockRegistry) (root : HammockId) (h : (r.get? root).isSome = true) :
    HammockTree where
  registry := r
  root := root
  links := .unlinked r.size
  attached := {root}
  root_registered := h
  parent_larger c p hp := by simp at hp
  child_smaller p c hc := by simp at hc

/-- The tree in which a hammock has become the last child of a larger one. -/
def attach (t : HammockTree) (child parent : HammockId)
    (h : t.registry.sizeOf child < t.registry.sizeOf parent) : HammockTree where
  registry := t.registry
  root := t.root
  links := t.links.attach child parent
  attached := insert child t.attached
  root_registered := t.root_registered
  parent_larger c p hp := by
    rcases LinkTable.parent_attach hp with ⟨rfl, rfl⟩ | hp
    · exact h
    · exact t.parent_larger c p hp
  child_smaller p c hc := by
    rcases LinkTable.children_attach hc with ⟨rfl, rfl⟩ | hc
    · exact h
    · exact t.child_smaller p c hc

/-- The hammocks among some that adjoin a given one. -/
def adjoining (r : HammockRegistry) (ids : List HammockId) (id : HammockId) : HammockSet :=
  .ofList (ids.filter (r.adjoin id))

/-- The tree in which the children of a hammock that adjoin each other are siblings. -/
def linkSiblings (t : HammockTree) (id : HammockId) : HammockTree where
  registry := t.registry
  root := t.root
  links := t.links.setSiblings (adjoining t.registry (t.children id)) (t.children id)
  attached := t.attached
  root_registered := t.root_registered
  parent_larger c p hp := t.parent_larger c p (by rwa [LinkTable.parent_setSiblings] at hp)
  child_smaller p c hc := t.child_smaller p c (by rwa [LinkTable.children_setSiblings] at hc)

end HammockTree

end FlowRegions
