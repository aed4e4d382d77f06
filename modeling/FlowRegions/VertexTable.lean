import FlowRegions.IdSet

/-! # Tables with one row per vertex

A table holds a value for each vertex of a graph with a known number of vertices. Tables are
compared row by row (`VertexTable.ext`), and every operation is pinned down by the rows of its
result (`get?_replicate`, `get?_mapVertices`, `get?_set`, `get?_modify`).
-/

namespace FlowRegions

/-- The greatest number of vertices: the number of vertices is itself a 32-bit word. -/
def maxVertexCount : Nat := idCount - 1

/-- A value for each of the vertices below some count. -/
@[ext] structure VertexTable (α : Type) where
  rows : Array α
  size_le : rows.size ≤ maxVertexCount
deriving DecidableEq

namespace VertexTable

variable {α β : Type}

/-- The number of vertices. -/
def size (t : VertexTable α) : Nat := t.rows.size

/-- The row of a vertex, if the table has one. -/
def get? (t : VertexTable α) (v : VertexId) : Option α := t.rows[v.index]?

/-- The row of a vertex, or a default for a vertex without row. -/
def getD (t : VertexTable α) (v : VertexId) (a : α) : α := (t.get? v).getD a

/-- Whether the table has a row for a vertex. -/
def hasRow (t : VertexTable α) (v : VertexId) : Bool := decide (v.index < t.size)

/-- The vertices that have a row, ascending. -/
def vertices (t : VertexTable α) : List VertexId := (List.range t.size).map .ofIndex

/-- The rows in the order of their vertices. -/
def toList (t : VertexTable α) : List α := t.rows.toList

/-- The sum of a number for every row. -/
def total (f : α → Nat) (t : VertexTable α) : Nat := t.toList.foldr (fun a n => f a + n) 0

/-- The table that gives each of a number of vertices the same row. -/
def replicate (count : UInt32) (a : α) : VertexTable α where
  rows := Array.replicate count.toNat a
  size_le := by
    have := count.toNat_lt
    simp only [Array.size_replicate, maxVertexCount, idCount]
    omega

/-- Changes every row with knowledge of its vertex. -/
def mapVertices (f : VertexId → α → β) (t : VertexTable α) : VertexTable β where
  rows := t.rows.mapIdx fun i a => f (.ofIndex i) a
  size_le := by simpa using t.size_le

/-- Changes every row. -/
def map (f : α → β) (t : VertexTable α) : VertexTable β := t.mapVertices fun _ a => f a

/-- Replaces the row of a vertex, if there is one. -/
def set (t : VertexTable α) (v : VertexId) (a : α) : VertexTable α where
  rows := t.rows.setIfInBounds v.index a
  size_le := by simpa using t.size_le

/-- Changes the row of a vertex, if there is one. -/
def modify (t : VertexTable α) (v : VertexId) (f : α → α) : VertexTable α where
  rows := t.rows.modify v.index f
  size_le := by simpa using t.size_le

instance : Inhabited (VertexTable α) := ⟨⟨#[], Nat.zero_le _⟩⟩

/-! ## Rows -/

theorem size_le_maxVertexCount (t : VertexTable α) : t.size ≤ maxVertexCount := t.size_le

theorem size_lt_idCount (t : VertexTable α) : t.size < idCount := by
  have := t.size_le_maxVertexCount
  simp only [maxVertexCount, idCount] at *
  omega

theorem hasRow_iff {t : VertexTable α} {v : VertexId} : t.hasRow v = true ↔ v.index < t.size :=
  decide_eq_true_iff

theorem get?_eq_none_iff {t : VertexTable α} {v : VertexId} :
    t.get? v = none ↔ t.hasRow v = false := by
  rw [get?, Array.getElem?_eq_none_iff, hasRow, decide_eq_false_iff_not, Nat.not_lt]
  rfl

theorem isSome_get? (t : VertexTable α) (v : VertexId) : (t.get? v).isSome = t.hasRow v := by
  by_cases h : v.index < t.rows.size
  · rw [hasRow_iff.2 h, get?, Array.getElem?_eq_getElem h, Option.isSome_some]
  · have hrow : t.hasRow v = false := decide_eq_false_iff_not.2 h
    rw [get?_eq_none_iff.2 hrow, hrow, Option.isSome_none]

/-- Two tables with the same rows are the same table. -/
theorem ext_get? {s t : VertexTable α} (h : ∀ v, s.get? v = t.get? v) : s = t := by
  have hst : s.rows = t.rows := by
    refine Array.ext_getElem? fun i => ?_
    by_cases hi : i < idCount
    · simpa [get?, DenseId.index_ofIndex_of_lt hi] using h (.ofIndex i)
    · have hs := s.size_lt_idCount
      have ht := t.size_lt_idCount
      simp only [size] at hs ht
      rw [Array.getElem?_eq_none (by omega), Array.getElem?_eq_none (by omega)]
  exact VertexTable.ext hst

theorem getD_of_get? {t : VertexTable α} {v : VertexId} {a d : α} (h : t.get? v = some a) :
    t.getD v d = a := by rw [getD, h, Option.getD_some]

/-- The rows by position. -/
theorem getD_ofIndex {t : VertexTable α} {i : Nat} (h : i < t.rows.size) (d : α) :
    t.getD (.ofIndex i) d = t.rows[i] := by
  have hi : i < idCount := Nat.lt_trans h t.size_lt_idCount
  rw [getD, get?, DenseId.index_ofIndex_of_lt hi, Array.getElem?_eq_getElem h, Option.getD_some]

theorem get?_eq_some_getD {t : VertexTable α} {v : VertexId} (h : t.hasRow v = true) (d : α) :
    t.get? v = some (t.getD v d) := by
  rw [← isSome_get?, Option.isSome_iff_exists] at h
  obtain ⟨a, ha⟩ := h
  rw [getD_of_get? ha, ha]

theorem getD_eq_default {t : VertexTable α} {v : VertexId} (h : t.hasRow v = false) (d : α) :
    t.getD v d = d := by rw [getD, get?_eq_none_iff.2 h, Option.getD_none]

theorem mem_vertices {t : VertexTable α} {v : VertexId} :
    v ∈ t.vertices ↔ t.hasRow v = true := by
  rw [vertices, List.mem_map, hasRow_iff]
  constructor
  · rintro ⟨i, hi, rfl⟩
    rw [List.mem_range] at hi
    rwa [DenseId.index_ofIndex_of_lt (Nat.lt_trans hi t.size_lt_idCount)]
  · intro h
    exact ⟨v.index, List.mem_range.2 h, DenseId.ofIndex_index v⟩

theorem length_vertices (t : VertexTable α) : t.vertices.length = t.size := by
  simp [vertices]

theorem getElem?_vertices {t : VertexTable α} {v : VertexId} (h : t.hasRow v = true) :
    t.vertices[v.index]? = some v := by
  rw [vertices, List.getElem?_map, List.getElem?_range (hasRow_iff.1 h), Option.map_some,
    DenseId.ofIndex_index]

/-- The rows of the vertices are the rows of the table. -/
theorem map_getD_vertices (t : VertexTable α) (d : α) :
    (t.vertices.map fun v => t.getD v d) = t.toList := by
  refine List.ext_getElem ?_ fun i hi hi' => ?_
  · rw [List.length_map, length_vertices]
    rfl
  · have hrow : i < t.rows.size := hi'
    simp only [vertices, List.map_map, List.getElem_map, List.getElem_range, Function.comp_apply,
      getD_ofIndex hrow]
    rfl

/-- The sum of a number for every row is the sum over the vertices. -/
theorem total_eq_foldr_vertices (f : α → Nat) (t : VertexTable α) (d : α) :
    t.total f = t.vertices.foldr (fun v n => f (t.getD v d) + n) 0 := by
  rw [total, ← t.map_getD_vertices d, List.foldr_map]

/-- The vertices of a table come in strictly ascending order. -/
theorem pairwise_vertices (t : VertexTable α) : t.vertices.Pairwise (· < ·) := by
  rw [vertices, List.pairwise_map]
  refine List.Pairwise.imp_of_mem ?_ List.pairwise_lt_range
  intro i j hi hj hij
  have hn := t.size_lt_idCount
  rw [List.mem_range] at hi hj
  rw [DenseId.lt_iff_index_lt, DenseId.index_ofIndex_of_lt (by omega),
    DenseId.index_ofIndex_of_lt (by omega)]
  exact hij

/-! ## Operations -/

@[simp] theorem size_replicate (count : UInt32) (a : α) :
    (replicate count a).size = count.toNat := Array.size_replicate

@[simp] theorem size_mapVertices (f : VertexId → α → β) (t : VertexTable α) :
    (t.mapVertices f).size = t.size := Array.size_mapIdx

@[simp] theorem size_map (f : α → β) (t : VertexTable α) : (t.map f).size = t.size :=
  size_mapVertices _ t

@[simp] theorem size_set (t : VertexTable α) (v : VertexId) (a : α) :
    (t.set v a).size = t.size := Array.size_setIfInBounds

@[simp] theorem size_modify (t : VertexTable α) (v : VertexId) (f : α → α) :
    (t.modify v f).size = t.size := Array.size_modify

theorem hasRow_congr {s : VertexTable α} {t : VertexTable β} (h : s.size = t.size)
    (v : VertexId) : s.hasRow v = t.hasRow v := by simp only [hasRow, h]

theorem vertices_congr {s : VertexTable α} {t : VertexTable β} (h : s.size = t.size) :
    s.vertices = t.vertices := by simp only [vertices, h]

/-- Two tables of one size are the same table if they agree up to a default. -/
theorem ext_getD {s t : VertexTable α} (d : α) (hsize : s.size = t.size)
    (h : ∀ v, s.getD v d = t.getD v d) : s = t := by
  refine ext_get? fun v => ?_
  have hrow := hasRow_congr hsize v
  by_cases hv : s.hasRow v = true
  · rw [get?_eq_some_getD hv d, get?_eq_some_getD (hrow ▸ hv) d, h v]
  · rw [get?_eq_none_iff.2 (Bool.eq_false_iff.2 hv),
      get?_eq_none_iff.2 (hrow ▸ Bool.eq_false_iff.2 hv)]

theorem get?_replicate (count : UInt32) (a : α) (v : VertexId) :
    (replicate count a).get? v = if v.index < count.toNat then some a else none := by
  simp [get?, replicate, Array.getElem?_replicate]

theorem get?_mapVertices (f : VertexId → α → β) (t : VertexTable α) (v : VertexId) :
    (t.mapVertices f).get? v = (t.get? v).map (f v) := by
  simp [get?, mapVertices]

theorem get?_map (f : α → β) (t : VertexTable α) (v : VertexId) :
    (t.map f).get? v = (t.get? v).map f := get?_mapVertices _ t v

theorem get?_set (t : VertexTable α) (v : VertexId) (a : α) (w : VertexId) :
    (t.set v a).get? w = if w = v then (t.get? v).map fun _ => a else t.get? w := by
  simp only [get?, set, Array.getElem?_setIfInBounds, DenseId.index_inj]
  by_cases hwv : w = v
  · subst hwv
    by_cases hw : w.index < t.rows.size <;> simp [hw]
  · simp [hwv, Ne.symm hwv]

theorem get?_modify (t : VertexTable α) (v : VertexId) (f : α → α) (w : VertexId) :
    (t.modify v f).get? w = if w = v then (t.get? v).map f else t.get? w := by
  simp only [get?, modify, Array.getElem?_modify, DenseId.index_inj]
  by_cases hwv : w = v
  · simp [hwv]
  · simp [hwv, Ne.symm hwv]

theorem getD_mapVertices {f : VertexId → α → β} {t : VertexTable α} {v : VertexId}
    (h : t.hasRow v = true) (a : α) (b : β) : (t.mapVertices f).getD v b = f v (t.getD v a) := by
  rw [getD, get?_mapVertices, get?_eq_some_getD h a, Option.map_some, Option.getD_some]

/-- Rows that depend on their vertices alone do not depend on the rows before. -/
theorem mapVertices_congr {γ : Type} {s : VertexTable α} {t : VertexTable β} (h : s.size = t.size)
    (f : VertexId → γ) : (s.mapVertices fun v _ => f v) = t.mapVertices fun v _ => f v := by
  refine ext_get? fun v => ?_
  rw [get?_mapVertices, get?_mapVertices]
  have hrow := hasRow_congr h v
  rw [← isSome_get?, ← isSome_get?] at hrow
  cases hs : s.get? v <;> cases ht : t.get? v <;> simp_all

theorem getD_set {t : VertexTable α} {v : VertexId} (h : t.hasRow v = true) (a d : α)
    (w : VertexId) : (t.set v a).getD w d = if w = v then a else t.getD w d := by
  rw [getD, get?_set]
  split
  · rw [get?_eq_some_getD h d, Option.map_some, Option.getD_some]
  · rfl

theorem getD_modify {t : VertexTable α} {v : VertexId} (h : t.hasRow v = true) (f : α → α)
    (d : α) (w : VertexId) :
    (t.modify v f).getD w d = if w = v then f (t.getD v d) else t.getD w d := by
  rw [getD, get?_modify]
  split
  · rw [get?_eq_some_getD h d, Option.map_some, Option.getD_some]
  · rfl

end VertexTable

end FlowRegions
