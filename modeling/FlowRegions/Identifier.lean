/-! # Identifiers

Vertices and hammocks are numbered densely from zero by 32-bit words. One type serves both,
indexed by what it numbers, so that a vertex is never taken for a hammock. An identifier is
determined by its position (`index_inj`), positions are below `2 ^ 32` (`index_lt`), and taking
the next identifier wraps around after the last one (`index_next`).
-/

namespace FlowRegions

/-- What an identifier numbers. -/
inductive IdKind where
  | vertex
  | hammock
deriving DecidableEq, Repr

/-- The letter that precedes the number of an identifier of this kind in a text. -/
def IdKind.label : IdKind → String
  | .vertex => "v"
  | .hammock => "h"

/-- The name of the identifiers of this kind. -/
def IdKind.typeName : IdKind → String
  | .vertex => "VertexId"
  | .hammock => "HammockId"

/-- How many identifiers of one kind there are: `2 ^ 32`. -/
def idCount : Nat := 4294967296

/-- A dense identifier: a 32-bit number that remembers what it numbers. -/
structure DenseId (κ : IdKind) where
  raw : UInt32
deriving DecidableEq, Repr

/-- A vertex of a flow graph. -/
abbrev VertexId := DenseId .vertex

/-- A hammock, numbered in the order of registration. -/
abbrev HammockId := DenseId .hammock

namespace DenseId

variable {κ : IdKind}

/-- The position of an identifier among those of its kind. -/
def index (a : DenseId κ) : Nat := a.raw.toNat

/-- The identifier at a position, which counts modulo the number of identifiers. -/
def ofIndex (i : Nat) : DenseId κ := ⟨UInt32.ofNat i⟩

/-- The first identifier. -/
def first : DenseId κ := ⟨0⟩

/-- The identifier after this one; the last is followed by the first. -/
def next (a : DenseId κ) : DenseId κ := ⟨a.raw + 1⟩

instance : Inhabited (DenseId κ) := ⟨first⟩

instance : LT (DenseId κ) := ⟨fun a b => a.raw < b.raw⟩

instance (a b : DenseId κ) : Decidable (a < b) := inferInstanceAs (Decidable (a.raw < b.raw))

/-- The text of an identifier: its letter and its number. -/
def display (a : DenseId κ) : String := κ.label ++ a.raw.toNat.repr

/-- The text of an identifier that names its kind in full. -/
def describe (a : DenseId κ) : String := κ.typeName ++ "(" ++ a.raw.toNat.repr ++ ")"

instance : ToString (DenseId κ) := ⟨display⟩

theorem index_lt (a : DenseId κ) : a.index < idCount := a.raw.toNat_lt

theorem index_inj {a b : DenseId κ} : a.index = b.index ↔ a = b := by
  cases a; cases b
  simp [index, UInt32.toNat_inj]

theorem lt_iff_index_lt {a b : DenseId κ} : a < b ↔ a.index < b.index := UInt32.lt_iff_toNat_lt

@[simp] theorem ofIndex_index (a : DenseId κ) : ofIndex a.index = a := by
  simp [ofIndex, index]

theorem index_ofIndex (i : Nat) : (ofIndex i : DenseId κ).index = i % idCount := by
  simp [ofIndex, index, idCount]

theorem index_ofIndex_of_lt {i : Nat} (h : i < idCount) : (ofIndex i : DenseId κ).index = i := by
  rw [index_ofIndex, Nat.mod_eq_of_lt h]

theorem index_next (a : DenseId κ) : a.next.index = (a.index + 1) % idCount := by
  simp [next, index, idCount, UInt32.toNat_add]

theorem lt_irrefl (a : DenseId κ) : ¬ a < a := by simp [lt_iff_index_lt]

theorem lt_trans {a b c : DenseId κ} (hab : a < b) (hbc : b < c) : a < c := by
  rw [lt_iff_index_lt] at *; omega

theorem lt_asymm {a b : DenseId κ} (hab : a < b) : ¬ b < a := by
  rw [lt_iff_index_lt] at *; omega

theorem eq_of_not_lt {a b : DenseId κ} (hab : ¬ a < b) (hba : ¬ b < a) : a = b := by
  rw [lt_iff_index_lt] at *
  exact index_inj.1 (by omega)

end DenseId

end FlowRegions
