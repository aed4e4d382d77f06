/-! # JSON values

A value is what a JSON text denotes. Natural numbers are told apart from other numbers, which are
kept as written. A string may hold an escaped surrogate without partner; such a string denotes no
text and is good only for being passed over.
-/

namespace FlowRegions

namespace Json

/-- The content of a string literal. -/
inductive Content where
  /-- A sequence of characters. -/
  | text (s : String)
  /-- Something with a surrogate that has no partner. -/
  | illFormed
deriving DecidableEq, Repr

/-- The characters of a string literal, if it denotes any. -/
def Content.text? : Content → Option String
  | .text s => some s
  | .illFormed => none

/-- A JSON value. -/
inductive Value where
  | null
  | bool (b : Bool)
  /-- A number written without sign, fraction and exponent. -/
  | natural (n : Nat)
  /-- Any other number, as written. -/
  | number (written : String)
  | string (s : Content)
  | array (items : List Value)
  | object (members : List (Content × Value))

instance : Inhabited Value := ⟨.null⟩

/-- An object with named members in order. -/
def Value.record (members : List (String × Value)) : Value :=
  .object (members.map fun m => (.text m.1, m.2))

/-- A text as a value. -/
def Value.text (s : String) : Value := .string (.text s)

end Json

end FlowRegions
