import FlowRegions.Json.Printer
import FlowRegions.Json.Reader

/-! # Documents

A type of documents says how its values are written as JSON and, where they are read back, which
JSON values are accepted. A record is read from an object, with its fields in any order and other
members passed over, or from the array of its fields in order.
-/

namespace FlowRegions

namespace Json

/-- How the values of a type are written. -/
class Encode (α : Type) where
  encode : α → Value

/-- Which JSON values are accepted as values of a type. -/
class Decode (α : Type) where
  decode? : Value → Option α

export Encode (encode)
export Decode (decode?)

/-- Why a text is not a document. -/
inductive Fault where
  /-- The text is not JSON. -/
  | notJson
  /-- The text is JSON of another shape. -/
  | wrongShape
deriving DecidableEq, Repr

/-- The text of a fault. -/
def Fault.message : Fault → String
  | .notJson => "the text is not valid JSON"
  | .wrongShape => "the value has not the expected shape"

/-- The text of a document. -/
def print {α : Type} [Encode α] (a : α) : String := (encode a).compact

/-- The document that a text holds. -/
def read {α : Type} [Decode α] (s : String) : Except Fault α :=
  match Value.ofText? s with
  | none => .error .notJson
  | some v =>
    match decode? v with
    | none => .error .wrongShape
    | some a => .ok a

/-! ## Fields -/

/-- The values of the named fields of a record. Keys must be texts, and a named field must not be
given twice; fields may be missing. -/
def fields? (names : List String) : Value → Option (List (Option Value))
  | .array items =>
    if items.length ≤ names.length then
      some (items.map some ++ List.replicate (names.length - items.length) none)
    else none
  | .object members => do
    let named ← members.mapM fun m => m.1.text?.map fun k => (k, m.2)
    if names.all fun name => (named.filter (·.1 = name)).length ≤ 1 then
      some (names.map fun name => List.lookup name named)
    else none
  | _ => none

/-- The value of a field that must be given. -/
def required? {α : Type} [Decode α] (field : Option Value) : Option α := field.bind decode?

/-- The value of a field that has a default. -/
def optional? {α : Type} [Decode α] (default : α) : Option Value → Option α
  | none => some default
  | some v => decode? v

/-- The name of a variant without content: the name alone, or the name as the only key of an
object, with `null`. -/
def variant? : Value → Option String
  | .string s => s.text?
  | .object [(k, .null)] => k.text?
  | _ => none

/-! ## Basic documents -/

instance : Encode Bool := ⟨.bool⟩

instance : Decode Bool where
  decode? := fun
    | .bool b => some b
    | _ => none

instance : Encode String := ⟨.text⟩

instance : Decode String where
  decode? := fun
    | .string s => s.text?
    | _ => none

instance : Encode Nat := ⟨.natural⟩

instance : Encode UInt64 := ⟨fun n => .natural n.toNat⟩

instance : Decode UInt64 where
  decode? := fun
    | .natural n => if n < UInt64.size then some (.ofNat n) else none
    | _ => none

instance {α : Type} [Encode α] : Encode (List α) := ⟨fun as => .array (as.map encode)⟩

instance {α : Type} [Decode α] : Decode (List α) where
  decode? := fun
    | .array items => items.mapM decode?
    | _ => none

instance {α β : Type} [Encode α] [Encode β] : Encode (α × β) :=
  ⟨fun p => .array [encode p.1, encode p.2]⟩

instance {α β : Type} [Decode α] [Decode β] : Decode (α × β) where
  decode? := fun
    | .array [a, b] => do return (← decode? a, ← decode? b)
    | _ => none

instance {α : Type} [Encode α] : Encode (Option α) := ⟨fun a => a.elim .null encode⟩

end Json

end FlowRegions
