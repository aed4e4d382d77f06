import FlowRegions.Json.Codec
import FlowRegions.VertexTable

/-! # Documents of identifiers

An identifier is written as its number, a set as the array of its members in ascending order and a
table as the array of its rows. A set may be read from members in any order, repeated or not.
-/

namespace FlowRegions

open Json

variable {κ : IdKind}

instance : Encode (DenseId κ) := ⟨fun a => .natural a.index⟩

instance : Decode (DenseId κ) where
  decode? := fun
    | .natural n => if n < idCount then some (.ofIndex n) else none
    | _ => none

instance : Encode (IdSet κ) := ⟨fun s => encode s.toList⟩

instance : Decode (IdSet κ) where
  decode? v := ((decode? v : Option (List (DenseId κ)))).map .ofList

instance {α : Type} [Encode α] : Encode (VertexTable α) := ⟨fun t => encode t.toList⟩

end FlowRegions
