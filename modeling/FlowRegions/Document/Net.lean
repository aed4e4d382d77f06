import FlowRegions.FlowNet.Basic
import FlowRegions.Json.Codec

/-! # Documents of flow nets

An arc is a record of the names of its ends, a net a record of its places, transitions and arcs,
each of which may be left out when there are none.
-/

namespace FlowRegions

open Json

instance : Encode NodeKind := ⟨fun k => encode k.name⟩

instance : Decode NodeKind where
  decode? v := do
    match ← variant? v with
    | "Place" => return .place
    | "Transition" => return .transition
    | _ => none

instance : Encode FlowArc :=
  ⟨fun a => .record [("from", encode a.origin), ("to", encode a.target)]⟩

instance : Decode FlowArc where
  decode? v := do
    match ← fields? ["from", "to"] v with
    | [origin, target] => return ⟨← required? origin, ← required? target⟩
    | _ => none

instance : Encode FlowNet where
  encode n := .record
    [("places", encode n.places), ("transitions", encode n.transitions), ("arcs", encode n.arcs)]

instance : Decode FlowNet where
  decode? v := do
    match ← fields? ["places", "transitions", "arcs"] v with
    | [places, transitions, arcs] =>
      return ⟨← optional? [] places, ← optional? [] transitions, ← optional? [] arcs⟩
    | _ => none

/-- The net that the text of a document describes. -/
def FlowNet.ofText (s : String) : Except NetError FlowNet :=
  match (read s : Except Fault FlowNet) with
  | .error fault => .error (.malformed fault.message)
  | .ok net => .ok net

end FlowRegions
