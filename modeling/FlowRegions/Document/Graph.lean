import FlowRegions.Boundary.Mask
import FlowRegions.Document.Identifier
import FlowRegions.FlowGraph.Construction

/-! # Documents of graphs and masks

A graph is exchanged as the number of its vertices and its edges, and shown as the rows of its
successors. A mask is a record with its vertices.
-/

namespace FlowRegions

open Json

instance : Encode FlowGraph := ⟨fun g => .record [("successors", encode g.successorTable)]⟩

instance : Encode GraphDocument :=
  ⟨fun d => .record [("vertices", encode d.vertices), ("edges", encode d.edges)]⟩

instance : Decode GraphDocument where
  decode? v := do
    match ← fields? ["vertices", "edges"] v with
    | [vertices, edges] => return ⟨← required? vertices, ← required? edges⟩
    | _ => none

instance : Encode BoundaryMask := ⟨fun m => .record [("vertices", encode m.vertices)]⟩

instance : Decode BoundaryMask where
  decode? v := do
    match ← fields? ["vertices"] v with
    | [vertices] => return ⟨← required? vertices⟩
    | _ => none

/-- The graph that the text of a document describes. -/
def FlowGraph.ofText (s : String) : Except GraphError FlowGraph :=
  match (read s : Except Fault GraphDocument) with
  | .error fault => .error (.malformed fault.message)
  | .ok doc => FlowGraph.ofDocument doc

end FlowRegions
