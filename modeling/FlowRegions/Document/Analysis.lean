import FlowRegions.Decomposition
import FlowRegions.Document.Identifier

/-! # Documents of a decomposition

The way in which a graph is decomposed can be read and written. Passage sets, boundary relations,
registries and trees are only written: a registry with the hammocks that cover and start at each
vertex, a tree with the links of every hammock, whether attached or not.
-/

namespace FlowRegions

open Json

instance : Encode SweepMode := ⟨fun m => encode m.name⟩

instance : Decode SweepMode where
  decode? v := do
    match ← variant? v with
    | "InPlace" => return .inPlace
    | "Snapshot" => return .snapshot
    | "ParallelSnapshot" => return .parallelSnapshot
    | _ => none

instance : Encode Config where
  encode c := .record
    [("sweep", encode c.sweep), ("collect_statistics", encode c.collectStatistics)]

instance : Decode Config where
  decode? v := do
    match ← fields? ["sweep", "collect_statistics"] v with
    | [sweep, collect] => return ⟨← required? sweep, ← required? collect⟩
    | _ => none

instance : Encode PassageSets where
  encode p := .record
    [("target", encode p.target), ("sets", encode p.sets), ("rounds", encode p.rounds)]

instance : Encode BoundaryRelation := ⟨fun r => .record [("ends", encode r.exitTable)]⟩

/-- A hammock with its links. -/
def Hammock.document (h : Hammock) (l : Links) : Value := .record
  [("id", encode h.id), ("start", encode h.entry), ("end", encode h.exit),
    ("size", encode h.size), ("parent", encode l.parent), ("children", encode l.children),
    ("siblings", encode l.siblings)]

/-- The vertices of the graph of a registry, ascending. -/
def HammockRegistry.vertices (r : HammockRegistry) : List VertexId :=
  (List.range r.vertexCount).map .ofIndex

instance : Encode HammockRegistry where
  encode r := .record
    [("hammocks", .array (r.hammocks.toList.map (·.document {}))),
      ("containing", encode (r.vertices.map r.containing)),
      ("started_at", encode (r.vertices.map r.startedAt))]

instance : Encode HammockTree where
  encode t := .record
    [("hammocks", .array (t.registry.hammocks.toList.map fun h => h.document (t.links.get h.id))),
      ("root", encode t.root)]

/-- The text of a tree, one item to a line. -/
def HammockTree.text (t : HammockTree) : String := (encode t).pretty

end FlowRegions
