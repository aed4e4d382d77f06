import FlowRegions.Boundary.Derivation
import FlowRegions.FlowNet.Conversion
import FlowRegions.Nesting.Construction
import FlowRegions.Nesting.Traversal

/-! # Decomposing a flow graph into hammocks

A decomposition finds the source and the sink of a graph, derives the boundaries of its hammocks,
registers the hammocks and nests them into a tree. The first stage that fails ends it. A flow net
is converted first and decomposed with the mask of its transitions.
-/

namespace FlowRegions

open Log

/-- Why a decomposition fails: the stage and its reason. -/
inductive DecompositionError where
  | invalidGraph (e : GraphError)
  | passage (e : PassageError)
  | nesting (e : NestingError)
  | net (e : NetError)
deriving DecidableEq, Repr

namespace DecompositionError

/-- The text of the reason of a failure. -/
def cause : DecompositionError → String
  | .invalidGraph e => e.message
  | .passage e => e.message
  | .nesting e => e.message
  | .net e => e.message

/-- The stage that a failure belongs to. -/
def stage : DecompositionError → String
  | .invalidGraph _ => "Invalid graph"
  | .passage _ => "Passage analysis failed"
  | .nesting _ => "Tree construction failed"
  | .net _ => "Invalid flow net"

/-- The text of a failure. -/
def message (e : DecompositionError) : String := e.stage ++ ": " ++ e.cause

end DecompositionError

/-- How a decomposition is carried out. -/
structure Config where
  sweep : SweepMode
  /-- Whether statistics are collected. -/
  collectStatistics : Bool
deriving DecidableEq, Repr

namespace Config

/-- Sweeps in place, with statistics. -/
def reference : Config := ⟨.inPlace, true⟩

/-- Sweeps with independent updates, with statistics. -/
def parallel : Config := { reference with sweep := .parallelSnapshot }

/-- The same with another sweep mode. -/
def withSweep (c : Config) (mode : SweepMode) : Config := { c with sweep := mode }

instance : Inhabited Config := ⟨reference⟩

end Config

/-- The figures of a decomposition, apart from the time that it takes. -/
structure Statistics where
  vertices : Nat := 0
  edges : Nat := 0
  postdominatorRounds : Nat := 0
  dominatorRounds : Nat := 0
  candidatePairs : Nat := 0
  minimalHammocks : Nat := 0
  treeNodes : Nat := 0
deriving DecidableEq, Repr

/-- A decomposed graph. -/
structure Decomposition where
  source : VertexId
  sink : VertexId
  tree : HammockTree
  /-- The figures, all zero if they are not collected. -/
  statistics : Statistics
deriving DecidableEq

/-- The figures of a graph, the analysis of its boundaries and the tree of its hammocks. -/
def Statistics.collect (g : FlowGraph) (a : BoundaryAnalysis) (t : HammockTree) : Statistics where
  vertices := g.vertexCount
  edges := g.edgeCount
  postdominatorRounds := a.postdominators.rounds
  dominatorRounds := a.dominators.rounds
  candidatePairs := a.candidates.size
  minimalHammocks := a.minimal.size
  treeNodes := t.preorder.length

namespace FlowGraph

/-- Decomposes a graph; a mask restricts the boundaries of its hammocks. -/
def decompose (config : Config) (g : FlowGraph) (mask : Option BoundaryMask) :
    Attempt DecompositionError Decomposition := do
  let (source, sink) ← Attempt.mapError .invalidGraph (.ofExcept g.endpoints)
  Logged.report (.decomposing g.vertexCount g.edgeCount source sink)
  let a ← Attempt.mapError .passage (g.analyseBoundaries source sink mask config.sweep)
  Logged.report (.analysed a.postdominators.rounds a.dominators.rounds)
  let registry ← HammockRegistry.register g a.minimal
  let tree ← Attempt.mapError .nesting (registry.nest g)
  Logged.report (.decomposed tree.rootHammock tree.size)
  let statistics := if config.collectStatistics then .collect g a tree else {}
  return ⟨source, sink, tree, statistics⟩

/-- The tree of the hammocks of a graph. -/
def hammockTree (g : FlowGraph) (mask : Option BoundaryMask) :
    Attempt DecompositionError HammockTree := do
  let d ← g.decompose default mask
  return d.tree

end FlowGraph

/-- Decomposes a converted net with the mask of its transitions. -/
def NetGraph.decompose (config : Config) (g : NetGraph) :
    Attempt DecompositionError Decomposition := g.graph.decompose config (some g.mask)

/-- Converts a net and decomposes it. The converted net tells which node a vertex is. -/
def FlowNet.decompose (config : Config) (n : FlowNet) :
    Attempt DecompositionError (NetGraph × Decomposition) := do
  let g ← Attempt.mapError .net n.toGraph
  let d ← g.decompose config
  return (g, d)

end FlowRegions
