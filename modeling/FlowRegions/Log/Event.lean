import FlowRegions.Hammock.Basic
import FlowRegions.Passage.Sweep

/-! # What a decomposition tells about itself

Every stage of a decomposition reports events. An event has a level, a topic and a text; the
levels run from errors, which matter most, to traces.
-/

namespace FlowRegions

namespace Log

/-- How much an event matters, from errors down to traces. -/
inductive Level where
  | error
  | warn
  | info
  | debug
  | trace
deriving DecidableEq, Repr

/-- The name of a level. -/
def Level.name : Level → String
  | .error => "ERROR"
  | .warn => "WARN"
  | .info => "INFO"
  | .debug => "DEBUG"
  | .trace => "TRACE"

/-- The rank of a level: the more detail it stands for, the higher. -/
def Level.rank : Level → Nat
  | .error => 1
  | .warn => 2
  | .info => 3
  | .debug => 4
  | .trace => 5

/-- What loggers are given: a text with its level and the topic under which it is reported. -/
structure Record where
  level : Level
  target : String
  text : String
deriving DecidableEq, Repr

/-- A step of a decomposition that is worth reporting. -/
inductive Event where
  /-- A net has been converted into a graph. -/
  | netConverted (places transitions arcs : Nat) (source sink : VertexId)
  /-- The source and the sink are known and the decomposition begins. -/
  | decomposing (vertices edges : Nat) (source sink : VertexId)
  /-- A sweep towards a target is over. -/
  | swept (round : Nat) (target : VertexId) (changed : Bool)
  /-- The sweeps towards a target have become quiet. -/
  | converged (target : VertexId) (rounds : Nat) (mode : SweepMode)
  /-- A candidate is a chain of smaller ones. -/
  | dropped (entry exit : VertexId)
  /-- The candidates have been reduced to the minimal ones. -/
  | reduced (candidates minimal : Nat)
  /-- Both passage analyses are complete. -/
  | analysed (postRounds domRounds : Nat)
  /-- A hammock has been numbered and measured. -/
  | registered (hammock : Hammock)
  /-- All hammocks have been registered. -/
  | registryComplete (hammocks vertices : Nat)
  /-- A hammock has become the child of another. -/
  | nested (child parent : HammockId)
  /-- The tree is complete. -/
  | treeComplete (root : Hammock) (attached hammocks : Nat)
  /-- The decomposition is complete. -/
  | decomposed (root : Hammock) (hammocks : Nat)
deriving DecidableEq

namespace Event

/-- The level of an event. -/
def level : Event → Level
  | .decomposing .. | .decomposed .. => .info
  | .swept .. | .registered .. | .nested .. => .trace
  | .netConverted .. | .converged .. | .dropped .. | .reduced .. | .analysed ..
  | .registryComplete .. | .treeComplete .. => .debug

/-- The topic under which an event is reported. -/
def target : Event → String
  | .netConverted .. => "hammock::net"
  | .decomposing .. | .analysed .. | .decomposed .. => "hammock::pipeline"
  | .swept .. | .converged .. => "hammock::region::dominance"
  | .dropped .. | .reduced .. => "hammock::region::candidates"
  | .registered .. | .registryComplete .. => "hammock::region::registry"
  | .nested .. | .treeComplete .. => "hammock::region::tree"

/-- The text of an event. -/
def text : Event → String
  | .netConverted places transitions arcs source sink =>
    s!"converted net: {places} places, {transitions} transitions, {arcs} arcs, " ++
      s!"start {source} end {sink}"
  | .decomposing vertices edges source sink =>
    s!"decomposing graph with {vertices} vertices, {edges} edges ({source} -> {sink})"
  | .swept round target changed =>
    s!"passage sweep {round} towards {target}: changed={changed}"
  | .converged target rounds mode =>
    s!"necessary-passage fixpoint towards {target} converged after {rounds} rounds " ++
      s!"({mode.name})"
  | .dropped entry exit => s!"hammock {entry}->{exit} decomposes, dropping"
  | .reduced candidates minimal => s!"{candidates} hammock candidates, {minimal} minimal"
  | .analysed postRounds domRounds =>
    s!"passage sets converged: post {postRounds} rounds, dom {domRounds} rounds"
  | .registered hammock => s!"registered hammock {hammock}"
  | .registryComplete hammocks vertices =>
    s!"registered {hammocks} hammocks over {vertices} vertices"
  | .nested child parent => s!"{child} nests in {parent}"
  | .treeComplete root attached hammocks =>
    s!"hammock tree rooted at {root}: " ++ s!"{attached} of {hammocks} hammocks attached"
  | .decomposed root hammocks => s!"hammock tree built: root {root}, {hammocks} hammocks"

/-- An event as it is recorded. -/
def record (e : Event) : Record := ⟨e.level, e.target, e.text⟩

end Event

end Log

end FlowRegions
