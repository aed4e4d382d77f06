import FlowRegions.Log.Filter
import FlowRegions.Log.Layout
import FlowRegions.Log.PlainText

/-! # Setting up the log of a process

A process has at most one logger: the first that is installed stays. The calls that initialise the
log take effect once; they count as initialisation even where a logger was installed before. The
logger for tests may be installed at any time and does not count.

The loggers are built with a library, which is a parameter. The library that runs has filters made
of directives (`LoggerLibrary.standard`).
-/

namespace FlowRegions

namespace Log

/-- Something that takes the records of a process. -/
inductive Logger (lib : LoggerLibrary) where
  /-- A logger of the host, with what it writes for a record. -/
  | host (write : Record → String)
  /-- A logger built with the library: it lays out the records that pass a filter. -/
  | built (filter : lib.Filter) (layout : Record → String)

namespace Logger

variable {lib : LoggerLibrary}

/-- A logger of the host that writes nothing. -/
def silent : Logger lib := .host fun _ => ""

/-- What a logger writes for a record. -/
def write : Logger lib → Record → String
  | .host write, r => write r
  | .built filter layout, r => if lib.shows filter r then lib.displayed (layout r) else ""

end Logger

/-- A call that sets up the log. -/
inductive SetupCall (lib : LoggerLibrary) where
  /-- Shows warnings of every module. -/
  | init
  /-- Shows the records of the analysis up to a threshold and warnings of other modules. -/
  | initWithLevel (threshold : Threshold)
  /-- Shows what the specification of the environment says, and warnings if there is none. -/
  | initFromEnvironment
  /-- Installs the logger for tests, which shows warnings. -/
  | initTest
  /-- Installs a logger of the host. -/
  | host (logger : Logger lib)

/-- The module whose records are those of the analysis. -/
def analysisModule : String := "hammock"

section

variable (lib : LoggerLibrary)

/-- The logger that shows the records of the analysis up to a threshold. -/
def levelLogger (threshold : Threshold) : Logger lib :=
  .built (lib.direct (lib.direct lib.blank none (some .warn)) (some analysisModule) threshold)
    Record.dashed

/-- The logger that follows a specification. -/
def environmentLogger (spec : Option String) : Logger lib :=
  .built (lib.read (spec.getD "warn")) lib.layout

/-- The logger for tests: a specification may speak for single modules, the rest shows warnings. -/
def testLogger (spec : Option String) : Logger lib :=
  .built (lib.direct ((spec.map lib.read).getD lib.blank) none (some .warn)) lib.layout

/-- The log of a process. -/
structure ProcessLog where
  /-- The logger that takes the records. -/
  active : Option (Logger lib) := none
  initialized : Bool := false

end

namespace ProcessLog

variable {lib : LoggerLibrary}

/-- Installs a logger unless there is one. -/
def install (s : ProcessLog lib) (logger : Logger lib) : ProcessLog lib :=
  { s with active := s.active.or (some logger) }

/-- Initialises the log with a logger unless it is initialised. -/
def initOnce (s : ProcessLog lib) (logger : Logger lib) : ProcessLog lib :=
  if s.initialized then s else { s.install logger with initialized := true }

/-- Carries out a call in a process with a specification in its environment. -/
def call (spec : Option String) (s : ProcessLog lib) : SetupCall lib → ProcessLog lib
  | .init => s.initOnce (levelLogger lib (some .warn))
  | .initWithLevel threshold => s.initOnce (levelLogger lib threshold)
  | .initFromEnvironment => s.initOnce (environmentLogger lib spec)
  | .initTest => s.install (testLogger lib spec)
  | .host logger => s.install logger

/-- What is written for a record. -/
def written (s : ProcessLog lib) (level : Level) (target text : String) : String :=
  match s.active with
  | none => ""
  | some logger => logger.write ⟨level, target, text⟩

/-- What is written for some events. -/
def writtenFor (s : ProcessLog lib) (events : List Event) : String :=
  .join (events.map fun e => s.written e.level e.target e.text)

end ProcessLog

/-- The library whose filters are made of directives. It leaves open which patterns there are. -/
def LoggerLibrary.standard (matcher? : String → Option (String → Bool)) : LoggerLibrary where
  Filter := Log.Filter
  blank := Log.Filter.empty
  direct f scope t := Log.Filter.set f ⟨scope, t⟩
  read := Log.Filter.ofText
  directed? := Log.Filter.directed?
  admits := Log.Filter.admits matcher?
  shows := Log.Filter.shows matcher?
  layout := Record.bracketed
  displayed := plainText

/-- The log of a process whose patterns are plain texts. -/
abbrev LogState := ProcessLog (.standard literal?)

end Log

end FlowRegions
