/-!
What a computation reports while it runs. A `Logged` computation appends entries and then returns a
value or fails; a failure keeps the entries written before it.
-/

namespace WitCaller

/-- The weight of a report. -/
inductive Level where
  | debug
  | info
  | warning
  | error
  deriving DecidableEq, Repr

/-- The rank of a level: only entries of at least a wanted rank are shown. -/
def Level.rank : Level → Nat
  | .debug => 0
  | .info => 1
  | .warning => 2
  | .error => 3

def Level.name : Level → String
  | .debug => "DEBUG"
  | .info => "INFO"
  | .warning => "WARNING"
  | .error => "ERROR"

/-- The part of the work that a report comes from. -/
inductive Topic where
  | parser
  | world
  | types
  | stubs
  | assembler
  | manifest
  | orchestrator
  deriving DecidableEq, Repr

def Topic.name : Topic → String
  | .parser => "callergen.parser"
  | .world => "callergen.world"
  | .types => "callergen.types"
  | .stubs => "callergen.stubs"
  | .assembler => "callergen.assembler"
  | .manifest => "callergen.manifest"
  | .orchestrator => "callergen.orchestrator"

/-- One report. -/
structure Entry where
  level : Level
  topic : Topic
  message : String
  deriving DecidableEq, Repr

/-- The report with its level and the place it comes from. -/
def Entry.line (e : Entry) : String := s!"{e.level.name} {e.topic.name}: {e.message}"

/-- Computations that report, and may fail. -/
abbrev Logged (ε : Type) := ExceptT ε (StateM (List Entry))

namespace Logged

variable {ε ε' α : Type}

/-- Report one entry. -/
def note (e : Entry) : Logged ε Unit := modify (· ++ [e])

/-- The result of a computation and all that it reports. -/
def collect (m : Logged ε α) : Except ε α × List Entry := Id.run (StateT.run (ExceptT.run m) [])

/-- The same computation with another kind of failure. -/
def mapError (f : ε → ε') (m : Logged ε α) : Logged ε' α := ExceptT.adapt f m

end Logged

end WitCaller
