import WitCaller.CommandLine.Options

/-!
Following a command line: what is printed, what goes to the console as messages, and the exit code.
-/

namespace WitCaller.CommandLine
open Run

/-- What a command line leads to, besides changes of files. -/
structure Answer where
  exitCode : Nat
  output : String
  messages : String
  deriving DecidableEq, Repr

/-- How to write a command line. -/
def usage : String :=
  "usage: callergen [-h] [-v] [--log-file FILE] generate [-h] [-v] [--api-dir DIR] " ++
    "[--project DIR] [--dry-run] [PATH]\n" ++
  "       callergen [-h] [-v] [--log-file FILE] world [-h] [-v] [DIR]\n"

/-- The reports that the console shows. -/
def console (verbose : Bool) (es : List Entry) : String :=
  let least := if verbose then Level.debug else Level.info
  String.join ((es.filter fun e => least.rank ≤ e.level.rank).map fun e =>
    s!"[callergen] {e.level.name} {e.message}\n")

/-- The last message of a generator run that fails; some failures have none and are passed on. -/
def generateFailure? (f : Failure) : Option String :=
  let failed := s!"callergen generate failed: {f.message}\n"
  match f with
  | .noBase _ => some s!"{f.message}\n"
  | .noApi _ => some s!"{f.message}\n"
  | .os e =>
    match e.kind with
    | .noEntry => some s!"{f.message}\n"
    | .notDirectory => some s!"{f.message}\n"
    | _ => some (failed ++ "Run with --verbose for more details.\n")
  | .noWorld _ => some failed
  | .config _ => some failed
  | .manifest _ => some failed
  | .undecodable _ => none
  | .value _ => none

/-- The last message of a search for a world that fails. -/
def worldFailure? (f : Failure) : Option String :=
  match f with
  | .noApi _ => some s!"{f.message}\n"
  | .noWorld _ => some s!"{f.message}\n"
  | .os e => if e.kind = .noEntry then some s!"{f.message}\n" else none
  | _ => none

/-- A path as it is printed: relative to the working directory if it lies there. -/
def shownPath (cwd : Place) (p : Path) : String :=
  toString ((Path.below? (Path.absolute cwd) p).getD p)

/-- What is printed after a run of the generator. -/
def generateOutput (cwd : Place) (g : Generation) : String :=
  if g.dryRun then g.source
  else
    s!"Generated {g.modules.length} stub module(s) for world {g.world.name}\n" ++
    s!"lib.rs written to {shownPath cwd g.libraryFile}\n" ++
    (if g.workspaceUpdated then "Workspace manifest updated\n" else "") ++
    String.join (g.projectsUpdated.map fun p => s!"Dependency added to {shownPath cwd p}\n")

/-- What is printed for a world. -/
def worldOutput (w : World) : String :=
  s!"world: {w.name}\n" ++ String.join (w.imports.map fun i => s!"  import {i}\n")

/-- What is printed for a command, or how it fails. -/
def output : Command → Run Failure String
  | .generate r => do
    let g ← Generation.run none r
    return generateOutput (← get).cwd g
  | .world apiDir => do
    let cwd := (← get).cwd
    return worldOutput (← World.resolve ((Path.ofString apiDir).resolve cwd))

/-- The last message of a command that fails. -/
def failure? : Command → Failure → Option String
  | .generate _ => generateFailure?
  | .world _ => worldFailure?

/-- Follow options. The reports go to the console, and to a file if one is named; `stamp` stands in
front of each there. -/
def execute (stamp : String) (o : Options) : Run Failure Answer := do
  match o.logFile with
  | none => pure ()
  | some file =>
    makeDirectories (Path.ofString file).parent true
    openSink (Path.ofString file) stamp
  let outcome ← attempt (output o.command)
  let messages := console o.verbose (← get).entries
  match outcome with
  | .ok text => return ⟨0, text, messages⟩
  | .error f =>
    match failure? o.command f with
    | some last => return ⟨1, "", messages ++ last⟩
    | none => throw f

/-- Follow the words of a command line. -/
def run (stamp : String) (words : List String) : Run Failure Answer := do
  match parse words with
  | .ok o => execute stamp o
  | .error .help => return ⟨0, usage, ""⟩
  | .error .wrong => return ⟨2, "", usage⟩

end WitCaller.CommandLine
