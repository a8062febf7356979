import WitCaller.Config.Load
import WitCaller.Crate
import WitCaller.Manifest.Update
import WitCaller.Template.Load

/-!
A run of the generator: from the interface files of a directory to a crate of stubs that the
workspace knows and that projects depend on. A dry run ends before anything is written.
-/

namespace WitCaller

/-- What a run is asked to do. Texts are taken as paths. -/
structure Request where
  base : String := "."
  apiDir : Option String := none
  projects : List String := []
  dryRun : Bool := false
  deriving DecidableEq, Repr

/-- What a run has done. -/
structure Generation where
  crateDir : Path
  libraryFile : Path
  world : World
  modules : List String
  source : String
  staged : List Path := []
  workspaceUpdated : Bool := false
  projectsUpdated : List Path := []
  dryRun : Bool := false
  deriving DecidableEq, Repr

namespace Generation
open Run

def note (level : Level) (message : String) : Run Failure Unit :=
  report ⟨level, .orchestrator, message⟩

/-- The directory of the interface files: as asked for, as the settings say, or `api`. -/
def apiDirectory (cwd : Place) (base : Path) (given : Option String) (config : Config) : Path :=
  match given, config.apiDir with
  | some s, _ => (base / s).resolve cwd
  | none, some p => p.resolve cwd
  | none, none => base / "api"

/-- The interface that a file declares. -/
def readInterface (path : Path) : Run Failure Interface := do
  report ⟨.info, .parser, s!"Parsing WIT file: {path}"⟩
  let i := Interface.parse path (String.ofList (← readText path))
  reportAll i.entries
  report ⟨.info, .parser,
    s!"Extracted {i.signatures.length} signature structs and " ++
      s!"{i.types.length} type definitions from {path}"⟩
  return i

/-- The interface that a file declares, unless it cannot be read or declares a world. -/
def interfaceAt? (path : Path) : Run Failure (Option Interface) := do
  match ← attempt (readText path) with
  | .error (e : Failure) =>
    note .error s!"Error reading WIT file {path}: {e.message}"
    return none
  | .ok text =>
    if World.isSource (String.ofList text) then return none
    note .info s!"Processing interface: {path.stem}"
    match ← attempt (readInterface path) with
    | .error (e : Failure) =>
      note .error s!"Error parsing WIT file {path}: {e.message}"
      return none
    | .ok i => return some i

/-- The interfaces that files declare. -/
def interfacesOf (paths : List Path) : Run Failure (List Interface) := do
  let interfaces := (← paths.mapM interfaceAt?).filterMap id
  note .info s!"Found {interfaces.length} WIT interface files"
  return interfaces

/-- Add interfaces to a library. One that cannot be added is left out; the names of the modules that
were made come with the library. -/
def addAll (settings : StubSettings) (lib : Library) :
    List Interface → Run Failure (List String × Library)
  | [] => return ([], lib)
  | i :: rest => do
    let addition := lib.add settings i
    reportAll addition.entries
    let made ←
      match addition.outcome with
      | .ok true => pure [Identifier.snake i.name]
      | .ok false => pure []
      | .error (.template e) => throw (.undecodable e)
      | .error (.type e) =>
        note .error s!"Error generating stubs for {i.path}: {e.message}"
        pure []
    let (names, lib) ← addAll settings addition.library rest
    return (made ++ names, lib)

/-- Make projects depend on the crate; the answer names those whose manifest was changed. -/
def updateProjects (crateDir : Path) (crate : String) : List Path → Run Failure (List Path)
  | [] => return []
  | project :: rest => do
    let target := toString (Path.relativeTo (← get).cwd crateDir project)
    let changed ← Manifest.addPathDependency project crate target
    let others ← updateProjects crateDir crate rest
    return if changed then project :: others else others

/-- The projects of a run: as asked for, or as the settings say. -/
def projectsOf (cwd : Place) (given : List String) (config : Config) : List Path :=
  if given = [] then config.projects
  else given.map fun s => (Path.ofString s).resolve cwd

/-- What a run makes before it writes. -/
structure Draft where
  base : Path
  api : Path
  projects : List Path
  crate : Crate
  templatesDir : Option Path
  world : World
  modules : List String
  source : String

/-- The settings of a run: as given, or as the base directory says. -/
def settings (config : Option Config) (base : Path) : Run Failure Config :=
  match config with
  | some c => return c
  | none => Config.load base

/-- Everything up to the source of the library, in a base directory with these settings. -/
def draftIn (base : Path) (r : Request) (config : Config) : Run Failure Draft := do
  let cwd := (← get).cwd
  let api := apiDirectory cwd base r.apiDir config
  note .info s!"Starting generation for {base} (api dir {api})"
  let world ← World.resolve api
  note .info s!"Using world name for code generation: {world.name}"
  let templates ← Templates.load config.templatesDir
  let interfaces ← interfacesOf (← World.filesIn api)
  let stubs : StubSettings := { timeout := config.timeout, strict := config.strict, templates }
  let (modules, lib) ← addAll stubs {} interfaces
  let template ← ofExcept .undecodable templates.library
  return {
    base, api, world, modules
    projects := projectsOf cwd r.projects config
    crate := ⟨config.crateName, config.witDir, .ok none⟩
    templatesDir := config.templatesDir
    source := lib.render template config.witDir world.name world.imports }

/-- Everything up to the source of the library. -/
def draft (config : Option Config) (r : Request) : Run Failure Draft := do
  let base := (Path.ofString r.base).resolve (← get).cwd
  if ← isDirectory base then draftIn base r (← settings config base)
  else throw (.noBase r.base)

/-- What a draft amounts to without writing it. -/
def ofDraft (d : Draft) : Generation where
  crateDir := d.crate.directory d.base
  libraryFile := d.crate.libraryFile d.base
  world := d.world
  modules := d.modules
  source := d.source

/-- Write the crate of a draft, and register it. -/
def finish (d : Draft) : Run Failure Generation := do
  d.crate.prepare d.base
  -- The way to the template may lead through the directories that are made for the crate.
  let manifestTemplate ← Templates.loadManifest d.templatesDir
  let staged ← { d.crate with manifestTemplate }.fill d.base d.api d.source
  let workspaceUpdated ← Manifest.registerMember d.base d.crate.name
  let projectsUpdated ← updateProjects (d.crate.directory d.base) d.crate.name d.projects
  return { ofDraft d with staged, workspaceUpdated, projectsUpdated }

/-- A run of the generator. -/
def run (config : Option Config) (r : Request) : Run Failure Generation := do
  let d ← draft config r
  if r.dryRun then
    note .info s!"Dry run: skipping writes for {d.crate.directory d.base}"
    return { ofDraft d with dryRun := true }
  else finish d

end Generation

end WitCaller
