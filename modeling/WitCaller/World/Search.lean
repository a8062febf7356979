import WitCaller.Session
import WitCaller.World

/-!
The world of a directory: among its interface files, those that declare a world name it and list
what it imports. A world made for its types comes before any other, and takes the place of the world
it is named after if it has a file of its own.
-/

namespace WitCaller.World
open Run

/-- The suffix of interface files. -/
def fileSuffix : String := ".wit"

/-- The interface files directly in a directory, in the order of their names. -/
def filesIn (api : Path) : Run Failure (List Path) := do
  let paths := (← list api).map fun (name : String) => (⟨api.anchor, api.parts ++ [name]⟩ : Path)
  paths.filterM fun p => return p.suffix == fileSuffix && (← isFile p)

def note (level : Level) (message : String) : Run Failure Unit := report ⟨level, .world, message⟩

/-- The text of a file if it can be read and declares a world. -/
def sourceAt? (path : Path) : Run Failure (Option String) := do
  match ← attempt (readText path) with
  | .error (e : Failure) =>
    note .warning s!"Unable to read {path}: {e.message}"
    return none
  | .ok cs =>
    let text := String.ofList cs
    if isSource text then
      note .debug s!"Analyzing world definition file: {path}"
      return some text
    else return none

/-- The names of worlds in files, in order. -/
def namesIn : List Path → Run Failure (List String)
  | [] => return []
  | path :: rest => do
    match (← sourceAt? path).bind name? with
    | some name =>
      note .debug s!"Extracted world name {name} from {path.name}"
      return name :: (← namesIn rest)
    | none => namesIn rest

/-- The name of the world in a directory. -/
def nameIn (api : Path) : Run Failure String := do
  let names ← namesIn (← filesIn api)
  match names.find? isTypesName, names.find? (!isTypesName ·) with
  | some name, _ => return name
  | none, none => throw (.noWorld api)
  | none, some name =>
    let candidate := typesMark ++ name
    if ← exists? (api / (candidate ++ fileSuffix)) then
      note .info s!"Found types world from file: {candidate}"
      return candidate
    else
      note .warning s!"No types- world found, using regular world: {name}"
      return name

/-- The imports of worlds in files, in order. -/
def importsOfFiles : List Path → Run Failure (List String)
  | [] => return []
  | path :: rest => do
    let imports := ((← sourceAt? path).map importsOf).getD []
    reportAll (imports.map fun i => ⟨.debug, .world, s!"  Found interface import: {i}"⟩)
    return imports ++ (← importsOfFiles rest)

/-- The imports of all worlds in a directory. -/
def importsIn (api : Path) : Run Failure (List String) := do importsOfFiles (← filesIn api)

/-- The world of a directory with all imports there. -/
def resolve (api : Path) : Run Failure World := do
  if ← isDirectory api then return ⟨← nameIn api, ← importsIn api⟩
  else throw (.noApi api)

end WitCaller.World
