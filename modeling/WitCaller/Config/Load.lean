import WitCaller.Config.Settings
import WitCaller.Session

/-!
Reading the settings of a project from the file for them.
-/

namespace WitCaller.Config
open Run

/-- The name of the file for settings. -/
def fileName : String := ".callergen.yml"

/-- The file for the settings at a path: in it, beside it, or the path itself. -/
def fileFor (p : Path) : Run Failure Path := do
  let cwd := (← get).cwd
  if ← isDirectory p then return (p / fileName).resolve cwd
  else if p.name = fileName then return p.resolve cwd
  else return (p.parent / fileName).resolve cwd

/-- The settings in the text of a file. -/
def ofText (root : Path) (text : List Char) : Except Failure Config :=
  if text.all Text.isBlank then (ofEntries root []).mapError .config
  else match Yaml.decode text with
    | .ok v => (ofValue root v).mapError .config
    | .error .malformed => .error (.config (.malformed fileName))
    | .error (.value message) => .error (.value message)

/-- The settings of the project at a path. Without a file for them, all have their default. -/
def load (p : Path) : Run Failure Config := do
  let file ← fileFor p
  let root := file.parent
  if ← exists? file then
    let text ← readText file
    ofExcept id (ofText root text)
  else return { root }

end WitCaller.Config
