import WitCaller.Rust.Library
import WitCaller.World.Search

/-!
The crate that holds the library: its manifest, its source, and copies of the interface files.
-/

namespace WitCaller

/-- A crate by its name, the directory in it for interface files, and the template of its
manifest. -/
structure Crate where
  name : String
  witDir : String
  manifestTemplate : Except Utf8Error (Option Template) := .ok none

namespace Crate
open Run

def note (level : Level) (message : String) : Run Failure Unit :=
  report ⟨level, .assembler, message⟩

/-- The directory of the crate in a base directory. -/
def directory (c : Crate) (base : Path) : Path := base / c.name

def sourceDirectory (c : Crate) (base : Path) : Path := c.directory base / "src"

/-- The file with the source of the library. -/
def libraryFile (c : Crate) (base : Path) : Path := c.sourceDirectory base / "lib.rs"

/-- The directory for copies of interface files. -/
def staging (c : Crate) (base : Path) : Path := c.directory base / c.witDir

/-- Copy files into a directory under the names they have. -/
def copyAll (target : Path) : List Path → Run Failure (List Path)
  | [] => return []
  | source :: rest => do
    let copy : Path := ⟨target.anchor, target.parts ++ [source.name]⟩
    writeBytes copy (← readBytes source)
    note .debug s!"Copied {source.name} to {target}"
    return copy :: (← copyAll target rest)

/-- Make a directory hold copies of the interface files, and nothing else. -/
def stage (api target : Path) : Run Failure (List Path) := do
  if ← exists? target then
    note .debug s!"Removing existing staging directory {target}"
    removeDirectory target
  makeDirectories target false
  copyAll target (← World.filesIn api)

/-- Make the directories of the crate, apart from that for copies. -/
def prepare (c : Crate) (base : Path) : Run Failure Unit := do
  note .info s!"Creating {c.name} crate at {c.directory base}"
  makeDirectories (c.sourceDirectory base) true

/-- Write the files of the crate; the answer names the copies of the interface files. -/
def fill (c : Crate) (base api : Path) (source : String) : Run Failure (List Path) := do
  let template ← ofExcept .undecodable c.manifestTemplate
  writeText (c.directory base / "Cargo.toml") (Library.manifest template c.name)
  note .info s!"Writing lib.rs to {c.libraryFile base}"
  writeText (c.libraryFile base) source
  stage api (c.staging base)

/-- Write the crate in a base directory; the answer names the copies of the interface files. -/
def write (c : Crate) (base api : Path) (source : String) : Run Failure (List Path) := do
  c.prepare base
  c.fill base api source

end Crate

end WitCaller
