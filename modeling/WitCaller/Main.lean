import Std.Time
import WitCaller.CommandLine.Execute

/-!
The program. The places that a command may look at are read from the disk into a tree, the command is
followed on the tree, and what it changed there is written to the disk.
-/

namespace WitCaller.Disk

/-- A directory to read, and how many levels below it. -/
structure Region where
  path : Path
  depth : Nat

/-- Directories are not read deeper than this. -/
def bottom : Nat := 1000

/-- What a run of the generator with these settings looks at, beside its base directory. -/
def generatorRegions (cwd : Place) (base : Path) (config : Config) (r : Request) : List Region :=
  let crate : Crate := ⟨config.crateName, config.witDir, .ok none⟩
  let templates := config.templatesDir.toList
  let projects := Generation.projectsOf cwd r.projects config
  let api := Generation.apiDirectory cwd base r.apiDir config
  let flat := [api, crate.directory base, crate.sourceDirectory base] ++ templates ++ projects
  ⟨crate.staging base, bottom⟩ :: flat.map (⟨·, 1⟩)

/-- Computations that read the disk into a tree. -/
abbrev Loading := StateT FileTree IO

/-- Where a place is on the disk. -/
def pathText (place : Place) : String := "/" ++ Text.join "/" place

/-- Read what stands at a place, down to a depth. -/
def readPlace (depth : Nat) (place : Place) : Loading Unit := do
  let path := (← IO.currentDir) / pathText place
  if ← path.isDir then
    modify (·.put place .directory)
    match depth with
    | 0 => return ()
    | depth + 1 => (← path.readDir).forM fun e => readPlace depth (place ++ [e.fileName])
  else if ← path.pathExists then
    let bytes ← IO.FS.readBinFile path
    modify (·.put place (.file bytes.toList))

/-- Read a region, and what a walk to it passes. -/
def readRegion (cwd : Place) (r : Region) : Loading Unit := do
  let parts := r.path.fullParts cwd
  (List.range parts.length).forM fun n => readPlace 0 (Path.normalize (parts.take n))
  readPlace r.depth (Path.normalize parts)

/-- Read what a command may look at. -/
def readFor (cwd : Place) : CommandLine.Command → Loading Unit
  | .world apiDir => readRegion cwd ⟨Path.ofString apiDir, 1⟩
  | .generate r => do
    let base := (Path.ofString r.base).resolve cwd
    readRegion cwd ⟨base, 1⟩
    let (outcome, _) := Config.load base { cwd, tree := ← get }
    match outcome with
    | .ok config => (generatorRegions cwd base config r).forM (readRegion cwd)
    | .error _ => return ()

/-- Read what the words of a command line may lead to. -/
def readForWords (cwd : Place) (words : List String) : Loading Unit := do
  match CommandLine.parse words with
  | .error _ => return ()
  | .ok o =>
    (o.logFile.toList.map Path.ofString).forM fun file => do
      readRegion cwd ⟨file, 0⟩
      readRegion cwd ⟨file.resolve cwd, 0⟩
    readFor cwd o.command

/-- Remove what stands at a place. -/
def remove (place : Place) : Content → IO Unit
  | .directory => IO.FS.removeDir (pathText place)
  | .file _ => IO.FS.removeFile (pathText place)

/-- Make a directory or a file. -/
def make (place : Place) : Content → IO Unit
  | .directory => IO.FS.createDirAll (pathText place)
  | .file bytes => IO.FS.writeBinFile (pathText place) ⟨bytes.toArray⟩

/-- The entries of a tree with a property, from the root down. -/
def downward (q : Place → Content → Bool) (t : FileTree) : List (Place × Content) :=
  (t.entries.filter fun e => q e.1 e.2).mergeSort fun a b => decide (a.1.length ≤ b.1.length)

/-- Whether both are files or both directories. -/
def isAlike : Content → Content → Bool
  | .directory, .directory => true
  | .file _, .file _ => true
  | _, _ => false

/-- Turn the disk from one tree into another: what is gone goes before what is new comes. -/
def write (old new : FileTree) : IO Unit := do
  let gone := downward (fun place content => !(new.get? place).any (isAlike content)) old
  let fresh := downward (fun place content => old.get? place != some content) new
  gone.reverse.forM fun (place, content) => remove place content
  fresh.forM fun (place, content) => make place content

/-- The time of day for reports. -/
def stamp : IO String := do
  return (← Std.Time.PlainDateTime.now).format "uuuu-MM-dd HH:mm:ss,SSS"

/-- Follow the words of a command line. -/
def run (words : List String) : IO UInt32 := do
  let cwd := Path.partsOf (← IO.currentDir).toString.toList
  let (_, tree) ← (readForWords cwd words).run ⟨[]⟩
  let (outcome, s) := CommandLine.run (← stamp) words { cwd, tree }
  write tree s.tree
  match outcome with
  | .ok answer =>
    IO.print answer.output
    IO.eprint answer.messages
    return answer.exitCode.toUInt32
  | .error f =>
    IO.eprintln f.message
    return 1

end WitCaller.Disk

/-- The program. -/
def main (words : List String) : IO UInt32 := WitCaller.Disk.run words
