import WitCaller.Failure
import WitCaller.Log
import WitCaller.Text.Lines

/-!
Runs: computations that see and change a tree of files, report what they do, and may fail. What a
run did before it failed stays done.
-/

namespace WitCaller

/-- A file that every report is appended to, and what stands in front of each. The reports get lost
once the file is removed. -/
structure Sink where
  place : Place
  stamp : String
  deriving DecidableEq, Repr

/-- The state of a run: where it works, the files, the reports so far, and the file for reports. -/
structure Session where
  cwd : Place
  tree : FileTree
  entries : List Entry := []
  sink : Option Sink := none
  deriving DecidableEq, Repr

/-- A report as a line of the file for reports. -/
def Sink.line (s : Sink) (e : Entry) : Bytes := Utf8.encode (s!"{s.stamp} {e.line}\n").toList

/-- The files after a report was appended. -/
def Sink.append (s : Sink) (e : Entry) (t : FileTree) : FileTree :=
  match t.get? s.place with
  | some (.file bytes) => t.put s.place (.file (bytes ++ s.line e))
  | _ => t

/-- The session after one more report. -/
def Session.report (e : Entry) (s : Session) : Session :=
  { s with
    entries := s.entries ++ [e]
    tree := s.sink.elim s.tree fun k => k.append e s.tree }

/-- Runs. -/
abbrev Run (ε : Type) := ExceptT ε (StateM Session)

namespace Run

variable {ε ε' α : Type}

def report (e : Entry) : Run ε Unit := modify (Session.report e)

def reportAll : List Entry → Run ε Unit
  | [] => return ()
  | e :: es => do
    report e
    reportAll es

/-- The run that fails or succeeds as a value says. -/
def ofExcept (f : ε' → ε) : Except ε' α → Run ε α
  | .ok a => return a
  | .error e => throw (f e)

/-- The outcome of a run as a value. -/
def attempt (m : Run ε α) : Run ε' (Except ε α) := fun s =>
  let (r, s') := m s
  (.ok r, s')

/-- Something that can be seen in the files. -/
def look (f : FileTree → Place → α) : Run ε α := do
  let s ← get
  return f s.tree s.cwd

/-- A change of the files that may fail; then nothing changes. -/
def change (f : FileTree → Place → Except OsError FileTree) : Run Failure Unit := do
  let s ← get
  match f s.tree s.cwd with
  | .ok t => set { s with tree := t }
  | .error e => throw (.os e)

def exists? (p : Path) : Run ε Bool := look fun t cwd => t.exists? cwd p

def isDirectory (p : Path) : Run ε Bool := look fun t cwd => t.isDirectory cwd p

def isFile (p : Path) : Run ε Bool := look fun t cwd => t.isFile cwd p

def readBytes (p : Path) : Run Failure Bytes := do
  ofExcept .os (← look fun t cwd => t.read cwd p)

/-- The text of a file, with its line ends made line feeds. -/
def readText (p : Path) : Run Failure (List Char) := do
  let text ← ofExcept .undecodable (Utf8.decode (← readBytes p))
  return Text.unifyLineEnds text

def writeBytes (p : Path) (bytes : Bytes) : Run Failure Unit :=
  change fun t cwd => t.write cwd p bytes

def writeText (p : Path) (text : String) : Run Failure Unit :=
  writeBytes p (Utf8.encode text.toList)

/-- Make one directory; one that is there already is accepted if `again` says so. -/
def makeDirectory (p : Path) (again : Bool) : Run Failure Unit := do
  match ← look fun t cwd => t.makeDirectory cwd p with
  | .ok t => modify fun s => { s with tree := t }
  | .error e =>
    if e.kind ≠ .noEntry ∧ again ∧ (← isDirectory p) then return ()
    else throw (.os e)

/-- Make a directory and what is missing above it. -/
def makeDirectories (p : Path) (again : Bool) : Run Failure Unit := do
  match ← look fun t cwd => t.makeDirectory cwd p with
  | .ok t => modify fun s => { s with tree := t }
  | .error e =>
    if e.kind = .noEntry then
      if p.parts = [] then throw (.os e)
      else
        makeDirectories p.parent true
        makeDirectory p again
    else if again ∧ (← isDirectory p) then return ()
    else throw (.os e)
termination_by p.parts.length
decreasing_by exact Path.length_parent_lt ‹_›

/-- Drop places from the files; a file for reports among them receives nothing any more. -/
def drop (q : Place → Bool) : Run ε Unit := modify fun s =>
  { s with
    tree := s.tree.discard q
    sink := s.sink.filter fun k => !q k.place }

/-- Remove a directory with all that is in it. What is in it goes first; if the way to the directory
leads through that, the directory itself cannot be reached any more and stays. -/
def removeDirectory (p : Path) : Run Failure Unit := do
  let place ← ofExcept .os (← look fun t cwd => t.locate cwd p)
  match ← look fun t _ => t.get? place with
  | none => throw (.os ⟨.noEntry, p⟩)
  | some (.file _) => throw (.os ⟨.notDirectory, p⟩)
  | some .directory =>
    drop (FileTree.isBelow place)
    let _ ← ofExcept .os (← look fun t cwd => t.locate cwd p)
    drop (· = place)

/-- Append all further reports to a file, which may be new. -/
def openSink (p : Path) (stamp : String) : Run Failure Unit := do
  let file := p.resolve (← get).cwd
  let place ← ofExcept .os (← look fun t cwd => t.locate cwd file)
  match ← look fun t _ => t.get? place with
  | some .directory => throw (.os ⟨.isDirectory, file⟩)
  | some (.file _) => pure ()
  | none => writeBytes file []
  modify fun s => { s with sink := some ⟨place, stamp⟩ }

/-- The names in a directory, in order. -/
def list (p : Path) : Run Failure (List String) := do
  ofExcept .os (← look fun t cwd => t.list cwd p)

end Run

end WitCaller
