import WitCaller.CommandLine.Flag
import WitCaller.Generation

/-!
The commands and their options. Flags may stand before the command and after it, and each command
takes one operand, which may be missing. After a double hyphen all words are operands.
-/

namespace WitCaller.CommandLine

/-- What is to be done. -/
inductive Command where
  | generate (r : Request)
  | world (apiDir : String)
  deriving DecidableEq, Repr

/-- A command with what is said about its reports. -/
structure Options where
  verbose : Bool
  logFile : Option String
  command : Command
  deriving DecidableEq, Repr

def commonFlags : List Flag := [
  ⟨.help, ["-h", "--help"], false⟩, ⟨.verbose, ["-v", "--verbose"], false⟩]

/-- The flags before the command. -/
def mainFlags : List Flag := commonFlags ++ [⟨.logFile, ["--log-file"], true⟩]

/-- The flags of the command `generate`. -/
def generateFlags : List Flag := commonFlags ++ [
  ⟨.apiDir, ["--api-dir"], true⟩, ⟨.project, ["--project"], true⟩,
  ⟨.dryRun, ["--dry-run"], false⟩]

/-- What the words so far have said. -/
structure Given where
  verbose : Bool := false
  logFile : Option String := none
  apiDir : Option String := none
  projects : List String := []
  dryRun : Bool := false
  operand : Option String := none
  /-- Whether a word had no meaning. -/
  leftover : Bool := false
  deriving DecidableEq, Repr

/-- Notes a flag with its value. -/
def Given.note (f : Flag) (value : String) (g : Given) : Except Misuse Given :=
  match f.switch with
  | .help => .error .help
  | .verbose => .ok { g with verbose := true }
  | .logFile => .ok { g with logFile := some value }
  | .apiDir => .ok { g with apiDir := some value }
  | .project => .ok { g with projects := g.projects ++ [value] }
  | .dryRun => .ok { g with dryRun := true }

/-- The word that is the value of a flag: the next one, which has to be an operand. -/
def nextValue (flags : List Flag) : List String → Except Misuse String
  | [] => .error .wrong
  | word :: _ => do
    if word = "--" then throw .wrong
    match ← wordOf flags word with
    | .operand => return word
    | _ => throw .wrong

/-- Reads a flag; the answer says whether the next word was its value. -/
def readFlag (flags : List Flag) (g : Given) (f : Flag) (short : Bool)
    (attached : Attached) (rest : List String) : Except Misuse (Given × Bool) := do
  let e ← expand flags f short attached
  let takesNext := e.last.takesValue && e.value.isNone
  let value ← if takesNext then nextValue flags rest else pure (e.value.getD "")
  let g ← e.before.foldlM (fun g f => g.note f "") g
  let g ← g.note e.last value
  return ({ g with leftover := g.leftover || e.leftover }, takesNext)

/-- Refuses words before a double hyphen that may mean several flags. -/
def checkWords (flags : List Flag) : List String → Except Misuse Unit
  | [] => return ()
  | word :: rest => do
    if word = "--" then return ()
    discard <| wordOf flags word
    checkWords flags rest

/-- Notes operands: one has a place, unless it is taken. -/
def Given.operands (words : List String) (g : Given) : Given :=
  match g.operand, words with
  | _, [] => g
  | none, [word] => { g with operand := some word }
  | none, word :: _ => { g with operand := some word, leftover := true }
  | some _, _ => { g with leftover := true }

theorem length_drop_lt_cons (word : String) (rest : List String) :
    (rest.drop 1).length < (word :: rest).length := by
  simp only [List.length_drop, List.length_cons]
  omega

/-- The words after a command. -/
def readWords (flags : List Flag) (g : Given) (words : List String) : Except Misuse Given :=
  match words with
  | [] => .ok g
  | word :: rest =>
    if word = "--" then
      if g.operand.isSome then .ok { g with leftover := true } else .ok (g.operands rest)
    else do
      match ← wordOf flags word with
      | .operand =>
        let g' := g.operands [word]
        if g.operand.isNone && rest.head? = some "--" then return g'.operands (rest.drop 1)
        else readWords flags g' rest
      | .unknown => readWords flags { g with leftover := true } rest
      | .flag f short attached =>
        let (g, tookNext) ← readFlag flags g f short attached rest
        if tookNext then readWords flags g (rest.drop 1) else readWords flags g rest
termination_by words.length
decreasing_by
  · exact Nat.lt_succ_self _
  · exact Nat.lt_succ_self _
  · exact length_drop_lt_cons word rest
  · exact Nat.lt_succ_self _

/-- A command with the words after it. -/
def readCommand (g : Given) (name : String) (words : List String) : Except Misuse Options := do
  let flags ←
    if name = "generate" then pure generateFlags
    else if name = "world" then pure commonFlags
    else throw .wrong
  checkWords flags words
  let g ← readWords flags g words
  if g.leftover then throw .wrong
  let command : Command :=
    if name = "generate" then
      .generate { base := g.operand.getD ".", apiDir := g.apiDir, projects := g.projects,
                  dryRun := g.dryRun }
    else .world (g.operand.getD "api")
  return ⟨g.verbose, g.logFile, command⟩

/-- The words from the first flag on, up to the command. -/
def readMain (g : Given) (words : List String) : Except Misuse Options :=
  match words with
  | [] => .error .wrong
  | word :: rest =>
    if word = "--" then .error .wrong
    else do
      match ← wordOf mainFlags word with
      | .operand => readCommand g word rest
      | .unknown => readMain { g with leftover := true } rest
      | .flag f short attached =>
        let (g, tookNext) ← readFlag mainFlags g f short attached rest
        if tookNext then readMain g (rest.drop 1) else readMain g rest
termination_by words.length
decreasing_by
  · exact Nat.lt_succ_self _
  · exact length_drop_lt_cons word rest
  · exact Nat.lt_succ_self _

/-- The options that the words of a command line spell. -/
def parse (words : List String) : Except Misuse Options := do
  checkWords mainFlags words
  readMain {} words

end WitCaller.CommandLine
