import WitCaller.Decimal.Notation
import WitCaller.Failure
import WitCaller.Yaml.Value

/-!
The settings of a project, and what a mapping says about them. A value of the wrong kind counts as
missing, except for the timeout.
-/

namespace WitCaller

/-- The settings of a project. -/
structure Config where
  root : Path
  apiDir : Option Path := none
  projects : List Path := []
  crateName : String := "caller-utils"
  witDir : String := "target/wit"
  templatesDir : Option Path := none
  timeout : Int := 30
  strict : Bool := false
  deriving DecidableEq, Repr

namespace Config
open Yaml

/-- The entries of a mapping. -/
abbrev Entries := List (Value × Value)

/-- Whether a value is this text. -/
def isText (t : String) : Value → Bool
  | .text s => s == t
  | _ => false

/-- The value of a key; of several the last one counts. -/
def get? (key : String) (entries : Entries) : Option Value :=
  (entries.reverse.find? fun e => isText key e.1).map (·.2)

/-- The entries of the mapping at a key; none if there is no mapping. -/
def section? (key : String) (entries : Entries) : Entries :=
  match get? key entries with
  | some (.mapping inner) => inner
  | _ => []

/-- Numbers are written with a point from 0.0001 to below 10 ^ 16. -/
def numbers : Decimal.Notation where
  plainFrom := -4
  plainBelow := 16
  exponentWidth := 2
  infinity := "inf"
  notANumber := "nan"

/-- The text of a text or a number. -/
def textOf? : Value → Option String
  | .text s => some s
  | .integer n => some (toString n)
  | .real r => some (String.ofList (r.textIn numbers))
  | _ => none

/-- The text at a key, unless it is empty. -/
def text? (key : String) (entries : Entries) : Option String :=
  ((get? key entries).bind textOf?).filter (!·.isEmpty)

/-- The text of an item in a list, where truth values have one too. -/
def itemText? : Value → Option String
  | .boolean b => some (if b then "True" else "False")
  | v => textOf? v

/-- The texts in a list; a single text stands for a list of one, and bytes are a list of numbers. -/
def textsOf : Value → List String
  | .text s => [s]
  | .sequence items => items.filterMap itemText?
  | .bytes b => b.map fun x => toString x.toNat
  | _ => []

/-- A whole number, or the text of one. -/
def integerOf? : Value → Option Int
  | .integer n => some n
  | .text s => Text.int? s.toList
  | _ => none

/-- A truth value, or a word for one. -/
def booleanOf? : Value → Option Bool
  | .boolean b => some b
  | .text s =>
    let word := String.ofList ((Text.trim s.toList).map Char.toLower)
    if ["true", "yes", "1"].contains word then some true
    else if ["false", "no", "0"].contains word then some false
    else none
  | _ => none

/-- The timeout of calls, if one is given: a positive whole number. -/
def timeout? (entries : Entries) : Except ConfigError (Option Int) :=
  match get? "timeout" (section? "rpc" entries) with
  | none => .ok none
  | some v =>
    match integerOf? v with
    | some n => if 0 < n then .ok (some n) else .error .timeout
    | none => .error .timeout

/-- The settings that a mapping says for the project in the directory `root`. -/
def ofEntries (root : Path) (entries : Entries) : Except ConfigError Config := do
  let timeout ← timeout? entries
  let crate := section? "crate" entries
  let defaults : Config := { root }
  return {
    root
    apiDir := (text? "api_dir" entries).map fun (s : String) => root / s
    projects := (((get? "projects" entries).map textsOf).getD []).map fun (s : String) => root / s
    crateName := (text? "name" crate).getD defaults.crateName
    witDir := (text? "wit_dir" crate).getD defaults.witDir
    templatesDir := (text? "templates_dir" crate).map fun (s : String) => root / s
    timeout := timeout.getD defaults.timeout
    strict := ((get? "strict" (section? "types" entries)).bind booleanOf?).getD false }

/-- The settings that the value of a document says. A value that counts as nothing says nothing. -/
def ofValue (root : Path) (v : Value) : Except ConfigError Config :=
  if v.isNothing then ofEntries root []
  else match v with
    | .mapping entries => ofEntries root entries
    | _ => .error .noMapping

end Config

end WitCaller
