import WitCaller.FileTree.Access
import WitCaller.Text.Utf8

/-!
The ways in which a run can fail, each with its cause and its message.
-/

namespace WitCaller

/-- Why a manifest cannot be read or changed. -/
inductive ManifestError where
  | unreadable (path : Path) (cause : OsError)
  | malformed (path : Path)
  | refused (path : Path)
  | noWorkspaceTable (path : Path)
  | noMembersArray (path : Path)
  | unterminatedString (path : Path)
  | unclosedArray (path : Path)
  deriving DecidableEq, Repr

def ManifestError.message : ManifestError → String
  | .unreadable path cause => s!"Failed to read project manifest {path}: {cause.message}"
  | .malformed path => s!"Failed to parse {path}: not a TOML document"
  | .refused path =>
    s!"Refusing to write an unparseable manifest to {path}: not a TOML document"
  | .noWorkspaceTable path => s!"Could not locate the [workspace] table in {path}"
  | .noMembersArray path => s!"Could not locate the members array in {path}"
  | .unterminatedString path => s!"Unterminated string in members array in {path}"
  | .unclosedArray path => s!"Unclosed members array in {path}"

/-- Why the settings cannot be read. -/
inductive ConfigError where
  | malformed (name : String)
  | noMapping
  | timeout
  deriving DecidableEq, Repr

def ConfigError.message : ConfigError → String
  | .malformed name => s!"Failed to parse {name}: not a YAML document"
  | .noMapping => ".callergen.yml must contain a mapping at the root"
  | .timeout => "rpc.timeout must be a positive integer"

/-- Why a run fails. -/
inductive Failure where
  | os (cause : OsError)
  | undecodable (cause : Utf8Error)
  | noBase (given : String)
  | noApi (path : Path)
  | noWorld (path : Path)
  | manifest (cause : ManifestError)
  | config (cause : ConfigError)
  | value (message : String)
  deriving DecidableEq, Repr

def Failure.message : Failure → String
  | .os cause => cause.message
  | .undecodable cause => cause.message
  | .noBase given => s!"Base directory not found: {given}"
  | .noApi path => s!"API directory not found: {path}"
  | .noWorld path =>
    s!"No world name found in any WIT file under {path}. " ++
      "Cannot generate caller-utils without a world name."
  | .manifest cause => cause.message
  | .config cause => cause.message
  | .value message => message

end WitCaller
