import WitCaller.Session
import WitCaller.Template

/-!
The templates that a directory holds in place of the built-in ones.
-/

namespace WitCaller.Templates
open Run

/-- The template in a file, if there is one. -/
def loadFile (p : Path) : Run Failure (Except Utf8Error (Option Template)) := do
  if ← isFile p then
    match ← attempt (readText p) with
    | .ok text => return .ok (some (Template.parse text))
    | .error (Failure.undecodable e) => return .error e
    | .error e => throw e
  else return .ok none

/-- The templates in a directory; without one, all are built in. -/
def load : Option Path → Run Failure Templates
  | none => return {}
  | some dir =>
    return {
      rpcStub := ← loadFile (dir / "rpc_stub.rs.j2")
      httpStub := ← loadFile (dir / "http_stub.rs.j2")
      library := ← loadFile (dir / "lib.rs.j2") }

/-- The template for the manifest of a crate in a directory; without one, it is built in. -/
def loadManifest : Option Path → Run Failure (Except Utf8Error (Option Template))
  | none => return .ok none
  | some dir => loadFile (dir / "Cargo.toml.j2")

end WitCaller.Templates
