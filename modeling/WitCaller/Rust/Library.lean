import WitCaller.Assoc
import WitCaller.Interface.Basic
import WitCaller.Rust.Stub
import WitCaller.Text.Lines

/-!
The library that is generated: one module of stubs for each interface with signatures, under a head
that binds the world and brings in the types of what it imports.
-/

namespace WitCaller

/-- What has been gathered for the library. -/
structure Library where
  /-- The names of the types of each interface seen. -/
  interfaceTypes : List (String × List String) := []
  /-- The name and the body of each module. -/
  modules : List (String × String) := []
  /-- The modules that the last list of imports brought in. -/
  imported : List String := []
  usesHashMap : Bool := false
  deriving DecidableEq, Repr

namespace Library
open Text

/-- Remember the types of an interface. -/
def declare (i : Interface) (lib : Library) : Library :=
  { lib with interfaceTypes := Assoc.insert i.name i.typeNames lib.interfaceTypes }

/-- The body of a module: its stubs with an empty line between neighbours. -/
def moduleBody (stubs : List Stub) : String := join "\n\n" (stubs.map Stub.code)

/-- Add the module that holds these stubs of an interface. -/
def addModule (i : Interface) (stubs : List Stub) (lib : Library) : Library :=
  { lib with
    modules := Assoc.insert (Identifier.snake i.name) (moduleBody stubs) lib.modules
    usesHashMap := lib.usesHashMap || stubs.any fun s => s.plan.usesHashMap }

/-- The report that a module was added. -/
def added (i : Interface) (stubs : List Stub) : Entry :=
  ⟨.info, .assembler,
    s!"Generated module {Identifier.snake i.name} with {stubs.length} function stubs"⟩

/-- What came of adding an interface: whether it made a module, or why it could not. -/
structure Addition where
  library : Library
  outcome : Except StubError Bool
  entries : List Entry

/-- Add an interface. Its types are remembered even if it makes no module. -/
def add (st : StubSettings) (i : Interface) (lib : Library) : Addition :=
  let lib := lib.declare i
  if i.signatures = [] then
    ⟨lib, .ok false, [⟨.info, .assembler, s!"No signatures found in {i.path}"⟩]⟩
  else
    match (Signature.stubs st i.signatures).collect with
    | (.ok stubs, es) => ⟨lib.addModule i stubs, .ok true, es ++ [added i stubs]⟩
    | (.error e, es) => ⟨lib, .error e, es⟩

/-- The list without all but the first occurrence of each item. -/
def distinct : List String → List String
  | [] => []
  | x :: xs => x :: (distinct xs).filter (· ≠ x)

/-- The modules that a list of imports brings in, each once. -/
def importedModules (imports : List String) : List String :=
  distinct ((imports.map Identifier.moduleName).filter (· ≠ ""))

/-- Remember the modules that a list of imports brings in. -/
def withImports (imports : List String) (lib : Library) : Library :=
  { lib with imported := importedModules imports }

/-- A line with four blanks before it, unless it is empty. -/
def indentLine (line : List Char) : List Char :=
  if line = [] then [] else "    ".toList ++ line

/-- A text moved right by four blanks. Its lines end in line feeds afterwards, and the first is
moved even if it is empty. -/
def indented (body : String) : String :=
  match lines (body.toList ++ ['\n']) with
  | [] => ""
  | l :: ls =>
    join "\n" ((("    ".toList ++ l) :: ls.map indentLine).map String.ofList)

/-- The lines of the library before what it imports. -/
def head (witPath world : String) : String :=
  "wit_bindgen::generate!(\x7b\n" ++
  "    path: \"" ++ witPath ++ "\",\n" ++
  "    world: \"" ++ world ++ "\",\n" ++
  "    generate_unused_types: true,\n" ++
  "    additional_derives: [serde::Deserialize, serde::Serialize, " ++
    "process_macros::SerdeJsonInto],\n" ++
  "\x7d);\n\n" ++
  "/// Generated caller utilities for RPC function stubs\n\n" ++
  "pub use hyperware_app_common::SendResult;\n" ++
  "pub use hyperware_app_common::send;\n" ++
  "use hyperware_process_lib::Address;\n" ++
  "use serde_json::json;\n"

/-- The line that brings in the types of a module. -/
def importLine (module : String) : String :=
  "pub use crate::hyperware::process::" ++ module ++ "::*;\n"

/-- The lines that bring in the types of modules. -/
def importLines (modules : List String) : String :=
  if modules = [] then ""
  else
    "// Import types from each interface\n" ++ String.join (modules.map importLine) ++ "\n"

/-- A module of the library. -/
def moduleText (name body : String) : String :=
  "/// Generated RPC stubs for the " ++ name ++ " interface\n" ++
  "pub mod " ++ name ++ " \x7b\n" ++
  "    use crate::*;\n\n" ++
  indented body ++ "\n" ++
  "\x7d\n\n"

/-- The library before the blanks at its end are dropped. -/
def fullText (witPath world : String) (imported : List String) (lib : Library) : String :=
  head witPath world ++
  (if lib.usesHashMap then "use std::collections::HashMap;\n" else "") ++ "\n" ++
  importLines imported ++
  String.join (lib.modules.map fun (name, body) => moduleText name body)

/-- A text that ends in exactly one line feed and no other blank. -/
def closed (text : String) : String :=
  String.ofList (trimRight text.toList) ++ "\n"

/-- A module as a hole of a template shows it. -/
def shownModule (m : String × String) : String :=
  s!"ModuleBlock(name={quoted m.1}, body={quoted m.2})"

/-- The values of the holes in a template for the library. -/
def holes (witPath world : String) (imported : List String) (lib : Library) :
    List (String × String) := [
  ("wit_path", witPath), ("world_name", world),
  ("uses_hashmap", if lib.usesHashMap then "True" else "False"),
  ("interface_uses", StubPlan.listed imported),
  ("modules", "[" ++ join ", " (lib.modules.map shownModule) ++ "]")]

/-- The text of the library for a world and what it imports. -/
def render (template : Option Template) (witPath world : String) (imports : List String)
    (lib : Library) : String :=
  let imported := importedModules imports
  closed (match template with
    | none => lib.fullText witPath world imported
    | some t => t.fill (lib.holes witPath world imported))

/-- The built-in text of the manifest of the crate that holds the library. -/
def manifestText (crate : String) : String :=
  "[package]\n" ++
  "name = \"" ++ crate ++ "\"\n" ++
  "version = \"0.1.0\"\n" ++
  "edition = \"2021\"\n" ++
  "publish = false\n\n" ++
  "[dependencies]\n" ++
  "anyhow = \"1.0\"\n" ++
  "hyperware_process_lib = \x7b version = \"1.0.4\", features = [\"logging\"] \x7d\n" ++
  "process_macros = \"0.1.0\"\n" ++
  "futures-util = \"0.3\"\n" ++
  "serde = \x7b version = \"1.0\", features = [\"derive\"] \x7d\n" ++
  "serde_json = \"1.0\"\n" ++
  "hyperware_app_common = \x7b git = " ++
    "\"https://github.com/hyperware-ai/hyperprocess-macro\" \x7d\n" ++
  "once_cell = \"1.20.2\"\n" ++
  "futures = \"0.3\"\n" ++
  "uuid = \x7b version = \"1.0\" \x7d\n" ++
  "wit-bindgen = \"0.41.0\"\n\n" ++
  "[lib]\n" ++
  "crate-type = [\"cdylib\", \"lib\"]\n"

/-- The manifest of the crate that holds the library. -/
def manifest (template : Option Template) (crate : String) : String :=
  closed (match template with
    | none => manifestText crate
    | some t => t.fill [("crate_name", crate)])

end Library

end WitCaller
