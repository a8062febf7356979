import WitCaller.Signature
import WitCaller.Template
import WitCaller.Text.Quoted
import WitCaller.TypeExpr.Rust

/-!
Stubs: for each signature a Rust function that packs its parameters into a request and sends it. A
call through http gets a stub that is commented out as a whole.
-/

namespace WitCaller

/-- A parameter of a stub: a Rust name and the text of a Rust type. -/
structure Param where
  name : String
  type : String
  deriving DecidableEq, Repr

/-- What a stub says, before it is written down. -/
structure StubPlan where
  operation : String
  kind : String
  function : String
  target : Option String
  params : List Param
  result : String
  deriving DecidableEq, Repr

/-- Why a stub cannot be written: a type has no Rust form, or a template is no text. -/
inductive StubError where
  | type (e : TypeSyntaxError)
  | template (e : Utf8Error)
  deriving DecidableEq, Repr

def StubError.message : StubError → String
  | .type e => e.message
  | .template e => e.message

/-- What the stubs of a run have in common. -/
structure StubSettings where
  timeout : Int := 30
  strict : Bool := false
  templates : Templates := {}

/-- The type of the routing parameter for a target field with the given type. -/
def routeType (type : String) : String := if type = "string" then "&str" else "&Address"

namespace Signature
open Logged

/-- The type of the routing parameter, if there is one. -/
def route (s : Signature) : Logged TypeSyntaxError (Option String) :=
  match s.target? with
  | some f => return some (routeType f.type)
  | none =>
    if s.isHttp then return none
    else do
      note ⟨.warning, .stubs,
        s!"Signature {s.operation} has no target field; defaulting to an Address target"⟩
      return some "&Address"

/-- The Rust type of what a call returns. -/
def result (strict : Bool) (s : Signature) : Logged TypeSyntaxError String :=
  match s.returning? with
  | some f => TypeExpr.rustText strict f.type
  | none => return "()"

/-- The parameters that the fields stand for. -/
def rustParams (strict : Bool) : List Field → Logged TypeSyntaxError (List Param)
  | [] => return []
  | f :: fs => do
    let type ← TypeExpr.rustText strict f.type
    return ⟨Identifier.rust f.name, type⟩ :: (← rustParams strict fs)

/-- The name of the function that makes a call. -/
def functionName (s : Signature) : String :=
  s!"{Identifier.snake s.operation}_{Identifier.snake s.kind}_rpc"

/-- The plan of the stub for a signature. -/
def plan (strict : Bool) (s : Signature) : Logged TypeSyntaxError StubPlan := do
  let target ← s.route
  let result ← s.result strict
  let params ← rustParams strict s.params
  return ⟨s.operation, s.kind, s.functionName, target, params, result⟩

end Signature

namespace StubPlan

def isHttp (p : StubPlan) : Bool := p.kind == "http"

/-- The types that occur in a stub, apart from that of the routing parameter. -/
def types (p : StubPlan) : List String := p.params.map Param.type ++ [p.result]

/-- Whether a stub needs the library's hash map. -/
def usesHashMap (p : StubPlan) : Bool :=
  p.types.any fun t => Text.contains "HashMap<".toList t.toList

/-- A name as the rest of a longer identifier: without the mark of a raw name. -/
def unmarked (name : String) : String :=
  if "r#".toList.isPrefixOf name.toList then String.ofList (name.toList.drop 2) else name

/-- A parameter with its type; `lead` stands before the name. -/
def declared (lead : String) (p : Param) : String :=
  (if lead = "" then p.name else lead ++ unmarked p.name) ++ ": " ++ p.type

/-- The parameters of a stub as they are declared, the routing parameter first. -/
def declaredParams (lead : String) (p : StubPlan) : List String :=
  (p.target.map fun t => s!"{lead}target: {t}").toList ++ p.params.map (declared lead)

/-- What stands before the names of parameters: those of a commented stub are unused. -/
def lead (p : StubPlan) : String := if p.isHttp then "_" else ""

/-- The value that the request carries: nothing, the only parameter, or all as a tuple. -/
def payloadValue : List String → String
  | [] => "\x7b\x7d"
  | [name] => name
  | names => "(" ++ Text.join ", " names ++ ")"

/-- The request: a variant named for the operation, with the parameters. -/
def payload (operation : String) (names : List String) : String :=
  "json!(\x7b\"" ++ Identifier.pascal operation ++ "\": " ++ payloadValue names ++ "\x7d)"

/-- A list of texts as a hole of a template shows it. -/
def listed (items : List String) : String :=
  "[" ++ Text.join ", " (items.map Text.quoted) ++ "]"

/-- The values that both kinds of stub have. -/
def holes (p : StubPlan) : List (String × String) := [
  ("operation_name", p.operation), ("call_kind", p.kind), ("function_name", p.function),
  ("return_type", p.result), ("params", listed (p.declaredParams p.lead))]

/-- The stub of a call through http, with the default value of what it returns. -/
def httpCode (p : StubPlan) (value : String) : String :=
  "/// Generated stub for `" ++ p.operation ++ "` " ++ p.kind ++ " RPC call\n" ++
  "/// HTTP endpoint - uncomment to implement\n" ++
  "// pub async fn " ++ p.function ++ "(" ++ Text.join ", " (p.declaredParams "_") ++
    ") -> SendResult<" ++ p.result ++ "> \x7b\n" ++
  "//     // Implement the HTTP endpoint here\n" ++
  "//     SendResult::Success(" ++ value ++ ")\n" ++
  "// \x7d"

/-- The stub of any other call. -/
def rpcCode (timeout : Int) (p : StubPlan) : String :=
  "/// Generated stub for `" ++ p.operation ++ "` " ++ p.kind ++ " RPC call\n" ++
  "pub async fn " ++ p.function ++ "(" ++ Text.join ", " (p.declaredParams "") ++
    ") -> SendResult<" ++ p.result ++ "> \x7b\n" ++
  "    let request = " ++ payload p.operation (p.params.map Param.name) ++ ";\n" ++
  "    send::<" ++ p.result ++ ">(&request, target, " ++ toString timeout ++ ").await\n" ++
  "\x7d"

/-- The text of a stub. -/
def code (st : StubSettings) (p : StubPlan) : Except StubError String :=
  if p.isHttp then do
    let template ← st.templates.httpStub.mapError .template
    let value ← (TypeExpr.defaultText p.result).mapError .type
    return match template with
      | none => p.httpCode value
      | some t => t.fill (("default_value", value) :: p.holes)
  else do
    let template ← st.templates.rpcStub.mapError .template
    return match template with
      | none => p.rpcCode st.timeout
      | some t =>
        let request := payload p.operation (p.params.map Param.name)
        t.fill (("request", request) :: ("timeout", toString st.timeout) :: p.holes)

end StubPlan

/-- A stub: its plan and its text. -/
structure Stub where
  plan : StubPlan
  code : String
  deriving DecidableEq, Repr

/-- The stub for a signature. -/
def Signature.stub (st : StubSettings) (s : Signature) : Logged StubError Stub := do
  let plan ← (s.plan st.strict).mapError .type
  let code ← ExceptT.mk (pure (plan.code st))
  return ⟨plan, code⟩

/-- The stubs for signatures, in order. -/
def Signature.stubs (st : StubSettings) : List Signature → Logged StubError (List Stub)
  | [] => return []
  | s :: ss => do
    let stub ← s.stub st
    return stub :: (← stubs st ss)

end WitCaller
