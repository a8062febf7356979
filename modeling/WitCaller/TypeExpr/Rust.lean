import WitCaller.Identifier
import WitCaller.Log
import WitCaller.TypeExpr.Parser

/-!
The Rust type of an interface type, node by node. Three shapes that an interface should not have are
still understood, with a warning: a bare `list` or `option`, a `result` without an error type and a
`map` without a key type. Strictly read they are errors.
-/

namespace WitCaller

/-- A shape with an obvious meaning that the grammar of interfaces does not have. -/
inductive Laxity where
  | bareContainer (name : String)
  | noErrorType
  | noKeyType
  deriving DecidableEq, Repr

/-- The laxity in the type whose text is `source`. -/
def Laxity.message (source : String) : Laxity → String
  | .bareContainer name =>
    s!"bare '{name}' without an element type in '{source}'; treating it as a user type"
  | .noErrorType => s!"result type without an error type in '{source}'; using ()"
  | .noKeyType => s!"map type without a key type in '{source}'; using String keys"

/-- Why a text has no Rust type. -/
inductive TypeError where
  | malformed (fault : TypeFault)
  | lax (laxity : Laxity)
  | noGenerics (name : String)
  | arity (name : String) (expected actual : Nat)
  deriving DecidableEq, Repr

/-- An error in the type whose text is `source`. -/
structure TypeSyntaxError where
  source : String
  reason : TypeError
  deriving DecidableEq, Repr

def TypeSyntaxError.message (e : TypeSyntaxError) : String :=
  match e.reason with
  | .malformed fault => fault.message e.source
  | .lax laxity => laxity.message e.source
  | .noGenerics name => s!"Type '{name}' does not take generic arguments in '{e.source}'"
  | .arity name expected actual =>
    s!"Type '{name}' expects {expected} argument(s), got {actual} in '{e.source}'"

namespace TypeExpr
open Logged

/-- The Rust names of the types that interfaces have built in. -/
def primitives : List (String × String) := [
  ("s8", "i8"), ("u8", "u8"), ("s16", "i16"), ("u16", "u16"), ("s32", "i32"), ("u32", "u32"),
  ("s64", "i64"), ("u64", "u64"), ("i8", "i8"), ("i16", "i16"), ("i32", "i32"), ("i64", "i64"),
  ("usize", "usize"), ("isize", "isize"), ("f32", "f32"), ("f64", "f64"), ("float32", "f32"),
  ("float64", "f64"), ("string", "String"), ("str", "&str"), ("char", "char"), ("bool", "bool"),
  ("address", "WitAddress")]

/-- The Rust type of a name without arguments that is none of the containers. -/
def leaf (name : String) : TypeExpr :=
  if name = "_" ∨ name = "unit" then unit
  else .named ((primitives.lookup name).getD (Identifier.pascal name)) []

/-- Let a laxity pass with a warning, or refuse it. -/
def lax (strict : Bool) (source : String) (l : Laxity) : Logged TypeSyntaxError Unit :=
  if strict then throw ⟨source, .lax l⟩ else note ⟨.warning, .types, l.message source⟩

/-- How the Rust type of a name with `count` arguments is made from the Rust types of these. -/
def rustHead (strict : Bool) (source name : String) (count : Nat) :
    Logged TypeSyntaxError (List TypeExpr → TypeExpr) :=
  match name, count with
  | "list", 0 => do
    lax strict source (.bareContainer "list")
    return fun _ => .named "List" []
  | "option", 0 => do
    lax strict source (.bareContainer "option")
    return fun _ => .named "Option" []
  | "list", 1 => return .named "Vec"
  | "option", 1 => return .named "Option"
  | "result", 0 => return fun _ => .named "Result" [unit, unit]
  | "result", 1 => do
    lax strict source .noErrorType
    return fun args => .named "Result" (args ++ [unit])
  | "result", 2 => return .named "Result"
  | "tuple", _ => return .tuple
  | "map", 1 => do
    lax strict source .noKeyType
    return fun args => .named "HashMap" (.named "String" [] :: args)
  | "map", 2 => return .named "HashMap"
  | _, _ =>
    if name = "list" ∨ name = "option" then throw ⟨source, .arity name 1 count⟩
    else if name = "result" ∨ name = "map" then throw ⟨source, .arity name 2 count⟩
    else if count = 0 then return fun _ => leaf name
    else throw ⟨source, .noGenerics name⟩

mutual

/-- The Rust type of an interface type that occurs in the text `source`. -/
def toRust (strict : Bool) (source : String) : TypeExpr → Logged TypeSyntaxError TypeExpr
  | .named name args => do
    let head ← rustHead strict source name args.length
    return head (← toRustAll strict source args)
  | .tuple items => return .tuple (← toRustAll strict source items)

def toRustAll (strict : Bool) (source : String) :
    List TypeExpr → Logged TypeSyntaxError (List TypeExpr)
  | [] => return []
  | t :: ts => do
    let r ← toRust strict source t
    return r :: (← toRustAll strict source ts)

end

/-- The type that a text spells, or the error with that text. -/
def read (g : TypeGrammar) (text : String) : Except TypeSyntaxError TypeExpr :=
  (parse g text).mapError fun fault => ⟨text, .malformed fault⟩

/-- The text without the blanks at its ends. -/
def trimmed (text : String) : String := String.ofList (Text.trim text.toList)

/-- The text of the Rust type for the text of an interface type. -/
def rustText (strict : Bool) (witType : String) : Logged TypeSyntaxError String := do
  let source := trimmed witType
  let type ← ExceptT.mk (pure (read .wit source))
  return (← toRust strict source type).render

/-- The Rust types whose default is written in a way of its own. -/
def scalarDefaults : List (String × String) := [
  ("i8", "0"), ("u8", "0"), ("i16", "0"), ("u16", "0"), ("i32", "0"), ("u32", "0"), ("i64", "0"),
  ("u64", "0"), ("isize", "0"), ("usize", "0"), ("f32", "0.0"), ("f64", "0.0"),
  ("String", "String::new()"), ("&str", "\"\""), ("bool", "false"), ("char", "'\\0'"),
  ("Vec", "Vec::new()"), ("Option", "None"), ("HashMap", "HashMap::new()")]

mutual

/-- A Rust expression for the default value of a Rust type. -/
def default : TypeExpr → String
  | .tuple items => parenthesized (defaultAll items)
  | .named name args =>
    match scalarDefaults.lookup name with
    | some value => value
    | none =>
      if name = "Result" then
        match defaultAll args with
        | [] => "Ok(())"
        | value :: _ => "Ok(" ++ value ++ ")"
      else match args with
        | [] => name ++ "::default()"
        | a :: as => name ++ "::<" ++ Text.join ", " (renderAll (a :: as)) ++ ">::default()"

def defaultAll : List TypeExpr → List String
  | [] => []
  | t :: ts => default t :: defaultAll ts

end

/-- The default value for the text of a Rust type. -/
def defaultText (rustType : String) : Except TypeSyntaxError String :=
  (read .rust (trimmed rustType)).map default

end TypeExpr

end WitCaller
