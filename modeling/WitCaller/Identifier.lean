import WitCaller.Text.Blank
import WitCaller.Text.Search
import WitCaller.Text.UpperCase

/-!
Kebab-case names of an interface and the Rust names made from them. A leading percent sign marks a
name that would else be a keyword; it is not part of the name.
-/

namespace WitCaller.Identifier
open Text

/-- The name without the percent sign that may mark it. -/
def unescape : List Char → List Char
  | '%' :: r => r
  | r => r

/-- Hyphens become underscores. -/
def snakeChar (c : Char) : Char := if c = '-' then '_' else c

/-- The snake case form of a name. -/
def snake (name : String) : String := String.ofList ((unescape name.toList).map snakeChar)

/-- A word with its first letter in upper case. -/
def capitalize : List Char → List Char
  | [] => []
  | c :: r => capital c ++ r

/-- The Pascal case form of a name: its words capitalized and put together. -/
def pascal (name : String) : String :=
  String.ofList ((splitOn '-' (unescape name.toList)).flatMap capitalize)

/-- The words that Rust keeps for itself. -/
def rustKeywords : List String := [
  "as", "async", "await", "break", "const", "continue", "crate", "dyn", "else", "enum", "extern",
  "false", "fn", "for", "if", "impl", "in", "let", "loop", "match", "mod", "move", "mut", "pub",
  "ref", "return", "static", "struct", "super", "trait", "true", "type", "unsafe", "use", "where",
  "while"]

/-- The Rust identifier for a field name: snake case, and raw when that is a keyword. -/
def rust (name : String) : String :=
  if snake name ∈ rustKeywords then "r#" ++ snake name else snake name

/-- The module of an imported interface: what follows the last slash, up to a version. -/
def moduleName (target : String) : String :=
  snake (String.ofList (trim (beforeFirst '@' (afterLast '/' target.toList))))

end WitCaller.Identifier
