import WitCaller.Decimal

/-!
The values of a TOML document.
-/

namespace WitCaller.Toml

/-- A value: a scalar, an array, or a table with its keys in order. A date or a time is kept as it
is written. -/
inductive Value where
  | text (s : String)
  | integer (n : Int)
  | real (r : DecimalValue)
  | boolean (b : Bool)
  | time (s : String)
  | array (items : List Value)
  | table (entries : List (String × Value))
  deriving BEq, Repr, Inhabited

abbrev Table := List (String × Value)

/-- The tables of a value, if it is one. -/
def Value.table? : Value → Option Table
  | .table entries => some entries
  | _ => none

/-- The items of a value, if it is an array. -/
def Value.array? : Value → Option (List Value)
  | .array items => some items
  | _ => none

/-- Whether a value is the given text. -/
def Value.isText (s : String) : Value → Bool
  | .text t => t == s
  | _ => false

end WitCaller.Toml
