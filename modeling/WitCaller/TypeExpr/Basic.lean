import WitCaller.Text.Search

/-!
Type expressions: a name with arguments, or a tuple. The same trees serve for interface types and
for Rust types; only the latter have tuples.
-/

namespace WitCaller

/-- A type: a name applied to arguments, or a tuple of types. -/
inductive TypeExpr where
  | named (name : String) (args : List TypeExpr)
  | tuple (items : List TypeExpr)
  deriving BEq, Repr, Inhabited

namespace TypeExpr

/-- The empty tuple. -/
def unit : TypeExpr := .tuple []

/-- Items between parentheses; a single one keeps a comma, which tells it from the item itself. -/
def parenthesized : List String → String
  | [item] => "(" ++ item ++ ",)"
  | items => "(" ++ Text.join ", " items ++ ")"

mutual

/-- The text of a type. -/
def render : TypeExpr → String
  | .named name [] => name
  | .named name (a :: as) => name ++ "<" ++ Text.join ", " (renderAll (a :: as)) ++ ">"
  | .tuple items => parenthesized (renderAll items)

def renderAll : List TypeExpr → List String
  | [] => []
  | t :: ts => render t :: renderAll ts

end

@[simp] theorem renderAll_eq_map (ts : List TypeExpr) : renderAll ts = ts.map render := by
  induction ts with
  | nil => rfl
  | cons t ts ih => simp [renderAll, ih]

end TypeExpr

end WitCaller
