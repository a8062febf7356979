import WitCaller.Reading
import WitCaller.Text.Blank
import WitCaller.TypeExpr.Basic

/-!
Reading type expressions. A text is cut into tokens, and the tokens are read by the grammar

    type = name | name `<` type (`,` type)* [`,`] `>`

to which Rust types add `(` `)` and `(` type (`,` type)* [`,`] `)`.
-/

namespace WitCaller

/-- The five marks of a type expression, and names: runs of characters that are neither blank nor
a mark. -/
inductive TypeToken where
  | less
  | greater
  | comma
  | left
  | right
  | name (text : String)
  deriving DecidableEq, Repr

namespace TypeToken

def text : TypeToken → String
  | .less => "<"
  | .greater => ">"
  | .comma => ","
  | .left => "("
  | .right => ")"
  | .name n => n

/-- The mark that a character stands for. -/
def mark? : Char → Option TypeToken
  | '<' => some .less
  | '>' => some .greater
  | ',' => some .comma
  | '(' => some .left
  | ')' => some .right
  | _ => none

/-- Whether a character can be part of a name. -/
def isNameChar (c : Char) : Bool := !Text.isBlank c && (mark? c).isNone

/-- The tokens of a text. Blanks separate names and are not tokens. -/
def scan (s : List Char) : List TypeToken :=
  match s with
  | [] => []
  | c :: r =>
    match mark? c with
    | some m => m :: scan r
    | none =>
      if Text.isBlank c then scan r
      else .name (String.ofList (c :: r.takeWhile isNameChar)) :: scan (r.dropWhile isNameChar)
termination_by s.length
decreasing_by
  · exact Nat.lt_succ_self _
  · exact Nat.lt_succ_self _
  · exact Nat.lt_succ_of_le (List.dropWhile_sublist isNameChar).length_le

end TypeToken

/-- Why a sequence of tokens is no type. -/
inductive TypeFault where
  | unexpected (token : TypeToken)
  | unexpectedEnd
  | emptyArguments (name : String)
  | unseparated (closer : TypeToken) (found : Option TypeToken)
  deriving DecidableEq, Repr

/-- The fault as a sentence about the whole text. -/
def TypeFault.message (text : String) : TypeFault → String
  | .unexpected t => s!"Unexpected '{t.text}' in type expression '{text}'"
  | .unexpectedEnd => s!"Unexpected end of type expression '{text}'"
  | .emptyArguments n => s!"Empty argument list for '{n}' in type expression '{text}'"
  | .unseparated closer none =>
    s!"Expected ',' or '{closer.text}' but found end of input in type expression '{text}'"
  | .unseparated closer (some t) =>
    s!"Expected ',' or '{closer.text}' but found '{t.text}' in type expression '{text}'"

/-- The two grammars: interface types, and Rust types, which have tuples too. -/
inductive TypeGrammar where
  | wit
  | rust
  deriving DecidableEq, Repr

namespace TypeExpr

mutual

/-- Read one type. -/
def readType (g : TypeGrammar) (ts : List TypeToken) :
    Except TypeFault (Reading TypeExpr ts) :=
  match ts with
  | [] => .error .unexpectedEnd
  | .name n :: .less :: r =>
    match readOptionalItems g .greater r with
    | .error e => .error e
    | .ok args =>
      if args.value.isEmpty then .error (.emptyArguments n) else .ok (args.lift (.named n))
  | .name n :: r => .ok (.done (.named n []) r)
  | .left :: r =>
    match g with
    | .wit => .error (.unexpected .left)
    | .rust =>
      match readOptionalItems g .right r with
      | .error e => .error e
      | .ok items => .ok (items.lift .tuple)
  | t :: _ => .error (.unexpected t)
termination_by 3 * ts.length
decreasing_by
  · exact rank_lt 2 0 (Nat.lt_succ_of_lt (Nat.lt_succ_self _)) (by decide)
  · exact rank_lt 2 0 (Nat.lt_succ_self _) (by decide)

/-- Read the items up to a closing mark; there may be none. -/
def readOptionalItems (g : TypeGrammar) (closer : TypeToken) (ts : List TypeToken) :
    Except TypeFault (Reading (List TypeExpr) ts) :=
  match ts with
  | [] => readItems g closer []
  | t :: r => if t = closer then .ok (.done [] r) else readItems g closer (t :: r)
termination_by 3 * ts.length + 2
decreasing_by all_goals exact Nat.lt_succ_self _

/-- Read one item or more up to a closing mark, with commas between them and perhaps one more. -/
def readItems (g : TypeGrammar) (closer : TypeToken) (ts : List TypeToken) :
    Except TypeFault (Reading (List TypeExpr) ts) :=
  match readType g ts with
  | .error e => .error e
  | .ok item =>
    match readMoreItems g closer item.rest with
    | .error e => .error e
    | .ok items => .ok (item.andThen List.cons items)
termination_by 3 * ts.length + 1
decreasing_by
  · exact Nat.lt_succ_self _
  · exact rank_lt 2 1 item.shorter (by decide)

/-- Read what follows an item: a closing mark, or a comma and then perhaps more items. -/
def readMoreItems (g : TypeGrammar) (closer : TypeToken) (ts : List TypeToken) :
    Except TypeFault (Reading (List TypeExpr) ts) :=
  match ts with
  | [] => .error (.unseparated closer none)
  | t :: r =>
    if t = closer then .ok (.done [] r)
    else if t = .comma then
      match r with
      | [] => .error .unexpectedEnd
      | u :: r =>
        if u = closer then .ok (.done [] r)
        else
          match readItems g closer (u :: r) with
          | .error e => .error e
          | .ok items => .ok (items.lift id)
    else .error (.unseparated closer (some t))
termination_by 3 * ts.length + 2
decreasing_by exact rank_lt 1 2 (Nat.lt_succ_self _) (by decide)

end

/-- The type that all of the tokens spell. -/
def ofTokens (g : TypeGrammar) (ts : List TypeToken) : Except TypeFault TypeExpr :=
  match readType g ts with
  | .error e => .error e
  | .ok x =>
    match x.rest with
    | [] => .ok x.value
    | t :: _ => .error (.unexpected t)

/-- The type that a text spells. -/
def parse (g : TypeGrammar) (text : String) : Except TypeFault TypeExpr :=
  ofTokens g (TypeToken.scan text.toList)

end TypeExpr

end WitCaller
