import WitCaller.Assoc
import WitCaller.Toml.Value

/-!
The tables that a document builds. A table is open until a header names it or a dotted key passes
through it; from then on only the section that did so may reach it with dotted keys, and no second
header may name it. Arrays and inline tables are complete when they are written.
-/

namespace WitCaller.Toml

/-- A value under construction. A table knows the number of the section that defined it, if one has;
an array of tables has completed items and one that still grows. -/
inductive Node where
  | value (v : Value)
  | table (definedIn : Option Nat) (entries : List (String × Node))
  | tables (done : List Value) (current : List (String × Node))
  deriving Inhabited

/-- The keys of a table under construction. -/
abbrev Entries := List (String × Node)

mutual

/-- The value that a construction stands for. -/
def Node.finish : Node → Value
  | .value v => v
  | .table _ entries => .table (finishAll entries)
  | .tables done current => .array (done ++ [.table (finishAll current)])

def finishAll : Entries → Table
  | [] => []
  | (k, n) :: r => (k, n.finish) :: finishAll r

end

namespace Entries

/-- Change the table that a key leads to. Tables that are missing on the way are made, and in an
array of tables the way goes through the last one. -/
def atTable (change : Entries → Option Entries) : List String → Entries → Option Entries
  | [], es => change es
  | k :: ks, es =>
    match Assoc.get? k es with
    | none => do return Assoc.insert k (.table none (← atTable change ks [])) es
    | some (.table d sub) => do return Assoc.insert k (.table d (← atTable change ks sub)) es
    | some (.tables done cur) => do
      return Assoc.insert k (.tables done (← atTable change ks cur)) es
    | some (.value _) => none

/-- Name a table by a header in section `n`. -/
def define (n : Nat) (k : String) (es : Entries) : Option Entries :=
  match Assoc.get? k es with
  | none => some (Assoc.insert k (.table (some n) []) es)
  | some (.table none sub) => some (Assoc.insert k (.table (some n) sub) es)
  | _ => none

/-- Start a further table of an array. -/
def addItem (k : String) (es : Entries) : Option Entries :=
  match Assoc.get? k es with
  | none => some (Assoc.insert k (.tables [] []) es)
  | some (.tables done cur) =>
    some (Assoc.insert k (.tables (done ++ [.table (finishAll cur)]) []) es)
  | _ => none

/-- Give a dotted key a value in section `n`. -/
def put (n : Nat) (v : Value) : List String → Entries → Option Entries
  | [], _ => none
  | [k], es =>
    match Assoc.get? k es with
    | none => some (Assoc.insert k (.value v) es)
    | some _ => none
  | k :: ks, es =>
    match Assoc.get? k es with
    | none => do return Assoc.insert k (.table (some n) (← put n v ks [])) es
    | some (.table d sub) =>
      if d = none ∨ d = some n then do
        return Assoc.insert k (.table (some n) (← put n v ks sub)) es
      else none
    | _ => none

end Entries

/-- A key and its value in an inline table or below a header. -/
structure Pair where
  key : List String
  value : Value

/-- The table that the pairs of an inline table make. -/
def inlineTable (pairs : List Pair) : Option Table :=
  (pairs.foldlM (fun es p => Entries.put 0 p.value p.key es) []).map finishAll

/-- A statement of a document. -/
inductive Statement where
  | table (key : List String)
  | arrayTable (key : List String)
  | pair (p : Pair)

/-- A document under construction: its tables, the header in force and the number of its section. -/
structure Construction where
  root : Entries
  header : List String
  sectionNumber : Nat

namespace Construction

def start : Construction := ⟨[], [], 0⟩

/-- The construction after one more statement, unless that contradicts what came before. -/
def add (c : Construction) : Statement → Option Construction
  | .table key => do
    let n := c.sectionNumber + 1
    let last ← key.getLast?
    return ⟨← Entries.atTable (Entries.define n last) key.dropLast c.root, key, n⟩
  | .arrayTable key => do
    let last ← key.getLast?
    return ⟨← Entries.atTable (Entries.addItem last) key.dropLast c.root, key,
      c.sectionNumber + 1⟩
  | .pair p => do
    return { c with
      root := ← Entries.atTable (Entries.put c.sectionNumber p.value p.key) c.header c.root }

end Construction

/-- The table that the statements of a document make. -/
def build (statements : List Statement) : Option Table :=
  (statements.foldlM Construction.add .start).map fun c => finishAll c.root

end WitCaller.Toml
