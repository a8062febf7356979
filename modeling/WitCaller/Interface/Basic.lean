import WitCaller.Log
import WitCaller.Path
import WitCaller.Signature

/-!
What one interface file declares, item by item in the order of its lines. Signatures, types and the
reports about the reading are three views of the items.
-/

namespace WitCaller

inductive TypeKind where
  | record
  | variant
  deriving DecidableEq, Repr

def TypeKind.keyword : TypeKind → String
  | .record => "record"
  | .variant => "variant"

/-- A type that an interface declares. -/
structure TypeDeclaration where
  name : String
  kind : TypeKind
  deriving DecidableEq, Repr

/-- A line of a signature's body that is neither blank nor a comment. -/
inductive BodyLine where
  | field (f : Field)
  | unrecognised (line : String)
  deriving DecidableEq, Repr

/-- What a line of a file declares, with the lines that belong to it. -/
inductive Item where
  | type (d : TypeDeclaration)
  | signature (record operation kind : String) (body : List BodyLine)
  | malformed (error : SignatureFormatError)
  deriving DecidableEq, Repr

/-- An interface file and what it declares. -/
structure Interface where
  path : Path
  items : List Item
  deriving DecidableEq, Repr

namespace BodyLine

def field? : BodyLine → Option Field
  | .field f => some f
  | .unrecognised _ => none

def entry : BodyLine → Entry
  | .field f => ⟨.debug, .parser, s!"    Field: {f.name} -> {f.type}"⟩
  | .unrecognised line => ⟨.debug, .parser, s!"    Ignoring unrecognised signature line: {line}"⟩

end BodyLine

namespace Item

def signature? : Item → Option Signature
  | .signature _ operation kind body => some ⟨operation, kind, body.filterMap BodyLine.field?⟩
  | _ => none

def type? : Item → Option TypeDeclaration
  | .type d => some d
  | _ => none

/-- The reports about an item of the file at `path`. -/
def entries (path : Path) : Item → List Entry
  | .type d => [⟨.debug, .parser, s!"  Found type: {d.kind.keyword} {d.name}"⟩]
  | .signature record _ _ body =>
    ⟨.debug, .parser, s!"  Found record: {record}"⟩ :: body.map BodyLine.entry
  | .malformed e => [
      ⟨.debug, .parser, s!"  Found record: {e.record}"⟩,
      ⟨.warning, .parser, s!"{e.message} (in {path}); skipping"⟩]

end Item

namespace Interface

/-- The name of an interface is the name of its file without the suffix. -/
def name (i : Interface) : String := i.path.stem

def signatures (i : Interface) : List Signature := i.items.filterMap Item.signature?

def types (i : Interface) : List TypeDeclaration := i.items.filterMap Item.type?

def typeNames (i : Interface) : List String := i.types.map TypeDeclaration.name

def entries (i : Interface) : List Entry := i.items.flatMap (Item.entries i.path)

end Interface

end WitCaller
