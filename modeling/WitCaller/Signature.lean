import WitCaller.Text.Search

/-!
Remote operations as an interface declares them: a record whose fields are the parameters, with two
fields set apart that say where the call goes and what it returns.
-/

namespace WitCaller

/-- A field of a record: its name and the text of its type. -/
structure Field where
  name : String
  type : String
  deriving DecidableEq, Repr

/-- A remote operation: its name, the way it is called, and the fields of its record. -/
structure Signature where
  operation : String
  kind : String
  fields : List Field := []
  deriving DecidableEq, Repr

namespace Signature

def isTarget (f : Field) : Bool := f.name == "target"

def isReturning (f : Field) : Bool := f.name == "returning"

/-- The first field that says where the call goes. -/
def target? (s : Signature) : Option Field := s.fields.find? isTarget

/-- The first field that says what the call returns. -/
def returning? (s : Signature) : Option Field := s.fields.find? isReturning

/-- All other fields, in order. -/
def params (s : Signature) : List Field := (s.fields.eraseP isTarget).eraseP isReturning

/-- Calls of this kind go through a server and have no routing parameter of their own. -/
def isHttp (s : Signature) : Bool := s.kind == "http"

end Signature

/-- The text that joins the two halves of a signature's name. -/
def signatureMarker : List Char := "-signature-".toList

/-- Why a name is not that of a signature: it does not consist of two halves. -/
structure SignatureFormatError where
  record : String
  deriving DecidableEq, Repr

def SignatureFormatError.message (e : SignatureFormatError) : String :=
  s!"Unexpected signature record name format: '{e.record}'"

/-- The operation and the kind of call in a signature's name: two halves, neither of them empty. -/
def Signature.splitName (record : String) : Except SignatureFormatError (String × String) :=
  match Text.cut signatureMarker record.toList with
  | some (operation, kind) =>
    if operation ≠ [] ∧ kind ≠ [] ∧ ¬ Text.contains signatureMarker kind then
      .ok (String.ofList operation, String.ofList kind)
    else .error ⟨record⟩
  | none => .error ⟨record⟩

end WitCaller
