import WitCaller.Interface.Parser

/-!
World files: a text is one if some line starts with `world`, which also names it, and each line
`import <target>;` adds an interface to it.
-/

namespace WitCaller

/-- The world that calls are generated for, and what it imports. -/
structure World where
  name : String
  imports : List String
  deriving DecidableEq, Repr

namespace World
open Text Interface

/-- Whether a text without blanks at its ends starts a world. -/
def opensWorld (line : List Char) : Bool := startsWith "world " line

/-- Whether a text declares a world. -/
def isSource (text : String) : Bool := (trimmedLines text).any opensWorld

/-- The name that the first line with `world` gives. -/
def name? (text : String) : Option String := do
  let line ← (trimmedLines text).find? opensWorld
  let word ← (words line)[1]?
  let name := dropBrace word
  if name = [] then none else some (String.ofList name)

/-- The target of a line `import <target>;`. -/
def import? (line : List Char) : Option String :=
  if startsWith "import " line ∧ line.getLast? = some ';' then
    let target := trim (line.dropLast.drop "import ".length)
    if target = [] then none else some (String.ofList target)
  else none

/-- The targets of all imports of a text, in order. -/
def importsOf (text : String) : List String := (trimmedLines text).filterMap import?

/-- Worlds with this beginning are made for their types, and are preferred to others. -/
def typesMark : String := "types-"

/-- Whether a world is one made for its types. -/
def isTypesName (name : String) : Bool := typesMark.toList.isPrefixOf name.toList

end World

end WitCaller
