import WitCaller.Text.Digit
import WitCaller.Text.Search

/-!
Flags among the words of a command line. A long flag may be shortened as long as no other one starts
the same way, and short flags may share a hyphen.
-/

namespace WitCaller.CommandLine

/-- What flags are for. -/
inductive Switch where
  | help
  | verbose
  | logFile
  | apiDir
  | project
  | dryRun
  deriving DecidableEq, Repr

/-- A flag with its names, and whether a value belongs to it. -/
structure Flag where
  switch : Switch
  names : List String
  takesValue : Bool
  deriving DecidableEq, Repr

/-- Why a command line is not followed: it asks for help, or it makes no sense. -/
inductive Misuse where
  | help
  | wrong
  deriving DecidableEq, Repr

/-- The text attached to a flag, after an equals sign or without one. -/
inductive Attached where
  | none
  | joined (text : List Char)
  | assigned (text : List Char)
  deriving DecidableEq, Repr

/-- What a word is: an operand, a flag with the text attached to it, or an unknown flag. -/
inductive Word where
  | operand
  | flag (f : Flag) (short : Bool) (attached : Attached)
  | unknown
  deriving DecidableEq, Repr

/-- Whether a name has one hyphen only. -/
def isShort (name : List Char) : Bool :=
  match name with
  | _ :: '-' :: _ => false
  | _ => true

/-- The flag with a name. -/
def flagNamed? (flags : List Flag) (name : List Char) : Option Flag :=
  flags.find? fun f => f.names.contains (String.ofList name)

/-- A word before and after its first equals sign. -/
def splitAttached (s : List Char) : List Char × Attached :=
  match Text.cut ['='] s with
  | some (name, text) => (name, .assigned text)
  | none => (s, .none)

/-- The flags that a shortened name may mean, once for each of their names. -/
def meanings (flags : List Flag) (s : List Char) : List Word :=
  flags.flatMap fun f => f.names.filterMap fun name =>
    let name := name.toList
    if isShort s then
      if name = s.take 2 then some (.flag f true (.joined (s.drop 2)))
      else if s.isPrefixOf name then some (.flag f (isShort name) .none)
      else none
    else
      let (lead, attached) := splitAttached s
      if lead.isPrefixOf name then some (.flag f (isShort name) attached) else none

/-- Whether a word is a number after a minus: digits with at most one point among them. -/
def isNegative (s : List Char) : Bool :=
  let isDigit (c : Char) : Bool := (Text.digit? c).isSome
  match s with
  | '-' :: r =>
    let tail := r.dropWhile isDigit
    (tail.isEmpty && !r.isEmpty) ||
      (match tail with
        | '.' :: fraction => !fraction.isEmpty && fraction.all isDigit
        | _ => false)
  | _ => false

/-- What a word is, given the flags there are. A name that may mean several is wrong. -/
def wordOf (flags : List Flag) (word : String) : Except Misuse Word :=
  match word.toList with
  | '-' :: c :: r =>
    let s := '-' :: c :: r
    match flagNamed? flags s with
    | some f => .ok (.flag f (isShort s) .none)
    | none =>
      let (name, attached) := splitAttached s
      match attached, flagNamed? flags name with
      | .assigned _, some f => .ok (.flag f (isShort name) attached)
      | _, _ => shortened s
  | _ => .ok .operand
where
  /-- What a word is that is no full name. -/
  shortened (s : List Char) : Except Misuse Word :=
    match meanings flags s with
    | [w] => .ok w
    | _ :: _ :: _ => .error .wrong
    | [] => if isNegative s || s.contains ' ' then .ok .operand else .ok .unknown

/-- The flags that a word holds, and the value of the last one, if it is attached. -/
structure Expansion where
  before : List Flag := []
  last : Flag
  value : Option String := none
  /-- Whether the text after the last flag has no meaning. -/
  leftover : Bool := false
  deriving DecidableEq, Repr

/-- A hyphen flag and the text joined to it: flags without a value may follow each other. -/
def cluster (flags : List Flag) (f : Flag) : List Char → Except Misuse Expansion
  | [] => .ok { last := f }
  | c :: r =>
    if f.takesValue then .ok { last := f, value := some (String.ofList (c :: r)) }
    else if c = '-' then .error .wrong
    else match flagNamed? flags ['-', c] with
      | none => .ok { last := f, leftover := true }
      | some f' =>
        match r with
        | '=' :: text =>
          if f'.takesValue then
            .ok { before := [f], last := f', value := some (String.ofList text) }
          else .error .wrong
        | r => (cluster flags f' r).map fun e => { e with before := f :: e.before }

/-- The flags in a word. Only short flags without a value let others follow. -/
def expand (flags : List Flag) (f : Flag) (short : Bool) : Attached → Except Misuse Expansion
  | .none => .ok { last := f }
  | .assigned text =>
    if f.takesValue then .ok { last := f, value := some (String.ofList text) } else .error .wrong
  | .joined text =>
    if f.takesValue then .ok { last := f, value := some (String.ofList text) }
    else if short && !text.isEmpty then cluster flags f text
    else .error .wrong

end WitCaller.CommandLine
