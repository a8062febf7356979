/-!
Texts as bytes. Decoding accepts exactly the well-formed sequences and reports the first place where
the bytes are not well-formed: how many of them were read before the fault, and what the fault is.
-/

namespace WitCaller

abbrev Bytes := List UInt8

/-- What is wrong with a sequence of bytes. -/
inductive Utf8Fault where
  | invalidStart
  | invalidContinuation
  | unexpectedEnd
  deriving DecidableEq, Repr

def Utf8Fault.message : Utf8Fault → String
  | .invalidStart => "invalid start byte"
  | .invalidContinuation => "invalid continuation byte"
  | .unexpectedEnd => "unexpected end of data"

/-- The first fault of a sequence of bytes: where its character starts, with which byte, and how
many bytes belong to it. -/
structure Utf8Error where
  position : Nat
  first : UInt8
  count : Nat
  fault : Utf8Fault
  deriving DecidableEq, Repr

namespace Utf8

/-- Two hexadecimal digits. -/
def hexByte (b : UInt8) : String :=
  String.ofList [Nat.digitChar (b.toNat / 16), Nat.digitChar (b.toNat % 16)]

/-- Whether a byte continues a character. -/
def continues (b : UInt8) : Bool := 0x80 ≤ b && b < 0xC0

/-- Whether `b` may follow `a` at the start of a character of three or four bytes. Longer forms of
shorter characters, surrogates and numbers past the last character are ruled out here. -/
def follows (a b : UInt8) : Bool :=
  continues b && !(a == 0xE0 && b < 0xA0) && !(a == 0xED && 0xA0 ≤ b) &&
    !(a == 0xF0 && b < 0x90) && !(a == 0xF4 && 0x90 ≤ b)

/-- The six low bits of a byte. -/
def low (b : UInt8) : Nat := b.toNat % 64

/-- The text of bytes that stand at `position` in a longer sequence. -/
def decodeFrom (position : Nat) : Bytes → Except Utf8Error (List Char)
  | [] => .ok []
  | a :: r =>
    if a < 0x80 then (decodeFrom (position + 1) r).map (Char.ofNat a.toNat :: ·)
    else if a < 0xC2 then .error ⟨position, a, 1, .invalidStart⟩
    else if a < 0xE0 then
      match r with
      | [] => .error ⟨position, a, 1, .unexpectedEnd⟩
      | b :: r =>
        if continues b then
          (decodeFrom (position + 2) r).map (Char.ofNat (a.toNat % 32 * 64 + low b) :: ·)
        else .error ⟨position, a, 1, .invalidContinuation⟩
    else if a < 0xF0 then
      match r with
      | [] => .error ⟨position, a, 1, .unexpectedEnd⟩
      | [b] =>
        if follows a b then .error ⟨position, a, 2, .unexpectedEnd⟩
        else .error ⟨position, a, 1, .invalidContinuation⟩
      | b :: c :: r =>
        if !follows a b then .error ⟨position, a, 1, .invalidContinuation⟩
        else if !continues c then .error ⟨position, a, 2, .invalidContinuation⟩
        else
          (decodeFrom (position + 3) r).map
            (Char.ofNat (a.toNat % 16 * 4096 + low b * 64 + low c) :: ·)
    else if a < 0xF5 then
      match r with
      | [] => .error ⟨position, a, 1, .unexpectedEnd⟩
      | [b] =>
        if follows a b then .error ⟨position, a, 2, .unexpectedEnd⟩
        else .error ⟨position, a, 1, .invalidContinuation⟩
      | [b, c] =>
        if !follows a b then .error ⟨position, a, 1, .invalidContinuation⟩
        else if continues c then .error ⟨position, a, 3, .unexpectedEnd⟩
        else .error ⟨position, a, 2, .invalidContinuation⟩
      | b :: c :: d :: r =>
        if !follows a b then .error ⟨position, a, 1, .invalidContinuation⟩
        else if !continues c then .error ⟨position, a, 2, .invalidContinuation⟩
        else if !continues d then .error ⟨position, a, 3, .invalidContinuation⟩
        else
          (decodeFrom (position + 4) r).map
            (Char.ofNat (a.toNat % 8 * 262144 + low b * 4096 + low c * 64 + low d) :: ·)
    else .error ⟨position, a, 1, .invalidStart⟩

/-- The text of a sequence of bytes. -/
def decode (bytes : Bytes) : Except Utf8Error (List Char) := decodeFrom 0 bytes

/-- The bytes of a text. -/
def encode (text : List Char) : Bytes := text.flatMap String.utf8EncodeChar

end Utf8

def Utf8Error.message (e : Utf8Error) : String :=
  let last := e.position + e.count - 1
  if e.count = 1 then
    s!"'utf-8' codec can't decode byte 0x{Utf8.hexByte e.first} in position {e.position}: " ++
      e.fault.message
  else
    s!"'utf-8' codec can't decode bytes in position {e.position}-{last}: " ++ e.fault.message

end WitCaller
