import WitCaller.Reading

/-!
The four forms of a TOML string: basic and literal, each on one line or between tripled quotes.
-/

namespace WitCaller.Toml

/-- Control characters that a string or a comment may not hold; a tab is allowed. -/
def isControl (c : Char) : Bool := (c.toNat < 32 && c != '\t') || c.toNat == 127

/-- Blanks within a line. -/
def isSpace (c : Char) : Bool := c == ' ' || c == '\t'

/-- The value of a hexadecimal digit. -/
def hexValue? (c : Char) : Option Nat :=
  if '0' ≤ c ∧ c ≤ '9' then some (c.toNat - 48)
  else if 'a' ≤ c ∧ c ≤ 'f' then some (c.toNat - 87)
  else if 'A' ≤ c ∧ c ≤ 'F' then some (c.toNat - 55)
  else none

/-- The character whose number the hexadecimal digits spell; surrogates are no characters. -/
def hexChar? (digits : List Char) : Option Char := do
  let n := (← digits.mapM hexValue?).foldl (fun n d => n * 16 + d) 0
  if n.isValidChar then some (Char.ofNat n) else none

/-- The character that a letter after a backslash stands for. -/
def escape? : Char → Option Char
  | 'b' => some '\x08'
  | 't' => some '\t'
  | 'n' => some '\n'
  | 'f' => some '\x0c'
  | 'r' => some '\r'
  | '\x22' => some '\x22'
  | '\\' => some '\\'
  | _ => none

/-- The rest of a basic string on one line, up to the closing quote. -/
def basicTail (s : List Char) : Option (Reading (List Char) s) :=
  match s with
  | [] => none
  | '\x22' :: r => some (.done [] r)
  | '\\' :: 'u' :: a :: b :: c :: d :: r => do
    let x ← hexChar? [a, b, c, d]
    return (← basicTail r).lift (x :: ·)
  | '\\' :: 'U' :: a :: b :: c :: d :: e :: f :: g :: h :: r => do
    let x ← hexChar? [a, b, c, d, e, f, g, h]
    return (← basicTail r).lift (x :: ·)
  | '\\' :: e :: r => do
    let x ← escape? e
    return (← basicTail r).lift (x :: ·)
  | c :: r => do
    if isControl c then none
    else if c = '\\' then none
    else return (← basicTail r).lift (c :: ·)

/-- The rest of a literal string on one line, up to the closing quote. -/
def literalTail (s : List Char) : Option (Reading (List Char) s) :=
  match s with
  | [] => none
  | '\x27' :: r => some (.done [] r)
  | c :: r => do
    if isControl c then none else return (← literalTail r).lift (c :: ·)

/-- A tripled quote, and up to two more that belong to the string. -/
def closing (quote : Char) (s : List Char) : Option (Reading (List Char) s) :=
  match s with
  | a :: b :: c :: d :: e :: r =>
    if a = quote ∧ b = quote ∧ c = quote then
      if d = quote then
        if e = quote then some (.done [quote, quote] r)
        else some (.done [quote] (e :: r))
      else some (.done [] (d :: e :: r))
    else none
  | [a, b, c, d] =>
    if a = quote ∧ b = quote ∧ c = quote then
      if d = quote then some (.done [quote] []) else some (.done [] [d])
    else none
  | [a, b, c] => if a = quote ∧ b = quote ∧ c = quote then some (.done [] []) else none
  | _ => none

/-- What a backslash at the end of a line has left to skip: the blanks up to the line end, then
everything blank after it. -/
inductive Continuation where
  | none
  | toLineEnd
  | blanks
  deriving DecidableEq

/-- The rest of a basic string of several lines. -/
def longBasicTail (skipping : Continuation) (s : List Char) : Option (Reading (List Char) s) :=
  match s with
  | [] => none
  | c :: r =>
    if skipping = .toLineEnd then
      if isSpace c then do return (← longBasicTail .toLineEnd r).lift id
      else if c = '\n' then do return (← longBasicTail .blanks r).lift id
      else none
    else if skipping = .blanks ∧ (isSpace c ∨ c = '\n') then do
      return (← longBasicTail .blanks r).lift id
    else
      match closing '\x22' (c :: r) with
      | some x => some x
      | none =>
        match c, r with
        | '\\', 'u' :: a :: b :: c :: d :: r => do
          let x ← hexChar? [a, b, c, d]
          return (← longBasicTail .none r).lift (x :: ·)
        | '\\', 'U' :: a :: b :: c :: d :: e :: f :: g :: h :: r => do
          let x ← hexChar? [a, b, c, d, e, f, g, h]
          return (← longBasicTail .none r).lift (x :: ·)
        | '\\', e :: r =>
          if e = '\n' then do return (← longBasicTail .blanks r).lift id
          else if isSpace e then do return (← longBasicTail .toLineEnd r).lift id
          else do
            let x ← escape? e
            return (← longBasicTail .none r).lift (x :: ·)
        | c, r =>
          if (isControl c ∧ c ≠ '\n') ∨ c = '\\' then none
          else do return (← longBasicTail .none r).lift (c :: ·)

/-- The rest of a literal string of several lines. -/
def longLiteralTail (s : List Char) : Option (Reading (List Char) s) :=
  match s with
  | [] => none
  | c :: r =>
    match closing '\x27' (c :: r) with
    | some x => some x
    | none =>
      if isControl c ∧ c ≠ '\n' then none
      else do return (← longLiteralTail r).lift (c :: ·)

variable {c : Char} {r : List Char}

theorem basicTail_quote : basicTail ('\x22' :: r) = some (.done [] r) := by
  rw [basicTail]

theorem literalTail_quote : literalTail ('\x27' :: r) = some (.done [] r) := by
  rw [literalTail]

/-- Where nothing is left to skip, what was to be skipped makes no difference. -/
theorem longBasicTail_settled {k : Continuation} (hk : k ≠ .toLineEnd)
    (hb : ¬ (k = .blanks ∧ (isSpace c ∨ c = '\n'))) :
    longBasicTail k (c :: r) = longBasicTail .none (c :: r) := by
  rw [longBasicTail.eq_def, longBasicTail.eq_def .none]
  simp only [if_neg hk, if_neg hb, reduceCtorEq, false_and, if_false]

/-- A string in any of the four forms. A line end right after tripled quotes is not part of it. -/
def readText (s : List Char) : Option (Reading (List Char) s) :=
  match s with
  | '\x22' :: '\x22' :: '\x22' :: '\n' :: r => do return (← longBasicTail .none r).lift id
  | '\x22' :: '\x22' :: '\x22' :: r => do return (← longBasicTail .none r).lift id
  | '\x22' :: r => do return (← basicTail r).lift id
  | '\x27' :: '\x27' :: '\x27' :: '\n' :: r => do return (← longLiteralTail r).lift id
  | '\x27' :: '\x27' :: '\x27' :: r => do return (← longLiteralTail r).lift id
  | '\x27' :: r => do return (← literalTail r).lift id
  | _ => none

theorem readText_unquoted (hd : c ≠ '\x22') (hs : c ≠ '\x27') :
    readText (c :: r) = none := by
  rw [readText.eq_7]
  all_goals
    rintro r' ⟨⟩
    contradiction

/-- A string on one line, as keys may be. -/
def readShortText (s : List Char) : Option (Reading (List Char) s) :=
  match s with
  | '\x22' :: r => do return (← basicTail r).lift id
  | '\x27' :: r => do return (← literalTail r).lift id
  | _ => none

end WitCaller.Toml
