/-!
Lines of a text. A line ends at a line feed, a carriage return, the two together, U+000B, U+000C,
U+001C, U+001D, U+001E, U+0085, U+2028 or U+2029, and text after the last of these is a line too.
The lines with their ends, put together, are the text.
-/

namespace WitCaller.Text

/-- The characters that end a line. -/
def isLineBreak (c : Char) : Bool :=
  let n := c.toNat
  (10 ≤ n && n ≤ 13) || (28 ≤ n && n ≤ 30) || n == 0x85 || n == 0x2028 || n == 0x2029

/-- Put a character in front of the first line. -/
def consLine (c : Char) : List (List Char) → List (List Char)
  | [] => [[c]]
  | l :: ls => (c :: l) :: ls

/-- The lines of a text, each with the characters that end it. -/
def fullLines : List Char → List (List Char)
  | [] => []
  | '\r' :: '\n' :: r => ['\r', '\n'] :: fullLines r
  | c :: r => if isLineBreak c then [c] :: fullLines r else consLine c (fullLines r)

/-- The lines of a text without the characters that end them. -/
def lines (s : List Char) : List (List Char) :=
  (fullLines s).map (·.takeWhile (!isLineBreak ·))

@[simp] theorem flatten_consLine (c : Char) (ls : List (List Char)) :
    (consLine c ls).flatten = c :: ls.flatten := by
  cases ls <;> simp [consLine]

/-- No character is lost between the lines. -/
theorem flatten_fullLines (s : List Char) : (fullLines s).flatten = s := by
  fun_induction fullLines s <;> simp_all

/-- A line without the carriage returns and line feeds at its end. -/
def chomp (l : List Char) : List Char :=
  (l.reverse.dropWhile fun c => c == '\r' || c == '\n').reverse

/-- Every carriage return, with the line feed that may follow it, becomes one line feed. -/
def unifyLineEnds : List Char → List Char
  | [] => []
  | '\r' :: '\n' :: r => '\n' :: unifyLineEnds r
  | c :: r => (if c = '\r' then '\n' else c) :: unifyLineEnds r

end WitCaller.Text
