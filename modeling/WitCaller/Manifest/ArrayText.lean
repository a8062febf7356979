import WitCaller.Text.Blank
import WitCaller.Text.Lines

/-!
The text of an array, cut after its last value and before its closing bracket, and the same text with
one more item. Strings and comments are passed over, so that brackets and commas in them do not
count.
-/

namespace WitCaller.Manifest
open Text

/-- Why the end of an array cannot be found. -/
inductive ArrayFault where
  | unterminatedString
  | unclosed
  deriving DecidableEq, Repr

/-- Whether a character takes the next one with it: a backslash in double quotes. -/
def isEscape (quote c : Char) : Bool := quote == '\x22' && c == '\\'

/-- The rest of a string up to its closing quotes, and what follows. -/
def stringTail (quote : Char) (tripled : Bool) : List Char → Option (List Char × List Char)
  | [] => none
  | [c] => if !isEscape quote c && c == quote && !tripled then some ([c], []) else none
  | c :: d :: r =>
    if isEscape quote c then
      (stringTail quote tripled r).map fun (s, t) => (c :: d :: s, t)
    else if c = quote ∧ tripled = false then some ([c], d :: r)
    else if c = quote ∧ (d :: r).take 2 = [quote, quote] then
      some ([quote, quote, quote], (d :: r).drop 2)
    else (stringTail quote tripled (d :: r)).map fun (s, t) => (c :: s, t)

/-- A string that starts with the given quote and goes on with `s`, and what follows it. -/
def splitString (quote : Char) (s : List Char) : Option (List Char × List Char) :=
  if s.take 2 = [quote, quote] then
    (stringTail quote true (s.drop 2)).map fun (x, t) => (quote :: quote :: quote :: x, t)
  else (stringTail quote false s).map fun (x, t) => (quote :: x, t)

/-- The text of an array after its opening bracket: the values with all that stands between them,
what stands between the last value and the closing bracket, and what follows the array. -/
structure ArrayText where
  values : List Char
  gap : List Char
  rest : List Char
  deriving DecidableEq

namespace ArrayText

/-- The text after an opening bracket that was cut. -/
def text (a : ArrayText) : List Char := a.values ++ a.gap ++ ']' :: a.rest

/-- Put a part of a value in front. -/
def token (s : List Char) (a : ArrayText) : ArrayText := { a with values := s ++ a.values }

/-- Put blanks or a comment in front. -/
def space (s : List Char) (a : ArrayText) : ArrayText :=
  if a.values = [] then { a with gap := s ++ a.gap } else { a with values := s ++ a.values }

@[simp] theorem text_token (s : List Char) (a : ArrayText) : (token s a).text = s ++ a.text := by
  simp [token, text]

@[simp] theorem text_space (s : List Char) (a : ArrayText) : (space s a).text = s ++ a.text := by
  unfold space
  split <;> simp_all [text]

end ArrayText

theorem stringTail_eq_append {quote : Char} {tripled : Bool} {s x t : List Char}
    (h : stringTail quote tripled s = some (x, t)) : s = x ++ t := by
  fun_induction stringTail quote tripled s generalizing x t with
  | case1 => simp at h
  | case2 c hc =>
    obtain ⟨rfl, rfl⟩ := Prod.mk.inj (Option.some.inj h)
    rfl
  | case3 => simp at h
  | case4 c d r _ ih =>
    obtain ⟨⟨y, u⟩, hy, he⟩ := Option.map_eq_some_iff.1 h
    obtain ⟨rfl, rfl⟩ := Prod.mk.inj he
    simp [ih hy]
  | case5 c d r _ _ =>
    obtain ⟨rfl, rfl⟩ := Prod.mk.inj (Option.some.inj h)
    rfl
  | case6 c d r _ _ hq =>
    obtain ⟨rfl, rfl⟩ := Prod.mk.inj (Option.some.inj h)
    have := List.take_append_drop 2 (d :: r)
    rw [hq.2] at this
    rw [hq.1, ← this]
    simp
  | case7 c d r _ _ _ ih =>
    obtain ⟨⟨y, u⟩, hy, he⟩ := Option.map_eq_some_iff.1 h
    obtain ⟨rfl, rfl⟩ := Prod.mk.inj he
    simp [ih hy]

/-- A string and what follows it are the text. -/
theorem splitString_eq_append {quote : Char} {s x t : List Char}
    (h : splitString quote s = some (x, t)) : quote :: s = x ++ t := by
  unfold splitString at h
  split at h
  · next hq =>
    obtain ⟨⟨y, u⟩, hy, he⟩ := Option.map_eq_some_iff.1 h
    obtain ⟨rfl, rfl⟩ := Prod.mk.inj he
    have := List.take_append_drop 2 s
    rw [hq, stringTail_eq_append hy] at this
    simp [← this]
  · obtain ⟨⟨y, u⟩, hy, he⟩ := Option.map_eq_some_iff.1 h
    obtain ⟨rfl, rfl⟩ := Prod.mk.inj he
    simp [stringTail_eq_append hy]

theorem length_of_splitString {quote : Char} {s x t : List Char}
    (h : splitString quote s = some (x, t)) : t.length ≤ s.length := by
  have hx : x ≠ [] := by
    unfold splitString at h
    split at h <;>
    · obtain ⟨⟨y, u⟩, -, he⟩ := Option.map_eq_some_iff.1 h
      obtain ⟨rfl, rfl⟩ := Prod.mk.inj he
      simp
  have hl := congrArg List.length (splitString_eq_append h)
  have := List.length_pos_iff.2 hx
  simp only [List.length_cons, List.length_append] at hl
  omega

/-- Cut the text of an array whose opening bracket, with `depth` further ones, stands before. -/
def scanArray (depth : Nat) (s : List Char) : Except ArrayFault ArrayText :=
  match s with
  | [] => .error .unclosed
  | c :: r =>
    if c = '#' then
      (scanArray depth (r.dropWhile (· ≠ '\n'))).map
        (ArrayText.space (c :: r.takeWhile (· ≠ '\n')))
    else if c = '\x22' ∨ c = '\x27' then
      match _h : splitString c r with
      | none => .error .unterminatedString
      | some (x, t) => (scanArray depth t).map (ArrayText.token x)
    else if c = '[' then (scanArray (depth + 1) r).map (ArrayText.token [c])
    else if c = ']' then
      match depth with
      | 0 => .ok ⟨[], [], r⟩
      | d + 1 => (scanArray d r).map (ArrayText.token [c])
    else if isBlank c then (scanArray depth r).map (ArrayText.space [c])
    else (scanArray depth r).map (ArrayText.token [c])
termination_by s.length
decreasing_by
  · exact Nat.lt_succ_of_le (List.dropWhile_sublist _).length_le
  · exact Nat.lt_succ_of_le (length_of_splitString _h)
  all_goals exact Nat.lt_succ_self _

namespace ArrayText

/-- What an item needs before it: a comma, unless the last value has one or there is no value. -/
def comma (a : ArrayText) : List Char :=
  if a.values = [] ∨ a.values.getLast? = some ',' then [] else [',']

/-- The text of the array without its closing bracket. -/
def inside (a : ArrayText) : List Char := '[' :: a.values ++ a.gap

/-- How far the lines of the array are moved right: as far as the first that says something. -/
def indent (a : ArrayText) : List Char :=
  match ((lines a.inside).drop 1).find? (trim · ≠ []) with
  | some line => indentation line
  | none => "    ".toList

/-- The array with one more item, in the layout of the items before it. -/
def insertItem (item : String) (a : ArrayText) : List Char :=
  let quoted := '\x22' :: item.toList ++ ['\x22']
  let head := '[' :: a.values ++ a.comma
  if '\n' ∉ a.inside then
    if a.values = [] then '[' :: quoted ++ [']']
    else head ++ ' ' :: quoted ++ a.gap ++ [']']
  else if '\n' ∈ a.gap then
    head ++ a.gap.takeWhile (· ≠ '\n') ++ '\n' :: a.indent ++ quoted ++ ",\n".toList ++
      (a.gap.dropWhile (· ≠ '\n')).drop 1 ++ [']']
  else head ++ a.gap ++ '\n' :: a.indent ++ quoted ++ ",\n".toList ++ [']']

end ArrayText

end WitCaller.Manifest
