/-!
Blank characters, and what is left of a text without the blanks at its ends.
A blank is a Unicode white space character or one of the four separators U+001C to U+001F.
-/

namespace WitCaller.Text

/-- White space in the widest sense: U+200B and U+FEFF do not count. -/
def isBlank (c : Char) : Bool :=
  let n := c.toNat
  (9 ≤ n && n ≤ 13) || (28 ≤ n && n ≤ 32) || n == 0x85 || n == 0xA0 || n == 0x1680 ||
    (0x2000 ≤ n && n ≤ 0x200A) || n == 0x2028 || n == 0x2029 || n == 0x202F || n == 0x205F ||
    n == 0x3000

/-- The text without its leading blanks. -/
def trimLeft (s : List Char) : List Char := s.dropWhile isBlank

/-- The text without its trailing blanks. -/
def trimRight (s : List Char) : List Char := (s.reverse.dropWhile isBlank).reverse

/-- The text without the blanks at both ends. -/
def trim (s : List Char) : List Char := trimRight (trimLeft s)

/-- The leading blanks of a text. -/
def indentation (s : List Char) : List Char := s.takeWhile isBlank

/-- The letters and digits of ASCII lie within one range without blanks and line breaks. -/
theorem toNat_of_isAlphanum {c : Char} (h : c.isAlphanum = true) : 48 ≤ c.toNat ∧ c.toNat ≤ 122 := by
  have hclass : ((decide (65 ≤ c.toNat ∧ c.toNat ≤ 90) ||
      (decide (97 ≤ c.toNat) && decide (c.toNat ≤ 122))) ||
        (decide (48 ≤ c.toNat) && decide (c.toNat ≤ 57))) = true := h
  simp only [Bool.or_eq_true, Bool.and_eq_true, decide_eq_true_eq] at hclass
  omega

theorem indentation_append_trimLeft (s : List Char) : indentation s ++ trimLeft s = s :=
  List.takeWhile_append_dropWhile

theorem length_lt_of_dropWhile {p q : Char → Bool} {s r : List Char} {c : Char}
    (h : s.dropWhile p = c :: r) : (r.dropWhile q).length < s.length := by
  have h₁ : (s.dropWhile p).length ≤ s.length := (List.dropWhile_sublist p).length_le
  have h₂ : (r.dropWhile q).length ≤ r.length := (List.dropWhile_sublist q).length_le
  rw [h, List.length_cons] at h₁
  omega

/-- The maximal runs of characters that are not blank, in order. -/
def words (s : List Char) : List (List Char) :=
  match _h : s.dropWhile isBlank with
  | [] => []
  | c :: r => (c :: r.takeWhile (!isBlank ·)) :: words (r.dropWhile (!isBlank ·))
termination_by s.length
decreasing_by exact length_lt_of_dropWhile _h

end WitCaller.Text
