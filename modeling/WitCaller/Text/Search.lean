/-!
Cutting a text at a character or at a shorter text.
-/

namespace WitCaller.Text

/-- The parts of a text between the occurrences of a character; one more than there are. -/
def splitOn (sep : Char) : List Char → List (List Char)
  | [] => [[]]
  | c :: r =>
    if c = sep then [] :: splitOn sep r
    else match splitOn sep r with
      | [] => [[c]]
      | p :: ps => (c :: p) :: ps

/-- What stands before and after the first occurrence of `m`. -/
def cut (m : List Char) : List Char → Option (List Char × List Char)
  | [] => if m = [] then some ([], []) else none
  | c :: r =>
    if m.isPrefixOf (c :: r) then some ([], (c :: r).drop m.length)
    else (cut m r).map fun (a, b) => (c :: a, b)

/-- Whether `m` occurs in the text. -/
def contains (m s : List Char) : Bool := (cut m s).isSome

/-- What follows the last occurrence of a character, or the whole text without one. -/
def afterLast (sep : Char) (s : List Char) : List Char :=
  (s.reverse.takeWhile (· ≠ sep)).reverse

/-- What precedes the first occurrence of a character, or the whole text without one. -/
def beforeFirst (sep : Char) (s : List Char) : List Char := s.takeWhile (· ≠ sep)

/-- Texts put together with a separator between neighbours. -/
def join (sep : String) : List String → String
  | [] => ""
  | [s] => s
  | s :: t :: r => s ++ sep ++ join sep (t :: r)

theorem cut_eq_append {m s a b : List Char} (h : cut m s = some (a, b)) : s = a ++ m ++ b := by
  induction s generalizing a with
  | nil =>
    simp only [cut] at h
    split at h <;> simp_all
  | cons c r ih =>
    simp only [cut] at h
    split at h
    · next hp =>
      obtain ⟨t, ht⟩ := List.isPrefixOf_iff_prefix.1 hp
      obtain ⟨rfl, rfl⟩ : a = [] ∧ b = (c :: r).drop m.length := by simp_all
      rw [← ht]
      simp
    · obtain ⟨p, hp, he⟩ := Option.map_eq_some_iff.1 h
      obtain ⟨rfl, rfl⟩ := Prod.mk.inj he
      simp [ih hp]

end WitCaller.Text
