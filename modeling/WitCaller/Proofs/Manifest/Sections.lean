import WitCaller.Manifest.Edit
import WitCaller.Proofs.Blanks
import WitCaller.Proofs.Toml.Statements

/-!
A manifest cut at the place of a new dependency, and what its lines say where it is cut.
-/

namespace WitCaller.Manifest
open Toml Text
variable {c : Cut} {d e : Char} {s t w w' x y r text : List Char} {ls : List (List Char)} {name table : String}

/-- The text above the place of a new dependency. -/
def Cut.above (c : Cut) : List Char := c.before.flatten ++ c.header ++ (withoutBlankTail c.body).flatten

/-- The text below the place of a new dependency. -/
def Cut.below (c : Cut) : List Char := (blankTail c.body).flatten ++ c.after.flatten

theorem withoutBlankTail_append_blankTail : withoutBlankTail ls ++ blankTail ls = ls := by
  rw [withoutBlankTail, blankTail, ← List.reverse_append, List.takeWhile_append_dropWhile,
    List.reverse_reverse]

theorem above_append_below (h : cutAt? table (fullLines text) = some c) : c.above ++ c.below = text := by
  have hbody : (withoutBlankTail c.body).flatten ++ (blankTail c.body).flatten = c.body.flatten := by
    rw [← List.flatten_append, withoutBlankTail_append_blankTail]
  have hlines := congrArg List.flatten (lines_of_cutAt? h)
  rw [flatten_fullLines] at hlines
  rw [← hlines, Cut.above, Cut.below, ← List.append_assoc, List.append_assoc _ _ (blankTail c.body).flatten,
    hbody]
  simp [Cut.lines]

theorem addDependency_eq_of_none {path : String} (h : cutAt? "dependencies" (fullLines text) = none) :
    addDependency name path text = endLine text ++ dependencyTable name path := by
  rw [addDependency, h]

theorem addDependency_eq {path : String} (h : cutAt? "dependencies" (fullLines text) = some c) :
    addDependency name path text = endLine c.above ++ (dependencyLine name path ++ c.below) := by
  rw [addDependency, h]
  simp [Cut.above, Cut.below]

theorem isBlank_of_indentation (s : List Char) : ∀ d ∈ indentation s, isBlank d :=
  List.all_eq_true.1 List.all_takeWhile

/-- A line of which nothing is left without blanks has nothing else. -/
theorem isBlank_of_trim (h : trim s = []) : ∀ d ∈ s, isBlank d := by
  intro d hd
  rw [← indentation_append_trimLeft s, List.mem_append] at hd
  rcases hd with hd | hd
  · exact isBlank_of_indentation s d hd
  · exact trimRight_eq_nil_iff.1 h d hd

theorem isBlank_of_blankTail : ∀ d ∈ (blankTail ls).flatten, isBlank d := by
  intro d hd
  obtain ⟨l, hl, hd⟩ := List.mem_flatten.1 hd
  rw [blankTail, List.mem_reverse] at hl
  have ht := List.all_eq_true.1 List.all_takeWhile l hl
  exact isBlank_of_trim (by simpa using ht) d hd

theorem chomp_prefix (s : List Char) : ∃ e, s = chomp s ++ e := by
  refine ⟨(s.reverse.takeWhile fun c => c == '\r' || c == '\n').reverse, ?_⟩
  rw [chomp, ← List.reverse_append, List.takeWhile_append_dropWhile, List.reverse_reverse]

/-- A line that looks like a header is a bracket after blanks. -/
theorem bracket_of_isHeader (h : isHeader s) : ∃ b r, s = b ++ '[' :: r ∧ ∀ d ∈ b, isBlank d := by
  obtain ⟨e, he⟩ := chomp_prefix s
  have hline := indentation_append_trimLeft (chomp s)
  rw [isHeader, headerName?] at h
  split at h
  · next r hr =>
    rw [hr] at hline
    refine ⟨indentation (chomp s), r ++ e, ?_, isBlank_of_indentation _⟩
    exact he.trans ((congrArg (· ++ e) hline.symm).trans (List.append_assoc _ _ _))
  · cases h

/-- Below a new dependency stand blanks, and perhaps a header. -/
theorem below_split (h : cutAt? table ls = some c) : ∃ b t, c.below = b ++ t ∧ (∀ d ∈ b, isBlank d) ∧
    (t = [] ∨ ∃ r, t = '[' :: r) := by
  have hafter : c.after = [] ∨ ∃ l rest, c.after = l :: rest ∧ isHeader l := by
    unfold cutAt? at h
    split at h
    · cases h
    · next header r _ =>
      cases h
      show r.dropWhile (!isHeader ·) = [] ∨ _
      cases hd : r.dropWhile (!isHeader ·) with
      | nil => exact .inl rfl
      | cons l rest =>
        have hl := List.head?_dropWhile_not (!isHeader ·) r
        rw [hd] at hl
        exact .inr ⟨l, rest, rfl, by simpa using hl⟩
  rcases hafter with hnil | ⟨l, rest, hcons, hl⟩
  · refine ⟨(blankTail c.body).flatten, [], ?_, isBlank_of_blankTail, .inl rfl⟩
    rw [Cut.below, hnil, List.flatten_nil]
  · obtain ⟨b, r, rfl, hb⟩ := bracket_of_isHeader hl
    refine ⟨(blankTail c.body).flatten ++ b, '[' :: (r ++ rest.flatten), ?_, ?_, .inr ⟨_, rfl⟩⟩
    · simp [Cut.below, hcons]
    · intro d hd
      rcases List.mem_append.1 hd with hd | hd
      · exact isBlank_of_blankTail d hd
      · exact hb d hd

/-- A text has only gaps, or a first character that is none. -/
theorem gaps_split (s : List Char) : (∀ d ∈ s, isSpace d ∨ d = '\n') ∨
    ∃ w d r, s = w ++ d :: r ∧ (∀ e ∈ w, isSpace e ∨ e = '\n') ∧ ¬ (isSpace d ∨ d = '\n') := by
  induction s with
  | nil => exact .inl (by simp)
  | cons d s ih =>
    by_cases hd : isSpace d ∨ d = '\n'
    · rcases ih with hs | ⟨w, e, r, rfl, hw, he⟩
      · exact .inl (List.forall_mem_cons.2 ⟨hd, hs⟩)
      · exact .inr ⟨d :: w, e, r, rfl, List.forall_mem_cons.2 ⟨hd, hw⟩, he⟩
    · exact .inr ⟨[], d, s, rfl, by simp, hd⟩

/-- The first character that is no gap is determined by the text. -/
theorem eq_of_gaps (h : w ++ d :: x = w' ++ e :: y) (hw : ∀ c ∈ w, isSpace c ∨ c = '\n')
    (hw' : ∀ c ∈ w', isSpace c ∨ c = '\n') (hd : ¬ (isSpace d ∨ d = '\n')) (he : ¬ (isSpace e ∨ e = '\n')) :
    d = e := by
  rcases List.append_eq_append_iff.1 h with ⟨a, rfl, ha⟩ | ⟨a, rfl, ha⟩
  · cases a with
    | nil => exact (List.cons.inj ha).1
    | cons c a =>
      obtain ⟨rfl, -⟩ := List.cons.inj ha
      exact absurd (hw' d (by simp)) hd
  · cases a with
    | nil => exact (List.cons.inj ha).1.symm
    | cons c a =>
      obtain ⟨rfl, -⟩ := List.cons.inj ha
      exact absurd (hw e (by simp)) he

theorem below_gaps (h : cutAt? table ls = some c) : (∀ d ∈ c.below, isSpace d ∨ d = '\n') ∨
    ∃ w d r, c.below = w ++ d :: r ∧ (∀ e ∈ w, isSpace e ∨ e = '\n') ∧ ¬ (isSpace d ∨ d = '\n') ∧
      (isBlank d ∨ d = '[') := by
  obtain ⟨b, t, hs, hb, ht⟩ := below_split h
  rcases gaps_split c.below with hall | ⟨w, d, r, hw, hgap, hd⟩
  · exact .inl hall
  refine .inr ⟨w, d, r, hw, hgap, hd, ?_⟩
  rw [hs] at hw
  rcases List.append_eq_append_iff.1 hw with ⟨a, rfl, ha⟩ | ⟨a, rfl, ha⟩
  · rcases ht with rfl | ⟨r', rfl⟩
    · simp at ha
    · cases a with
      | nil => exact .inr (List.cons.inj ha).1.symm
      | cons f a =>
        obtain ⟨rfl, -⟩ := List.cons.inj ha
        exact absurd (hgap '[' (by simp)) (by decide)
  · cases a with
    | nil =>
      rcases ht with rfl | ⟨r', rfl⟩
      · cases ha
      · exact .inr (List.cons.inj ha).1
    | cons f a =>
      obtain ⟨rfl, -⟩ := List.cons.inj ha
      exact .inl (hb d (by simp))

end WitCaller.Manifest
