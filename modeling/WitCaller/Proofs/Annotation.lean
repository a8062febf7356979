import WitCaller.Proofs.Lines

/-!
A text with a note at the end of one of its lines, before the characters that end the line. The other
lines stay as they are, whatever the lines end in.
-/

namespace WitCaller

namespace Text
variable {c : Char} {note s t line : List Char} {l : List Char} {ls : List (List Char)} {n : Nat}

/-- A line with a note before the characters that end it. -/
def noted (note : List Char) (line : List Char) : List Char :=
  line.takeWhile (!isLineBreak ·) ++ (note ++ line.dropWhile (!isLineBreak ·))

/-- The text with a note at the end of its line `n`. -/
def annotate (n : Nat) (note s : List Char) : List Char :=
  ((fullLines s).modify n (noted note)).flatten

theorem noted_cons (hc : isLineBreak c = false) (l : List Char) :
    noted note (c :: l) = c :: noted note l := by
  rw [noted, List.takeWhile_cons_of_pos (by simp [hc]), List.dropWhile_cons_of_pos (by simp [hc]), noted,
    List.cons_append]

theorem noted_break (hc : isLineBreak c = true) (l : List Char) :
    noted note (c :: l) = note ++ c :: l := by
  rw [noted, List.takeWhile_cons_of_neg (by simp [hc]), List.dropWhile_cons_of_neg (by simp [hc]),
    List.nil_append]

/-- What stands before all line breaks of a text stands at the start of its first line. -/
theorem fullLines_append (hnote : Unbroken note) (ht : fullLines t = l :: ls) :
    fullLines (note ++ t) = (note ++ l) :: ls := by
  induction note with
  | nil => exact ht
  | cons c note ih =>
    obtain ⟨hc, hnote⟩ := List.forall_mem_cons.1 hnote
    rw [List.cons_append, fullLines_cons hc, ih hnote, consLine, List.cons_append]

theorem fullLines_of_unbroken (h : Unbroken s) (hne : s ≠ []) : fullLines s = [s] := by
  induction s with
  | nil => exact absurd rfl hne
  | cons c s ih =>
    obtain ⟨hc, hs⟩ := List.forall_mem_cons.1 h
    rw [fullLines_cons hc]
    cases s with
    | nil => rfl
    | cons d s => rw [ih hs (List.cons_ne_nil _ _), consLine]

theorem exists_fullLines_cons (c : Char) (s : List Char) : ∃ l ls, fullLines (c :: s) = (c :: l) :: ls := by
  cases hc : isLineBreak c with
  | false =>
    rw [fullLines_cons hc]
    cases fullLines s with
    | nil => exact ⟨[], [], rfl⟩
    | cons l ls => exact ⟨l, ls, rfl⟩
  | true =>
    by_cases hfeed : c = '\r' → s.head? ≠ some '\n'
    · exact ⟨[], fullLines s, fullLines_break hc hfeed⟩
    · obtain ⟨rfl, hs⟩ := Classical.not_imp.1 hfeed
      have hs : s.head? = some '\n' := Decidable.not_not.1 hs
      obtain ⟨r, rfl⟩ := List.head?_eq_some_iff.1 hs
      exact ⟨['\n'], fullLines r, by rw [fullLines]⟩

/-- A note does not put a line feed at the start of a text. -/
theorem head?_annotate (hnote : Unbroken note) (h : (annotate n note s).head? = some '\n') :
    s.head? = some '\n' := by
  cases s with
  | nil =>
    rw [annotate, fullLines, List.modify_nil] at h
    cases h
  | cons c s =>
    obtain ⟨l, ls, hlines⟩ := exists_fullLines_cons c s
    rw [annotate, hlines] at h
    cases n with
    | succ n => exact h
    | zero =>
      rw [List.modify_zero_cons, List.flatten_cons] at h
      cases hc : isLineBreak c with
      | false =>
        rw [noted_cons hc] at h
        exact h
      | true =>
        rw [noted_break hc] at h
        cases note with
        | nil => exact h
        | cons d note =>
          cases h
          exact absurd (hnote '\n' List.mem_cons_self) (by decide)

/-- The lines of a text with a note are those of the text, one of them with the note. -/
theorem fullLines_annotate (hnote : Unbroken note) (n : Nat) (s : List Char) :
    fullLines (annotate n note s) = (fullLines s).modify n (noted note) := by
  fun_induction fullLines s generalizing n with
  | case1 =>
    rw [annotate, fullLines, List.modify_nil]
    rfl
  | case2 r ih =>
    cases n with
    | zero =>
      rw [annotate, fullLines, List.modify_zero_cons, List.flatten_cons, flatten_fullLines,
        noted_break (by decide), List.append_assoc]
      exact fullLines_append hnote (by rw [List.cons_append, List.cons_append, List.nil_append, fullLines])
    | succ n =>
      rw [annotate, fullLines, List.modify_succ_cons, List.flatten_cons, ← annotate, List.cons_append,
        List.cons_append, List.nil_append, fullLines, ih]
  | case3 c r hnot hc ih =>
    have hfeed : c = '\r' → r.head? ≠ some '\n' := by
      rintro rfl hr
      obtain ⟨r', rfl⟩ := List.head?_eq_some_iff.1 hr
      exact hnot r' rfl rfl
    cases n with
    | zero =>
      rw [annotate, fullLines_break hc hfeed, List.modify_zero_cons, List.flatten_cons, flatten_fullLines,
        noted_break hc, List.append_assoc]
      exact fullLines_append hnote (fullLines_break hc hfeed)
    | succ n =>
      rw [annotate, fullLines_break hc hfeed, List.modify_succ_cons, List.flatten_cons, ← annotate,
        List.singleton_append, fullLines_break hc fun hreturn hhead =>
          hfeed hreturn (head?_annotate hnote hhead), ih]
  | case4 c r hnot hc ih =>
    have hc : isLineBreak c = false := by simpa using hc
    rw [annotate, fullLines_cons hc]
    have hrest := ih n
    rw [annotate] at hrest
    cases hr : fullLines r with
    | nil =>
      cases n with
      | succ n =>
        rw [consLine, List.modify_succ_cons, List.modify_nil, List.flatten_singleton, fullLines_cons hc,
          fullLines, consLine]
      | zero =>
        -- The text ends here without a line break.
        have hline : Unbroken (c :: note) := List.forall_mem_cons.2 ⟨hc, hnote⟩
        have hnoted : noted note [c] = c :: note := by
          rw [noted_cons hc]
          simp [noted]
        rw [consLine, List.modify_zero_cons, hnoted, List.flatten_singleton]
        exact fullLines_of_unbroken hline (List.cons_ne_nil c note)
    | cons l ls =>
      rw [hr] at hrest
      cases n with
      | zero =>
        rw [List.modify_zero_cons, List.flatten_cons] at hrest
        rw [consLine, List.modify_zero_cons, noted_cons hc, List.flatten_cons, List.cons_append,
          fullLines_cons hc, hrest, consLine]
      | succ n =>
        rw [List.modify_succ_cons, List.flatten_cons] at hrest
        rw [consLine, List.modify_succ_cons, List.flatten_cons, List.cons_append, fullLines_cons hc,
          hrest, consLine]

/-- A line with a note, without the characters that end it. -/
theorem takeWhile_noted (hnote : Unbroken note) (l : List Char) :
    (noted note l).takeWhile (!isLineBreak ·) = l.takeWhile (!isLineBreak ·) ++ note := by
  have hkept (c : Char) (hc : c ∈ l.takeWhile (!isLineBreak ·) ++ note) : (!isLineBreak c) = true := by
    rw [List.mem_append] at hc
    rcases hc with hc | hc
    · exact List.all_eq_true.1 List.all_takeWhile c hc
    · rw [hnote c hc, Bool.not_false]
  have hend : (l.dropWhile (!isLineBreak ·)).takeWhile (!isLineBreak ·) = [] := by
    have hstop := List.head?_dropWhile_not (!isLineBreak ·) l
    cases h : l.dropWhile (!isLineBreak ·) with
    | nil => rfl
    | cons c r =>
      rw [h] at hstop
      exact List.takeWhile_cons_of_neg (Bool.eq_false_iff.1 hstop)
  rw [noted, ← List.append_assoc, List.takeWhile_append_of_pos hkept, hend, List.append_nil]

/-- A text with a note has the same lines but for the one with the note. -/
theorem lines_annotate (hnote : Unbroken note) (hline : (lines s)[n]? = some line) :
    lines (annotate n note s) = (lines s).take n ++ (line ++ note) :: (lines s).drop (n + 1) := by
  obtain ⟨hn, hget⟩ := List.getElem?_eq_some_iff.1 hline
  have hfull : n < (fullLines s).length := by simpa [lines] using hn
  have hraw : ((fullLines s)[n]).takeWhile (!isLineBreak ·) = line := by
    rw [← hget]
    simp [lines]
  rw [lines, fullLines_annotate hnote, List.modify_eq_take_cons_drop hfull, List.map_append,
    List.map_cons, takeWhile_noted hnote, hraw, List.map_take, List.map_drop]
  rfl

end Text

end WitCaller
