import Mathlib.Data.List.DropRight
import Mathlib.Data.List.TakeWhile
import WitCaller.Text.Blank

/-!
Texts without the blanks at their ends, and their words. A character that is no blank keeps what stands
on one side of it from being trimmed on the other, and a blank between two texts keeps their words apart.
-/

namespace WitCaller

namespace Text
variable {a b g s : List Char} {c : Char}

theorem ne_of_isBlank {d : Char} (hc : isBlank c = true) (hd : isBlank d = false) : c ≠ d := by
  rintro rfl
  rw [hc] at hd
  cases hd

theorem trimLeft_cons (hc : isBlank c = false) (s : List Char) : trimLeft (c :: s) = c :: s :=
  List.dropWhile_cons_of_neg (by simp [hc])

theorem trimLeft_cons_blank (hc : isBlank c = true) (s : List Char) : trimLeft (c :: s) = trimLeft s :=
  List.dropWhile_cons_of_pos hc

theorem trimLeft_append_cons (hc : isBlank c = false) :
    trimLeft (a ++ c :: b) = trimLeft a ++ c :: b := by
  induction a with
  | nil => exact trimLeft_cons hc b
  | cons d a ih =>
    cases hd : isBlank d with
    | true => rw [List.cons_append, trimLeft_cons_blank hd, trimLeft_cons_blank hd, ih]
    | false => rw [List.cons_append, trimLeft_cons hd, trimLeft_cons hd, List.cons_append]

theorem trimRight_eq (s : List Char) : trimRight s = (trimLeft s.reverse).reverse := rfl

theorem trimRight_append_cons (hc : isBlank c = false) :
    trimRight (a ++ c :: b) = a ++ c :: trimRight b := by
  have hreverse : (a ++ c :: b).reverse = b.reverse ++ c :: a.reverse := by simp
  rw [trimRight_eq, hreverse, trimLeft_append_cons hc, trimRight_eq]
  simp

/-- What is left around a character that is no blank. -/
theorem trim_append_cons (hc : isBlank c = false) :
    trim (a ++ c :: b) = trimLeft a ++ c :: trimRight b := by
  rw [trim, trimLeft_append_cons hc, trimRight_append_cons hc]

theorem trimLeft_trimLeft (s : List Char) : trimLeft (trimLeft s) = trimLeft s :=
  List.dropWhile_idempotent isBlank s

theorem trimLeft_append (h : trimLeft a ≠ []) (b : List Char) : trimLeft (a ++ b) = trimLeft a ++ b := by
  rw [trimLeft, List.dropWhile_append, ← trimLeft, if_neg (by simpa using h)]

/-- The start of a text without the blanks before it starts the text without those. -/
theorem trimLeft_mono (h : a <+: b) : trimLeft a <+: trimLeft b := by
  obtain ⟨t, rfl⟩ := h
  by_cases ha : trimLeft a = []
  · rw [ha]
    exact List.nil_prefix
  · rw [trimLeft_append ha]
    exact List.prefix_append _ t

theorem trimLeft_suffix (s : List Char) : trimLeft s <:+ s := List.dropWhile_suffix isBlank

theorem trimRight_append (s : List Char) : ∃ b, s = trimRight s ++ b ∧ ∀ c ∈ b, isBlank c := by
  refine ⟨(s.reverse.takeWhile isBlank).reverse, ?_, fun c hc => ?_⟩
  · rw [trimRight, ← List.reverse_append, List.takeWhile_append_dropWhile, List.reverse_reverse]
  · exact List.all_eq_true.1 List.all_takeWhile c (List.mem_reverse.1 hc)

theorem trimLeft_eq_nil_iff : trimLeft s = [] ↔ ∀ c ∈ s, isBlank c = true := List.dropWhile_eq_nil_iff

theorem trimRight_eq_nil_iff : trimRight s = [] ↔ ∀ c ∈ s, isBlank c = true := by
  rw [trimRight_eq, List.reverse_eq_nil_iff, trimLeft_eq_nil_iff]
  simp

theorem trimRight_trimRight (s : List Char) : trimRight (trimRight s) = trimRight s := by
  rw [trimRight_eq, trimRight_eq, List.reverse_reverse, trimLeft_trimLeft]

theorem prefix_trimRight (s : List Char) : trimRight s <+: s := by
  obtain ⟨b, hs, -⟩ := trimRight_append s
  exact ⟨b, hs.symm⟩

/-- Trimming once more leaves the start of a text that has no blanks before it. -/
theorem prefix_trim (h : a <+: trimLeft b) : trim a <+: trimLeft b := by
  have hleft := trimLeft_mono h
  rw [trimLeft_trimLeft] at hleft
  exact (prefix_trimRight _).trans hleft

/-- Only blanks are trimmed. -/
theorem count_trimLeft (hc : isBlank c = false) (s : List Char) : (trimLeft s).count c = s.count c := by
  induction s with
  | nil => rfl
  | cons d s ih =>
    cases hd : isBlank d with
    | true =>
      have hne : d ≠ c := fun he => Bool.noConfusion ((he ▸ hd).symm.trans hc)
      rw [trimLeft_cons_blank hd, ih, List.count_cons_of_ne hne]
    | false => rw [trimLeft_cons hd]

theorem count_trimRight (hc : isBlank c = false) (s : List Char) :
    (trimRight s).count c = s.count c := by
  rw [trimRight_eq, List.count_reverse, count_trimLeft hc, List.count_reverse]

theorem count_trim (hc : isBlank c = false) (s : List Char) : (trim s).count c = s.count c := by
  rw [trim, count_trimRight hc, count_trimLeft hc]

theorem trimLeft_of_unblank (h : s.any isBlank = false) : trimLeft s = s := by
  cases s with
  | nil => rfl
  | cons c s => exact trimLeft_cons (Bool.or_eq_false_iff.1 h).1 s

theorem trimLeft_after_blank (hs : s.any isBlank = false) (hne : s ≠ []) (b : List Char) :
    trimLeft (' ' :: (s ++ b)) = s ++ b := by
  have hleft : trimLeft s = s := trimLeft_of_unblank hs
  rw [trimLeft_cons_blank (by decide), trimLeft_append (by rwa [hleft]), hleft]

theorem trim_of_unblank (h : s.any isBlank = false) : trim s = s := by
  have hreverse : s.reverse.any isBlank = false := by rwa [List.any_reverse]
  rw [trim, trimLeft_of_unblank h, trimRight_eq, trimLeft_of_unblank hreverse, List.reverse_reverse]

theorem trimRight_append_of_blank (hb : ∀ c ∈ b, isBlank c = true) : trimRight (a ++ b) = trimRight a := by
  have hreverse : ∀ c ∈ b.reverse, isBlank c = true := fun c hc => hb c (List.mem_reverse.1 hc)
  rw [trimRight_eq, List.reverse_append, trimLeft, List.dropWhile_append_of_pos hreverse, ← trimLeft,
    ← trimRight_eq]

theorem trim_append_of_blank (hb : ∀ c ∈ b, isBlank c = true) : trim (a ++ b) = trim a := by
  by_cases ha : trimLeft a = []
  · have hall : trimLeft (a ++ b) = [] :=
      trimLeft_eq_nil_iff.2 (List.forall_mem_append.2 ⟨trimLeft_eq_nil_iff.1 ha, hb⟩)
    rw [trim, trim, hall, ha]
  · rw [trim, trimLeft_append ha, trimRight_append_of_blank hb, ← trim]

theorem trim_trimRight (s : List Char) : trim (trimRight s) = trim s := by
  obtain ⟨b, hs, hb⟩ := trimRight_append s
  exact (trim_append_of_blank hb).symm.trans (congrArg trim hs.symm)

/-- A text is what is left of it without the blanks at its ends, between blanks. -/
theorem trim_between (s : List Char) : ∃ b b', s = b ++ (trim s ++ b') ∧ (∀ c ∈ b, isBlank c) ∧
    ∀ c ∈ b', isBlank c := by
  obtain ⟨b', hs, hb'⟩ := trimRight_append (trimLeft s)
  refine ⟨s.takeWhile isBlank, b', ?_, List.all_eq_true.1 List.all_takeWhile, hb'⟩
  rw [trim, ← hs]
  exact (indentation_append_trimLeft s).symm

theorem trim_subset : trim s ⊆ s := fun _ hc =>
  (trimLeft_suffix s).subset ((prefix_trimRight _).subset hc)

theorem words_eq_nil (h : trimLeft s = []) : words s = [] := by
  unfold words
  split
  · rfl
  · next c r hs =>
    rw [trimLeft, hs] at h
    cases h

theorem words_cons_blank (hc : isBlank c = true) (s : List Char) : words (c :: s) = words s := by
  rw [words, words, List.dropWhile_cons_of_pos hc]

theorem words_append_of_blank (h : ∀ c ∈ a, isBlank c = true) (b : List Char) : words (a ++ b) = words b := by
  induction a with
  | nil => rfl
  | cons c a ih =>
    obtain ⟨hc, ha⟩ := List.forall_mem_cons.1 h
    rw [List.cons_append, words_cons_blank hc, ih ha]

theorem words_ne_nil (h : trimLeft s ≠ []) : words s ≠ [] := by
  unfold words
  split
  · next hs => exact absurd hs h
  · exact List.cons_ne_nil _ _

theorem words_cons (hc : isBlank c = false) (s : List Char) :
    words (c :: s) = (c :: s.takeWhile (!isBlank ·)) :: words (s.dropWhile (!isBlank ·)) := by
  rw [words, List.dropWhile_cons_of_neg (by simp [hc])]

/-- A text without blanks is a word. -/
theorem words_of_unblank (h : s.any isBlank = false) (hne : s ≠ []) : words s = [s] := by
  cases s with
  | nil => exact absurd rfl hne
  | cons c s =>
    obtain ⟨hc, hs⟩ := Bool.or_eq_false_iff.1 h
    have hall (d : Char) (hd : d ∈ s) : (!isBlank d) = true := by
      simpa using List.any_eq_false.1 hs d hd
    rw [words_cons hc, List.takeWhile_eq_self_iff.2 hall, List.dropWhile_eq_nil_iff.2 hall,
      words_eq_nil (s := []) rfl]

/-- A run of characters ends where a character stops it, whatever comes after that. -/
theorem run_append_cons {p : Char → Bool} (hc : p c = false) (a b : List Char) :
    (a ++ c :: b).takeWhile p = a.takeWhile p ∧ (a ++ c :: b).dropWhile p = a.dropWhile p ++ c :: b := by
  induction a with
  | nil => simp [hc]
  | cons d a ih => by_cases hd : p d = true <;> simp [hd, ih]

/-- A blank between two texts keeps their words apart. -/
theorem words_append_cons (hc : isBlank c = true) (a b : List Char) :
    words (a ++ c :: b) = words a ++ words b := by
  match a with
  | [] => rw [List.nil_append, words_cons_blank hc, words_eq_nil (s := []) rfl, List.nil_append]
  | d :: a =>
    cases hd : isBlank d with
    | true => rw [List.cons_append, words_cons_blank hd, words_cons_blank hd, words_append_cons hc a b]
    | false =>
      have hstop : (!isBlank c) = false := by simp [hc]
      obtain ⟨htake, hdrop⟩ := run_append_cons (p := (!isBlank ·)) hstop a b
      rw [List.cons_append, words_cons hd, words_cons hd, htake, hdrop,
        words_append_cons hc (a.dropWhile (!isBlank ·)) b, List.cons_append]
termination_by a.length
decreasing_by
  · exact Nat.lt_succ_of_le (List.dropWhile_sublist _).length_le
  · exact Nat.lt_succ_self _

end Text

end WitCaller
