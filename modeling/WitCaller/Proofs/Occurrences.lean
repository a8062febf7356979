import Mathlib.Data.List.Infix
import WitCaller.Text.Search

/-!
Where a text occurs in another one. An occurrence lies on one side of a seam or over it, and a text is
cut at the first occurrence of a mark: the mark is not in what stands before it, nor over the seam.
-/

namespace WitCaller

namespace Text
variable {m s a b w n y : List Char} {c : Char}

theorem contains_iff : contains m s = true ↔ m <:+: s := by
  induction s with
  | nil =>
    rw [contains, cut, List.infix_nil]
    split <;> simp [*]
  | cons c r ih =>
    rw [contains, cut, List.infix_cons_iff]
    split
    · next h => simp [List.isPrefixOf_iff_prefix.1 h]
    · next h =>
      have hprefix : ¬ m <+: c :: r := fun hp => h (List.isPrefixOf_iff_prefix.2 hp)
      rw [Option.isSome_map, or_iff_right hprefix]
      exact ih

/-- What does not hold a separator starts a text with it only if it starts what stands before it. -/
theorem prefix_separated_iff (hc : c ∉ m) : m <+: a ++ c :: b ↔ m <+: a := by
  constructor
  · intro h
    induction a generalizing m with
    | nil =>
      cases m with
      | nil => exact List.nil_prefix
      | cons d m =>
        obtain ⟨rfl, -⟩ := List.cons_prefix_cons.1 h
        exact absurd List.mem_cons_self hc
    | cons d a ih =>
      cases m with
      | nil => exact List.nil_prefix
      | cons e m =>
        obtain ⟨rfl, hrest⟩ := List.cons_prefix_cons.1 h
        exact List.cons_prefix_cons.2 ⟨rfl, ih (List.not_mem_of_not_mem_cons hc) hrest⟩
  · intro h
    exact h.trans (List.prefix_append a _)

/-- What does not hold a separator stands on one side of it. -/
theorem infix_separated_iff (hc : c ∉ m) : m <:+: a ++ c :: b ↔ m <:+: a ∨ m <:+: b := by
  have hprefix {l : List Char} (hl : c ∉ l) (h : l <+: c :: b) : l = [] := by
    rw [← List.nil_append (c :: b), prefix_separated_iff hl] at h
    exact List.prefix_nil.1 h
  rw [List.infix_append_iff, List.infix_cons_iff]
  constructor
  · -- A part that starts before the separator and ends after it would hold it.
    rintro (h | (h | h) | ⟨l₁, l₂, rfl, h₁, h₂⟩)
    · exact .inl h
    · have hm : m = [] := hprefix hc h
      exact .inl (hm ▸ List.nil_infix)
    · exact .inr h
    · have hl : l₂ = [] := hprefix (fun hl => hc (List.mem_append_right _ hl)) h₂
      rw [hl, List.append_nil]
      exact .inl h₁.isInfix
  · rintro (h | h)
    · exact .inl h
    · exact .inr (.inl (.inr h))

/-- A word before a mark that is neither in it nor before is the end of what stands before. -/
theorem infix_marked_iff (hw : w ≠ []) (hcw : c ∉ w) (hn : c ∉ n) :
    w ++ [c] <:+: n ++ c :: y ↔ w <:+ n ∨ w ++ [c] <:+: y := by
  have hmem : c ∈ w ++ [c] := List.mem_append_right _ (List.mem_singleton_self c)
  constructor
  · intro h
    rcases List.infix_append_iff.1 h with h | h | ⟨l₁, l₂, hsplit, h₁, h₂⟩
    · exact absurd (h.subset hmem) hn
    · rcases List.infix_cons_iff.1 h with h | h
      · cases w with
        | nil => exact absurd rfl hw
        | cons d w =>
          rw [List.cons_append, List.cons_prefix_cons] at h
          exact absurd (h.1 ▸ List.mem_cons_self) hcw
      · exact .inr h
    · -- The seam is in front of the mark, so the whole word stands on the left of it.
      have hl₁ : c ∉ l₁ := fun hl => hn (h₁.subset hl)
      cases l₂ with
      | nil =>
        rw [List.append_nil] at hsplit
        exact absurd (hsplit ▸ hmem) hl₁
      | cons d l₂ =>
        obtain ⟨rfl, -⟩ := List.cons_prefix_cons.1 h₂
        obtain ⟨rfl, -, -⟩ := (List.append_cons_inj_of_notMem hcw List.not_mem_nil).1 hsplit
        exact .inl h₁
  · rintro (⟨before, rfl⟩ | h)
    · exact ⟨before, y, by simp⟩
    · exact h.trans ((List.suffix_cons _ _).trans (List.suffix_append _ _)).isInfix

/-- A word between two marks occurs before its own start only if it ends there: the first mark would
have to be its second one. -/
theorem infix_enclosed_iff (hw : c ∉ w) :
    c :: w ++ [c] <:+: a ++ c :: w ↔ c :: w ++ [c] <:+: a ∨ c :: w <:+ a := by
  constructor
  · intro h
    rcases List.infix_append_iff.1 h with h | h | ⟨l₁, l₂, hsplit, h₁, h₂⟩
    · exact .inl h
    · have hlength := h.length_le
      rw [List.length_append, List.length_singleton] at hlength
      omega
    · rcases List.eq_nil_or_concat l₂ with rfl | ⟨l, d, rfl⟩
      · rw [List.append_nil] at hsplit
        exact .inl (hsplit ▸ h₁.isInfix)
      · -- The last character over the seam is a mark, and the only mark after the seam is at it.
        rw [List.concat_eq_append, ← List.append_assoc] at hsplit
        obtain ⟨hl₁, hd⟩ := List.append_inj' hsplit rfl
        obtain rfl : c = d := List.singleton_inj.1 hd
        cases l with
        | nil =>
          rw [List.append_nil] at hl₁
          exact .inr (hl₁ ▸ h₁)
        | cons e l =>
          rw [List.concat_eq_append, List.cons_append, List.cons_prefix_cons] at h₂
          exact absurd (h₂.2.subset (List.mem_append_right l (List.mem_singleton_self c))) hw
  · rintro (h | ⟨before, rfl⟩)
    · exact h.trans (List.prefix_append a _).isInfix
    · exact ⟨before, w, by simp⟩

/-- A mark that is not in the second part of a text is in the first. -/
theorem exists_of_append_mark (h : s ++ n = a ++ c :: b) (hn : c ∉ n) :
    ∃ t, s = a ++ c :: t ∧ b = t ++ n := by
  rcases List.append_eq_append_iff.1 h with ⟨t, rfl, rfl⟩ | ⟨t, rfl, ht⟩
  · exact absurd (List.mem_append_right t List.mem_cons_self) hn
  · cases t with
    | nil =>
      rw [List.nil_append] at ht
      exact absurd (ht ▸ List.mem_cons_self) hn
    | cons d t =>
      obtain ⟨rfl, rfl⟩ := List.cons.inj ht
      exact ⟨t, rfl, rfl⟩

theorem append_mark (hm : m ≠ []) : a ++ m ++ b = a ++ m.dropLast ++ m.getLast hm :: b := by
  conv_lhs => rw [← List.dropLast_append_getLast hm]
  simp

/-- The first occurrence of a mark that a text begins with is at the start. -/
theorem eq_nil_of_mark_prefix (hm : m ≠ []) (h : m <+: a ++ m ++ b)
    (hfirst : ¬ m <:+: a ++ m.dropLast) : a = [] := by
  cases a with
  | nil => rfl
  | cons d a =>
    have hlength : m.length ≤ (d :: a ++ m.dropLast).length := by
      rw [List.length_append, List.length_dropLast, List.length_cons]
      omega
    have hlonger : d :: a ++ m.dropLast <+: d :: a ++ m ++ b := ⟨m.getLast hm :: b, (append_mark hm).symm⟩
    exact absurd (List.prefix_of_prefix_length_le h hlonger hlength).isInfix hfirst

/-- A text is cut at the first occurrence of a mark. -/
theorem cut_eq_some_iff (hm : m ≠ []) :
    cut m s = some (a, b) ↔ s = a ++ m ++ b ∧ ¬ m <:+: a ++ m.dropLast := by
  induction s generalizing a with
  | nil =>
    rw [cut, if_neg hm]
    simp [hm]
  | cons c r ih =>
    rw [cut]
    split
    · next h =>
      -- The mark stands at the start, so it occurs in whatever is longer than it.
      obtain ⟨t, ht⟩ := List.isPrefixOf_iff_prefix.1 h
      rw [← ht, List.drop_left]
      constructor
      · intro hcut
        obtain ⟨rfl, rfl⟩ := Prod.mk.inj (Option.some.inj hcut)
        refine ⟨rfl, fun hin => absurd hin.length_le ?_⟩
        rw [List.nil_append, List.length_dropLast, Nat.not_le]
        exact Nat.sub_lt (List.length_pos_iff.2 hm) Nat.one_pos
      · rintro ⟨hsplit, hfirst⟩
        obtain rfl := eq_nil_of_mark_prefix hm ⟨t, hsplit⟩ hfirst
        rw [List.nil_append] at hsplit
        rw [List.append_cancel_left hsplit]
    · next h =>
      have hprefix : ¬ m <+: c :: r := fun hp => h (List.isPrefixOf_iff_prefix.2 hp)
      rw [Option.map_eq_some_iff]
      constructor
      · rintro ⟨⟨a', b'⟩, hcut, he⟩
        obtain ⟨rfl, rfl⟩ := Prod.mk.inj he
        obtain ⟨hsplit, hfirst⟩ := ih.1 hcut
        refine ⟨by rw [hsplit]; rfl, fun hin => ?_⟩
        rcases List.infix_cons_iff.1 hin with hin | hin
        · refine hprefix (hin.trans ⟨m.getLast hm :: b', ?_⟩)
          rw [hsplit, append_mark hm]
          rfl
        · exact hfirst hin
      · rintro ⟨hsplit, hfirst⟩
        cases a with
        | nil => exact absurd ⟨b, hsplit.symm⟩ hprefix
        | cons d a =>
          rw [List.cons_append, List.cons_append] at hsplit
          obtain ⟨rfl, hrest⟩ := List.cons.inj hsplit
          refine ⟨(a, b), ih.2 ⟨hrest, fun hin => hfirst ?_⟩, rfl⟩
          exact List.infix_cons_iff.2 (.inr hin)

/-- Where a text is cut does not depend on what comes after it. -/
theorem cut_append_right (hm : m ≠ []) (h : cut m s = some (a, b)) (t : List Char) :
    cut m (s ++ t) = some (a, b ++ t) := by
  obtain ⟨rfl, hfirst⟩ := (cut_eq_some_iff hm).1 h
  exact (cut_eq_some_iff hm).2 ⟨List.append_assoc _ b t, hfirst⟩

end Text

end WitCaller
