import WitCaller.Proofs.Blanks
import WitCaller.Proofs.Manifest.MembersText

/-!
The line at which the array of members starts: up to the bracket it is the key and the equals sign of
a pair, or its blanks are none that a document may have.
-/

namespace WitCaller

namespace Text
variable {a b m s : List Char} {c : Char}

theorem not_mem_of_cut (h : cut [c] s = some (a, b)) : c ∉ a := by
  induction s generalizing a with
  | nil => cases h
  | cons d s ih =>
    unfold cut at h
    split at h
    · cases h
      exact List.not_mem_nil
    · next hd =>
      obtain ⟨⟨a', b'⟩, ha, he⟩ := Option.map_eq_some_iff.1 h
      cases he
      rw [List.mem_cons, not_or]
      refine ⟨?_, ih ha⟩
      rintro rfl
      simp at hd

end Text

namespace Manifest
open Toml Text Reading
variable {c : Char} {b b₁ b₂ b₃ g r s t w z line lead after : List Char}

/-- Blanks around the key and the equals sign of the array of members. -/
def assignment (b₁ b₂ b₃ : List Char) : List Char := b₁ ++ ("members".toList ++ (b₂ ++ '=' :: b₃))

theorem membersLine?_eq_some (h : membersLine? line = some (lead, after)) :
    line = lead ++ '[' :: after ∧ ∃ b₁ b₂ b₃, lead = assignment b₁ b₂ b₃ ∧ (∀ c ∈ b₁, isBlank c) ∧
      (∀ c ∈ b₂, isBlank c) ∧ ∀ c ∈ b₃, isBlank c := by
  unfold membersLine? at h
  split at h
  · next name r hcut =>
    have hline := cut_eq_append hcut
    have hname := not_mem_of_cut hcut
    simp only at h
    split at h
    · next hkey =>
      cases h
      have hlead : line.takeWhile (· ≠ '[') = name := by
        rw [hline, List.append_assoc, List.takeWhile_append_of_pos]
        · simp
        · intro c hc
          exact decide_eq_true fun he => hname (he ▸ hc)
      obtain ⟨t, ht⟩ := List.isPrefixOf_iff_prefix.1 hkey.1
      have hdrop : (trimLeft name).drop "members".length = t := by
        rw [← ht]
        rfl
      obtain ⟨b₂, b₃, hb, h₂, h₃⟩ := trim_between t
      rw [← hdrop, hkey.2, hdrop] at hb
      rw [hlead]
      refine ⟨by simpa using hline, indentation name, b₂, b₃, ?_,
        List.all_eq_true.1 List.all_takeWhile, h₂, h₃⟩
      have hfront := indentation_append_trimLeft name
      rw [← ht, hb] at hfront
      exact hfront.symm
    · cases h
  · cases h

/-- Blanks are skipped, unless one of them is none within a line. -/
theorem skipSpace_blanks (hb : ∀ c ∈ b, isBlank c) : (∀ c ∈ b, isSpace c) ∨
    ∃ d r, isBlank d ∧ isSpace d = false ∧ ∀ z, skipSpace (b ++ z) = d :: (r ++ z) := by
  induction b with
  | nil => exact .inl (by simp)
  | cons c b ih =>
    rw [List.forall_mem_cons] at hb
    by_cases hc : isSpace c
    · rcases ih hb.2 with hs | ⟨d, r, hd, hs, hskip⟩
      · exact .inl (List.forall_mem_cons.2 ⟨hc, hs⟩)
      · refine .inr ⟨d, r, hd, hs, fun z => ?_⟩
        rw [List.cons_append, skipSpace, List.dropWhile_cons_of_pos hc]
        exact hskip z
    · have hc : isSpace c = false := by simpa using hc
      exact .inr ⟨c, b, hb.1, hc, fun z => skipSpace_cons hc⟩

/-- The key ends before the blanks, none of which could be in it. -/
theorem outcome_readKey_members {z t : List Char} (h₂ : ∀ c ∈ b₂, isBlank c)
    (ht : skipSpace (b₂ ++ '=' :: z) = t) (hdot : ∀ r, t ≠ '.' :: r) :
    outcome (readKey ("members".toList ++ (b₂ ++ '=' :: z))) = some (["members"], t) := by
  have hhead : ∀ c r, b₂ ++ '=' :: z = c :: r → isBare c = false := by
    intro c r hcr
    cases b₂ with
    | nil =>
      cases hcr
      rfl
    | cons d b₂ =>
      cases hcr
      rw [← Bool.not_eq_true]
      intro hbare
      have hblank := h₂ c List.mem_cons_self
      rw [not_isBlank_of_isBare hbare] at hblank
      cases hblank
  have hdot' : ∀ r, skipSpace (b₂ ++ '=' :: z) ≠ '.' :: r := by
    rw [ht]
    exact hdot
  rw [outcome_readKey_bare (List.all_eq_true.1 (by decide)) (by decide) hhead hdot', ht]
  rfl

theorem outcome_readPair_members (h₂ : ∀ c ∈ b₂, isBlank c) (h₃ : ∀ c ∈ b₃, isBlank c) :
    (∀ z, outcome (readPair (assignment [] b₂ b₃ ++ '[' :: z)) = none) ∨
      ∀ z, outcome (readPair (assignment [] b₂ b₃ ++ '[' :: z)) =
        (outcome (readItems z)).map fun x => (⟨["members"], .array x.1⟩, skipSpace x.2) := by
  have he (z : List Char) : assignment [] b₂ b₃ ++ '[' :: z =
      "members".toList ++ (b₂ ++ '=' :: (b₃ ++ '[' :: z)) := by simp [assignment]
  rcases skipSpace_blanks h₂ with hs₂ | ⟨d, r, hd, hs, hskip⟩
  · have hkey (z : List Char) :
        outcome (readKey ("members".toList ++ (b₂ ++ '=' :: z))) = some (["members"], '=' :: z) := by
      refine outcome_readKey_members h₂ ?_ (by simp)
      rw [skipSpace_append hs₂]
      exact skipSpace_cons rfl
    rcases skipSpace_blanks h₃ with hs₃ | ⟨d, r, hd, hs, hskip⟩
    · refine .inr fun z => ?_
      have hvalue : skipSpace (b₃ ++ '[' :: z) = '[' :: z := by
        rw [skipSpace_append hs₃]
        exact skipSpace_cons rfl
      rw [he, outcome_readPair, hkey, Option.bind_some]
      simp only
      rw [hvalue, outcome_readValue_array]
      cases outcome (readItems z) <;> rfl
    · refine .inl fun z => ?_
      rw [he, outcome_readPair, hkey, Option.bind_some]
      simp only
      rw [hskip, outcome_readValue_blank hd hs]
      rfl
  · refine .inl fun z => ?_
    have hdot : ∀ r', d :: (r ++ '=' :: (b₃ ++ '[' :: z)) ≠ '.' :: r' := fun r' he =>
      ne_of_isBlank hd rfl (List.cons.inj he).1
    rw [he, outcome_readPair, outcome_readKey_members h₂ (hskip _) hdot, Option.bind_some]
    simp only
    split
    · next he => exact absurd (List.cons.inj he).1 (ne_of_isBlank hd rfl)
    · rfl

theorem filler_of_gaps (hg : ∀ c ∈ g, isSpace c ∨ c = '\n') : Filler false g := by
  induction g with
  | nil => exact fun _ => rfl
  | cons c g ih =>
    rw [List.forall_mem_cons] at hg
    exact fun z => (skipGaps_blank hg.1).trans (ih hg.2 z)

/-- The statements of a text that starts with the line of the array. -/
theorem readStatements_members (h₁ : ∀ c ∈ b₁, isBlank c) (h₂ : ∀ c ∈ b₂, isBlank c)
    (h₃ : ∀ c ∈ b₃, isBlank c) :
    (∀ z, readStatements (assignment b₁ b₂ b₃ ++ '[' :: z) = none) ∨
      ∀ z, readStatements (assignment b₁ b₂ b₃ ++ '[' :: z) =
        (outcome (readItems z)).bind fun x => (skipLineTail false (skipSpace x.2)).bind fun u =>
          (readStatements u).map (.pair ⟨["members"], .array x.1⟩ :: ·) := by
  have he (z : List Char) : assignment b₁ b₂ b₃ ++ '[' :: z =
      b₁ ++ 'm' :: ("embers".toList ++ (b₂ ++ '=' :: (b₃ ++ '[' :: z))) := by simp [assignment]
  rcases gaps_split b₁ with hall | ⟨w, d, r, rfl, hw, hgap⟩
  · have hstart (z : List Char) : readStatements (assignment b₁ b₂ b₃ ++ '[' :: z) =
        (outcome (readPair (assignment [] b₂ b₃ ++ '[' :: z))).bind fun x =>
          (skipLineTail false x.2).bind fun u => (readStatements u).map (.pair x.1 :: ·) := by
      have he' : assignment [] b₂ b₃ ++ '[' :: z =
        'm' :: ("embers".toList ++ (b₂ ++ '=' :: (b₃ ++ '[' :: z))) := by simp [assignment]
      rw [he, readStatements_filler (filler_of_gaps hall), readStatements_eq,
        skipGaps_stop (by decide) (by decide), Option.bind_some, if_neg (by simp),
        outcome_readStatement_pair (by simp), he']
      cases outcome (readPair ('m' :: ("embers".toList ++ (b₂ ++ '=' :: (b₃ ++ '[' :: z))))) <;> rfl
    rcases outcome_readPair_members h₂ h₃ with hnone | hread
    · refine .inl fun z => ?_
      rw [hstart, hnone]
      rfl
    · refine .inr fun z => ?_
      rw [hstart, hread]
      cases outcome (readItems z) <;> rfl
  · refine .inl fun z => ?_
    have hd : isBlank d := h₁ d (by simp)
    have hbare : isBare d = false := by
      rw [← Bool.not_eq_true]
      intro hb
      rw [not_isBlank_of_isBare hb] at hd
      cases hd
    have hne (e : Char) (he : isBlank e = false) : d ≠ e := ne_of_isBlank hd he
    rw [he, List.append_assoc, readStatements_filler (filler_of_gaps hw), List.cons_append,
      readStatements_eq, skipGaps_stop hgap (hne '#' rfl), Option.bind_some, if_neg (by simp),
      outcome_readStatement_pair (by simpa using hne '[' rfl), outcome_readPair,
      outcome_readKey_none hbare ⟨hne _ rfl, hne _ rfl⟩]
    rfl

end Manifest

end WitCaller
