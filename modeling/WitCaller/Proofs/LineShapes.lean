import Mathlib.Data.List.Basic
import WitCaller.Interface.Parser
import WitCaller.Proofs.Blanks
import WitCaller.Proofs.Occurrences

/-!
How the lines of an interface file are taken apart. A line of a body with one colon is a field, and its
name and type stand on the two sides of the colon. What is read off a line is the start of what stands
after the keyword or the colon, so a longer line is not read as the shorter one.
-/

namespace WitCaller

namespace Text
variable {sep c : Char} {a b s : List Char}

theorem splitOn_of_notMem (h : sep ∉ s) : splitOn sep s = [s] := by
  induction s with
  | nil => rfl
  | cons c s ih =>
    rw [splitOn, if_neg (Ne.symm (List.ne_of_not_mem_cons h)), ih (List.not_mem_of_not_mem_cons h)]

theorem splitOn_ne_nil (sep : Char) (s : List Char) : splitOn sep s ≠ [] := by
  cases s with
  | nil => exact List.cons_ne_nil _ _
  | cons c s =>
    rw [splitOn]
    split
    · exact List.cons_ne_nil _ _
    · split <;> exact List.cons_ne_nil _ _

/-- The parts of a text are those before and those after a separator. -/
theorem splitOn_append_cons (sep : Char) (a b : List Char) :
    splitOn sep (a ++ sep :: b) = splitOn sep a ++ splitOn sep b := by
  induction a with
  | nil => exact if_pos rfl
  | cons c a ih =>
    rw [List.cons_append, splitOn, splitOn, ih]
    split
    · rfl
    · obtain ⟨p, ps, hps⟩ := List.exists_cons_of_ne_nil (splitOn_ne_nil sep a)
      rw [hps, List.cons_append, List.cons_append]

/-- A text with one separator consists of the two parts around it. -/
theorem exists_of_count_eq_one (h : s.count sep = 1) : ∃ a b, s = a ++ sep :: b ∧ sep ∉ a ∧ sep ∉ b := by
  have hmem : sep ∈ s := List.count_pos_iff.1 (by omega)
  obtain ⟨a, b, rfl, ha⟩ := List.eq_append_cons_of_mem hmem
  rw [List.count_append, List.count_cons_self, List.count_eq_zero_of_not_mem ha] at h
  exact ⟨a, b, rfl, ha, List.count_eq_zero.1 (by omega)⟩

theorem length_splitOn (sep : Char) (s : List Char) : (splitOn sep s).length = s.count sep + 1 := by
  by_cases hmem : sep ∈ s
  · obtain ⟨a, b, rfl, ha⟩ := List.eq_append_cons_of_mem hmem
    rw [splitOn_append_cons, splitOn_of_notMem ha, List.length_append, length_splitOn sep b,
      List.count_append, List.count_cons_self, List.count_eq_zero_of_not_mem ha, List.length_singleton]
    omega
  · rw [splitOn_of_notMem hmem, List.count_eq_zero_of_not_mem hmem, List.length_singleton]
termination_by s.length
decreasing_by
  subst_vars
  rw [List.length_append, List.length_cons]
  omega

/-- What has no blanks does not start in the blanks before a text. -/
theorem infix_trimLeft {m : List Char} (hm : m.any isBlank = false) (h : m <:+: s) :
    m <:+: trimLeft s := by
  induction s with
  | nil => exact h
  | cons c s ih =>
    cases hc : isBlank c with
    | false =>
      rw [trimLeft_cons hc]
      exact h
    | true =>
      have hmem : c ∉ m := fun hmem => List.any_eq_false.1 hm c hmem hc
      rw [← List.nil_append (c :: s), infix_separated_iff hmem] at h
      rw [trimLeft_cons_blank hc]
      exact h.elim (fun hnil => List.infix_nil.1 hnil ▸ List.nil_infix) ih

end Text

namespace Interface
open Text
variable {keyword : String} {a b s line : List Char} {c : Char}

theorem prefix_dropCommas (s : List Char) : dropCommas s <+: s :=
  List.reverse_suffix.1 (by rw [dropCommas, List.reverse_reverse]; exact List.dropWhile_suffix _)

theorem dropCommas_append_cons (hc : c ≠ ',') : dropCommas (a ++ c :: b) = a ++ c :: dropCommas b := by
  have hreverse : (a ++ c :: b).reverse = b.reverse ++ c :: a.reverse := by simp
  rw [dropCommas, hreverse, (run_append_cons (decide_eq_false hc) _ _).2, dropCommas]
  simp

/-- Only commas are dropped. -/
theorem dropCommas_of_last (h : s.getLast? ≠ some ',') : dropCommas s = s := by
  rcases List.eq_nil_or_concat s with rfl | ⟨init, c, rfl⟩
  · rfl
  · rw [List.concat_eq_append, List.getLast?_concat] at h
    rw [List.concat_eq_append, dropCommas_append_cons fun he => h (congrArg some he)]
    rfl

theorem dropCommas_concat (s : List Char) : dropCommas (s ++ [',']) = dropCommas s := by
  simp [dropCommas]

theorem prefix_dropBrace (s : List Char) : dropBrace s <+: s := by
  unfold dropBrace
  split
  · exact List.dropLast_prefix s
  · exact List.prefix_rfl

theorem dropBrace_append_cons (hc : c ≠ '\x7b') : dropBrace (a ++ c :: b) = a ++ c :: dropBrace b := by
  have hlast : (a ++ c :: b).getLast? = (c :: b).getLast? :=
    List.getLast?_append_of_ne_nil a (List.cons_ne_nil c b)
  cases b with
  | nil =>
    rw [dropBrace, hlast, if_neg (by simpa using hc)]
    rfl
  | cons d b =>
    rw [dropBrace, dropBrace, hlast, List.getLast?_cons_cons]
    split
    · rw [List.dropLast_append_cons, List.dropLast_cons_cons]
    · rfl

/-- Only a brace is dropped. -/
theorem count_dropBrace (hc : c ≠ '\x7b') (s : List Char) : (dropBrace s).count c = s.count c := by
  unfold dropBrace
  split
  · next hlast =>
    obtain ⟨s, rfl⟩ := List.getLast?_eq_some_iff.1 hlast
    rw [List.dropLast_concat, List.count_append, List.count_singleton]
    simp [Ne.symm hc]
  · rfl

theorem bodyLine_field (ha : ':' ∉ a) (hb : ':' ∉ b) : bodyLine (a ++ ':' :: b) =
    .field ⟨String.ofList (trim a), String.ofList (trim (dropCommas (trim b)))⟩ := by
  rw [bodyLine, splitOn_append_cons, splitOn_of_notMem ha, splitOn_of_notMem hb, List.singleton_append]

theorem bodyLine_unrecognised (h : line.count ':' ≠ 1) :
    bodyLine line = .unrecognised (String.ofList line) := by
  have hlength := length_splitOn ':' line
  unfold bodyLine
  split
  · next name type hparts =>
    rw [hparts] at hlength
    exact absurd (Nat.succ.inj hlength).symm h
  · rfl

theorem field?_of_count_ne (h : line.count ':' ≠ 1) : (bodyLine line).field? = none := by
  rw [bodyLine_unrecognised h]
  rfl

theorem field?_of_count_eq (h : line.count ':' = 1) : (bodyLine line).field? ≠ none := by
  obtain ⟨a, b, rfl, ha, hb⟩ := exists_of_count_eq_one h
  rw [bodyLine_field ha hb]
  exact Option.some_ne_none _

theorem drop_keyword (keyword : String) (s : List Char) : (keyword.toList ++ s).drop keyword.length = s := by
  rw [← String.length_toList, List.drop_left]

/-- The type in a field is the start of what stands after the colon. -/
theorem prefix_fieldType (h : a <+: b) : trim (dropCommas (trim a)) <+: trimLeft b :=
  prefix_trim ((prefix_dropCommas _).trans ((prefix_trimRight _).trans (trimLeft_mono h)))

/-- The type in a field with a character that belongs to it. -/
theorem fieldType_append_cons (hc : isBlank c = false) (hcomma : c ≠ ',') :
    ∃ rest, trim (dropCommas (trim (a ++ c :: b))) = trimLeft a ++ c :: rest := by
  rw [trim_append_cons hc, dropCommas_append_cons hcomma, trim_append_cons hc, trimLeft_trimLeft]
  exact ⟨_, rfl⟩

/-- The name in a declaring line is the start of what stands after the keyword. -/
theorem prefix_declaredName (h : line.drop keyword.length <+: b) :
    (declaredName keyword line).toList <+: trimLeft b := by
  rw [declaredName, String.toList_ofList]
  exact prefix_trim ((prefix_dropBrace _).trans ((prefix_trimRight _).trans (trimLeft_mono h)))

theorem infix_declaredName (keyword : String) (line : List Char) :
    (declaredName keyword line).toList <:+: line :=
  (prefix_declaredName List.prefix_rfl).isInfix.trans
    ((trimLeft_suffix _).trans (List.drop_suffix _ line)).isInfix

/-- The name in a declaring line with a character that belongs to it. -/
theorem declaredName_append_cons (hc : isBlank c = false) (hbrace : c ≠ '\x7b')
    (h : line.drop keyword.length = a ++ c :: b) : (declaredName keyword line).toList =
      trimLeft a ++ c :: trimRight (dropBrace (trimRight b)) := by
  rw [declaredName, String.toList_ofList, h, trim_append_cons hc, dropBrace_append_cons hbrace,
    trim_append_cons hc, trimLeft_trimLeft]

/-- Only blanks and a brace are left out of the name in a declaring line. -/
theorem count_declaredName (hc : isBlank c = false) (hbrace : c ≠ '\x7b') :
    (declaredName keyword line).toList.count c = (line.drop keyword.length).count c := by
  rw [declaredName, String.toList_ofList, count_trim hc, count_dropBrace hbrace, count_trim hc]

end Interface

end WitCaller
