import WitCaller.Proofs.Toml.Values

/-!
The statements of a text that ends at the end of a line, and of any text after it.
-/

namespace WitCaller.Toml
open Reading
variable {c : Char} {s t r p u z g : List Char} {st : Statement} {sts : List Statement} {b : Bool}

theorem readStatements_nil : readStatements [] = some [] := by
  rw [readStatements_eq]
  rfl

theorem outcome_readStatement_arrayTable : outcome (readStatement ('[' :: '[' :: r)) =
    onValue .arrayTable (outcome (readHeaderKey 2 r)) :=
  outcome_map fun _ => ⟨rfl, rfl⟩

theorem outcome_readStatement_table (hr : r.head? ≠ some '[') :
    outcome (readStatement ('[' :: r)) = onValue .table (outcome (readHeaderKey 1 r)) := by
  rw [readStatement.eq_2]
  · exact outcome_map fun _ => ⟨rfl, rfl⟩
  · rintro r' rfl
    exact hr rfl

theorem outcome_readStatement_pair (hs : s.head? ≠ some '[') :
    outcome (readStatement s) = onValue .pair (outcome (readPair s)) := by
  rw [readStatement.eq_3]
  · exact outcome_map fun _ => ⟨rfl, rfl⟩
  · rintro r' rfl
    exact hs rfl
  · rintro r' rfl
    exact hs rfl

theorem readBrackets_eq_some {n : Nat} :
    readBrackets n s = some t ↔ s = List.replicate n ']' ++ t := by
  induction n generalizing s with
  | zero => simp [readBrackets]
  | succ n ih =>
    rcases s with _ | ⟨c, r⟩
    · simp [readBrackets, List.replicate_succ]
    · by_cases hc : c = ']'
      · subst hc
        simp [readBrackets, List.replicate_succ, ih]
      · simp [readBrackets, List.replicate_succ, hc]

theorem readHeaderKey_takes {n : Nat} {ks : List String} (hn : 0 < n)
    (h : outcome (readHeaderKey n s) = some (ks, t)) :
    Takes Inline (fun s => outcome (readHeaderKey n s)) (fun _ => True) ks s t := by
  rw [outcome_readHeaderKey] at h
  obtain ⟨⟨k, t₁⟩, hk, h⟩ := Option.bind_eq_some_iff.1 h
  obtain ⟨t₂, ht, he⟩ := Option.map_eq_some_iff.1 h
  obtain ⟨rfl, rfl⟩ := Prod.mk.inj he
  obtain ⟨p, hs, hp, hr⟩ := readKey_takes hk
  obtain ⟨w, rfl, hw, hskip⟩ := skipSpace_front hs hp.1
  obtain rfl := readBrackets_eq_some.1 ht
  obtain ⟨m, rfl⟩ := Nat.exists_eq_add_one_of_ne_zero (Nat.ne_of_gt hn)
  refine ⟨w ++ (p ++ List.replicate (m + 1) ']'), by simp, .append hw (.append hp.2 ?_), fun t' _ => ?_⟩
  · exact ⟨by simp, by simp⟩
  · have he : w ++ (p ++ List.replicate (m + 1) ']') ++ t' =
        w ++ (p ++ (List.replicate (m + 1) ']' ++ t')) := by simp
    have hkey : outcome (readKey (p ++ (List.replicate (m + 1) ']' ++ t'))) = _ :=
      hr _ (keyEnd_cons (by decide) (by decide) (by decide))
    show outcome (readHeaderKey (m + 1) _) = _
    rw [he, outcome_readHeaderKey, hskip, hkey, Option.bind_some, readBrackets_eq_some.2 rfl]
    rfl

theorem readStatement_takes (h : outcome (readStatement s) = some (st, t)) :
    Takes Ended (fun s => outcome (readStatement s)) (fun _ => True) st s t ∨
      Takes Ended (fun s => outcome (readStatement s)) PairEnd st s t ∧ skipSpace t = t := by
  by_cases hs : s.head? = some '['
  · left
    obtain ⟨r, rfl⟩ := List.head?_eq_some_iff.1 hs
    by_cases hr : r.head? = some '['
    · obtain ⟨r, rfl⟩ := List.head?_eq_some_iff.1 hr
      exact .prepend (u := ['[', '[']) (fun _ => outcome_readStatement_arrayTable)
        (fun _ hp => Ended.append (Inline.ended hp)) h fun _ => readHeaderKey_takes (by decide)
    · rw [outcome_readStatement_table hr] at h
      obtain ⟨ks, hks, rfl⟩ := onValue_eq_some.1 h
      obtain ⟨p, rfl, hp, hread⟩ := readHeaderKey_takes (by decide) hks
      obtain ⟨c, p, rfl⟩ := List.exists_cons_of_ne_nil hp.1
      refine ⟨'[' :: c :: p, rfl, hp.ended.append (s := ['[']), fun t' _ => ?_⟩
      have hr' : (c :: p ++ t').head? ≠ some '[' := hr
      show outcome (readStatement ('[' :: (c :: p ++ t'))) = _
      rw [outcome_readStatement_table hr']
      exact onValue_eq_some.2 ⟨ks, hread t' trivial, rfl⟩
  · right
    rw [outcome_readStatement_pair hs] at h
    obtain ⟨x, hx, rfl⟩ := onValue_eq_some.1 h
    obtain ⟨p, rfl, hp, hread⟩ := readPair_takes hx
    obtain ⟨c, p, rfl⟩ := List.exists_cons_of_ne_nil hp.ne_nil
    refine ⟨⟨c :: p, rfl, hp, fun t' ht => ?_⟩, skipSpace_of_readPair hx⟩
    have hs' : (c :: p ++ t').head? ≠ some '[' := hs
    show outcome (readStatement (c :: p ++ t')) = _
    rw [outcome_readStatement_pair hs']
    exact onValue_eq_some.2 ⟨x, hread t' ht, rfl⟩

/-- What skipping the rest of a line leaves: nothing, or a text that begins with the line end. -/
theorem skipLineTail_split (h : skipLineTail b s = some u) : ∃ w, s = w ++ u ∧ '\n' ∉ w ∧
    (u = [] ∨ ∃ r, u = '\n' :: r) ∧ ∀ r, skipLineTail b (w ++ '\n' :: r) = some ('\n' :: r) := by
  induction s generalizing b with
  | nil =>
    cases h
    exact ⟨[], rfl, List.not_mem_nil, .inl rfl, fun r => by simp [skipLineTail]⟩
  | cons c s ih =>
    by_cases hn : c = '\n'
    · subst hn
      rw [skipLineTail, if_pos rfl] at h
      cases h
      exact ⟨[], rfl, List.not_mem_nil, .inr ⟨s, rfl⟩, fun r => by simp [skipLineTail]⟩
    · -- The character is skipped in the same way wherever the line ends.
      have hstep : ∃ b', ∀ s, skipLineTail b (c :: s) = skipLineTail b' s := by
        simp only [skipLineTail, if_neg hn] at h ⊢
        cases b with
        | true =>
          by_cases hc : isControl c
          · simp only [if_pos hc, if_true] at h
            cases h
          · exact ⟨true, fun s => by simp [hc]⟩
        | false =>
          by_cases hs : isSpace c
          · exact ⟨false, fun s => by simp [hs]⟩
          · by_cases hh : c = '#'
            · exact ⟨true, fun s => by rw [if_neg (by decide), if_neg hs, if_pos hh]⟩
            · simp only [Bool.false_eq_true, if_false, if_neg hs, if_neg hh] at h
              cases h
      obtain ⟨b', hb⟩ := hstep
      rw [hb] at h
      obtain ⟨w, rfl, hw, hu, hr⟩ := ih h
      refine ⟨c :: w, rfl, ?_, hu, fun r => (hb _).trans (hr r)⟩
      rw [List.mem_cons, not_or]
      exact ⟨Ne.symm hn, hw⟩

theorem head_of_skipLineTail (h : skipLineTail false (c :: s) = some u) :
    c = '\n' ∨ isSpace c ∨ c = '#' := by
  by_cases hn : c = '\n'
  · exact .inl hn
  · by_cases hs : isSpace c
    · exact .inr (.inl hs)
    · by_cases hh : c = '#'
      · exact .inr (.inr hh)
      · rw [skipLineTail, if_neg hn, if_neg (by decide), if_neg hs, if_neg hh] at h
        cases h

/-- A text that ends at the end of a line. -/
def LineEnd (s : List Char) : Prop := s = [] ∨ s.getLast? = some '\n'

theorem LineEnd.of_append (h : LineEnd (s ++ t)) : LineEnd t := by
  cases t with
  | nil => exact .inl rfl
  | cons c t =>
    refine .inr ?_
    rcases h with h | h
    · cases s <;> cases h
    · rw [List.getLast?_append] at h
      cases hl : (c :: t).getLast? with
      | none => simp at hl
      | some d =>
        rw [hl] at h
        exact h

theorem not_lineEnd_of_ended (h : Ended p) : ¬ LineEnd p := by
  obtain ⟨c, hc, hn⟩ := h
  rintro (rfl | hl)
  · cases hc
  · rw [hc] at hl
    exact hn (Option.some.inj hl)

theorem LineEnd.mem (h : LineEnd s) (hs : s ≠ []) : '\n' ∈ s :=
  List.mem_of_getLast? (h.resolve_left hs)

theorem LineEnd.eq_concat (h : LineEnd s) : s = [] ∨ ∃ r, s = r ++ ['\n'] :=
  h.imp_right List.getLast?_eq_some_iff.1

theorem skipGaps_lineFeed : skipGaps b ('\n' :: s) = skipGaps false s := by
  cases b with
  | true => exact skipGaps_comment_end
  | false => exact skipGaps_blank (.inr rfl)

/-- Skipping a text that ends at the end of a line leaves no comment open. -/
theorem skipGaps_lineEnd (h : LineEnd u) : Filler false u ∨
    (∃ g c r, u = g ++ c :: r ∧ Filler false g ∧ ∀ s, skipGaps false (u ++ s) = some (c :: (r ++ s))) ∨
    ∀ s, skipGaps false (u ++ s) = none := by
  rcases h.eq_concat with rfl | ⟨u, rfl⟩
  · exact .inl fun _ => rfl
  · simp only [List.append_assoc, List.singleton_append]
    rcases skipGaps_append false u with ⟨b, hb⟩ | ⟨g, c, r, rfl, hg, hs⟩ | hn
    · refine .inl fun s => ?_
      rw [List.append_assoc, List.singleton_append, hb]
      exact skipGaps_lineFeed
    · exact .inr (.inl ⟨g, c, r ++ ['\n'], by simp, hg, fun s => by simpa using hs ('\n' :: s)⟩)
    · exact .inr (.inr fun s => hn _)

/-- What stands after a text begins a line. -/
def OnNewLine (s z : List Char) : Prop := LineEnd s ∨ ∃ r, z = '\n' :: r

theorem readStatements_filler (hg : Filler false g) : readStatements (g ++ s) = readStatements s := by
  rw [readStatements_eq, hg, ← readStatements_eq]

theorem readStatements_lineFeed : readStatements ('\n' :: s) = readStatements s :=
  readStatements_filler (g := ['\n']) fun _ => skipGaps_lineFeed

/-- A text of gaps does not count before what begins a line. -/
theorem skipGaps_onNewLine (h : skipGaps false s = some []) (hz : OnNewLine s z) :
    skipGaps false (s ++ z) = skipGaps false z := by
  rcases hz with hs | ⟨r, rfl⟩
  · rcases skipGaps_lineEnd hs with hg | ⟨g, c, r, -, -, hr⟩ | hn
    · exact hg z
    · have hnil := hr []
      rw [List.append_nil, h] at hnil
      cases hnil
    · have hnil := hn []
      rw [List.append_nil, h] at hnil
      cases hnil
  · rcases skipGaps_append false s with ⟨b, hb⟩ | ⟨g, c, r, -, -, hr⟩ | hn
    · rw [hb, skipGaps_lineFeed, skipGaps_lineFeed]
    · have hnil := hr []
      rw [List.append_nil, h] at hnil
      cases hnil
    · have hnil := hn []
      rw [List.append_nil, h] at hnil
      cases hnil

theorem hard_lineFeed : Hard '\n' := by
  unfold Hard
  decide

theorem hard_hash : Hard '#' := by
  unfold Hard
  decide

theorem OnNewLine.of_append (h : OnNewLine (s ++ t) z) : OnNewLine t z := h.imp_left LineEnd.of_append

theorem OnNewLine.of_inline (h : OnNewLine (p ++ s) z) (hp : Ended p) (hs : '\n' ∉ s) :
    ∃ r, z = '\n' :: r := by
  rcases h with hl | hr
  · by_cases hnil : s = []
    · rw [hnil, List.append_nil] at hl
      exact absurd hl (not_lineEnd_of_ended hp)
    · exact absurd (hl.of_append.mem hnil) hs
  · exact hr

/-- A statement and its line are the same before a text that does not continue the line. -/
theorem readStatement_append (h : outcome (readStatement s) = some (st, t))
    (hu : skipLineTail false t = some u) (hz : OnNewLine s z) :
    outcome (readStatement (s ++ z)) = some (st, t ++ z) ∧
      skipLineTail false (t ++ z) = some (u ++ z) ∧ OnNewLine u z := by
  obtain ⟨w, ht, hw, hend, hr⟩ := skipLineTail_split hu
  have hfront : ∃ p, s = p ++ t ∧ Ended p ∧ (PairEnd (t ++ z) ∨ skipSpace t ≠ t →
      outcome (readStatement (p ++ (t ++ z))) = some (st, t ++ z)) := by
    rcases readStatement_takes h with ⟨p, hs, hp, hread⟩ | ⟨⟨p, hs, hp, hread⟩, hskip⟩
    · exact ⟨p, hs, hp, fun _ => hread _ trivial⟩
    · exact ⟨p, hs, hp, fun hor => hread _ (hor.resolve_right fun hn => hn hskip)⟩
  obtain ⟨p, rfl, hp, hread⟩ := hfront
  have hinline (hnil : u = []) : ∃ r, z = '\n' :: r := by
    rw [hnil, List.append_nil] at ht
    exact hz.of_inline hp (ht ▸ hw)
  refine ⟨?_, ?_, ?_⟩
  · rw [List.append_assoc]
    apply hread
    cases t with
    | nil =>
      obtain ⟨r, rfl⟩ := hinline (List.append_eq_nil_iff.1 ht.symm).2
      exact .inl (pairEnd_cons hard_lineFeed)
    | cons c t =>
      rcases head_of_skipLineTail hu with rfl | hc | rfl
      · exact .inl (pairEnd_cons hard_lineFeed)
      · refine .inr fun hskip => ?_
        rw [head_of_skipSpace hskip] at hc
        cases hc
      · exact .inl (pairEnd_cons hard_hash)
  · rw [ht, List.append_assoc]
    rcases hend with hnil | ⟨r, rfl⟩
    · obtain ⟨r, rfl⟩ := hinline hnil
      rw [hnil]
      exact hr r
    · exact hr (r ++ z)
  · rw [ht] at hz
    exact hz.of_append.of_append

/-- The statements of a text and of another that begins on a line of its own. -/
theorem readStatements_append {s : List Char} {sts : List Statement}
    (h : readStatements s = some sts) (hz : OnNewLine s z) :
    readStatements (s ++ z) = (readStatements z).map (sts ++ ·) := by
  rw [readStatements_eq] at h
  obtain ⟨t, hgap, h⟩ := Option.bind_eq_some_iff.1 h
  by_cases hnil : t = []
  · rw [if_pos hnil] at h
    cases h
    rw [readStatements_eq, skipGaps_onNewLine (hnil ▸ hgap) hz, ← readStatements_eq]
    simp
  · rw [if_neg hnil] at h
    obtain ⟨⟨st, r⟩, hst, h⟩ := Option.bind_eq_some_iff.1 h
    obtain ⟨u, hu, h⟩ := Option.bind_eq_some_iff.1 h
    obtain ⟨sts', hsts, rfl⟩ := Option.map_eq_some_iff.1 h
    have hlt : u.length < s.length := Nat.lt_of_le_of_lt (length_skipLineTail_le hu)
      (Nat.lt_of_lt_of_le (length_lt_of_outcome hst) (length_skipGaps_le hgap))
    obtain ⟨c, t, rfl⟩ := List.exists_cons_of_ne_nil hnil
    obtain ⟨g, hs, hg⟩ := skipGaps_split hgap
    rw [hs] at hz hgap
    rw [hg] at hgap
    obtain ⟨hst', hu', hz'⟩ := readStatement_append hst hu hz.of_append
    have hgap' : skipGaps false (c :: t ++ z) = some (c :: t ++ z) := skipGaps_cons hgap
    rw [hs, List.append_assoc, readStatements_eq, hg, hgap', Option.bind_some, if_neg (by simp), hst',
      Option.bind_some, hu', Option.bind_some, readStatements_append hsts hz']
    cases readStatements z <;> rfl
termination_by s.length
decreasing_by exact hlt

end WitCaller.Toml
